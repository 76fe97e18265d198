/-
  The standard grammar, and the reader that implements it.

  * `Formula.Derives k tokens e`: the tokens are a phrase of the kind `k`, and `e`
    is its tree.  The rules are those of the grammar, one constructor each; sums
    and products group to the left, a power takes a sign and a further power on
    its right;
  * `Formula.Derivable t e`: the text `t` is spelled by the tokens of a sum with
    the tree `e`;
  * `Formula.Derives.leaves`: whatever is pending, the tokens of a phrase leave
    pending parts that bind as tightly as the phrase and complete to its tree;
  * `Formula.Progress.Reads`: what has been read at any time is made up of what
    the pending parts have read, and of the operand read last;
  * `Formula.ofText_iff_derivable`: a text is read as a formula if and only if the
    grammar derives it, which it does in one way at most.
-/
import Notebook.Formula.Value
import Notebook.Proofs.Token

namespace Notebook.Formula

/-! ## The grammar -/

/-- The kinds of phrases, from the loosest to the tightest. -/
inductive Phrase where
  | sum
  | product
  | unary
  | power
  | primary
  deriving DecidableEq

/-- `Derives k tokens e`: the tokens are a phrase of the kind `k` with the
    tree `e`. -/
inductive Derives : Phrase → List Token → Formula → Prop
  | sum {ts e} : Derives .product ts e → Derives .sum ts e
  | sumOf {op l r a b} : op = .add ∨ op = .subtract →
      Derives .sum l a → Derives .product r b →
      Derives .sum (l ++ .operator op :: r) (.binary a op b)
  | product {ts e} : Derives .unary ts e → Derives .product ts e
  | productOf {op l r a b} : op = .multiply ∨ op = .divide →
      Derives .product l a → Derives .unary r b →
      Derives .product (l ++ .operator op :: r) (.binary a op b)
  | unary {ts e} : Derives .power ts e → Derives .unary ts e
  | negate {ts e} : Derives .unary ts e →
      Derives .unary (.operator .subtract :: ts) (.negate e)
  | affirm {ts e} : Derives .unary ts e → Derives .unary (.operator .add :: ts) e
  | power {ts e} : Derives .primary ts e → Derives .power ts e
  | powerOf {l r a b} : Derives .primary l a → Derives .unary r b →
      Derives .power (l ++ .operator .power :: r) (.binary a .power b)
  | number (n : Numeral) : Derives .primary [.number n] (.number n.value)
  | name (n : Text) : Derives .primary [.name n] (.name n)
  | brackets {ts e} : Derives .sum ts e → Derives .primary (.opening :: ts ++ [.closing]) e

/-- `Derivable t e`: the text `t` is a formula with the tree `e`, with spaces and
    tabs anywhere between its tokens. -/
def Derivable (t : Text) (e : Formula) : Prop :=
  ∃ tokens, Token.Spelled tokens t ∧ Derives .sum tokens e

/-! ## Pending parts -/

/-- The operand that pending parts, the last one first, make of the operand
    after them. -/
def completeAll (pending : List Pending) (e : Formula) : Formula :=
  pending.foldl (fun e p => p.complete e) e

theorem settle_append {strength : Nat} {waiting : List Pending}
    (h : ∀ p ∈ waiting, strength ≤ p.strength) (pending : List Pending) (e : Formula) :
    settle strength (waiting ++ pending) e = settle strength pending (completeAll waiting e) := by
  induction waiting generalizing e with
  | nil => rfl
  | cons p waiting ih =>
    rw [List.cons_append, settle, if_pos (h p (by simp)), ih fun q hq => h q (by simp [hq])]
    rfl

theorem settle_of_lt {strength : Nat} {pending : List Pending}
    (h : ∀ p ∈ pending.head?, p.strength < strength) (e : Formula) :
    settle strength pending e = (pending, e) := by
  cases pending with
  | nil => rfl
  | cons p pending => rw [settle, if_neg (by simpa using h p rfl)]

theorem strength_le_three (p : Pending) : p.strength ≤ 3 := by
  cases p with
  | binary left op => cases op <;> simp [Pending.strength, Operator.strength]
  | minus | plus | bracket => decide

/-! ## Phrases are read -/

theorem read_append {p q : Progress} {ts : List Token} (h : ts.foldlM Progress.read p = .ok q)
    (us : List Token) : (ts ++ us).foldlM Progress.read p = us.foldlM Progress.read q := by
  rw [List.foldlM_append, h]
  rfl

theorem read_cons {p q : Progress} {token : Token} (h : p.read token = .ok q)
    (us : List Token) : (token :: us).foldlM Progress.read p = us.foldlM Progress.read q := by
  rw [List.foldlM_cons, h]
  rfl

/-- How tightly all pending parts bind that a phrase leaves. -/
def Phrase.strength : Phrase → Nat
  | sum => 1
  | product => 2
  | unary | power => 3
  | primary => 4

/-- Whether a phrase of some kind can follow pending parts without being taken
    apart by them: a sum or product must not follow what binds as tightly. -/
def Phrase.Follows : Phrase → List Pending → Prop
  | sum, pending => ∀ p ∈ pending.head?, p.strength < 1
  | product, pending => ∀ p ∈ pending.head?, p.strength < 2
  | unary, _ | power, _ | primary, _ => True

/-- The tokens `ts`, wherever a phrase of the kind `k` can follow, leave parts
    that bind as tightly as such a phrase and complete to the formula `e`. -/
def Leaves (k : Phrase) (ts : List Token) (e : Formula) : Prop :=
  ∀ pending, k.Follows pending → ∃ waiting operand,
    ts.foldlM Progress.read (.operand pending) = .ok (.operator (waiting ++ pending) operand) ∧
      (∀ p ∈ waiting, k.strength ≤ p.strength) ∧ completeAll waiting operand = e

theorem leaves_mono {k k' : Phrase} {ts : List Token} {e : Formula} (h : Leaves k ts e)
    (hs : k'.strength ≤ k.strength) (hf : ∀ pending, k'.Follows pending → k.Follows pending) :
    Leaves k' ts e := by
  intro pending hp
  obtain ⟨waiting, operand, hread, htight, hc⟩ := h pending (hf pending hp)
  exact ⟨waiting, operand, hread, fun p hp => hs.trans (htight p hp), hc⟩

/-- A sign, or a left operand with its operator, stays pending below the parts
    that its right operand leaves. -/
theorem leaves_push {k k' : Phrase} (p : Pending) (ts : List Token) {rs : List Token}
    {e : Formula} (hp : k.strength ≤ p.strength) (hs : k.strength ≤ k'.strength)
    (hr : Leaves k' rs e) (hf : ∀ pending, k.Follows pending → k'.Follows (p :: pending))
    (h : ∀ pending, k.Follows pending →
      ts.foldlM Progress.read (.operand pending) = .ok (.operand (p :: pending))) :
    Leaves k (ts ++ rs) (p.complete e) := by
  intro pending hk
  obtain ⟨waiting, operand, hread, htight, hc⟩ := hr (p :: pending) (hf pending hk)
  refine ⟨waiting ++ [p], operand, ?_, ?_, ?_⟩
  · rw [read_append (h pending hk), hread, List.append_assoc, List.singleton_append]
  · intro q hq
    rcases List.mem_append.1 hq with hq | hq
    · exact hs.trans (htight q hq)
    · obtain rfl : q = p := by simpa using hq
      exact hp
  · rw [completeAll, List.foldl_append, ← hc]
    rfl

theorem pushOperator_of_ne {op : Operator} (h : op ≠ .power) (pending : List Pending)
    (e : Formula) :
    pushOperator pending e op =
      .binary (settle op.strength pending e).2 op :: (settle op.strength pending e).1 := by
  cases op with
  | power => contradiction
  | add | subtract | multiply | divide => rfl

/-- The left operand of a sum or product and its operator are one pending part. -/
theorem read_left {k : Phrase} {op : Operator} {l : List Token} {a : Formula}
    (hl : Leaves k l a) (hne : op ≠ .power) (hs : op.strength = k.strength)
    {pending : List Pending} (hf : k.Follows pending)
    (hlt : ∀ p ∈ pending.head?, p.strength < k.strength) :
    (l ++ [Token.operator op]).foldlM Progress.read (.operand pending) =
      .ok (.operand (.binary a op :: pending)) := by
  obtain ⟨waiting, operand, hread, htight, hc⟩ := hl pending hf
  have hsettle : settle op.strength (waiting ++ pending) operand = (pending, a) := by
    rw [hs, settle_append htight, settle_of_lt hlt, hc]
  have hpush : Progress.read (.operator (waiting ++ pending) operand) (.operator op) =
      .ok (.operand (.binary a op :: pending)) := by
    rw [Progress.read, pushOperator_of_ne hne, hsettle]
  rw [read_append hread, read_cons hpush]
  rfl

/-- **Phrases are read**, whatever is pending that they may follow. -/
theorem Derives.leaves {k : Phrase} {ts : List Token} {e : Formula} (h : Derives k ts e) :
    Leaves k ts e := by
  induction h with
  | sum _ ih =>
    exact leaves_mono ih (by decide) fun _ h p hp => (h p hp).trans Nat.one_lt_two
  | product _ ih | unary _ ih | power _ ih => exact leaves_mono ih (by decide) fun _ _ => trivial
  | @sumOf op l r a b hop _ _ ihl ihr =>
    have hs : op.strength = 1 := by rcases hop with rfl | rfl <;> rfl
    have hne : op ≠ .power := by rcases hop with rfl | rfl <;> decide
    rw [List.append_cons]
    refine leaves_push (.binary a op) _ hs.ge (by decide) ihr ?_
      fun pending hf => read_left ihl hne hs hf hf
    rintro pending - p ⟨⟩
    exact hs.trans_lt Nat.one_lt_two
  | @productOf op l r a b hop _ _ ihl ihr =>
    have hs : op.strength = 2 := by rcases hop with rfl | rfl <;> rfl
    have hne : op ≠ .power := by rcases hop with rfl | rfl <;> decide
    rw [List.append_cons]
    exact leaves_push (.binary a op) _ hs.ge (by decide) ihr (fun _ _ => trivial)
      fun pending hf => read_left ihl hne hs hf hf
  | negate _ ih =>
    exact leaves_push .minus [.operator .subtract] le_rfl le_rfl ih (fun _ _ => trivial)
      fun _ _ => rfl
  | affirm _ ih =>
    exact leaves_push .plus [.operator .add] le_rfl le_rfl ih (fun _ _ => trivial)
      fun _ _ => rfl
  | @powerOf l r a b _ _ ihl ihr =>
    rw [List.append_cons]
    refine leaves_push (.binary a .power) _ le_rfl le_rfl ihr (fun _ _ => trivial)
      fun pending _ => ?_
    obtain ⟨waiting, operand, hread, htight, hc⟩ := ihl pending trivial
    have hnil : waiting = [] := by
      refine List.eq_nil_iff_forall_not_mem.2 fun p hp => ?_
      exact absurd ((htight p hp).trans (strength_le_three p)) (by decide)
    subst hnil
    rw [read_append hread, ← hc]
    rfl
  | number n => exact fun pending _ => ⟨[], _, rfl, List.forall_mem_nil _, rfl⟩
  | name n => exact fun pending _ => ⟨[], _, rfl, List.forall_mem_nil _, rfl⟩
  | @brackets ts e _ ih =>
    intro pending _
    have hf : Phrase.sum.Follows (.bracket :: pending) := by
      rintro p ⟨⟩
      decide
    obtain ⟨waiting, operand, hread, htight, hc⟩ := ih _ hf
    have htight' : ∀ p ∈ waiting, 1 ≤ p.strength := htight
    have hsettle : settle 1 (waiting ++ .bracket :: pending) operand =
        (.bracket :: pending, e) := by
      rw [settle_append htight', settle_of_lt hf, hc]
    have hopen : Progress.read (.operand pending) .opening =
        .ok (.operand (.bracket :: pending)) := rfl
    have hclose : Progress.read (.operator (waiting ++ .bracket :: pending) operand) .closing =
        .ok (.operator pending e) := by
      rw [Progress.read, hsettle]
    refine ⟨[], e, ?_, List.forall_mem_nil _, rfl⟩
    rw [List.cons_append, read_cons hopen, read_append hread, read_cons hclose]
    rfl

/-- **The tokens of a sum are read as its tree.** -/
theorem ofTokens_of_derives {ts : List Token} {e : Formula} (h : Derives .sum ts e) :
    ofTokens ts = .ok e := by
  obtain ⟨waiting, operand, hread, htight, hc⟩ := h.leaves [] (by simp [Phrase.Follows])
  have htight' : ∀ p ∈ waiting, 1 ≤ p.strength := htight
  have hsettle : settle 1 (waiting ++ []) operand = ([], e) := by
    rw [settle_append htight', ← hc]
    rfl
  rw [ofTokens, hread]
  show Formula.finish (waiting ++ []) operand = .ok e
  rw [Formula.finish, hsettle]

/-! ## What is read is a phrase -/

/-- How loose a kind of phrase is: each is also one of the next looser kind. -/
def Phrase.looseness : Phrase → Nat
  | primary => 0
  | power => 1
  | unary => 2
  | product => 3
  | sum => 4

/-- The next looser kind. -/
def Phrase.looser : Phrase → Phrase
  | primary => power
  | power => unary
  | unary => product
  | product | sum => sum

theorem Derives.mono {k k' : Phrase} {ts : List Token} {e : Formula} (h : Derives k ts e)
    (hk : k.looseness ≤ k'.looseness) : Derives k' ts e := by
  by_cases heq : k = k'
  · exact heq ▸ h
  have hlooser : Derives k.looser ts e := by
    cases k with
    | sum => exact h
    | product => exact .sum h
    | unary => exact .product h
    | power => exact .unary h
    | primary => exact .power h
  have hlt : k.looser.looseness = k.looseness + 1 ∧ k.looser.looseness ≤ k'.looseness := by
    cases k <;> cases k' <;> simp_all [Phrase.looser, Phrase.looseness]
  exact hlooser.mono hlt.2
termination_by k'.looseness - k.looseness

/-- The kind of phrase that a pending part takes on its right. -/
def rightOf : Pending → Phrase
  | .bracket => .sum
  | .binary _ .add | .binary _ .subtract => .product
  | .binary _ _ | .minus | .plus => .unary

/-- The kind of phrase that a pending part makes up once it is complete. -/
def wholeOf : Pending → Phrase
  | .bracket => .primary
  | .binary _ .add | .binary _ .subtract => .sum
  | .binary _ .multiply | .binary _ .divide => .product
  | .binary _ .power => .power
  | .minus | .plus => .unary

/-- `HasRead p ts`: the tokens `ts` are what the pending part `p` stands for. -/
inductive HasRead : Pending → List Token → Prop
  | bracket : HasRead .bracket [.opening]
  | minus : HasRead .minus [.operator .subtract]
  | plus : HasRead .plus [.operator .add]
  | sumOf {op l a} : op = .add ∨ op = .subtract → Derives .sum l a →
      HasRead (.binary a op) (l ++ [.operator op])
  | productOf {op l a} : op = .multiply ∨ op = .divide → Derives .product l a →
      HasRead (.binary a op) (l ++ [.operator op])
  | powerOf {l a} : Derives .primary l a →
      HasRead (.binary a .power) (l ++ [.operator .power])

/-- `AllRead pending ts`: the tokens `ts` are what all pending parts stand for,
    and each part, once complete, is what the one below it waits for. -/
inductive AllRead : List Pending → List Token → Prop
  | nil : AllRead [] []
  | cons {p pending ts us} : AllRead pending ts → HasRead p us →
      (∀ q ∈ pending.head?, (wholeOf p).looseness ≤ (rightOf q).looseness) →
      AllRead (p :: pending) (ts ++ us)

theorem HasRead.complete {p : Pending} {ts us : List Token} {e : Formula} (h : HasRead p ts)
    (hp : p ≠ .bracket) (he : Derives (rightOf p) us e) :
    Derives (wholeOf p) (ts ++ us) (p.complete e) := by
  cases h with
  | bracket => contradiction
  | minus => exact .negate he
  | plus => exact .affirm he
  | sumOf hop hl =>
    rw [List.append_assoc, List.singleton_append]
    rcases hop with rfl | rfl
    · exact .sumOf (.inl rfl) hl he
    · exact .sumOf (.inr rfl) hl he
  | productOf hop hl =>
    rw [List.append_assoc, List.singleton_append]
    rcases hop with rfl | rfl
    · exact .productOf (.inl rfl) hl he
    · exact .productOf (.inr rfl) hl he
  | powerOf hl =>
    rw [List.append_assoc, List.singleton_append]
    exact .powerOf hl he

/-- Settling keeps what has been read: the parts it completes go into a phrase,
    and those that stay bind less tightly. -/
theorem AllRead.settled {strength : Nat} {k : Phrase} (hpos : 1 ≤ strength)
    (hwhole : ∀ p : Pending, strength ≤ p.strength → (wholeOf p).looseness ≤ k.looseness)
    {pending : List Pending} {ts : List Token} (h : AllRead pending ts) {j : Phrase}
    {us : List Token} {e : Formula} (he : Derives j us e) (hj : j.looseness ≤ k.looseness)
    (hq : ∀ q ∈ pending.head?, j.looseness ≤ (rightOf q).looseness) :
    ∃ ts' us', ts ++ us = ts' ++ us' ∧ AllRead (settle strength pending e).1 ts' ∧
      Derives k us' (settle strength pending e).2 ∧
      ∀ q ∈ (settle strength pending e).1.head?, q.strength < strength := by
  induction h generalizing j us e with
  | nil => exact ⟨[], us, rfl, .nil, he.mono hj, by simp [Formula.settle]⟩
  | @cons p pending ts vs hts hp hhead ih =>
    rw [Formula.settle]
    split
    · next hle =>
      have hne : p ≠ .bracket := by
        rintro rfl
        exact absurd (hpos.trans hle) (by decide)
      obtain ⟨ts', us', heq, hrest⟩ :=
        ih (hp.complete hne (he.mono (hq p rfl))) (hwhole p hle) hhead
      exact ⟨ts', us', by rw [List.append_assoc, heq], hrest⟩
    · next hlt =>
      refine ⟨ts ++ vs, us, rfl, .cons hts hp hhead, he.mono hj, ?_⟩
      rintro q ⟨⟩
      omega

theorem whole_le_right {op : Operator} (hop : op ≠ .power) {a : Formula} {q : Pending}
    (h : q.strength < op.strength) :
    (wholeOf (.binary a op)).looseness ≤ (rightOf q).looseness := by
  cases q with
  | binary b op' =>
    cases op <;> cases op' <;> simp_all [Pending.strength, Operator.strength, wholeOf, rightOf,
      Phrase.looseness]
  | minus | plus | bracket =>
    cases op <;> simp_all [Pending.strength, Operator.strength, wholeOf, rightOf,
      Phrase.looseness]

theorem le_right {k : Phrase} (hk : k.looseness ≤ 2) (q : Pending) :
    k.looseness ≤ (rightOf q).looseness := by
  refine hk.trans ?_
  cases q with
  | binary b op => cases op <;> simp [rightOf, Phrase.looseness]
  | minus | plus | bracket => decide

/-- `Reads p ts`: reading the tokens `ts` has come as far as `p`.  Where an
    operator is next, the tokens are those of the pending parts and of a primary. -/
def Progress.Reads : Progress → List Token → Prop
  | .operand pending, ts => AllRead pending ts
  | .operator pending e, ts =>
    ∃ us vs, ts = us ++ vs ∧ AllRead pending us ∧ Derives .primary vs e

theorem AllRead.settled_one {pending : List Pending} {us vs : List Token} {e : Formula}
    (h : AllRead pending us) (he : Derives .primary vs e) :
    ∃ ts' us', us ++ vs = ts' ++ us' ∧ AllRead (settle 1 pending e).1 ts' ∧
      Derives .sum us' (settle 1 pending e).2 := by
  obtain ⟨ts', us', heq, hread, hsum, -⟩ := h.settled (k := .sum) le_rfl
    (fun p _ => by cases wholeOf p <;> decide) he (by decide) fun _ _ => Nat.zero_le _
  exact ⟨ts', us', heq, hread, hsum⟩

theorem AllRead.pushed {op : Operator} {pending : List Pending} {us vs : List Token}
    {e : Formula} (h : AllRead pending us) (he : Derives .primary vs e) :
    AllRead (pushOperator pending e op) (us ++ vs ++ [.operator op]) := by
  by_cases hop : op = .power
  · subst hop
    rw [List.append_assoc]
    have hpower : (wholeOf (.binary e .power)).looseness ≤ 2 := Nat.le_succ 1
    exact .cons h (.powerOf he) fun q _ => le_right hpower q
  have hwhole : ∀ p : Pending, op.strength ≤ p.strength →
      (wholeOf p).looseness ≤ (wholeOf (.binary e op)).looseness := by
    rintro (⟨b, op'⟩ | _ | _ | _) hle
    · cases op <;> cases op' <;> simp_all [Pending.strength, Operator.strength, wholeOf,
        Phrase.looseness]
    all_goals cases op <;> simp_all [Pending.strength, Operator.strength, wholeOf,
      Phrase.looseness]
  obtain ⟨ts', us', heq, hread, hleft, hlt⟩ := h.settled (by cases op <;> decide) hwhole he
    (Nat.zero_le _) fun _ _ => Nat.zero_le _
  rw [pushOperator_of_ne hop, heq, List.append_assoc]
  refine .cons hread ?_ fun q hq => whole_le_right hop (hlt q hq)
  cases op with
  | add => exact .sumOf (.inl rfl) hleft
  | subtract => exact .sumOf (.inr rfl) hleft
  | multiply => exact .productOf (.inl rfl) hleft
  | divide => exact .productOf (.inr rfl) hleft
  | power => contradiction

/-- One more token is read into the pending parts or becomes the operand. -/
theorem Progress.Reads.read {p q : Progress} {ts : List Token} {token : Token}
    (h : p.Reads ts) (hr : p.read token = .ok q) : q.Reads (ts ++ [token]) := by
  cases p with
  | operand pending =>
    cases token with
    | number n =>
      cases hr
      exact ⟨ts, [.number n], rfl, h, .number n⟩
    | name n =>
      cases hr
      exact ⟨ts, [.name n], rfl, h, .name n⟩
    | opening =>
      cases hr
      exact .cons h .bracket fun q _ => Nat.zero_le _
    | operator op =>
      cases op with
      | add =>
        cases hr
        exact .cons h .plus fun q _ => le_right le_rfl q
      | subtract =>
        cases hr
        exact .cons h .minus fun q _ => le_right le_rfl q
      | multiply | divide | power => cases hr
    | closing | stray c => cases hr
  | operator pending e =>
    obtain ⟨us, vs, rfl, hus, hvs⟩ := h
    cases token with
    | operator op =>
      cases hr
      exact hus.pushed hvs
    | closing =>
      obtain ⟨ts', us', heq, hread, hsum⟩ := hus.settled_one hvs
      rw [Progress.read] at hr
      split at hr
      · next pending' e' hs =>
        cases hr
        rw [hs] at hread hsum
        cases hread with
        | @cons p pending ts ws hts hp hhead =>
          cases hp
          refine ⟨ts, .opening :: us' ++ [.closing], ?_, hts, .brackets hsum⟩
          rw [heq]
          simp
      · cases hr
    | number n | name n | opening | stray c => cases hr

/-- **What is read is a phrase**, all along a list of tokens. -/
theorem Progress.Reads.readAll {p q : Progress} {ts us : List Token} (h : p.Reads ts)
    (hr : us.foldlM Progress.read p = .ok q) : q.Reads (ts ++ us) := by
  induction us generalizing p ts with
  | nil =>
    cases hr
    rwa [List.append_nil]
  | cons token us ih =>
    cases hread : p.read token with
    | error fault =>
      rw [List.foldlM_cons, hread] at hr
      cases hr
    | ok p' =>
      rw [read_cons hread] at hr
      rw [List.append_cons]
      exact ih (h.read hread) hr

/-- **The tokens that are read as a formula are a sum with this tree.** -/
theorem derives_of_ofTokens {ts : List Token} {e : Formula} (h : ofTokens ts = .ok e) :
    Derives .sum ts e := by
  rw [ofTokens] at h
  cases hr : ts.foldlM Progress.read (.operand []) with
  | error fault =>
    rw [hr] at h
    cases h
  | ok q =>
    rw [hr] at h
    have hreads := Progress.Reads.readAll (p := .operand []) AllRead.nil hr
    cases q with
    | operand pending => cases h
    | operator pending operand =>
      obtain ⟨us, vs, heq, hus, hvs⟩ := hreads
      obtain ⟨ts', us', heq', hread, hsum⟩ := hus.settled_one hvs
      have hfinish : Formula.finish pending operand = .ok e := h
      rw [Formula.finish] at hfinish
      split at hfinish
      · next e' hs =>
        cases hfinish
        rw [hs] at hread hsum
        cases hread
        rw [List.nil_append] at heq heq'
        rwa [heq, heq']
      · cases hfinish

/-! ## Texts -/

/-- An operator comes after a number or a name, so that no two are neighbours. -/
theorem not_isWord_of_read {p q q' : Progress} {a b : Token} (ha : p.read a = .ok q)
    (hb : q.read b = .ok q') : ¬ (a.isWord ∧ b.isWord) := by
  rintro ⟨hwa, hwb⟩
  cases p with
  | operand pending =>
    cases a with
    | number n | name n =>
      cases ha
      cases b with
      | number m | name m => cases hb
      | operator | opening | closing | stray => simp [Token.isWord] at hwb
    | operator | opening | closing | stray => simp [Token.isWord] at hwa
  | operator pending e =>
    cases a with
    | number n | name n => cases ha
    | operator | opening | closing | stray => simp [Token.isWord] at hwa

/-- What holds of any two tokens that are read one after the other holds of all
    neighbours. -/
theorem isChain_of_read {R : Token → Token → Prop}
    (hR : ∀ {p q q' : Progress} {a b}, p.read a = .ok q → q.read b = .ok q' → R a b)
    {p q : Progress} {ts : List Token} (h : ts.foldlM Progress.read p = .ok q) :
    ts.IsChain R := by
  induction ts generalizing p with
  | nil => exact .nil
  | cons a ts ih =>
    cases ha : p.read a with
    | error fault =>
      rw [List.foldlM_cons, ha] at h
      cases h
    | ok p' =>
      rw [read_cons ha] at h
      refine List.isChain_cons.2 ⟨fun b hb => ?_, ih h⟩
      cases ts with
      | nil => cases hb
      | cons b us =>
        cases hb
        cases hread : p'.read b with
        | error fault =>
          rw [List.foldlM_cons, hread] at h
          cases h
        | ok p'' => exact hR ha hread

theorem stray_notMem_of_derives {k : Phrase} {ts : List Token} {e : Formula}
    (h : Derives k ts e) (c : Char) : Token.stray c ∉ ts := by
  induction h with
  | sum _ ih | product _ ih | unary _ ih | power _ ih => exact ih
  | sumOf _ _ _ ihl ihr | productOf _ _ _ ihl ihr | powerOf _ _ ihl ihr => simp [ihl, ihr]
  | negate _ ih | affirm _ ih | brackets _ ih => simp [ih]
  | number | name => simp

theorem isChain_of_derives {R : Token → Token → Prop}
    (hR : ∀ {p q q' : Progress} {a b}, p.read a = .ok q → q.read b = .ok q' → R a b)
    {ts : List Token} {e : Formula} (h : Derives .sum ts e) : ts.IsChain R := by
  obtain ⟨waiting, operand, hread, -⟩ := h.leaves [] (by simp [Phrase.Follows])
  exact isChain_of_read hR hread

theorem separated_of_derives {ts : List Token} {e : Formula} (h : Derives .sum ts e) :
    Token.Separated ts :=
  isChain_of_derives not_isWord_of_read h

/-- A text is read as a formula if and only if it can be derived. -/
theorem ofText_eq_ok_iff {t : Text} {e : Formula} :
    ofText t = .ok e ↔ Derivable (Text.trim t) e := by
  constructor
  · intro h
    have hd := derives_of_ofTokens h
    exact ⟨_, Token.spelled_ofText (stray_notMem_of_derives hd), hd⟩
  · rintro ⟨tokens, hspelled, hd⟩
    rw [ofText, Token.ofText_of_spelled hspelled (separated_of_derives hd)]
    exact ofTokens_of_derives hd

/-- **The reader of formulas implements the grammar**: a text is read as the
    formula `e` if and only if it derives `e` once it is trimmed, all of it; it
    derives one formula at most; and a text that derives none is malformed. -/
theorem ofText_iff_derivable (t : Text) :
    (∀ e, ofText t = .ok e ↔ Derivable (Text.trim t) e) ∧
      (∀ e e', Derivable (Text.trim t) e → Derivable (Text.trim t) e' → e = e') ∧
      ((∀ e, ¬ Derivable (Text.trim t) e) ↔ ∃ fault, ofText t = .error fault) ∧
      ((∀ e, ¬ Derivable (Text.trim t) e) → ∃ fault, ∀ bindings limit,
        evaluate bindings limit t = .error (.malformed fault)) := by
  have hnone : (∀ e, ¬ Derivable (Text.trim t) e) ↔ ∃ fault, ofText t = .error fault := by
    simp only [← ofText_eq_ok_iff]
    cases ofText t with
    | error fault => simp
    | ok e => simp
  refine ⟨fun e => ofText_eq_ok_iff, fun e e' h h' => ?_, hnone, fun h => ?_⟩
  · rw [← ofText_eq_ok_iff] at h h'
    exact Except.ok.inj (h.symm.trans h')
  · obtain ⟨fault, hfault⟩ := hnone.1 h
    exact ⟨fault, fun bindings limit => by rw [evaluate, hfault]⟩

/-- Signs stand before a power and after its caret; one tree is all they derive. -/
theorem ofText_of_signs :
    ofText "-a^ -b " =
        .ok (.negate (.binary (.name "a") .power (.negate (.name "b")))) ∧
      ∀ e, Derivable (Text.trim "-a^ -b ") e →
        e = .negate (.binary (.name "a") .power (.negate (.name "b"))) := by
  obtain ⟨hiff, hunique, -⟩ := ofText_iff_derivable "-a^ -b "
  have hname : ∀ c, Text.isNameStart c → Token.Spelling (.name [c]) [c] := fun c hc =>
    .name hc (List.forall_mem_nil _)
  have htrim : Text.trim "-a^ -b " = "-a^ -b" := by decide
  have hspelled : Token.Spelled
      [.operator .subtract, .name "a", .operator .power, .operator .subtract, .name "b"]
      (Text.trim "-a^ -b ") := by
    rw [htrim]
    exact Token.spelled_cons (.operator .subtract) <| Token.spelled_cons (hname 'a' rfl) <|
      Token.spelled_cons (.operator .power) <| Token.spelled_gap rfl <|
      Token.spelled_cons (.operator .subtract) <| Token.spelled_cons (hname 'b' rfl) <|
      .nil (List.forall_mem_nil _)
  have hderives : Derivable (Text.trim "-a^ -b ") _ :=
    ⟨_, hspelled, .sum <| .product <| .negate <| .unary <|
      .powerOf (.name "a") (.negate (.unary (.power (.name "b"))))⟩
  exact ⟨(hiff _).2 hderives, fun e he => hunique _ _ he hderives⟩

end Notebook.Formula
