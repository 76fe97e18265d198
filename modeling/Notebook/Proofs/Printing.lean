/-
  Formulas that are printed and read again.

  The text of a formula has brackets around every operation but none around what a sign
  negates, and `^` binds more tightly than a sign.  So the text of a power with a negated
  base, `(-a ^ b)`, is read as the negated power; this is all that gets lost.

  * `Formula.Legible`: the numbers and names of a formula that was read (`Derives.legible`),
    and those that its text spells (`Legible.exists_prints`);
  * `Formula.Prints`: the tokens that a formula is printed as; they determine it
    (`Prints.unique`), so no two formulas share a text;
  * `Formula.reread`: the formula that the text of a formula is read as
    (`Legible.ofText_text`);
  * `Formula.reread_eq_iff`: it is the printed one unless a power has a negated base;
  * `Formula.exponents`: the exponents of a formula, one of which a message quotes;
  * `Formula.print_read`: all this for every formula that was read.
-/
import Notebook.Proofs.Spelling
import Notebook.Proofs.Value
import Notebook.Proofs.Written

namespace Notebook.Formula

/-! ## Numbers and names -/

/-- The numbers of a formula. -/
def numbers : Formula → List Float
  | number x => [x]
  | name _ => []
  | negate inner => inner.numbers
  | binary left _ right => left.numbers ++ right.numbers

/-- The numbers of a formula are finite and have no sign, and its names are names. -/
def Legible : Formula → Prop
  | number x => x.toBits.toNat < Binary64.infinityBits
  | name n => Text.isName n
  | negate inner => inner.Legible
  | binary left _ right => left.Legible ∧ right.Legible

/-- What is read is legible, as far as its numbers are finite. -/
theorem Derives.legible {k : Phrase} {ts : List Token} {e : Formula} (h : Derives k ts e)
    (hspelled : ∀ token ∈ ts, ∃ w, Token.Spelling token w)
    (hfinite : ∀ x ∈ e.numbers, x.isFinite) : e.Legible := by
  induction h with
  | sum _ ih | product _ ih | unary _ ih | power _ ih => exact ih hspelled hfinite
  | negate _ ih | affirm _ ih => exact ih (List.forall_mem_cons.1 hspelled).2 hfinite
  | brackets _ ih =>
    rw [List.cons_append, List.forall_mem_cons, List.forall_mem_append] at hspelled
    exact ih hspelled.2.1 hfinite
  | sumOf _ _ _ ihl ihr | productOf _ _ _ ihl ihr | powerOf _ _ ihl ihr =>
    rw [List.forall_mem_append, List.forall_mem_cons] at hspelled
    rw [numbers, List.forall_mem_append] at hfinite
    exact ⟨ihl hspelled.1 hfinite.1, ihr hspelled.2.2 hfinite.2⟩
  | number n =>
    refine lt_of_le_of_ne n.toBits_value_le fun hinfinite => ?_
    have hfinite : n.value.isFinite := hfinite _ (List.mem_singleton_self _)
    rw [← Binary64.ofBits_toBits n.value, hinfinite] at hfinite
    exact absurd hfinite (by decide +kernel)
  | name n =>
    obtain ⟨w, hw⟩ := hspelled (.name n) (List.mem_singleton_self _)
    exact hw.isName

/-! ## Printed tokens -/

/-- `Prints ts e`: the formula `e` is printed as the tokens `ts`. -/
inductive Prints : List Token → Formula → Prop
  | number (n : Numeral) : Prints [.number n] (.number n.value)
  | name (n : Text) : Prints [.name n] (.name n)
  | negate {ts e} : Prints ts e → Prints (.operator .subtract :: ts) (.negate e)
  | binary {op l r a b} : Prints l a → Prints r b →
      Prints (.opening :: l ++ .operator op :: r ++ [.closing]) (.binary a op b)

/-- The text of a formula spells the tokens that it is printed as. -/
theorem Legible.exists_prints {e : Formula} (h : e.Legible) :
    ∃ ts, Prints ts e ∧ Token.Spelled ts e.text := by
  induction e with
  | number x =>
    obtain ⟨n, hn, hvalue⟩ := numberLayout.exists_spelling_write h
    refine ⟨[.number n], hvalue ▸ .number n, ?_⟩
    rw [text, textBefore, List.append_nil]
    exact .singleton (.number hn)
  | name n =>
    refine ⟨[.name n], .name n, ?_⟩
    rw [text, textBefore, List.append_nil]
    obtain ⟨c, w, rfl⟩ := List.exists_cons_of_ne_nil (Text.ne_nil_of_isName h)
    obtain ⟨hc, hw⟩ := Text.isName_cons.1 h
    exact .singleton (.name hc hw)
  | negate inner ih =>
    obtain ⟨ts, hts, hspelled⟩ := ih h
    refine ⟨_, .negate hts, ?_⟩
    rw [text, textBefore]
    exact Token.spelled_cons (.operator .subtract) hspelled
  | binary left op right ihl ihr =>
    obtain ⟨l, hl, hspelledl⟩ := ihl h.1
    obtain ⟨r, hr, hspelledr⟩ := ihr h.2
    refine ⟨_, .binary hl hr, ?_⟩
    have hop : Token.Spelled [.operator op] [' ', op.symbol, ' '] :=
      Token.spelled_gap rfl <| Token.spelled_cons (.operator op) <|
        Token.spelled_gap rfl (.nil (List.forall_mem_nil _))
    have hspelled :=
      ((Token.spelled_cons .opening hspelledl).append hop).append
        (hspelledr.append (.singleton .closing))
    rw [text_binary]
    simpa using hspelled

/-- The tokens of a formula determine it, and where it ends. -/
theorem Prints.append_inj {ts ts' us us' : List Token} {e e' : Formula} (h : Prints ts e)
    (h' : Prints ts' e') (heq : ts ++ us = ts' ++ us') : e = e' ∧ us = us' := by
  induction h generalizing ts' us us' e' with
  | number n =>
    cases h' with
    | number m =>
      obtain ⟨hn, rfl⟩ := List.cons.inj heq
      exact ⟨by rw [Token.number.inj hn], rfl⟩
    | name | negate | binary => simp at heq
  | name n =>
    cases h' with
    | name m =>
      obtain ⟨hn, rfl⟩ := List.cons.inj heq
      exact ⟨by rw [Token.name.inj hn], rfl⟩
    | number | negate | binary => simp at heq
  | negate _ ih =>
    cases h' with
    | negate h' =>
      obtain ⟨rfl, hus⟩ := ih h' (List.cons.inj heq).2
      exact ⟨rfl, hus⟩
    | number | name | binary => simp at heq
  | binary _ _ ihl ihr =>
    cases h' with
    | binary hl hr =>
      simp only [List.cons_append, List.append_assoc, List.cons.injEq, true_and] at heq
      obtain ⟨rfl, heq⟩ := ihl hl heq
      obtain ⟨hop, heq⟩ := List.cons.inj heq
      obtain ⟨rfl, heq⟩ := ihr hr heq
      exact ⟨by rw [Token.operator.inj hop], (List.cons.inj heq).2⟩
    | number | name | negate => simp at heq

theorem Prints.unique {ts : List Token} {e e' : Formula} (h : Prints ts e) (h' : Prints ts e') :
    e = e' :=
  (h.append_inj h' (rfl : ts ++ [] = ts ++ [])).1

/-! ## Printed formulas read again -/

/-- What the text of a formula is read as where `complete` is done to what stands behind its
    signs.  A caret after the text is done to that only, so that the signs of a base end up
    outside of the power. -/
def rereadAs (complete : Formula → Formula) : Formula → Formula
  | number x => complete (.number x)
  | name n => complete (.name n)
  | negate inner => .negate (inner.rereadAs complete)
  | binary left op right =>
    complete <|
      if op = .power then left.rereadAs fun base => .binary base .power (right.rereadAs id)
      else .binary (left.rereadAs id) op (right.rereadAs id)

/-- The formula that the text of a formula is read as. -/
def reread (e : Formula) : Formula := e.rereadAs id

theorem Derives.power_append_nil {ts : List Token} {e : Formula} (h : Derives .primary ts e) :
    Derives .power (ts ++ []) (id e) := by
  rw [List.append_nil]
  exact .power h

/-- The tokens of a formula, with a caret and an exponent after them or nothing, are read
    as its signs before a power or a primary phrase. -/
theorem Prints.derives_as {ts us : List Token} {e : Formula} {complete : Formula → Formula}
    (h : Prints ts e)
    (hcomplete : ∀ vs a, Derives .primary vs a → Derives .power (vs ++ us) (complete a)) :
    Derives .unary (ts ++ us) (e.rereadAs complete) := by
  induction h generalizing us complete with
  | number n => exact .unary (hcomplete _ _ (.number n))
  | name n => exact .unary (hcomplete _ _ (.name n))
  | negate _ ih => exact .negate (ih hcomplete)
  | @binary op l r a b _ _ ihl ihr =>
    have hl : Derives .unary l a.reread := List.append_nil l ▸ ihl fun _ _ => .power_append_nil
    have hr : Derives .unary r b.reread := List.append_nil r ▸ ihr fun _ _ => .power_append_nil
    refine .unary (hcomplete _ _ (.brackets ?_))
    cases op with
    | add => exact .sumOf (.inl rfl) (.sum (.product hl)) (.product hr)
    | subtract => exact .sumOf (.inr rfl) (.sum (.product hl)) (.product hr)
    | multiply => exact .sum (.productOf (.inl rfl) (.product hl) hr)
    | divide => exact .sum (.productOf (.inr rfl) (.product hl) hr)
    | power => exact .sum (.product (ihl fun vs base hbase => .powerOf hbase hr))

theorem Prints.derives {ts : List Token} {e : Formula} (h : Prints ts e) :
    Derives .sum ts e.reread := by
  have hunary := h.derives_as fun _ _ => Derives.power_append_nil
  rw [List.append_nil] at hunary
  exact .sum (.product hunary)

/-- **The text of a formula is read again.** -/
theorem Legible.ofText_text {e : Formula} (h : e.Legible) : ofText e.text = .ok e.reread := by
  obtain ⟨ts, hts, hspelled⟩ := h.exists_prints
  exact ofText_of_spelled hspelled hts.derives

example : (binary (.negate (.name "a")) .power (.name "b")).reread =
    .negate (.binary (.name "a") .power (.name "b")) := rfl

/-- **No two formulas share a text.** -/
theorem Legible.text_inj {e e' : Formula} (h : e.Legible) (h' : e'.Legible)
    (heq : e.text = e'.text) : e = e' := by
  obtain ⟨ts, hts, hspelled⟩ := h.exists_prints
  obtain ⟨ts', hts', hspelled'⟩ := h'.exists_prints
  have htokens := Token.ofText_of_spelled hspelled (separated_of_derives hts.derives)
  rw [heq, Token.ofText_of_spelled hspelled' (separated_of_derives hts'.derives)] at htokens
  subst htokens
  exact hts.unique hts'

/-! ## Negated bases -/

/-- Whether a formula is a sign and what it negates. -/
def isNegate : Formula → Bool
  | negate _ => true
  | number _ | name _ | binary _ _ _ => false

/-- Whether a power has a negated base. -/
def hasNegatedBase : Formula → Bool
  | number _ | name _ => false
  | negate inner => inner.hasNegatedBase
  | binary left op right =>
    op == .power && left.isNegate || left.hasNegatedBase || right.hasNegatedBase

theorem rereadAs_of_not_isNegate {e : Formula} (h : e.isNegate = false)
    (complete : Formula → Formula) : e.rereadAs complete = complete e.reread := by
  cases e with
  | negate => cases h
  | number | name | binary => rfl

theorem reread_power {base : Formula} (h : base.isNegate = false) (exponent : Formula) :
    (binary base .power exponent).reread = .binary base.reread .power exponent.reread :=
  rereadAs_of_not_isNegate h _

theorem reread_binary {op : Operator} (h : op ≠ .power) (left right : Formula) :
    (binary left op right).reread = .binary left.reread op right.reread := by
  rw [reread, rereadAs, if_neg h]
  rfl

theorem reread_eq_iff {e : Formula} : e.reread = e ↔ e.hasNegatedBase = false := by
  induction e with
  | number | name => simp [reread, rereadAs, hasNegatedBase]
  | negate inner ih => simpa [reread, rereadAs, hasNegatedBase] using ih
  | binary left op right ihl ihr =>
    by_cases hop : op = .power
    · subst hop
      cases hbase : left.isNegate with
      | false =>
        rw [reread_power hbase]
        simp [hasNegatedBase, hbase, ihl, ihr]
      | true =>
        cases left with
        | negate base => simp [reread, rereadAs, hasNegatedBase, isNegate]
        | number | name | binary => cases hbase
    · rw [reread_binary hop]
      simp [hasNegatedBase, ihl, ihr, hop]

/-! ## Exponents -/

/-- The exponents of a formula. -/
def exponents : Formula → List Formula
  | number _ | name _ => []
  | negate inner => inner.exponents
  | binary left op right =>
    (if op = .power then [right] else []) ++ left.exponents ++ right.exponents

theorem Legible.of_mem_exponents {e exponent : Formula} (h : e.Legible)
    (hmem : exponent ∈ e.exponents) : exponent.Legible := by
  induction e with
  | number | name => cases hmem
  | negate inner ih => exact ih h hmem
  | binary left op right ihl ihr =>
    simp only [exponents, List.mem_append] at hmem
    rcases hmem with (hmem | hmem) | hmem
    · split at hmem
      · rw [List.mem_singleton.1 hmem]
        exact h.2
      · cases hmem
    · exact ihl h.1 hmem
    · exact ihr h.2 hmem

theorem mem_exponents_left {exponent left : Formula} (h : exponent ∈ left.exponents)
    (op : Operator) (right : Formula) : exponent ∈ (binary left op right).exponents := by
  simp [exponents, h]

theorem mem_exponents_right {exponent right : Formula} (h : exponent ∈ right.exponents)
    (left : Formula) (op : Operator) : exponent ∈ (binary left op right).exponents := by
  simp [exponents, h]

/-- An exponent that is refused is one of the formula, and has an uncertainty. -/
theorem value_eq_inexactExponent {b : Bindings} {e exponent : Formula}
    (h : e.value b = .error (.inexactExponent exponent)) :
    exponent ∈ e.exponents ∧ ∃ m, exponent.value b = .ok m ∧ m.uncertainty != 0 := by
  induction e with
  | number => cases h
  | name n =>
    rw [value] at h
    split at h <;> cases h
  | negate inner ih => exact ih (value_negate_eq_error h)
  | binary left op right ihl ihr =>
    rcases value_binary_eq_error h with h | h | ⟨hfault, rfl, y, hy, huncertain⟩
    · exact (ihl h).imp_left fun hmem => mem_exponents_left hmem op right
    · exact (ihr h).imp_left fun hmem => mem_exponents_right hmem left op
    · obtain rfl : exponent = right := Fault.inexactExponent.inj hfault
      exact ⟨by simp [exponents], y, hy, huncertain⟩

/-! ## Whatever was read -/

theorem legible_of_ofText {t : Text} {e : Formula} (h : ofText t = .ok e)
    (hfinite : ∀ x ∈ e.numbers, x.isFinite) : e.Legible := by
  obtain ⟨ts, hspelled, hd⟩ := ofText_eq_ok_iff.1 h
  exact hd.legible hspelled.exists_spelling hfinite

theorem Legible.ofText_text_eq_iff {e : Formula} (h : e.Legible) :
    ofText e.text = .ok e ↔ e.hasNegatedBase = false := by
  rw [h.ofText_text, Except.ok.injEq, reread_eq_iff]

/-- **Printing a formula that was read loses nothing but the brackets of a negated base.**
    Let the text `t` be read as the formula `e`, with finite numbers.  The text of `e` is
    read again, and it is read as `e` if and only if no power in `e` has a negated base; no
    other formula with finite numbers that some text is read as is printed like `e`; and an
    exponent that the evaluation refuses, whose text the message quotes, is an exponent of
    `e` with an uncertainty, and this text is read as that exponent under the same
    condition on it. -/
theorem print_read {t : Text} {e : Formula} (h : ofText t = .ok e)
    (hfinite : ∀ x ∈ e.numbers, x.isFinite) :
    ofText e.text = .ok e.reread ∧
      (ofText e.text = .ok e ↔ e.hasNegatedBase = false) ∧
      (∀ t' e', ofText t' = .ok e' → (∀ x ∈ e'.numbers, x.isFinite) → e.text = e'.text →
        e = e') ∧
      ∀ bindings limit exponent,
        evaluate bindings limit t = .error (.inexactExponent exponent) →
          exponent ∈ e.exponents ∧
            (∃ m, exponent.value bindings = .ok m ∧ m.uncertainty != 0) ∧
            ofText exponent.text = .ok exponent.reread ∧
            (ofText exponent.text = .ok exponent ↔ exponent.hasNegatedBase = false) := by
  have hlegible := legible_of_ofText h hfinite
  refine ⟨hlegible.ofText_text, hlegible.ofText_text_eq_iff,
    fun t' e' h' hfinite' => hlegible.text_inj (legible_of_ofText h' hfinite'), ?_⟩
  intro bindings limit exponent hfault
  rw [evaluate, h] at hfault
  dsimp only at hfault
  split at hfault
  · cases hfault
  obtain ⟨hmem, huncertain⟩ := value_eq_inexactExponent hfault
  have hexponent := hlegible.of_mem_exponents hmem
  exact ⟨hmem, huncertain, hexponent.ofText_text, hexponent.ofText_text_eq_iff⟩

/-- A negated power is read back. -/
theorem print_read_negated_power :
    let e := negate (.binary (.name "a") .power
      (.binary (.name "b") .divide (.number (Numeral.value ⟨"2", 0⟩))))
    ofText "-a^(b/2)" = .ok e ∧ (∀ x ∈ e.numbers, x.isFinite) ∧ ofText e.text = .ok e := by
  intro e
  have htokens : Token.ofText (Text.trim "-a^(b/2)") =
      [.operator .subtract, .name "a", .operator .power, .opening, .name "b",
        .operator .divide, .number ⟨"2", 0⟩, .closing] := by cbv
  have h : ofText "-a^(b/2)" = .ok e := by
    rw [ofText, htokens]
    rfl
  have hfinite : ∀ x ∈ e.numbers, x.isFinite := by decide +kernel
  obtain ⟨-, hback, -⟩ := print_read h hfinite
  exact ⟨h, hfinite, hback.2 rfl⟩

/-- The base of `(-a)^b` is negated, but what it is printed as is read as a negated
    power. -/
theorem not_print_read_negated_base :
    let e := binary (.negate (.name "a")) .power (.name "b")
    ofText "(-a)^b" = .ok e ∧ (∀ x ∈ e.numbers, x.isFinite) ∧ e.text = "(-a ^ b)".toList ∧
      ofText e.text = .ok (.negate (.binary (.name "a") .power (.name "b"))) ∧
      ofText e.text ≠ .ok e := by
  intro e
  have h : ofText "(-a)^b" = .ok e := by cbv
  have hprinted : ofText e.text = .ok (.negate (.binary (.name "a") .power (.name "b"))) := by
    cbv
  refine ⟨h, List.forall_mem_nil _, rfl, hprinted, ?_⟩
  rw [hprinted]
  exact fun heq => Formula.noConfusion (Except.ok.inj heq)

end Notebook.Formula
