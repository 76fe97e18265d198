/-
  The standard grammar as rules that are tried in order.

  The grammar is written as rules of a parsing expression grammar.  Of a choice the first
  alternative that matches is taken, a repetition takes all that it can, and neither is
  gone back on.  Spaces and tabs may stand between the parts of a rule, but in none of its
  numbers and names.

  * `Formula.Rule`, `Phrase.rule`: the rules, one for each kind of phrase;
  * `Formula.Runs rule t outcome`: what a rule makes of a text, if it matches, or that it
    does not; it has one outcome at most (`Runs.unique`);
  * `Runs.reads`: what a rule takes of a text has the tokens of its phrase;
  * `Derives.succeeds`: a phrase is taken as a whole where nothing follows that it would go
    on with, so no choice made on the way is a wrong one;
  * `ofText_eq_ok_iff_matches`: a text is read as the formula that the rules make of it.
-/
import Notebook.Proofs.Lexical

namespace Notebook

namespace Token

/-! ## The first token -/

/-- A text without the gap that it starts with. -/
def skip (t : Text) : Text := t.dropWhile isGap

theorem ofText_skip (t : Text) : ofText (skip t) = ofText t := by
  have hgap : ∀ c ∈ t.takeWhile isGap, isGap c := fun _ h => List.mem_takeWhile_imp h
  conv_rhs => rw [← List.takeWhile_append_dropWhile (p := isGap) (l := t), ofText_gaps hgap]
  rfl

/-- `First token t rest`: the text `t` starts with the token, and `rest` is what follows. -/
inductive First : Token → Text → Text → Prop
  | symbol {c token} (rest : Text) : symbol? c = some token → First token (c :: rest) rest
  | name {c} (rest : Text) : Text.isNameStart c →
      First (.name (c :: rest.takeWhile Text.isNameChar)) (c :: rest)
        (rest.dropWhile Text.isNameChar)
  | number {n t rest} : Numeral.scan? t = some (n, rest) → First (.number n) t rest

theorem isWord_of_symbol? {c : Char} {token : Token} (h : symbol? c = some token) :
    token.isWord = false := by
  unfold symbol? at h
  split at h <;> cases h <;> rfl

theorem First.ofText_eq {token : Token} {t rest : Text} (h : First token t rest) :
    ofText t = token :: ofText rest := by
  cases h with
  | symbol rest hsymbol =>
    exact ofText_spelling (spelling_of_symbol? hsymbol) fun hword => by
      simp [isWord_of_symbol? hsymbol] at hword
  | @name c rest hc =>
    have hword : Text.isWordChar c := by simp [Text.isWordChar, Text.isNameChar, hc]
    rw [ofText, isGap_of_isWordChar hword, symbol?_of_isWordChar hword, hc]
    rfl
  | @number n t rest hscan =>
    obtain ⟨w, hw, rfl⟩ := Numeral.spelling_of_scan? hscan
    obtain ⟨c, w, rfl, hc, hstart⟩ := numeral_head hw
    rw [List.cons_append] at hscan ⊢
    rw [ofText, isGap_of_isWordChar hc, symbol?_of_isWordChar hc, hstart]
    simp only [Bool.false_eq_true, if_false]
    split <;> simp_all

theorem exists_first {t : Text} {token : Token} {tokens : List Token}
    (h : ofText t = token :: tokens) (hstray : ∀ c, token ≠ .stray c) :
    ∃ rest, First token (skip t) rest ∧ ofText rest = tokens := by
  fun_induction ofText t with
  | case1 => cases h
  | case2 c rest hc ih =>
    obtain ⟨rest', hfirst, hrest⟩ := ih h
    exact ⟨rest', by rwa [skip, List.dropWhile_cons_of_pos hc], hrest⟩
  | case3 c rest hc token' hsymbol =>
    obtain ⟨rfl, rfl⟩ := List.cons.inj h
    exact ⟨rest, by rw [skip, List.dropWhile_cons_of_neg hc]; exact .symbol rest hsymbol, rfl⟩
  | case4 c rest hc hsymbol hname =>
    obtain ⟨rfl, rfl⟩ := List.cons.inj h
    exact ⟨_, by rw [skip, List.dropWhile_cons_of_neg hc]; exact .name rest hname, rfl⟩
  | case5 c rest hc hsymbol hname n left hscan =>
    obtain ⟨rfl, rfl⟩ := List.cons.inj h
    exact ⟨left, by rw [skip, List.dropWhile_cons_of_neg hc]; exact .number hscan, rfl⟩
  | case6 c =>
    obtain ⟨rfl, rfl⟩ := List.cons.inj h
    exact absurd rfl (hstray c)

end Token

namespace Formula

open Token (skip)

/-! ## The rules -/

/-- What a rule leaves of a part: an operator or a sign, or the tree of a phrase. -/
inductive Item where
  | operator (op : Operator)
  | tree (e : Formula)

/-- A rule of the grammar. -/
inductive Rule where
  /-- A token of one character, and what is left of it. -/
  | symbol (token : Token) (items : List Item)
  | number
  | name
  | seq (first second : Rule)
  /-- The first of two rules that matches. -/
  | choice (first second : Rule)
  /-- A rule, or nothing where it does not match. -/
  | optional (rule : Rule)
  /-- A rule as often as it matches. -/
  | many (rule : Rule)
  /-- A rule as often as it matches after a gap. -/
  | more (rule : Rule)
  | phrase (k : Phrase)

/-- The symbol of an operator or a sign. -/
def Rule.operator (op : Operator) : Rule := .symbol (.operator op) [.operator op]

/-- A bracket, of which nothing is left. -/
def Rule.bracket (token : Token) : Rule := .symbol token []

/-- One of two operators, and its right operand. -/
def Rule.operation (op op' : Operator) (j : Phrase) : Rule :=
  .seq (.choice (.operator op) (.operator op')) (.phrase j)

/-- The rule for names: a letter or an underscore, then also figures. -/
def nameRule : Numeral.Rule := .seq (.char Text.isNameStart) (.run Text.isNameChar)

namespace Phrase

/-- The rules of the grammar. -/
def rule : Phrase → Rule
  | sum => .seq (.phrase product) (.many (.operation .add .subtract product))
  | product => .seq (.phrase unary) (.many (.operation .multiply .divide unary))
  | unary => .seq (.many (.choice (.operator .subtract) (.operator .add))) (.phrase power)
  | power => .seq (.phrase primary) (.optional (.seq (.operator .power) (.phrase unary)))
  | primary => .choice .number
      (.choice .name (.seq (.bracket .opening) (.seq (.phrase sum) (.bracket .closing))))

/-- The tree of a left operand and of operators with their right operands. -/
def chain? (e : Formula) : List Item → Option Formula
  | [] => some e
  | .operator op :: .tree b :: items => chain? (.binary e op b) items
  | _ => none

/-- The tree of an operand after its signs. -/
def signed? : List Item → Option Formula
  | [.tree e] => some e
  | .operator .subtract :: items => (signed? items).map .negate
  | .operator .add :: items => signed? items
  | _ => none

/-- The tree that is made of what a rule leaves. -/
def tree? : Phrase → List Item → Option Formula
  | sum, .tree e :: items | product, .tree e :: items => chain? e items
  | unary, items => signed? items
  | power, [.tree e] | primary, [.tree e] => some e
  | power, [.tree a, .operator .power, .tree b] => some (.binary a .power b)
  | _, _ => none

end Phrase

/-- `Runs rule t outcome`: on the text `t` the rule either matches, and its outcome is what
    is left of the parts and of the text, or it does not match. -/
inductive Runs : Rule → Text → Option (List Item × Text) → Prop
  | symbol {c token} (items t) : Token.symbol? c = some token →
      Runs (.symbol token items) (c :: t) (some (items, t))
  | noSymbol {token items t} : (∀ c ∈ t.head?, Token.symbol? c ≠ some token) →
      Runs (.symbol token items) t none
  | number {t w rest x} : t = w ++ rest → Numeral.Rule.number.rest? t = some rest →
      readLiteral? w = some x → Runs .number t (some ([.tree (.number x)], rest))
  | noNumber {t} : Numeral.Rule.number.rest? t = none → Runs .number t none
  | name {t w rest} : t = w ++ rest → nameRule.rest? t = some rest →
      Runs .name t (some ([.tree (.name w)], rest))
  | noName {t} : nameRule.rest? t = none → Runs .name t none
  | seq {a b t u v xs ys} : Runs a t (some (xs, u)) → Runs b (skip u) (some (ys, v)) →
      Runs (.seq a b) t (some (xs ++ ys, v))
  | noFirst {a b t} : Runs a t none → Runs (.seq a b) t none
  | noSecond {a b t u xs} : Runs a t (some (xs, u)) → Runs b (skip u) none →
      Runs (.seq a b) t none
  | choice {a b t r} : Runs a t (some r) → Runs (.choice a b) t (some r)
  | otherwise {a b t o} : Runs a t none → Runs b t o → Runs (.choice a b) t o
  | optional {a t r} : Runs a t (some r) → Runs (.optional a) t (some r)
  | without {a t} : Runs a t none → Runs (.optional a) t (some ([], t))
  | many {a t u v xs ys} : Runs a t (some (xs, u)) → Runs (.more a) u (some (ys, v)) →
      Runs (.many a) t (some (xs ++ ys, v))
  | noMany {a t} : Runs a t none → Runs (.many a) t (some ([], t))
  | more {a t u v xs ys} : Runs a (skip t) (some (xs, u)) → Runs (.more a) u (some (ys, v)) →
      Runs (.more a) t (some (xs ++ ys, v))
  /-- The gap is given back. -/
  | noMore {a t} : Runs a (skip t) none → Runs (.more a) t (some ([], t))
  | phrase {k t u xs e} : Runs k.rule t (some (xs, u)) → k.tree? xs = some e →
      Runs (.phrase k) t (some ([.tree e], u))
  | noPhrase {k t} : Runs k.rule t none → Runs (.phrase k) t none

/-- `Matches t e`: the text `t` is a sum with the tree `e`, from its start to its end. -/
def Matches (t : Text) (e : Formula) : Prop :=
  ∃ rest, Runs (.phrase .sum) (skip t) (some ([.tree e], rest)) ∧ skip rest = []

/-! ## The tokens of a rule -/

/-- `Pieces P tokens items`: tokens and items in pieces, each of which has the
    property `P`. -/
inductive Pieces (P : List Token → List Item → Prop) : List Token → List Item → Prop
  | nil : Pieces P [] []
  | cons {ts us xs ys} : P ts xs → Pieces P us ys → Pieces P (ts ++ us) (xs ++ ys)

/-- `Reads rule tokens items`: the tokens are those of the rule, whatever the order of its
    choices, and the items what is left of them. -/
def Reads : Rule → List Token → List Item → Prop
  | .symbol token items, ts, xs => ts = [token] ∧ xs = items
  | .number, ts, xs => ∃ n : Numeral, ts = [.number n] ∧ xs = [.tree (.number n.value)]
  | .name, ts, xs => ∃ n, ts = [.name n] ∧ xs = [.tree (.name n)]
  | .seq a b, ts, xs => ∃ us vs ys zs, ts = us ++ vs ∧ xs = ys ++ zs ∧ Reads a us ys ∧ Reads b vs zs
  | .choice a b, ts, xs => Reads a ts xs ∨ Reads b ts xs
  | .optional a, ts, xs => Reads a ts xs ∨ ts = [] ∧ xs = []
  | .many a, ts, xs | .more a, ts, xs => Pieces (Reads a) ts xs
  | .phrase k, ts, xs => ∃ e, xs = [.tree e] ∧ Derives k ts e

theorem reads_operation_iff {op op' : Operator} {j : Phrase} {ts : List Token}
    {xs : List Item} :
    Reads (.operation op op' j) ts xs ↔
      ∃ o r b, (o = op ∨ o = op') ∧ ts = .operator o :: r ∧ xs = [.operator o, .tree b] ∧
        Derives j r b := by
  constructor
  · rintro ⟨us, vs, ys, zs, rfl, rfl, hop, b, rfl, hr⟩
    rcases hop with ⟨rfl, rfl⟩ | ⟨rfl, rfl⟩
    · exact ⟨op, vs, b, .inl rfl, rfl, rfl, hr⟩
    · exact ⟨op', vs, b, .inr rfl, rfl, rfl, hr⟩
  · rintro ⟨o, r, b, rfl | rfl, rfl, rfl, hr⟩
    · exact ⟨[_], r, [_], [_], rfl, rfl, .inl ⟨rfl, rfl⟩, b, rfl, hr⟩
    · exact ⟨[_], r, [_], [_], rfl, rfl, .inr ⟨rfl, rfl⟩, b, rfl, hr⟩

/-- Operators with their right operands group to the left. -/
theorem derives_of_chain? {k j : Phrase} {op op' : Operator}
    (hstep : ∀ {o l r a b}, o = op ∨ o = op' → Derives k l a → Derives j r b →
      Derives k (l ++ .operator o :: r) (.binary a o b))
    {ts : List Token} {xs : List Item} (h : Pieces (Reads (.operation op op' j)) ts xs)
    {l : List Token} {a e : Formula} (hl : Derives k l a) (he : Phrase.chain? a xs = some e) :
    Derives k (l ++ ts) e := by
  induction h generalizing l a with
  | nil =>
    obtain rfl := Option.some.inj he
    rwa [List.append_nil]
  | cons hpiece _ ih =>
    obtain ⟨o, r, b, ho, rfl, rfl, hr⟩ := reads_operation_iff.1 hpiece
    rw [← List.append_assoc]
    exact ih (hstep ho hl hr) he

theorem derives_of_signed? {ts us : List Token} {xs ys : List Item} {e : Formula}
    (h : Pieces (Reads (.choice (.operator .subtract) (.operator .add))) ts xs)
    (hpower : Reads (.phrase .power) us ys) (he : Phrase.signed? (xs ++ ys) = some e) :
    Derives .unary (ts ++ us) e := by
  obtain ⟨a, rfl, hpower⟩ := hpower
  induction h generalizing e with
  | nil =>
    obtain rfl := Option.some.inj he
    exact .unary hpower
  | cons hpiece _ ih =>
    rcases hpiece with ⟨rfl, rfl⟩ | ⟨rfl, rfl⟩
    · obtain ⟨b, hb, rfl⟩ := Option.map_eq_some_iff.1 he
      exact .negate (ih hb)
    · exact .affirm (ih he)

/-- What a rule leaves of the tokens of a phrase is made its tree. -/
theorem derives_of_reads {k : Phrase} {ts : List Token} {xs : List Item} {e : Formula}
    (h : Reads k.rule ts xs) (he : k.tree? xs = some e) : Derives k ts e := by
  cases k with
  | sum =>
    obtain ⟨us, vs, ys, zs, rfl, rfl, ⟨a, rfl, ha⟩, hpieces⟩ := h
    exact derives_of_chain? Derives.sumOf hpieces (.sum ha) he
  | product =>
    obtain ⟨us, vs, ys, zs, rfl, rfl, ⟨a, rfl, ha⟩, hpieces⟩ := h
    exact derives_of_chain? Derives.productOf hpieces (.product ha) he
  | unary =>
    obtain ⟨us, vs, ys, zs, rfl, rfl, hsigns, hpower⟩ := h
    exact derives_of_signed? hsigns hpower he
  | power =>
    obtain ⟨us, vs, ys, zs, rfl, rfl, ⟨a, rfl, ha⟩, hexponent | ⟨rfl, rfl⟩⟩ := h
    · obtain ⟨_, r, _, _, rfl, rfl, ⟨rfl, rfl⟩, b, rfl, hr⟩ := hexponent
      obtain rfl := Option.some.inj he
      exact .powerOf ha hr
    · obtain rfl := Option.some.inj he
      rw [List.append_nil]
      exact .power ha
  | primary =>
    rcases h with ⟨n, rfl, rfl⟩ | ⟨n, rfl, rfl⟩ | ⟨us, vs, ys, zs, rfl, rfl, ⟨rfl, rfl⟩, h⟩
    · obtain rfl := Option.some.inj he
      exact .number n
    · obtain rfl := Option.some.inj he
      exact .name n
    · obtain ⟨us, vs, ys, zs, rfl, rfl, ⟨a, rfl, ha⟩, rfl, rfl⟩ := h
      obtain rfl := Option.some.inj he
      exact .brackets ha

theorem Pieces.concat {P : List Token → List Item → Prop} {ts us : List Token}
    {xs ys : List Item} (h : Pieces P ts xs) (hlast : P us ys) :
    Pieces P (ts ++ us) (xs ++ ys) := by
  induction h with
  | nil =>
    have hone := Pieces.cons hlast .nil
    rwa [List.append_nil, List.append_nil] at hone
  | cons hpiece _ ih =>
    rw [List.append_assoc, List.append_assoc]
    exact .cons hpiece ih

theorem chain?_concat {a e : Formula} {xs : List Item} (h : Phrase.chain? a xs = some e)
    (op : Operator) (b : Formula) :
    Phrase.chain? a (xs ++ [.operator op, .tree b]) = some (.binary e op b) := by
  fun_induction Phrase.chain? a xs with
  | case1 =>
    obtain rfl := Option.some.inj h
    rfl
  | case2 _ _ _ _ ih => exact ih h
  | case3 => cases h

/-- The tokens of a phrase are those of its rule, which leaves what its tree is made of. -/
theorem Derives.exists_reads {k : Phrase} {ts : List Token} {e : Formula} (h : Derives k ts e) :
    ∃ xs, Reads k.rule ts xs ∧ k.tree? xs = some e := by
  induction h with
  | sum h | product h =>
    exact ⟨[.tree _], ⟨_, [], [_], [], (List.append_nil _).symm, rfl, ⟨_, rfl, h⟩, .nil⟩, rfl⟩
  | sumOf hop _ hr ih _ | productOf hop _ hr ih _ =>
    obtain ⟨_, ⟨us, vs, _, zs, rfl, rfl, ⟨a, rfl, ha⟩, hpieces⟩, htree⟩ := ih
    have hlast := reads_operation_iff.2 ⟨_, _, _, hop, rfl, rfl, hr⟩
    rw [List.append_assoc]
    exact ⟨_, ⟨us, _, [_], _, rfl, rfl, ⟨a, rfl, ha⟩, hpieces.concat hlast⟩,
      chain?_concat htree _ _⟩
  | unary h => exact ⟨[.tree _], ⟨[], _, [], [_], rfl, rfl, .nil, _, rfl, h⟩, rfl⟩
  | negate _ ih =>
    obtain ⟨_, ⟨us, vs, ys, _, rfl, rfl, hsigns, hpower⟩, htree⟩ := ih
    exact ⟨_, ⟨_, vs, _, _, rfl, rfl, .cons (.inl ⟨rfl, rfl⟩) hsigns, hpower⟩,
      Option.map_eq_some_iff.2 ⟨_, htree, rfl⟩⟩
  | affirm _ ih =>
    obtain ⟨_, ⟨us, vs, ys, _, rfl, rfl, hsigns, hpower⟩, htree⟩ := ih
    exact ⟨_, ⟨_, vs, _, _, rfl, rfl, .cons (.inr ⟨rfl, rfl⟩) hsigns, hpower⟩, htree⟩
  | power h =>
    exact ⟨[.tree _], ⟨_, [], [_], [], (List.append_nil _).symm, rfl, ⟨_, rfl, h⟩,
      .inr ⟨rfl, rfl⟩⟩, rfl⟩
  | @powerOf l r a b hl hr =>
    exact ⟨[.tree a, .operator .power, .tree b], ⟨l, _, [_], [_, _], rfl, rfl, ⟨a, rfl, hl⟩,
      .inl ⟨[_], r, [_], [_], rfl, rfl, ⟨rfl, rfl⟩, b, rfl, hr⟩⟩, rfl⟩
  | number n => exact ⟨[.tree _], .inl ⟨n, rfl, rfl⟩, rfl⟩
  | name n => exact ⟨[.tree _], .inr (.inl ⟨n, rfl, rfl⟩), rfl⟩
  | @brackets ts e h =>
    exact ⟨[.tree e], .inr (.inr ⟨[_], ts ++ [_], [], [_], rfl, rfl, ⟨rfl, rfl⟩, ts, [_], [_], [],
      rfl, rfl, ⟨e, rfl, h⟩, rfl, rfl⟩), rfl⟩

/-! ## What is taken -/

/-- The rule for names takes a name where a text starts with one. -/
theorem rest?_nameRule_iff {t rest : Text} :
    nameRule.rest? t = some rest ↔ ∃ w, t = w ++ rest ∧ Token.First (.name w) t rest := by
  have hname : ∀ {w t rest}, Token.First (.name w) t rest → nameRule.rest? t = some rest := by
    intro w t rest hfirst
    cases hfirst with
    | symbol _ hsymbol => cases Token.isWord_of_symbol? hsymbol
    | name t hc => simp [nameRule, Numeral.Rule.rest?, hc]
  constructor
  · intro h
    cases t with
    | nil => cases h
    | cons c t =>
      by_cases hc : Text.isNameStart c
      · obtain rfl := Option.some.inj ((hname (.name t hc)).symm.trans h)
        exact ⟨_, by rw [List.cons_append, List.takeWhile_append_dropWhile], .name t hc⟩
      · simp [nameRule, Numeral.Rule.rest?, hc] at h
  · rintro ⟨w, -, hfirst⟩
    exact hname hfirst

/-- **What a rule takes of a text has the tokens of the rule.** -/
theorem Runs.reads {rule : Rule} {t rest : Text} {xs : List Item}
    (h : Runs rule t (some (xs, rest))) :
    ∃ ts, Token.ofText t = ts ++ Token.ofText rest ∧ Reads rule ts xs := by
  generalize hout : some (xs, rest) = outcome at h
  induction h generalizing xs rest with
  | symbol items t hsymbol =>
    obtain ⟨rfl, rfl⟩ := Prod.mk.inj (Option.some.inj hout)
    exact ⟨[_], (Token.First.symbol _ hsymbol).ofText_eq, rfl, rfl⟩
  | @number t w u x ht hrest hread =>
    obtain ⟨rfl, rfl⟩ := Prod.mk.inj (Option.some.inj hout)
    obtain ⟨⟨n, u⟩, hscan, rfl⟩ := Option.map_eq_some_iff.1 (Numeral.Rule.rest?_number t ▸ hrest)
    obtain ⟨w', hw', ht'⟩ := Numeral.spelling_of_scan? hscan
    obtain rfl : w = w' := List.append_cancel_right (ht.symm.trans ht')
    obtain rfl := Option.some.inj (hread.symm.trans (Numeral.read_of_spelling hw').2)
    exact ⟨[.number n], (Token.First.number hscan).ofText_eq, n, rfl, rfl⟩
  | @name t w u ht hrest =>
    obtain ⟨rfl, rfl⟩ := Prod.mk.inj (Option.some.inj hout)
    obtain ⟨w', ht', hfirst⟩ := rest?_nameRule_iff.1 hrest
    obtain rfl : w = w' := List.append_cancel_right (ht.symm.trans ht')
    exact ⟨[.name w], hfirst.ofText_eq, w, rfl, rfl⟩
  | seq _ _ iha ihb =>
    obtain ⟨rfl, rfl⟩ := Prod.mk.inj (Option.some.inj hout)
    obtain ⟨us, hus, ha⟩ := iha rfl
    obtain ⟨vs, hvs, hb⟩ := ihb rfl
    rw [Token.ofText_skip] at hvs
    exact ⟨us ++ vs, by rw [hus, hvs, List.append_assoc], us, vs, _, _, rfl, rfl, ha, hb⟩
  | choice _ ih =>
    obtain ⟨ts, hts, h⟩ := ih hout
    exact ⟨ts, hts, .inl h⟩
  | otherwise _ _ _ ih =>
    obtain ⟨ts, hts, h⟩ := ih hout
    exact ⟨ts, hts, .inr h⟩
  | optional _ ih =>
    obtain ⟨ts, hts, h⟩ := ih hout
    exact ⟨ts, hts, .inl h⟩
  | without =>
    obtain ⟨rfl, rfl⟩ := Prod.mk.inj (Option.some.inj hout)
    exact ⟨[], rfl, .inr ⟨rfl, rfl⟩⟩
  | many _ _ iha ihb =>
    obtain ⟨rfl, rfl⟩ := Prod.mk.inj (Option.some.inj hout)
    obtain ⟨us, hus, ha⟩ := iha rfl
    obtain ⟨vs, hvs, hb⟩ := ihb rfl
    exact ⟨us ++ vs, by rw [hus, hvs, List.append_assoc], .cons ha hb⟩
  | more _ _ iha ihb =>
    obtain ⟨rfl, rfl⟩ := Prod.mk.inj (Option.some.inj hout)
    obtain ⟨us, hus, ha⟩ := iha rfl
    obtain ⟨vs, hvs, hb⟩ := ihb rfl
    rw [Token.ofText_skip] at hus
    exact ⟨us ++ vs, by rw [hus, hvs, List.append_assoc], .cons ha hb⟩
  | noMany | noMore =>
    obtain ⟨rfl, rfl⟩ := Prod.mk.inj (Option.some.inj hout)
    exact ⟨[], rfl, .nil⟩
  | phrase _ htree ih =>
    obtain ⟨rfl, rfl⟩ := Prod.mk.inj (Option.some.inj hout)
    obtain ⟨ts, hts, h⟩ := ih rfl
    exact ⟨ts, hts, _, rfl, derives_of_reads h htree⟩
  | noSymbol | noNumber | noName | noFirst | noSecond | noPhrase => cases hout

/-! ## What is taken as a whole -/

/-- `Succeeds rule ends tokens items`: wherever the tokens of a text start with these, and
    what follows has the property `ends`, the rule takes them and leaves the items. -/
def Succeeds (a : Rule) (ends : List Token → Prop) (ts : List Token) (xs : List Item) : Prop :=
  ∀ t us, Token.ofText t = ts ++ us → ends us →
    ∃ rest, Runs a (skip t) (some (xs, rest)) ∧ Token.ofText rest = us

/-- `Fails rule tokens`: the rule does not match a text of these tokens. -/
def Fails (a : Rule) (ts : List Token) : Prop :=
  ∀ t, Token.ofText t = ts → Runs a (skip t) none

theorem succeeds_symbol {c : Char} {token : Token} (hc : Token.symbol? c = some token)
    (items : List Item) (ends : List Token → Prop) :
    Succeeds (.symbol token items) ends [token] items := by
  intro t us ht _
  have hword := Token.isWord_of_symbol? hc
  have hstray : ∀ d, token ≠ .stray d := by
    rintro d rfl
    cases Token.spelling_of_symbol? hc
  obtain ⟨rest, hfirst, hrest⟩ := Token.exists_first ht hstray
  refine ⟨rest, ?_, hrest⟩
  generalize skip t = u at hfirst ⊢
  cases hfirst with
  | symbol rest hsymbol => exact .symbol items rest hsymbol
  | name | number => cases hword

theorem fails_symbol {token : Token} {items : List Item} {ts : List Token}
    (h : ts.head? ≠ some token) : Fails (.symbol token items) ts := by
  rintro t rfl
  refine .noSymbol fun c hc hsymbol => h ?_
  obtain ⟨rest, ht⟩ := List.head?_eq_some_iff.1 hc
  rw [← Token.ofText_skip, ht, (Token.First.symbol rest hsymbol).ofText_eq, List.head?_cons]

theorem succeeds_number (n : Numeral) (ends : List Token → Prop) :
    Succeeds .number ends [.number n] [.tree (.number n.value)] := by
  intro t us ht _
  obtain ⟨rest, hfirst, hrest⟩ := Token.exists_first ht (by simp)
  refine ⟨rest, ?_, hrest⟩
  generalize skip t = u at hfirst ⊢
  cases hfirst with
  | symbol _ hsymbol => cases Token.isWord_of_symbol? hsymbol
  | number hscan =>
    obtain ⟨w, hw, hu⟩ := Numeral.spelling_of_scan? hscan
    exact .number hu (by rw [Numeral.Rule.rest?_number, hscan, Option.map_some])
      (Numeral.read_of_spelling hw).2

theorem fails_number {ts : List Token} (h : ∀ n, ts.head? ≠ some (.number n)) :
    Fails .number ts := by
  rintro t rfl
  refine .noNumber ?_
  rw [Numeral.Rule.rest?_number, Option.map_eq_none_iff]
  refine Option.eq_none_iff_forall_ne_some.2 fun ⟨n, rest⟩ hscan => h n ?_
  rw [← Token.ofText_skip, (Token.First.number hscan).ofText_eq, List.head?_cons]

theorem succeeds_name (n : Text) (ends : List Token → Prop) :
    Succeeds .name ends [.name n] [.tree (.name n)] := by
  intro t us ht _
  obtain ⟨rest, hfirst, hrest⟩ := Token.exists_first ht (by simp)
  refine ⟨rest, ?_, hrest⟩
  generalize skip t = u at hfirst ⊢
  cases hfirst with
  | symbol _ hsymbol => cases Token.isWord_of_symbol? hsymbol
  | @name c u hc =>
    have happend : c :: u = c :: u.takeWhile Text.isNameChar ++ u.dropWhile Text.isNameChar := by
      rw [List.cons_append, List.takeWhile_append_dropWhile]
    exact .name happend (rest?_nameRule_iff.2 ⟨_, happend, .name u hc⟩)

theorem fails_name {ts : List Token} (h : ∀ n, ts.head? ≠ some (.name n)) : Fails .name ts := by
  rintro t rfl
  refine .noName (Option.eq_none_iff_forall_ne_some.2 fun rest hrest => ?_)
  obtain ⟨n, -, hfirst⟩ := rest?_nameRule_iff.1 hrest
  refine h n ?_
  rw [← Token.ofText_skip, hfirst.ofText_eq, List.head?_cons]

section
variable {a b : Rule} {ends next : List Token → Prop} {ts us : List Token} {xs ys : List Item}

theorem Succeeds.seq (ha : Succeeds a next ts xs) (hb : Succeeds b ends us ys)
    (hends : ∀ vs, ends vs → next (us ++ vs)) :
    Succeeds (.seq a b) ends (ts ++ us) (xs ++ ys) := by
  intro t vs ht hvs
  rw [List.append_assoc] at ht
  obtain ⟨u, hrun, hu⟩ := ha t _ ht (hends vs hvs)
  obtain ⟨v, hrun', hv⟩ := hb u vs hu hvs
  exact ⟨v, .seq hrun hrun', hv⟩

theorem Succeeds.choice (ha : Succeeds a ends ts xs) : Succeeds (.choice a b) ends ts xs := by
  intro t vs ht hvs
  obtain ⟨u, hrun, hu⟩ := ha t vs ht hvs
  exact ⟨u, .choice hrun, hu⟩

theorem Succeeds.otherwise (ha : ∀ vs, Fails a (ts ++ vs)) (hb : Succeeds b ends ts xs) :
    Succeeds (.choice a b) ends ts xs := by
  intro t vs ht hvs
  obtain ⟨u, hrun, hu⟩ := hb t vs ht hvs
  exact ⟨u, .otherwise (ha vs t ht) hrun, hu⟩

theorem Succeeds.optional (ha : Succeeds a ends ts xs) : Succeeds (.optional a) ends ts xs := by
  intro t vs ht hvs
  obtain ⟨u, hrun, hu⟩ := ha t vs ht hvs
  exact ⟨u, .optional hrun, hu⟩

theorem succeeds_without (ha : ∀ vs, ends vs → Fails a vs) :
    Succeeds (.optional a) ends [] [] :=
  fun t vs ht hvs => ⟨skip t, .without (ha vs hvs t ht), (Token.ofText_skip t).trans ht⟩

theorem Fails.seq (ha : Fails a ts) : Fails (.seq a b) ts := fun t ht => .noFirst (ha t ht)

theorem Fails.choice (ha : Fails a ts) (hb : Fails b ts) : Fails (.choice a b) ts :=
  fun t ht => .otherwise (ha t ht) (hb t ht)

theorem Pieces.imp {P Q : List Token → List Item → Prop} (h : Pieces P ts xs)
    (hpq : ∀ {us ys}, P us ys → us.length ≤ ts.length → Q us ys) : Pieces Q ts xs := by
  induction h with
  | nil => exact .nil
  | @cons us vs _ _ hpiece _ ih =>
    refine .cons (hpq hpiece (by simp)) (ih fun hpiece hle => hpq hpiece ?_)
    rw [List.length_append]
    omega

/-- Pieces that a rule takes one by one, each where the next one may follow. -/
def Runnable (a : Rule) (next : List Token → Prop) : List Token → List Item → Prop :=
  Pieces fun us ys => Succeeds a next us ys ∧ ∀ vs, next (us ++ vs)

theorem Runnable.next_append (h : Runnable a next ts xs) {vs : List Token} (hvs : next vs) :
    next (ts ++ vs) := by
  cases h with
  | nil => exact hvs
  | cons hpiece => exact List.append_assoc _ _ vs ▸ hpiece.2 _

theorem Runnable.more (h : Runnable a next ts xs) (hends : ∀ vs, ends vs → next vs)
    (hstop : ∀ vs, ends vs → Fails a vs) {t : Text} (ht : Token.ofText t = ts ++ us)
    (hus : ends us) : ∃ rest, Runs (.more a) t (some (xs, rest)) ∧ Token.ofText rest = us := by
  induction h generalizing t with
  | nil => exact ⟨t, .noMore (hstop us hus t ht), ht⟩
  | cons hpiece hpieces ih =>
    rw [List.append_assoc] at ht
    obtain ⟨u, hrun, hu⟩ := hpiece.1 t _ ht (Runnable.next_append hpieces (hends us hus))
    obtain ⟨v, hrun', hv⟩ := ih hu
    exact ⟨v, .more hrun hrun', hv⟩

/-- A repetition takes all its pieces, and stops where no further one starts. -/
theorem Runnable.many (h : Runnable a next ts xs) (hends : ∀ vs, ends vs → next vs)
    (hstop : ∀ vs, ends vs → Fails a vs) : Succeeds (.many a) ends ts xs := by
  intro t vs ht hvs
  cases h with
  | nil => exact ⟨skip t, .noMany (hstop vs hvs t ht), (Token.ofText_skip t).trans ht⟩
  | cons hpiece hpieces =>
    rw [List.append_assoc] at ht
    obtain ⟨u, hrun, hu⟩ := hpiece.1 t _ ht (Runnable.next_append hpieces (hends vs hvs))
    obtain ⟨v, hrun', hv⟩ := Runnable.more hpieces hends hstop hu hvs
    exact ⟨v, .many hrun hrun', hv⟩

end

/-! ## Phrases -/

/-- Whether a phrase may end before the tokens: no operator follows that it would take. -/
def Phrase.Ends (k : Phrase) (ts : List Token) : Prop :=
  ∀ op, ts.head? = some (.operator op) → op.strength < k.strength

theorem Phrase.Ends.mono {j k : Phrase} {ts : List Token} (h : k.Ends ts)
    (hle : k.strength ≤ j.strength) : j.Ends ts :=
  fun op hop => (h op hop).trans_le hle

theorem Phrase.Ends.fails {k : Phrase} {ts : List Token} (h : k.Ends ts) {op : Operator}
    (hop : k.strength ≤ op.strength) : Fails (.operator op) ts :=
  fails_symbol fun hhead => (h op hhead).not_ge hop

theorem Phrase.ends_operator {k : Phrase} {op : Operator} (hop : op.strength < k.strength)
    (ts : List Token) : k.Ends (.operator op :: ts) := by
  rintro _ ⟨⟩
  exact hop

theorem Derives.ends_append {ts : List Token} {e : Formula} (h : Derives .power ts e)
    (us : List Token) : Phrase.sum.Ends (ts ++ us) := by
  have hprimary : ∀ {ts e}, Derives .primary ts e → ∀ us, Phrase.sum.Ends (ts ++ us) := by
    rintro ts e h us op hop
    cases h <;> cases hop
  cases h with
  | power h => exact hprimary h us
  | powerOf h => exact List.append_assoc _ _ us ▸ hprimary h _

theorem symbol?_operator (op : Operator) : Token.symbol? op.symbol = some (.operator op) := by
  cases op <;> rfl

theorem succeeds_operator (op : Operator) (ends : List Token → Prop) :
    Succeeds (.operator op) ends [.operator op] [.operator op] :=
  succeeds_symbol (symbol?_operator op) _ ends

/-- One of two signs or operators is found, whichever of them is tried first. -/
theorem succeeds_either {o op op' : Operator} (ho : o = op ∨ o = op')
    (ends : List Token → Prop) :
    Succeeds (.choice (.operator op) (.operator op')) ends [.operator o] [.operator o] := by
  by_cases heq : o = op
  · exact heq ▸ (succeeds_operator o ends).choice
  · obtain rfl := ho.resolve_left heq
    refine .otherwise (fun vs => fails_symbol fun hhead => heq ?_) (succeeds_operator o ends)
    exact Token.operator.inj (Option.some.inj hhead)

theorem fails_either {op op' : Operator} {ts : List Token}
    (h : ∀ o, o = op ∨ o = op' → Fails (.operator o) ts) :
    Fails (.choice (.operator op) (.operator op')) ts :=
  (h op (.inl rfl)).choice (h op' (.inr rfl))

/-- Operators of one strength are taken with their operands, which bind more tightly. -/
theorem succeeds_chain {k j : Phrase} {op op' : Operator}
    (hop : ∀ o, o = op ∨ o = op' → o.strength = k.strength) (hkj : k.strength < j.strength)
    {ts : List Token} {xs : List Item}
    (h : Reads (.seq (.phrase j) (.many (.operation op op' j))) ts xs)
    (hoperand : ∀ {us e}, Derives j us e → us.length ≤ ts.length →
      Succeeds (.phrase j) j.Ends us [.tree e]) :
    Succeeds (.seq (.phrase j) (.many (.operation op op' j))) k.Ends ts xs := by
  obtain ⟨us, vs, _, zs, rfl, rfl, ⟨a, rfl, ha⟩, hpieces⟩ := h
  rw [List.length_append] at hoperand
  have hchain : Runnable (.operation op op' j) j.Ends vs zs := by
    refine hpieces.imp fun hpiece hle => ?_
    obtain ⟨o, r, b, ho, rfl, rfl, hr⟩ := reads_operation_iff.1 hpiece
    rw [List.length_cons] at hle
    have hright := hoperand hr (by omega)
    exact ⟨(succeeds_either ho fun _ => True).seq hright fun _ _ => trivial,
      fun vs => Phrase.ends_operator ((hop o ho).trans_lt hkj) _⟩
  have hends (vs : List Token) (hvs : k.Ends vs) : j.Ends vs := hvs.mono hkj.le
  refine (hoperand ha (Nat.le_add_right _ _)).seq (hchain.many hends fun vs hvs => ?_)
    fun vs hvs => hchain.next_append (hends vs hvs)
  exact (fails_either fun o ho => hvs.fails (hop o ho).ge).seq

theorem succeeds_rule {k : Phrase} {ts : List Token} {xs : List Item} (h : Reads k.rule ts xs)
    (ih : ∀ {j us e}, Derives j us e →
      us.length < ts.length ∨ us.length ≤ ts.length ∧ j.looseness < k.looseness →
      Succeeds (.phrase j) j.Ends us [.tree e]) : Succeeds k.rule k.Ends ts xs := by
  cases k with
  | sum =>
    have hop : ∀ o, o = .add ∨ o = .subtract → Operator.strength o = 1 := by
      rintro o (rfl | rfl) <;> rfl
    exact succeeds_chain hop (by decide) h fun he hle => ih he (.inr ⟨hle, by decide⟩)
  | product =>
    have hop : ∀ o, o = .multiply ∨ o = .divide → Operator.strength o = 2 := by
      rintro o (rfl | rfl) <;> rfl
    exact succeeds_chain hop (by decide) h fun he hle => ih he (.inr ⟨hle, by decide⟩)
  | unary =>
    obtain ⟨us, vs, ys, zs, rfl, rfl, hsigns, a, rfl, ha⟩ := h
    have hrunnable : Runnable (.choice (.operator .subtract) (.operator .add)) (fun _ => True)
        us ys := by
      refine hsigns.imp fun hpiece _ => ⟨?_, fun _ => trivial⟩
      rcases hpiece with ⟨rfl, rfl⟩ | ⟨rfl, rfl⟩
      · exact succeeds_either (.inl rfl) _
      · exact succeeds_either (.inr rfl) _
    -- no sign stands where the power starts
    have hmany : Succeeds (.many (.choice (.operator .subtract) (.operator .add)))
        Phrase.sum.Ends us ys := hrunnable.many (fun _ _ => trivial) fun vs hvs =>
      fails_either fun o ho => hvs.fails (by rcases ho with rfl | rfl <;> decide)
    exact hmany.seq (ih ha (.inr ⟨by simp, by decide⟩)) fun vs _ => ha.ends_append vs
  | power =>
    have hends (ts : List Token) : Phrase.primary.Ends ts := fun op _ => by cases op <;> decide
    obtain ⟨us, vs, ys, zs, rfl, rfl, ⟨a, rfl, ha⟩, hexponent⟩ := h
    have hbase := ih ha (.inr ⟨by simp, by decide⟩)
    rcases hexponent with hexponent | ⟨rfl, rfl⟩
    · obtain ⟨_, r, _, _, rfl, rfl, ⟨rfl, rfl⟩, b, rfl, hr⟩ := hexponent
      have hlt : r.length < (us ++ ([Token.operator .power] ++ r)).length := by
        simp only [List.length_append, List.length_singleton]
        omega
      have hexponent := (succeeds_operator .power fun _ => True).seq (ih hr (.inl hlt))
        fun _ _ => trivial
      exact hbase.seq hexponent.optional fun _ _ => hends _
    · refine hbase.seq (succeeds_without fun vs hvs => ?_) fun _ _ => hends _
      have hcaret : Fails (.operator .power) vs := hvs.fails (by decide)
      exact hcaret.seq
  | primary =>
    rcases h with ⟨n, rfl, rfl⟩ | ⟨n, rfl, rfl⟩ | ⟨_, _, _, _, rfl, rfl, ⟨rfl, rfl⟩, h⟩
    · exact (succeeds_number n _).choice
    · exact .otherwise (fun vs => fails_number (by simp)) (succeeds_name n _).choice
    · obtain ⟨us, _, _, _, rfl, rfl, ⟨a, rfl, ha⟩, rfl, rfl⟩ := h
      refine .otherwise (fun vs => fails_number (by simp)) <|
        .otherwise (fun vs => fails_name (by simp)) ?_
      have hopening := succeeds_symbol (c := '(') rfl [] fun _ => True
      have hclosing := succeeds_symbol (c := ')') rfl [] Phrase.primary.Ends
      have hlt : us.length < ([Token.opening] ++ (us ++ [Token.closing])).length := by
        simp only [List.length_append, List.length_singleton]
        omega
      have hinside := (ih ha (.inl hlt)).seq hclosing fun vs _ op hop => by cases hop
      exact hopening.seq hinside fun _ _ => trivial

/-- **A phrase is taken as a whole** where no operator follows that it would go on with: the
    rules that are tried before those that it is made of do not match. -/
theorem Derives.succeeds {k : Phrase} {ts : List Token} {e : Formula} (h : Derives k ts e) :
    Succeeds (.phrase k) k.Ends ts [.tree e] := by
  obtain ⟨xs, hreads, htree⟩ := h.exists_reads
  have hrule : Succeeds k.rule k.Ends ts xs := succeeds_rule hreads fun hd _ => hd.succeeds
  intro t us ht hus
  obtain ⟨rest, hrun, hrest⟩ := hrule t us ht hus
  exact ⟨rest, .phrase hrun htree, hrest⟩
termination_by (ts.length, k.looseness)
decreasing_by
  next hlt =>
  rcases hlt with hlt | ⟨hle, hlt⟩
  · exact .left _ _ hlt
  · rcases hle.eq_or_lt with heq | hlt'
    · rw [heq]
      exact .right _ hlt
    · exact .left _ _ hlt'

/-! ## Outcomes -/

/-- A rule has one outcome at most. -/
theorem Runs.unique {rule : Rule} {t : Text} {o o' : Option (List Item × Text)}
    (h : Runs rule t o) (h' : Runs rule t o') : o = o' := by
  induction h generalizing o' with
  | @number t w rest x ht hrest hread =>
    cases h' with
    | number ht' hrest' hread' =>
      obtain rfl := Option.some.inj (hrest.symm.trans hrest')
      obtain rfl := List.append_cancel_right (ht.symm.trans ht')
      rw [Option.some.inj (hread.symm.trans hread')]
    | noNumber hno => cases hrest.symm.trans hno
  | name ht hrest =>
    cases h' with
    | name ht' hrest' =>
      obtain rfl := Option.some.inj (hrest.symm.trans hrest')
      rw [List.append_cancel_right (ht.symm.trans ht')]
    | noName hno => cases hrest.symm.trans hno
  -- elsewhere the parts have one outcome each
  | _ => cases h' <;> grind

/-! ## Whole texts -/

theorem ofText_eq_nil_iff {t : Text} : Token.ofText t = [] ↔ skip t = [] := by
  constructor
  · intro h
    fun_induction Token.ofText t with
    | case1 => rfl
    | case2 c rest hc ih => rw [skip, List.dropWhile_cons_of_pos hc]; exact ih h
    | case3 | case4 | case5 | case6 => cases h
  · intro h
    rw [← Token.ofText_skip, h, Token.ofText]

/-- **A text is read as the formula that the rules make of it**, and as no formula if they
    do not match it from its start to its end. -/
theorem ofText_eq_ok_iff_matches {t : Text} {e : Formula} :
    ofText t = .ok e ↔ Matches (Text.trim t) e := by
  constructor
  · intro h
    have hderives : Derives .sum (Token.ofText (Text.trim t)) e := derives_of_ofTokens h
    have hends : Phrase.sum.Ends [] := fun _ hop => by cases hop
    obtain ⟨rest, hrun, hrest⟩ := hderives.succeeds _ [] (List.append_nil _).symm hends
    exact ⟨rest, hrun, ofText_eq_nil_iff.1 hrest⟩
  · rintro ⟨rest, hrun, hrest⟩
    obtain ⟨ts, hts, _, hitems, hderives⟩ := hrun.reads
    rw [Token.ofText_skip, ofText_eq_nil_iff.2 hrest, List.append_nil] at hts
    obtain ⟨⟩ := hitems
    rw [ofText, hts]
    exact ofTokens_of_derives hderives

end Formula

end Notebook
