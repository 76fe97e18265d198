/-
  A mistyped definition is no formula.

  A line with `±` in it, typed as a plus, a slash and a minus, was meant to be a
  definition.  If it is none, for whatever reason, it may still have the shape
  `name = formula`; but no grammar gives such a formula a value.

  * `Cutting.meaning_of_slash`, `Cutting.meaning_of_plusMinus`: whatever the legacy
    grammar cuts such a text at, one of the pieces is or starts with a slash, and
    in the end an empty piece is found before the slash;
  * `Token.plus_slash_of_spelled`: in the standard grammar a plus and a slash next
    to each other are two operators, which no operand separates;
  * `mistyped_definition_dropped`: such lines are dropped.
-/
import Notebook.Proofs.Cutting
import Notebook.Proofs.Entry
import Notebook.Proofs.Grammar

namespace Notebook

/-- The sign `±` as it is typed. -/
def plusMinus : Text := "+/-"

/-! ## The legacy grammar -/

namespace Cutting

variable {b : Bindings}

theorem operand?_of_slash (hb : b.Named) {t : Text} (h : '/' ∈ t) : operand? b t = none := by
  have hname : ¬ Text.isName t := fun hn => by
    simpa using (by decide : ¬ Text.isNameChar '/') (Text.isNameChar_of_isName hn _ h)
  have hnumber : readExact? t = none := by
    by_contra hx
    obtain ⟨x, hx⟩ := Option.ne_none_iff_exists'.1 hx
    exact absurd (mem_of_readExact? hx _ h) (by decide)
  rw [hb.operand?_eq hname, hnumber]
  rfl

theorem meaning_nil (hb : b.Named) : meaning b [] = .error (.unknownToken []) := by
  have ho : operand? b (Text.trim []) = none := by
    rw [hb.operand?_eq (by decide)]
    rfl
  rw [meaning_eq, ho]
  rfl

/-- A text has no value if one of its halves has none. -/
theorem meaning_of_halves {t l r : Text} {op : Operator} (ho : operand? b (Text.trim t) = none)
    (hh : halves? (Text.trim t) = some (l, op, r))
    (h : (∃ fault, meaning b l = .error fault) ∨ ∃ fault, meaning b r = .error fault) :
    ∃ fault, meaning b t = .error fault := by
  have hbind : meaning b t = do
      let x ← meaning b l
      let y ← meaning b r
      return op.apply x y := by
    rw [meaning_eq, ho, hh]
  rw [hbind]
  cases hl : meaning b l with
  | error fault => exact ⟨fault, rfl⟩
  | ok x =>
    rcases h with ⟨fault, h⟩ | ⟨fault, h⟩
    · rw [hl] at h
      cases h
    · rw [h]
      exact ⟨fault, rfl⟩

/-- **A text that starts with a slash has no value**: wherever it is cut, the left
    half is empty or starts with the slash again. -/
theorem meaning_of_slash (hb : b.Named) {t : Text} (h : (Text.trim t).head? = some '/') :
    ∃ fault, meaning b t = .error fault := by
  induction hn : t.length using Nat.strong_induction_on generalizing t with
  | h n ih =>
    subst hn
    have ho : operand? b (Text.trim t) = none := operand?_of_slash hb (List.mem_of_mem_head? h)
    cases hh : halves? (Text.trim t) with
    | none =>
      rw [meaning_eq, ho, hh]
      exact ⟨_, rfl⟩
    | some p =>
      obtain ⟨l, op, r⟩ := p
      refine meaning_of_halves ho hh (.inl ?_)
      obtain ⟨-, ht⟩ := Text.cutAt?_eq_some_iff.1 (cutAt?_of_halves? hh)
      cases l with
      | nil => exact ⟨_, meaning_nil hb⟩
      | cons c l =>
        obtain rfl : c = '/' := by simpa [ht] using h
        exact ih _ (length_lt_of_halves? hh).1 (by rw [Text.trim_cons (by decide)]; rfl) rfl

theorem head?_trim {c : Char} {t : Text} (hc : Text.isBlank c = false) (h : [c] <+: t) :
    (Text.trim t).head? = some c := by
  obtain ⟨t, rfl⟩ := h
  rw [List.singleton_append, Text.trim_cons hc]
  rfl

/-- The operator a text is cut at, if `±` is in it: a plus, or one that is not a
    part of `±`. -/
theorem add_or_notMem_of_halves? {t l r : Text} {op : Operator} (h : plusMinus <:+: t)
    (hh : halves? t = some (l, op, r)) : op = .add ∨ op.symbol ∉ plusMinus := by
  rw [halves?_eq] at hh
  obtain ⟨op', hop, hh⟩ := Option.bind_eq_some_iff.1 hh
  obtain ⟨p, -, hp⟩ := Option.map_eq_some_iff.1 hh
  obtain rfl : op' = op := (Prod.mk.inj (Prod.mk.inj hp).2).1
  -- a plus is looked for before a slash and a minus
  obtain ⟨-, before, after, hs, hbefore⟩ := operator?_eq_some_iff.1 hop
  have hadd : Operator.add ∉ before := fun hm => hbefore _ hm (h.subset (by decide))
  cases op' with
  | add => exact .inl rfl
  | multiply | power => exact .inr (by decide)
  | divide | subtract =>
    rcases before with _ | ⟨_, _ | ⟨_, before⟩⟩ <;> simp_all [searchOrder]

/-- **A text with `±` in it has no value.**  Where it is cut within `±`, the right
    half starts with the slash; where it is cut elsewhere, one half holds `±`. -/
theorem meaning_of_plusMinus (hb : b.Named) {t : Text} (h : plusMinus <:+: t) :
    ∃ fault, meaning b t = .error fault := by
  induction hn : t.length using Nat.strong_induction_on generalizing t with
  | h n ih =>
    subst hn
    have ht : plusMinus <:+: Text.trim t := Text.infix_trim (by decide) h
    have ho : operand? b (Text.trim t) = none := operand?_of_slash hb (ht.subset (by decide))
    cases hh : halves? (Text.trim t) with
    | none =>
      rw [meaning_eq, ho, hh]
      exact ⟨_, rfl⟩
    | some p =>
      obtain ⟨l, op, r⟩ := p
      have hlt := length_lt_of_halves? hh
      obtain ⟨hl, heq⟩ := Text.cutAt?_eq_some_iff.1 (cutAt?_of_halves? hh)
      refine meaning_of_halves ho hh ?_
      rcases add_or_notMem_of_halves? ht hh with rfl | hop
      · rw [heq] at ht
        rcases Text.infix_after_cut hl ht with hr | hr
        · have hslash : ['/'] <+: r := (List.prefix_append ['/'] ['-']).trans hr
          exact .inr (meaning_of_slash hb (head?_trim (by decide) hslash))
        · exact .inr (ih _ hlt.2 hr rfl)
      · rw [heq] at ht
        exact (Text.infix_or_of_cut hop ht).imp (ih _ hlt.1 · rfl) (ih _ hlt.2 · rfl)

theorem evaluate_of_plusMinus (hb : b.Named) (limit : Nat) {t : Text} (h : plusMinus <:+: t) :
    ∃ fault, evaluate b limit t = .error fault := by
  rcases @value_eq_or b limit limit t with ht | ht
  · exact ⟨_, ht⟩
  · obtain ⟨fault, hfault⟩ := meaning_of_plusMinus hb h
    exact ⟨fault, ht.trans hfault⟩

end Cutting

/-! ## The standard grammar -/

namespace Token

theorem plus_slash_after_figures {f t : Text} (hf : ∀ c ∈ f, Text.isFigure c)
    (h : ['+', '/'] <:+: f ++ t) : ['+', '/'] <:+: t :=
  Text.infix_of_append_run rfl hf h

theorem plus_slash_after_exponent {x t : Text} {e : Int} (hx : Numeral.Exponent x e)
    (h : ['+', '/'] <:+: x ++ t) : ['+', '/'] <:+: t := by
  cases hx with
  | none => exact h
  | @some c sign negative figures hc hs hf =>
    have hletter : ['+', '/'] <:+: sign ++ (figures ++ t) := by
      rw [← List.append_assoc]
      refine Text.infix_of_cons ?_ h
      rcases hc with rfl | rfl <;> decide
    refine plus_slash_after_figures hf.2 ?_
    cases hs with
    | none => exact hletter
    | minus => exact Text.infix_of_cons (by decide) hletter
    | plus =>
      rcases List.infix_cons_iff.1 hletter with hp | hp
      · obtain ⟨d, ds, rfl⟩ := List.exists_cons_of_ne_nil hf.1
        have hd : '/' = d := (List.cons_prefix_cons.1 (List.cons_prefix_cons.1 hp).2).1
        exact absurd (hf.2 d (by simp)) (by subst hd; decide)
      · exact hp

theorem plus_slash_after_numeral {n : Numeral} {w t : Text} (hw : Numeral.Spelling n w)
    (h : ['+', '/'] <:+: w ++ t) : ['+', '/'] <:+: t := by
  have hpoint : ∀ {f t : Text}, (∀ c ∈ f, Text.isFigure c) → ['+', '/'] <:+: '.' :: f ++ t →
      ['+', '/'] <:+: t := fun hf h =>
    plus_slash_after_figures hf (Text.infix_of_cons (by decide) h)
  cases hw with
  | whole hw hx =>
    rw [List.append_assoc] at h
    exact plus_slash_after_exponent hx (plus_slash_after_figures hw.2 h)
  | point hw hf hx =>
    rw [List.append_assoc, List.append_assoc] at h
    exact plus_slash_after_exponent hx (hpoint hf (plus_slash_after_figures hw.2 h))
  | fraction hf hx =>
    rw [List.append_assoc] at h
    exact plus_slash_after_exponent hx (hpoint hf.2 h)

theorem divide_of_spelled {tokens : List Token} {t : Text} (h : Spelled tokens t)
    (ht : ['/'] <+: t) : [operator .divide] <+: tokens := by
  obtain ⟨t, rfl⟩ := ht
  generalize hu : ['/'] ++ t = u at h
  cases h with
  | nil hg =>
    subst hu
    exact absurd (hg '/' (by simp)) (by decide)
  | @cons g w t' token tokens hg hw ht' =>
    cases g with
    | cons c g =>
      obtain ⟨rfl, -⟩ := List.cons.inj hu
      exact absurd (hg '/' (by simp)) (by decide)
    | nil =>
      cases hw with
      | number hn =>
        obtain ⟨c, w, rfl, hc, -⟩ := numeral_head hn
        obtain ⟨rfl, -⟩ := List.cons.inj hu
        exact absurd hc (by decide)
      | name hc =>
        obtain ⟨rfl, -⟩ := List.cons.inj hu
        exact absurd hc (by decide)
      | operator op =>
        obtain ⟨hop, -⟩ := List.cons.inj hu
        obtain rfl : .divide = op := Operator.symbol_injective hop
        exact ⟨tokens, rfl⟩
      | opening | closing => cases hu

/-- **A plus and a slash next to each other are two operators.** -/
theorem plus_slash_of_spelled {tokens : List Token} {t : Text} (h : Spelled tokens t)
    (ht : ['+', '/'] <:+: t) : [operator .add, operator .divide] <:+: tokens := by
  induction h with
  | nil hg => exact absurd (hg '+' (ht.subset (by simp))) (by decide)
  | @cons g w t token tokens hg hw hspelled ih =>
    rw [List.append_assoc] at ht
    have ht := Text.infix_of_append_run rfl hg ht
    have hlater : ['+', '/'] <:+: t → [operator .add, operator .divide] <:+: token :: tokens :=
      fun h => List.infix_cons (ih h)
    cases hw with
    | number hn => exact hlater (plus_slash_after_numeral hn ht)
    | @name c w hc hw =>
      have hname := Text.isNameChar_of_isName (Text.isName_cons.2 ⟨hc, hw⟩)
      exact hlater (Text.infix_of_append_run rfl hname ht)
    | operator op =>
      rcases List.infix_cons_iff.1 ht with hp | hp
      · obtain ⟨hop, hslash⟩ := List.cons_prefix_cons.1 hp
        obtain rfl : .add = op := Operator.symbol_injective hop
        exact (List.cons_prefix_cons.2 ⟨rfl, divide_of_spelled hspelled hslash⟩).isInfix
      · exact hlater hp
    | opening | closing => exact hlater (Text.infix_of_cons (by decide) ht)

end Token

namespace Formula

/-- After a plus, binary or not, comes an operand. -/
theorem not_divide_of_read {p q q' : Progress} {a b : Token} (ha : p.read a = .ok q)
    (hb : q.read b = .ok q') : ¬ (a = .operator .add ∧ b = .operator .divide) := by
  rintro ⟨rfl, rfl⟩
  cases p <;> cases ha <;> cases hb

theorem evaluate_of_plusMinus (b : Bindings) (limit : Nat) {t : Text} (h : plusMinus <:+: t) :
    ∃ fault, evaluate b limit t = .error fault := by
  have ht : ['+', '/'] <:+: Text.trim t :=
    (List.prefix_append ['+', '/'] ['-']).isInfix.trans (Text.infix_trim (by decide) h)
  rw [evaluate]
  cases ho : ofText t with
  | error fault => exact ⟨_, rfl⟩
  | ok e =>
    obtain ⟨tokens, hspelled, hd⟩ := ofText_eq_ok_iff.1 ho
    obtain ⟨us, vs, rfl⟩ := Token.plus_slash_of_spelled hspelled ht
    have hchain := isChain_of_derives not_divide_of_read hd
    rw [List.append_assoc] at hchain
    exact absurd ⟨rfl, rfl⟩ (List.isChain_append_cons_cons.1 hchain).2.1

end Formula

/-! ## Lines -/

theorem evaluateFormula_of_plusMinus (settings : Settings) {b : Bindings} (hb : b.Named)
    {t : Text} (h : plusMinus <:+: t) : ∃ fault, evaluateFormula settings b t = .error fault := by
  unfold evaluateFormula
  cases settings.grammar with
  | legacy => exact Cutting.evaluate_of_plusMinus hb _ h
  | standard => exact Formula.evaluate_of_plusMinus b _ h

/-- `±` in a line that assigns a body to a name is in the body. -/
theorem Entry.Assigns.plusMinus_body {line name body : Text} (h : Assigns line name body)
    (hline : plusMinus <:+: Text.trim line) : plusMinus <:+: body := by
  obtain ⟨hname, g, g', hg, hg', ht⟩ := h
  rw [ht, List.append_assoc, List.append_assoc] at hline
  have hafter := Text.infix_of_append_run rfl hg <|
    Text.infix_of_append_run rfl (Text.isNameChar_of_isName hname) hline
  exact Text.infix_of_append_run rfl hg' (Text.infix_of_cons (by decide) hafter)

/-- **A mistyped definition is dropped.**  A line with `±` in it, if it is neither
    a comment nor a definition, binds nothing, whatever else is in it; for no
    formula with `±` in it has a value. -/
theorem mistyped_definition_dropped (settings : Settings) :
    (∀ document, ∀ o ∈ (evaluate settings document).outcomes.toList,
      plusMinus <:+: Text.trim o.line.text →
      (Text.trim o.line.text).head? ≠ some '#' →
      (∀ name value uncertainty,
        Entry.ofText o.line.text ≠ .definition name value uncertainty) →
      ∃ name fault, o.status = .dropped name fault) ∧
    ∀ (b : Bindings) (t : Text), b.Named → plusMinus <:+: t →
      ∃ fault, evaluateFormula settings b t = .error fault := by
  refine ⟨fun document o ho hline hcomment hdefinition => ?_,
    fun b t hb h => evaluateFormula_of_plusMinus settings hb h⟩
  rw [Evaluation.outcomes_evaluate] at ho
  obtain ⟨above, below, hsplit⟩ := List.append_of_mem ho
  have hb := Bindings.named_above Bindings.named_empty hsplit
  rw [Evaluation.status_of_outcomesOf hsplit]
  rcases Entry.ofText_cases o.line.text with ⟨-, hblank⟩ | hu | ⟨n, body, v, u, -, -, hd⟩ |
    ⟨n, body, ha, -, -, hd⟩
  · rcases hblank with hnil | hhash
    · rw [hnil] at hline
      cases List.eq_nil_of_infix_nil hline
    · exact absurd hhash hcomment
  · rw [hu]
    exact ⟨none, .unrecognized, rfl⟩
  · exact absurd hd (hdefinition n v u)
  · obtain ⟨fault, hfault⟩ :=
      evaluateFormula_of_plusMinus settings hb (ha.plusMinus_body hline)
    rw [hd, Entry.status, hfault]
    exact ⟨some n, fault, rfl⟩

/-- A value with a minus before it makes no definition, and brackets around `±`
    make no formula. -/
theorem dropped_negative_definition :
    (∃ o ∈ (evaluate {} "x = -5 +/- 1").outcomes.toList,
      plusMinus <:+: Text.trim o.line.text ∧
      (Text.trim o.line.text).head? ≠ some '#' ∧
      (∀ name value uncertainty,
        Entry.ofText o.line.text ≠ .definition name value uncertainty) ∧
      ∃ name fault, o.status = .dropped name fault) ∧
    (Bindings.empty.bind "a" (.exact 1)).Named ∧
    plusMinus <:+: "2 * (a +/- 3)" ∧
    ∃ fault, evaluateFormula { grammar := .standard } (Bindings.empty.bind "a" (.exact 1))
      "2 * (a +/- 3)" = .error fault := by
  have hlines : Text.lines "x = -5 +/- 1" = [⟨"x = -5 +/- 1", 1, 0, 12⟩] := by decide
  have hmem : (⟨⟨"x = -5 +/- 1", 1, 0, 12⟩, (Entry.ofText "x = -5 +/- 1").status {} .empty⟩ :
      Outcome) ∈ (evaluate {} "x = -5 +/- 1").outcomes.toList := by
    rw [Evaluation.outcomes_evaluate, hlines]
    exact List.mem_singleton_self _
  have hentry : Entry.ofText "x = -5 +/- 1" = .derivation "x" "-5 +/- 1" := by decide
  have hdefinition : ∀ name value uncertainty,
      Entry.ofText "x = -5 +/- 1" ≠ .definition name value uncertainty := fun _ _ _ h => by
    rw [hentry] at h
    cases h
  have hline : plusMinus <:+: Text.trim "x = -5 +/- 1" := by decide
  have hformula : plusMinus <:+: "2 * (a +/- 3)" := by decide
  have hnamed : (Bindings.empty.bind "a" (.exact 1)).Named :=
    Bindings.named_empty.bind (by decide) _
  exact ⟨⟨_, hmem, hline, by decide, hdefinition,
      (mistyped_definition_dropped {}).1 _ _ hmem hline (by decide) hdefinition⟩,
    hnamed, hformula, (mistyped_definition_dropped { grammar := .standard }).2 _ _ hnamed hformula⟩

end Notebook
