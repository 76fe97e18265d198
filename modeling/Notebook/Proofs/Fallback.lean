/-
  The warnings about literals.

  A literal is a run of figures and points, and not every such run is a number.  One that
  is none is read as zero, and a warning says so; no other literal is warned about, and
  each is read as the number that it spells.

  * `Literal.isMalformed`, `Literal.isMalformed_iff`: a literal without a figure or with
    more than one point, and no other, spells no number;
  * `Literal.ReadAs`: what a literal is read as;
  * `Evaluation.Warns`: the warnings that lines call for, by their shapes;
  * `Evaluation.fallbacks_exact`: these warnings are given, in this order and no others.
-/
import Notebook.Proofs.Numeral
import Notebook.Proofs.Shape

namespace Notebook

/-! ## Numbers among the literals -/

namespace Literal

/-- Whether a literal is no number: there is no figure in it, or more than one point. -/
def isMalformed (l : Literal) : Bool := !l.text.any Text.isFigure || 1 < l.text.count '.'

theorem isFigure_of_ne_point {c : Char} (h : isLiteralChar c) (hc : c ≠ '.') :
    Text.isFigure c := by
  simpa [isLiteralChar, hc] using h

theorem count_point_of_figures {t : Text} (h : ∀ c ∈ t, Text.isFigure c) : t.count '.' = 0 :=
  List.count_eq_zero.2 fun hmem => absurd (h '.' hmem) (by decide)

theorem figures_of_point_notMem {t : Text} (h : ∀ c ∈ t, isLiteralChar c) (hpoint : '.' ∉ t) :
    ∀ c ∈ t, Text.isFigure c :=
  fun c hc => isFigure_of_ne_point (h c hc) fun heq => hpoint (heq ▸ hc)

theorem exponent_eq_nil {x : Text} {e : Int} (h : Numeral.Exponent x e)
    (hx : ∀ c ∈ x, isLiteralChar c) : x = [] := by
  cases h with
  | none => rfl
  | some hletter =>
    have hc := hx _ List.mem_cons_self
    rcases hletter with rfl | rfl <;> exact absurd hc (by decide)

/-- **A run of figures and points spells a number** exactly if there is a figure in it,
    and no second point. -/
theorem exists_spelling_iff {t : Text} (ht : ∀ c ∈ t, isLiteralChar c) :
    (∃ n, Numeral.Spelling n t) ↔ (∃ c ∈ t, Text.isFigure c) ∧ t.count '.' ≤ 1 := by
  constructor
  · rintro ⟨n, h⟩
    cases h with
    | @whole w x e hw hx =>
      obtain ⟨c, hc⟩ := List.exists_mem_of_ne_nil w hw.1
      obtain rfl := exponent_eq_nil hx (List.forall_mem_append.1 ht).2
      exact ⟨⟨c, by simp [hc], hw.2 c hc⟩, by simp [count_point_of_figures hw.2]⟩
    | @point w f x e hw hf hx =>
      obtain ⟨c, hc⟩ := List.exists_mem_of_ne_nil w hw.1
      obtain rfl := exponent_eq_nil hx (List.forall_mem_append.1 ht).2
      exact ⟨⟨c, by simp [hc], hw.2 c hc⟩,
        by simp [count_point_of_figures hw.2, count_point_of_figures hf]⟩
    | @fraction f x e hf hx =>
      obtain ⟨c, hc⟩ := List.exists_mem_of_ne_nil f hf.1
      obtain rfl := exponent_eq_nil hx (List.forall_mem_append.1 ht).2
      exact ⟨⟨c, by simp [hc], hf.2 c hc⟩, by simp [count_point_of_figures hf.2]⟩
  · rintro ⟨⟨d, hd, hfigure⟩, hcount⟩
    cases hcut : Text.cutAt? '.' t with
    | none =>
      have hfigures := figures_of_point_notMem ht (Text.cutAt?_eq_none_iff.1 hcut)
      have h := Numeral.Spelling.whole ⟨List.ne_nil_of_mem hd, hfigures⟩ .none
      exact ⟨_, List.append_nil t ▸ h⟩
    | some pieces =>
      obtain ⟨w, f⟩ := pieces
      obtain ⟨hw, rfl⟩ := Text.cutAt?_eq_some_iff.1 hcut
      obtain ⟨htw, htf⟩ := List.forall_mem_append.1 ht
      have hf : '.' ∉ f := by
        rw [List.count_append, List.count_cons_self] at hcount
        exact List.count_eq_zero.1 (by omega)
      have hwhole := figures_of_point_notMem htw hw
      have hfraction := figures_of_point_notMem (List.forall_mem_cons.1 htf).2 hf
      by_cases hnil : w = []
      · subst hnil
        have hmem : d ∈ f := by
          rcases List.mem_cons.1 hd with rfl | hd
          · exact absurd hfigure (by decide)
          · exact hd
        have h := Numeral.Spelling.fraction ⟨List.ne_nil_of_mem hmem, hfraction⟩ .none
        exact ⟨_, List.append_nil ('.' :: f) ▸ h⟩
      · have h := Numeral.Spelling.point ⟨hnil, hwhole⟩ hfraction .none
        exact ⟨_, List.append_nil (w ++ '.' :: f) ▸ h⟩

theorem isWordChar_of_isLiteralChar {c : Char} (h : isLiteralChar c) : Text.isWordChar c := by
  simp only [isLiteralChar, Bool.or_eq_true, beq_iff_eq] at h
  rcases h with h | rfl
  · exact Numeral.isWordChar_of_isFigure h
  · decide

theorem toLower_of_isLiteralChar {c : Char} (h : isLiteralChar c) : c.toLower = c := by
  have hnine : c ≤ '9' := by
    simp only [isLiteralChar, Text.isFigure, Bool.or_eq_true, Bool.and_eq_true, decide_eq_true_eq,
      beq_iff_eq] at h
    rcases h with h | rfl
    · exact h.2
    · decide
  have hupper : ¬ 'A'.val ≤ c.val := fun hupper =>
    absurd (show 'A'.val ≤ '9'.val from UInt32.le_trans hupper hnine) (by decide)
  exact dif_neg fun h => hupper h.1

/-- No literal is a word for a number: each of these has an `n` in it. -/
theorem literalWord?_eq_none {t : Text} (ht : ∀ c ∈ t, isLiteralChar c) :
    literalWord? t = none := by
  have hlower : t.map Char.toLower = t :=
    (List.map_congr_left fun c hc => toLower_of_isLiteralChar (ht c hc)).trans (List.map_id t)
  have hne : ∀ w : Text, 'n' ∈ w → t ≠ w := fun w hw heq =>
    absurd (ht 'n' (heq ▸ hw)) (by decide)
  rw [literalWord?, hlower]
  simp only [hne "nan" (by decide), hne "inf" (by decide), hne "infinity" (by decide), if_false,
    or_self]

/-- `ReadAs l x`: the literal is read as the double `x`. -/
inductive ReadAs (l : Literal) : Float → Prop
  /-- What is malformed is read as zero. -/
  | zero : l.isMalformed → ReadAs l 0
  /-- What is not is parsed, as the numeral that it spells. -/
  | number {n} : ¬ l.isMalformed → Numeral.Spelling n l.text →
    readLiteral? l.text = some n.value → ReadAs l n.value

theorem ReadAs.eq_zero {l : Literal} {x : Float} (h : l.ReadAs x) (hl : l.isMalformed) : x = 0 := by
  cases h with
  | zero => rfl
  | number hne => exact absurd hl hne

variable {l : Literal} (hl : Entry.IsLiteral l.text)
include hl

/-- **A literal is read as a numeral**, without a sign and not as a word. -/
theorem number?_eq : l.number? = (Numeral.read? l.text).map Numeral.value := by
  have hsign : Numeral.takeSign l.text = (false, l.text) := by
    obtain ⟨c, t, ht⟩ := List.exists_cons_of_ne_nil hl.1
    rw [ht]
    exact Numeral.takeSign_of_isWordChar (isWordChar_of_isLiteralChar (hl.2 c (by simp [ht]))) t
  rw [number?, readLiteral?, readSigned?, hsign]
  simp only [literalWord?_eq_none hl.2, Option.none_or, Bool.false_eq_true, if_false,
    Option.map_id_fun', id_eq]

theorem isMalformed_iff : l.isMalformed ↔ ¬ ∃ n, Numeral.Spelling n l.text := by
  rw [exists_spelling_iff hl.2, isMalformed, Bool.or_eq_true, not_and_or, Bool.not_eq_true',
    List.any_eq_false, decide_eq_true_eq, Nat.not_le]
  simp

theorem readAs_value : l.ReadAs l.value := by
  rw [value, number?_eq hl]
  cases hread : Numeral.read? l.text with
  | some n =>
    have hn : Numeral.Spelling n l.text := Numeral.read?_eq_some_iff.1 hread
    refine .number (fun h => (isMalformed_iff hl).1 h ⟨n, hn⟩) hn ?_
    rw [← number?, number?_eq hl, hread]
    rfl
  | none =>
    refine .zero ((isMalformed_iff hl).2 ?_)
    rintro ⟨n, hn⟩
    rw [Numeral.read?_eq_some_iff.2 hn] at hread
    cases hread

theorem isFallback_eq : l.isFallback = l.isMalformed := by
  rw [isFallback, number?_eq hl, Option.isNone_map, Bool.eq_iff_iff, isMalformed_iff hl,
    Option.isNone_iff_eq_none, Option.eq_none_iff_forall_not_mem, not_exists]
  simp only [Option.mem_def, Numeral.read?_eq_some_iff]

end Literal

/-! ## The warnings of an evaluation -/

/-- The warning about a literal of a line that gives it to a name, if there is one. -/
def Literal.warning (l : Literal) (span : Span) (name : Text) : List Fallback :=
  if l.isMalformed then [⟨span, name, l.text⟩] else []

theorem Entry.fallbacks_of_defines {line name : Text} {value uncertainty : Literal}
    (h : Defines line name value.text uncertainty.text) (span : Span) :
    (ofText line).fallbacks span = value.warning span name ++ uncertainty.warning span name := by
  rw [ofText_eq_definition_iff.2 h, fallbacks]
  obtain ⟨body, -, hm⟩ := h
  simp only [List.filter_cons, List.filter_nil, Literal.isFallback_eq hm.isLiteral_value,
    Literal.isFallback_eq hm.isLiteral_uncertainty, Literal.warning]
  cases value.isMalformed <;> cases uncertainty.isMalformed <;> rfl

theorem Entry.fallbacks_of_not_defines {line : Text} (h : ∀ n v u, ¬ Defines line n v u)
    (span : Span) : (ofText line).fallbacks span = [] := by
  cases hentry : ofText line with
  | definition name value uncertainty =>
    exact absurd (ofText_eq_definition_iff.1 hentry) (h _ _ _)
  | blank | derivation | unrecognized => rfl

namespace Evaluation

/-- `Warns lines fallbacks`: these warnings are called for by the lines, from the top.  A
    line that types a measurement in calls for one about each literal that is malformed,
    the value before the uncertainty; no other line calls for any. -/
inductive Warns : List Line → List Fallback → Prop
  | nil : Warns [] []
  | definition {line lines fallbacks name} {value uncertainty : Literal} :
    Entry.Defines line.text name value.text uncertainty.text → Warns lines fallbacks →
    Warns (line :: lines)
      (value.warning line.span name ++ uncertainty.warning line.span name ++ fallbacks)
  | other {line lines fallbacks} : (∀ n v u, ¬ Entry.Defines line.text n v u) →
    Warns lines fallbacks → Warns (line :: lines) fallbacks

theorem warns_iff {lines : List Line} {fallbacks : List Fallback} :
    Warns lines fallbacks ↔ fallbacksOf lines = fallbacks := by
  constructor
  · intro h
    induction h with
    | nil => rfl
    | @definition line lines _ _ _ _ hdefines _ ih =>
      rw [← ih, ← Entry.fallbacks_of_defines hdefines]
      rfl
    | @other line lines _ hother _ ih =>
      rw [← ih, fallbacksOf, List.flatMap_cons, Entry.fallbacks_of_not_defines hother]
      rfl
  · rintro rfl
    induction lines with
    | nil => exact .nil
    | cons line lines ih =>
      rw [fallbacksOf, List.flatMap_cons, ← fallbacksOf]
      by_cases h : ∃ n v u, Entry.Defines line.text n v u
      · obtain ⟨name, v, u, h⟩ := h
        have hdefines : Entry.Defines line.text name (⟨v⟩ : Literal).text (⟨u⟩ : Literal).text := h
        rw [Entry.fallbacks_of_defines hdefines]
        exact .definition hdefines ih
      · simp only [not_exists] at h
        rw [Entry.fallbacks_of_not_defines h]
        exact .other h ih

/-- **The warnings are exact.**  They are about the literals without a figure or with more
    than one point, in the lines that type a measurement in, from the top and the value
    before the uncertainty; there is one for each such literal, with the place of the
    line, the name and the text, and there are no others.  Each such line binds its name
    all the same, with zero for what is malformed and the number that is spelled for what
    is not. -/
theorem fallbacks_exact (settings : Settings) (document : Text) :
    let e := evaluate settings document
    (∀ fallbacks, e.fallbacks.toList = fallbacks ↔ Warns (Text.lines document) fallbacks) ∧
      e.outcomes.toList.map Outcome.line = Text.lines document ∧
      ∀ o ∈ e.outcomes.toList, ∀ name, ∀ value uncertainty : Literal,
        Entry.Defines o.line.text name value.text uncertainty.text →
        ∃ m, o.status = .defined name m ∧ value.ReadAs m.value ∧
          uncertainty.ReadAs m.uncertainty := by
  intro e
  refine ⟨fun fallbacks => ?_, map_line_evaluate settings document, ?_⟩
  · rw [warns_iff, fallbacks_evaluate]
  · intro o ho name value uncertainty hdefines
    obtain ⟨above, below, hsplit⟩ := List.append_of_mem ho
    have hstatus := status_of_outcomesOf ((outcomes_evaluate settings document).symm.trans hsplit)
    rw [Entry.ofText_eq_definition_iff.2 hdefines] at hstatus
    obtain ⟨body, -, hm⟩ := hdefines
    exact ⟨_, hstatus, Literal.readAs_value hm.isLiteral_value,
      Literal.readAs_value hm.isLiteral_uncertainty⟩

/-- Both literals of a line are malformed; the name is bound again further down, and the
    warnings stay. -/
theorem fallbacks_of_shadowed_line :
    let document : Text := "m = 1..5 +/- .\nm = 2. +/- .5\nx = m * 2\n"
    let e := evaluate {} document
    e.fallbacks.toList = [⟨⟨1, 0, 14⟩, "m", "1..5"⟩, ⟨⟨1, 0, 14⟩, "m", "."⟩] ∧
      ∃ o ∈ e.outcomes.toList, Entry.Defines o.line.text "m" "1..5" "." ∧
        ∃ m, o.status = .defined "m" m ∧ m.value = 0 ∧ m.uncertainty = 0 := by
  intro document e
  let first : Line := ⟨"m = 1..5 +/- .", 1, 0, 14⟩
  let second : Line := ⟨"m = 2. +/- .5", 2, 15, 28⟩
  let third : Line := ⟨"x = m * 2", 3, 29, 38⟩
  obtain ⟨hfallbacks, hlines, hstatus⟩ := fallbacks_exact {} document
  have hdocument : Text.lines document = [first, second, third] := by decide
  have hfirst : Entry.Defines first.text "m" (Literal.mk "1..5").text (Literal.mk ".").text :=
    Entry.ofText_eq_definition_iff.1 (by decide)
  have hsecond : Entry.Defines second.text "m" (Literal.mk "2.").text (Literal.mk ".5").text :=
    Entry.ofText_eq_definition_iff.1 (by decide)
  have hentry : Entry.ofText third.text = .derivation "x" "m * 2" := by decide
  have hthird := (Entry.ofText_eq_derivation_iff.1 hentry).2
  constructor
  · rw [hfallbacks, hdocument]
    exact .definition hfirst (.definition hsecond (.other hthird .nil))
  · have hmem : first ∈ e.outcomes.toList.map Outcome.line := by
      rw [hlines, hdocument]
      exact List.mem_cons_self
    obtain ⟨o, ho, hline⟩ := List.mem_map.1 hmem
    rw [← hline] at hfirst
    obtain ⟨m, hm, hvalue, huncertainty⟩ := hstatus o ho _ _ _ hfirst
    exact ⟨o, ho, hfirst, m, hm, hvalue.eq_zero (by decide), huncertainty.eq_zero (by decide)⟩

end Evaluation

end Notebook
