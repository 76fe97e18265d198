/-
  The shapes of lines.

  What a line enters is a matter of its shape alone: of what it is made of between its
  blanks.  Each shape fixes its parts, so there is one way only to read a line, although
  blanks are optional and a measurement has the shape of a formula too.

  * `Entry.takeName?_eq_some_iff`, `Entry.afterEquals?_eq_some_iff`,
    `Entry.takeLiteral?_eq_some_iff`, `Entry.takeMeasurement?_eq_some_iff`: what each step
    of the reading takes;
  * `Entry.Defines`, `Entry.Derives`: the shapes of the lines that bind names;
  * `Entry.ofText_iff_shape`: a line enters what has its shape.
-/
import Notebook.Proofs.Entry

namespace Notebook

/-- The places of a literal are the characters after its first point. -/
theorem Literal.places_eq (l : Literal) :
    (∀ whole fraction, l.text = whole ++ '.' :: fraction → '.' ∉ whole →
      l.places = fraction.length) ∧ ('.' ∉ l.text → l.places = 0) := by
  rw [Literal.places]
  constructor
  · intro whole fraction htext hwhole
    rw [Text.cutAt?_eq_some_iff.2 ⟨hwhole, htext⟩]
  · intro hpoint
    rw [Text.cutAt?_eq_none_iff.2 hpoint]

namespace Entry

/-! ## The steps of the reading -/

theorem takeName?_eq_some_iff {t name rest : Text} :
    takeName? t = some (name, rest) ↔
      Text.isName name ∧ t = name ++ rest ∧ ∀ c ∈ rest.head?, Text.isNameChar c = false := by
  constructor
  · intro h
    obtain ⟨hname, rfl⟩ := of_takeName? h
    refine ⟨hname, rfl, ?_⟩
    cases name with
    | nil => cases hname
    | cons c name =>
      rw [List.cons_append, takeName?] at h
      split at h
      · obtain ⟨-, hrest⟩ := Prod.mk.inj (Option.some.inj h)
        rw [← hrest]
        exact Text.head?_dropWhile _ _
      · cases h
  · rintro ⟨hname, rfl, hrest⟩
    cases name with
    | nil => cases hname
    | cons c name =>
      obtain ⟨hc, hname⟩ := Text.isName_cons.1 hname
      rw [List.cons_append, takeName?, if_pos hc, Text.takeWhile_append hname hrest,
        Text.dropWhile_append hname hrest]

/-- A body is what follows `=` and the blanks after it. -/
theorem afterEquals?_eq_some_iff {t body : Text} :
    afterEquals? t = some body ↔ (∀ c ∈ body.head?, Text.isBlank c = false) ∧
      ∃ g g', (∀ c ∈ g, Text.isBlank c) ∧ (∀ c ∈ g', Text.isBlank c) ∧
        t = g ++ '=' :: g' ++ body := by
  constructor
  · intro h
    refine ⟨?_, of_afterEquals? h⟩
    unfold afterEquals? at h
    split at h
    · next rest _ =>
      obtain rfl := Option.some.inj h
      exact Text.head?_dropWhile _ rest
    · cases h
  · rintro ⟨hbody, g, g', hg, hg', rfl⟩
    have hequals : Text.trimStart (g ++ '=' :: g' ++ body) = '=' :: (g' ++ body) := by
      rw [List.append_assoc, Text.trimStart_append hg]
      rfl
    rw [afterEquals?, hequals]
    exact congrArg some (Text.dropWhile_append hg' hbody)

theorem takeLiteral?_eq_some_iff {t rest : Text} {l : Literal} :
    takeLiteral? t = some (l, rest) ↔
      l.text ≠ [] ∧ t = l.text ++ rest ∧ (∀ c ∈ l.text, Literal.isLiteralChar c) ∧
        ∀ c ∈ rest.head?, Literal.isLiteralChar c = false := by
  rw [← Text.run_iff, takeLiteral?]
  obtain ⟨text⟩ := l
  cases hrun : t.takeWhile Literal.isLiteralChar with
  | nil =>
    refine iff_of_false (by simp) fun ⟨hne, htext, _⟩ => hne htext.symm
  | cons c run =>
    simp only [Option.some.injEq, Prod.mk.injEq, Literal.mk.injEq]
    refine ⟨fun ⟨htext, hrest⟩ => ⟨htext ▸ List.cons_ne_nil c run, htext, hrest⟩, And.right⟩

/-! ## Measurements -/

/-- A literal is a run of figures and points. -/
def IsLiteral (t : Text) : Prop := t ≠ [] ∧ ∀ c ∈ t, Literal.isLiteralChar c

/-- `Measures body value uncertainty`: the body is `value ± uncertainty`, where blanks may
    stand around `±`. -/
structure Measures (body value uncertainty : Text) : Prop where
  isLiteral_value : IsLiteral value
  isLiteral_uncertainty : IsLiteral uncertainty
  eq : ∃ g g', (∀ c ∈ g, Text.isBlank c) ∧ (∀ c ∈ g', Text.isBlank c) ∧
    body = value ++ g ++ '+' :: '/' :: '-' :: g' ++ uncertainty

theorem isBlank_of_isLiteralChar {c : Char} (h : Literal.isLiteralChar c) :
    Text.isBlank c = false := by
  simp only [Literal.isLiteralChar, Bool.or_eq_true, beq_iff_eq] at h
  rcases h with h | rfl
  · exact Text.isBlank_of_isNameChar (by simp [Text.isNameChar, h])
  · decide

/-- What blanks and something else than figures and points are followed by does not start
    with a literal. -/
theorem isLiteralChar_head? {g rest : Text} (hg : ∀ c ∈ g, Text.isBlank c)
    (hrest : ∀ c ∈ rest.head?, Literal.isLiteralChar c = false) :
    ∀ c ∈ (g ++ rest).head?, Literal.isLiteralChar c = false := by
  cases g with
  | nil => exact hrest
  | cons d g =>
    intro c hc
    obtain rfl : d = c := by simpa using hc
    by_contra hliteral
    rw [Bool.not_eq_false] at hliteral
    simp [isBlank_of_isLiteralChar hliteral] at hg

theorem IsLiteral.head? {t : Text} (h : IsLiteral t) (rest : Text) :
    ∀ c ∈ (t ++ rest).head?, Text.isBlank c = false := by
  intro c hc
  rw [List.head?_append_of_ne_nil _ h.1] at hc
  exact isBlank_of_isLiteralChar (h.2 c (List.mem_of_mem_head? hc))

theorem takeMeasurement?_eq_some_iff {body : Text} {value uncertainty : Literal} :
    takeMeasurement? body = some (value, uncertainty) ↔
      Measures body value.text uncertainty.text := by
  constructor
  · intro h
    obtain ⟨⟨v, rest⟩, hv, h⟩ := Option.bind_eq_some_iff.1 h
    dsimp only at h
    split at h
    · next rest' hsign =>
      obtain ⟨⟨u, last⟩, hu, h⟩ := Option.bind_eq_some_iff.1 h
      dsimp only at h
      split at h
      · next hlast =>
        subst hlast
        obtain ⟨rfl, rfl⟩ := Prod.mk.inj (Option.some.inj h)
        obtain ⟨hvne, rfl, hvc, -⟩ := takeLiteral?_eq_some_iff.1 hv
        obtain ⟨hune, hut, huc, -⟩ := takeLiteral?_eq_some_iff.1 hu
        obtain ⟨g, hg, hrest⟩ := Text.exists_trimStart rest
        obtain ⟨g', hg', hrest'⟩ := Text.exists_trimStart rest'
        refine ⟨⟨hvne, hvc⟩, ⟨hune, huc⟩, g, g', hg, hg', ?_⟩
        rw [hut, List.append_nil] at hrest'
        rw [hsign, hrest'] at hrest
        conv_lhs => rw [hrest]
        simp
      · cases h
    · cases h
  · rintro ⟨hvalue, huncertainty, g, g', hg, hg', rfl⟩
    have hv : takeLiteral? (value.text ++ (g ++ '+' :: '/' :: '-' :: (g' ++ uncertainty.text))) =
        some (value, g ++ '+' :: '/' :: '-' :: (g' ++ uncertainty.text)) :=
      takeLiteral?_eq_some_iff.2 ⟨hvalue.1, rfl, hvalue.2,
        isLiteralChar_head? hg (by rintro _ ⟨⟩; decide)⟩
    have hu : takeLiteral? (Text.trimStart (g' ++ uncertainty.text)) =
        some (uncertainty, []) := by
      have htrim : Text.trimStart (g' ++ uncertainty.text) = uncertainty.text :=
        Text.dropWhile_append hg' (by simpa using huncertainty.head? [])
      rw [htrim]
      exact takeLiteral?_eq_some_iff.2
        ⟨huncertainty.1, (List.append_nil _).symm, huncertainty.2, by simp⟩
    have hsign : Text.trimStart (g ++ '+' :: '/' :: '-' :: (g' ++ uncertainty.text)) =
        '+' :: '/' :: '-' :: (g' ++ uncertainty.text) :=
      Text.dropWhile_append hg (by rintro _ ⟨⟩; decide)
    have hbody : value.text ++ g ++ '+' :: '/' :: '-' :: g' ++ uncertainty.text =
        value.text ++ (g ++ '+' :: '/' :: '-' :: (g' ++ uncertainty.text)) := by simp
    rw [hbody, takeMeasurement?, hv]
    simp [hsign, hu]

/-! ## Lines -/

/-- The name and the body of a text that is `name = body`. -/
def parts? (t : Text) : Option (Text × Text) := do
  let (name, rest) ← takeName? t
  let body ← afterEquals? rest
  return (name, body)

theorem ofTrimmed_eq (t : Text) :
    ofTrimmed t =
      match parts? t with
      | none => unrecognized
      | some (name, body) =>
        match takeMeasurement? body with
        | some (value, uncertainty) => definition name value uncertainty
        | none => if isFormula body then derivation name body else unrecognized := by
  rw [ofTrimmed, parts?]
  cases takeName? t with
  | none => rfl
  | some p =>
    obtain ⟨name, rest⟩ := p
    cases h : afterEquals? rest with
    | none => simp [h]
    | some body => cases hm : takeMeasurement? body <;> simp [h, hm]

/-- A line that assigns a body to a name is taken apart in one way only. -/
theorem parts?_eq_some_iff {line name body : Text} :
    parts? (Text.trim line) = some (name, body) ↔
      Assigns line name body ∧ ∀ c ∈ body.head?, Text.isBlank c = false := by
  constructor
  · intro h
    obtain ⟨⟨n, rest⟩, hname, h⟩ := Option.bind_eq_some_iff.1 h
    obtain ⟨b, hbody, h⟩ := Option.bind_eq_some_iff.1 h
    obtain ⟨rfl, rfl⟩ := Prod.mk.inj (Option.some.inj h)
    obtain ⟨hn, ht, -⟩ := takeName?_eq_some_iff.1 hname
    obtain ⟨hhead, g, g', hg, hg', rfl⟩ := afterEquals?_eq_some_iff.1 hbody
    exact ⟨⟨hn, g, g', hg, hg', by simp [ht]⟩, hhead⟩
  · rintro ⟨⟨hn, g, g', hg, hg', ht⟩, hhead⟩
    have hrest : ∀ c ∈ (g ++ '=' :: g' ++ body).head?, Text.isNameChar c = false := by
      intro c hc
      by_contra hword
      rw [Bool.not_eq_false] at hword
      rcases g with _ | ⟨d, g⟩
      · obtain rfl : '=' = c := by simpa using hc
        exact absurd hword (by decide)
      · obtain rfl : d = c := by simpa using hc
        simp [Text.isBlank_of_isNameChar hword] at hg
    have hname : takeName? (Text.trim line) = some (name, g ++ '=' :: g' ++ body) :=
      takeName?_eq_some_iff.2 ⟨hn, by simp [ht], hrest⟩
    have hbody : afterEquals? (g ++ '=' :: g' ++ body) = some body :=
      afterEquals?_eq_some_iff.2 ⟨hhead, g, g', hg, hg', rfl⟩
    rw [parts?, hname]
    exact Option.bind_eq_some_iff.2 ⟨_, rfl, Option.bind_eq_some_iff.2 ⟨body, hbody, rfl⟩⟩

/-- A line that is blank or a comment. -/
def IsIdle (line : Text) : Prop := Text.trim line = [] ∨ (Text.trim line).head? = some '#'

/-- The shape of a line that types a measurement in: `name = value ± uncertainty`. -/
def Defines (line name value uncertainty : Text) : Prop :=
  ∃ body, Assigns line name body ∧ Measures body value uncertainty

/-- The shape of a line that derives a measurement: `name = formula`.  The formula is
    what follows the blanks after `=`, and no line feed is in it. -/
structure Derives (line name formula : Text) : Prop extends Assigns line name formula where
  ne_nil : formula ≠ []
  isBlank_head : ∀ c ∈ formula.head?, Text.isBlank c = false
  notMem : '\n' ∉ formula

theorem defines_iff {line name value uncertainty : Text} :
    Defines line name value uncertainty ↔ ∃ body, parts? (Text.trim line) = some (name, body) ∧
      takeMeasurement? body = some (⟨value⟩, ⟨uncertainty⟩) := by
  simp only [parts?_eq_some_iff, takeMeasurement?_eq_some_iff]
  refine exists_congr fun body => ⟨fun ⟨h, hm⟩ => ⟨⟨h, ?_⟩, hm⟩, fun ⟨⟨h, _⟩, hm⟩ => ⟨h, hm⟩⟩
  obtain ⟨g, g', -, -, rfl⟩ := hm.eq
  simpa using hm.isLiteral_value.head? (g ++ '+' :: '/' :: '-' :: (g' ++ uncertainty))

theorem derives_iff {line name formula : Text} :
    Derives line name formula ↔
      parts? (Text.trim line) = some (name, formula) ∧ isFormula formula := by
  rw [parts?_eq_some_iff]
  constructor
  · rintro ⟨h, hne, hhead, hfeed⟩
    exact ⟨⟨h, hhead⟩, by simp [isFormula, hne, hfeed]⟩
  · rintro ⟨⟨h, hhead⟩, hformula⟩
    obtain ⟨hne, hfeed⟩ : formula ≠ [] ∧ '\n' ∉ formula := by simpa [isFormula] using hformula
    exact ⟨h, hne, hhead, hfeed⟩

theorem ofText_of_isIdle {line : Text} (h : IsIdle line) : ofText line = blank := by
  rw [ofText]
  split
  · rfl
  · rfl
  · next hnil hcomment =>
    rcases h with h | h
    · exact absurd h hnil
    · obtain ⟨rest, hrest⟩ := List.head?_eq_some_iff.1 h
      exact absurd hrest (hcomment rest)

theorem ofText_of_not_isIdle {line : Text} (h : ¬ IsIdle line) :
    ofText line = ofTrimmed (Text.trim line) := by
  rw [ofText]
  split
  · next hnil => exact absurd (.inl hnil) h
  · next rest hcomment => exact absurd (.inr (by rw [hcomment]; rfl)) h
  · rfl

theorem parts?_of_isIdle {line : Text} (h : IsIdle line) : parts? (Text.trim line) = none := by
  rw [Option.eq_none_iff_forall_not_mem]
  rintro ⟨name, body⟩ hparts
  obtain ⟨⟨hname, g, g', -, -, ht⟩, -⟩ := parts?_eq_some_iff.1 hparts
  cases name with
  | nil => cases hname
  | cons c name =>
    obtain ⟨hc, -⟩ := Text.isName_cons.1 hname
    rcases h with h | h
    · simp [h] at ht
    · obtain rfl : c = '#' := by simpa [ht] using h
      exact absurd hc (by decide)

/-- What a line that is taken apart enters is a matter of its body. -/
theorem ofText_of_parts? {line name body : Text}
    (h : parts? (Text.trim line) = some (name, body)) :
    ofText line =
      match takeMeasurement? body with
      | some (value, uncertainty) => definition name value uncertainty
      | none => if isFormula body then derivation name body else unrecognized := by
  have hidle : ¬ IsIdle line := fun hidle => by simp [parts?_of_isIdle hidle] at h
  rw [ofText_of_not_isIdle hidle, ofTrimmed_eq, h]

theorem exists_parts? {line : Text} (hidle : ¬ IsIdle line) (h : ofText line ≠ unrecognized) :
    ∃ name body, parts? (Text.trim line) = some (name, body) := by
  rw [ofText_of_not_isIdle hidle, ofTrimmed_eq] at h
  cases hparts : parts? (Text.trim line) with
  | none => simp [hparts] at h
  | some p => exact ⟨p.1, p.2, rfl⟩

theorem ofText_eq_blank_iff {line : Text} : ofText line = blank ↔ IsIdle line := by
  refine ⟨fun h => ?_, ofText_of_isIdle⟩
  by_contra hidle
  obtain ⟨name, body, hparts⟩ := exists_parts? hidle (by simp [h])
  rw [ofText_of_parts? hparts] at h
  split at h
  · cases h
  · split at h <;> cases h

theorem ofText_eq_definition_iff {line name : Text} {value uncertainty : Literal} :
    ofText line = definition name value uncertainty ↔
      Defines line name value.text uncertainty.text := by
  rw [defines_iff]
  constructor
  · intro h
    have hidle : ¬ IsIdle line := fun hidle => by simp [ofText_of_isIdle hidle] at h
    obtain ⟨name', body, hparts⟩ := exists_parts? hidle (by simp [h])
    rw [ofText_of_parts? hparts] at h
    split at h
    · next hm =>
      obtain ⟨rfl, rfl, rfl⟩ := Entry.definition.inj h
      exact ⟨body, hparts, hm⟩
    · split at h <;> cases h
  · rintro ⟨body, hparts, hm⟩
    simp [ofText_of_parts? hparts, hm]

theorem ofText_eq_derivation_iff {line name formula : Text} :
    ofText line = derivation name formula ↔
      Derives line name formula ∧ ∀ n v u, ¬ Defines line n v u := by
  rw [derives_iff]
  constructor
  · intro h
    have hidle : ¬ IsIdle line := fun hidle => by simp [ofText_of_isIdle hidle] at h
    have hnone : ∀ n v u, ¬ Defines line n v u := fun n v u hd => by
      have hdefinition : ofText line = definition n ⟨v⟩ ⟨u⟩ := ofText_eq_definition_iff.2 hd
      rw [h] at hdefinition
      cases hdefinition
    obtain ⟨name', body, hparts⟩ := exists_parts? hidle (by simp [h])
    rw [ofText_of_parts? hparts] at h
    split at h
    · cases h
    · split at h
      · next hformula =>
        obtain ⟨rfl, rfl⟩ := Entry.derivation.inj h
        exact ⟨⟨hparts, hformula⟩, hnone⟩
      · cases h
  · rintro ⟨⟨hparts, hformula⟩, hnone⟩
    have hm : takeMeasurement? formula = none := by
      rw [Option.eq_none_iff_forall_not_mem]
      exact fun m hm => hnone name m.1.text m.2.text (defines_iff.2 ⟨formula, hparts, hm⟩)
    simp [ofText_of_parts? hparts, hm, hformula]

theorem ofText_eq_unrecognized_iff {line : Text} :
    ofText line = unrecognized ↔
      ¬ IsIdle line ∧ (∀ n v u, ¬ Defines line n v u) ∧ ∀ n f, ¬ Derives line n f := by
  rw [← ofText_eq_blank_iff]
  constructor
  · intro h
    have hnone : ∀ n v u, ¬ Defines line n v u := fun n v u hd => by
      have hdefinition : ofText line = definition n ⟨v⟩ ⟨u⟩ := ofText_eq_definition_iff.2 hd
      rw [h] at hdefinition
      cases hdefinition
    refine ⟨by simp [h], hnone, fun n f hd => ?_⟩
    have hderivation := ofText_eq_derivation_iff.2 ⟨hd, hnone⟩
    rw [h] at hderivation
    cases hderivation
  · rintro ⟨hblank, hdefines, hderives⟩
    cases h : ofText line with
    | blank => exact absurd h hblank
    | definition name value uncertainty =>
      exact absurd (ofText_eq_definition_iff.1 h) (hdefines _ _ _)
    | derivation name formula => exact absurd (ofText_eq_derivation_iff.1 h).1 (hderives _ _)
    | unrecognized => rfl

theorem Defines.unique {line n v u n' v' u' : Text} (h : Defines line n v u)
    (h' : Defines line n' v' u') : n = n' ∧ v = v' ∧ u = u' := by
  obtain ⟨body, hparts, hm⟩ := defines_iff.1 h
  obtain ⟨body', hparts', hm'⟩ := defines_iff.1 h'
  obtain ⟨rfl, rfl⟩ := Prod.mk.inj (Option.some.inj (hparts.symm.trans hparts'))
  simpa using hm.symm.trans hm'

theorem Derives.unique {line n f n' f' : Text} (h : Derives line n f)
    (h' : Derives line n' f') : n = n' ∧ f = f' := by
  obtain ⟨hparts, -⟩ := derives_iff.1 h
  obtain ⟨hparts', -⟩ := derives_iff.1 h'
  exact Prod.mk.inj (Option.some.inj (hparts.symm.trans hparts'))

/-- **A line enters what has its shape.**  It is blank or a comment; or it has the shape of
    a measurement that is typed in; or, if it has not, that of a formula; or it is not
    recognized.  The parts are fixed by the line, and the places of a literal are the
    characters after its first point. -/
theorem ofText_iff_shape (line : Text) :
    (ofText line = blank ↔ IsIdle line) ∧
    (∀ name value uncertainty, ofText line = definition name value uncertainty ↔
      Defines line name value.text uncertainty.text) ∧
    (∀ name formula, ofText line = derivation name formula ↔
      Derives line name formula ∧ ∀ n v u, ¬ Defines line n v u) ∧
    (ofText line = unrecognized ↔
      ¬ IsIdle line ∧ (∀ n v u, ¬ Defines line n v u) ∧ ∀ n f, ¬ Derives line n f) ∧
    (∀ n v u n' v' u', Defines line n v u → Defines line n' v' u' →
      n = n' ∧ v = v' ∧ u = u') ∧
    (∀ n f n' f', Derives line n f → Derives line n' f' → n = n' ∧ f = f') ∧
    ∀ l : Literal, (∀ whole fraction, l.text = whole ++ '.' :: fraction → '.' ∉ whole →
      l.places = fraction.length) ∧ ('.' ∉ l.text → l.places = 0) :=
  ⟨ofText_eq_blank_iff, fun _ _ _ => ofText_eq_definition_iff,
    fun _ _ => ofText_eq_derivation_iff, ofText_eq_unrecognized_iff,
    fun _ _ _ _ _ _ h h' => h.unique h', fun _ _ _ _ h h' => h.unique h', Literal.places_eq⟩

end Entry

end Notebook
