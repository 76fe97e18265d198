/-
  The spelling of numerals, and the scanner that reads it.

  * `Numeral.Spelling n w`: the text `w` spells the numeral `n`; these are the
    unsigned numbers of both grammars;
  * `Numeral.scan?_append`: the scanner takes the whole of a spelling that no
    further figure, point or letter follows, and `Numeral.spelling_of_scan?`:
    what it takes is a spelling;
  * `Numeral.read?_eq_some_iff`: a whole text is read as a numeral if and only if
    it is a spelling of it;
  * `of_readExact?`: a bare number of an expression is a spelling or one of two
    words, after at most one sign.
-/
import Notebook.Numeral
import Notebook.Proofs.Text

namespace Notebook

/-! ## Words -/

/-- What stands in a number or a name, the sign of an exponent apart. -/
def Text.isWordChar (c : Char) : Bool := isNameChar c || c == '.'

/-- Whether a text continues no number and no name that stands before it. -/
def Text.EndsWord (t : Text) : Prop := ∀ c ∈ t.head?, isWordChar c = false

theorem Text.endsWord_nil : EndsWord [] := by simp [EndsWord]

theorem Text.isFigure_of_not_isWordChar {c : Char} (h : isWordChar c = false) :
    isFigure c = false := by
  simp only [isWordChar, isNameChar, Bool.or_eq_false_iff] at h
  exact h.1.2

namespace Numeral

/-! ## Spelling -/

/-- Figures, one at least. -/
def IsFigures (t : Text) : Prop := t ≠ [] ∧ ∀ c ∈ t, Text.isFigure c

/-- `Sign s negative`: the text `s` is at most one sign, and whether it is a
    minus. -/
inductive Sign : Text → Bool → Prop
  | none : Sign [] false
  | plus : Sign ['+'] false
  | minus : Sign ['-'] true

/-- `Exponent x e`: the text `x` spells the exponent `e`; no text at all spells
    the exponent zero. -/
inductive Exponent : Text → Int → Prop
  | none : Exponent [] 0
  | some {c sign negative figures} : c = 'e' ∨ c = 'E' → Sign sign negative →
      IsFigures figures →
      Exponent (c :: (sign ++ figures))
        (if negative then -(natural figures : Int) else natural figures)

/-- `Spelling n w`: the text `w` spells the numeral `n`.  Each figure after the
    point takes one from the exponent. -/
inductive Spelling : Numeral → Text → Prop
  | whole {w x e} : IsFigures w → Exponent x e → Spelling ⟨w, e⟩ (w ++ x)
  | point {w f x} {e : Int} : IsFigures w → (∀ c ∈ f, Text.isFigure c) → Exponent x e →
      Spelling ⟨w ++ f, e - f.length⟩ (w ++ '.' :: f ++ x)
  | fraction {f x} {e : Int} : IsFigures f → Exponent x e →
      Spelling ⟨f, e - f.length⟩ ('.' :: f ++ x)

/-! ## Scanning -/

theorem isWordChar_of_isFigure {c : Char} (h : Text.isFigure c) : Text.isWordChar c := by
  simp [Text.isWordChar, Text.isNameChar, h]

theorem takeSign_of_isWordChar {c : Char} (hc : Text.isWordChar c) (t : Text) :
    takeSign (c :: t) = (false, c :: t) := by
  unfold takeSign
  split
  · next h =>
    obtain ⟨rfl, -⟩ := List.cons.inj h
    exact absurd hc (by decide)
  · next h =>
    obtain ⟨rfl, -⟩ := List.cons.inj h
    exact absurd hc (by decide)
  · rfl

theorem takeSign_append {s t : Text} {negative : Bool} (hs : Sign s negative)
    (ht : IsFigures t) (rest : Text) : takeSign (s ++ t ++ rest) = (negative, t ++ rest) := by
  cases hs with
  | none =>
    obtain ⟨c, t, rfl⟩ := List.exists_cons_of_ne_nil ht.1
    exact takeSign_of_isWordChar (isWordChar_of_isFigure (ht.2 c (by simp))) (t ++ rest)
  | plus | minus => rfl

theorem exists_sign (t : Text) :
    ∃ s, Sign s (takeSign t).1 ∧ t = s ++ (takeSign t).2 := by
  unfold takeSign
  split
  · exact ⟨['-'], .minus, rfl⟩
  · exact ⟨['+'], .plus, rfl⟩
  · exact ⟨[], .none, rfl⟩

section
variable {rest : Text} (hrest : Text.EndsWord rest)
include hrest

theorem takeWhile_isFigure {t : Text} (h : ∀ c ∈ t, Text.isFigure c) :
    (t ++ rest).takeWhile Text.isFigure = t :=
  Text.takeWhile_append h fun c hc => Text.isFigure_of_not_isWordChar (hrest c hc)

theorem dropWhile_isFigure {t : Text} (h : ∀ c ∈ t, Text.isFigure c) :
    (t ++ rest).dropWhile Text.isFigure = rest :=
  Text.dropWhile_append h fun c hc => Text.isFigure_of_not_isWordChar (hrest c hc)

theorem scanExponent_append {x : Text} {e : Int} (h : Exponent x e) :
    scanExponent (x ++ rest) = (e, rest) := by
  cases h with
  | none =>
    cases rest with
    | nil => rfl
    | cons c rest =>
      have hc : ¬ (c = 'e' ∨ c = 'E') := by
        have := hrest c rfl
        rintro (rfl | rfl) <;> revert this <;> decide
      simp [scanExponent, hc]
  | @some c sign negative figures hc hs hf =>
    obtain ⟨d, ds, hd⟩ := List.exists_cons_of_ne_nil hf.1
    simp only [List.cons_append, scanExponent, hc, if_true, takeSign_append hs hf,
      takeWhile_isFigure hrest hf.2, dropWhile_isFigure hrest hf.2]
    rw [hd]

theorem exponent_head {x : Text} {e : Int} (h : Exponent x e) :
    ∀ c ∈ (x ++ rest).head?, Text.isFigure c = false ∧ c ≠ '.' := by
  intro c hc
  cases h with
  | none =>
    have hw := hrest c hc
    refine ⟨Text.isFigure_of_not_isWordChar hw, ?_⟩
    rintro rfl
    revert hw
    decide
  | some he =>
    obtain rfl : _ = c := by simpa using hc
    rcases he with rfl | rfl <;> decide

end

theorem scanFigures_whole {w tail : Text} (hw : ∀ c ∈ w, Text.isFigure c)
    (ht : ∀ c ∈ tail.head?, Text.isFigure c = false ∧ c ≠ '.') :
    scanFigures (w ++ tail) = (w, [], tail) := by
  have ht' : ∀ c ∈ tail.head?, Text.isFigure c = false := fun c hc => (ht c hc).1
  simp only [scanFigures, Text.takeWhile_append hw ht', Text.dropWhile_append hw ht']
  split
  · exact absurd rfl (ht _ rfl).2
  · rfl

theorem scanFigures_point {w f tail : Text} (hw : ∀ c ∈ w, Text.isFigure c)
    (hf : ∀ c ∈ f, Text.isFigure c) (ht : ∀ c ∈ tail.head?, Text.isFigure c = false) :
    scanFigures (w ++ '.' :: (f ++ tail)) = (w, f, tail) := by
  have hpoint : ∀ c ∈ ('.' :: (f ++ tail)).head?, Text.isFigure c = false := by
    rintro c ⟨⟩
    rfl
  simp only [scanFigures, Text.takeWhile_append hw hpoint, Text.dropWhile_append hw hpoint,
    Text.takeWhile_append hf ht, Text.dropWhile_append hf ht]

/-- **The scanner takes the whole of a numeral** that no further figure, point or
    letter follows. -/
theorem scan?_append {n : Numeral} {w rest : Text} (h : Spelling n w)
    (hrest : Text.EndsWord rest) : scan? (w ++ rest) = some (n, rest) := by
  cases h with
  | @whole w x e hw hx =>
    rw [List.append_assoc, scan?, scanFigures_whole hw.2 (exponent_head hrest hx)]
    simp [hw.1, scanExponent_append hrest hx]
  | @point w f x e hw hf hx =>
    have hhead := fun c hc => (exponent_head hrest hx c hc).1
    have ht : w ++ '.' :: f ++ x ++ rest = w ++ '.' :: (f ++ (x ++ rest)) := by simp
    rw [ht, scan?, scanFigures_point hw.2 hf hhead]
    simp [hw.1, scanExponent_append hrest hx]
  | @fraction f x e hf hx =>
    have hhead := fun c hc => (exponent_head hrest hx c hc).1
    have ht : '.' :: f ++ x ++ rest = [] ++ '.' :: (f ++ (x ++ rest)) := by simp
    rw [ht, scan?, scanFigures_point (List.forall_mem_nil _) hf.2 hhead]
    simp [hf.1, scanExponent_append hrest hx]

theorem exists_exponent (t : Text) :
    ∃ x, Exponent x (scanExponent t).1 ∧ t = x ++ (scanExponent t).2 := by
  unfold scanExponent
  split
  · next c rest =>
    split
    · next hc =>
      obtain ⟨s, hs, hrest⟩ := exists_sign rest
      generalize takeSign rest = signed at hs hrest ⊢
      obtain ⟨negative, left⟩ := signed
      dsimp only at hs hrest ⊢
      cases hf : left.takeWhile Text.isFigure with
      | nil => exact ⟨[], .none, rfl⟩
      | cons d ds =>
        have hfigures : IsFigures (d :: ds) :=
          ⟨by simp, fun _ h => List.mem_takeWhile_imp (hf ▸ h)⟩
        have hleft : (d :: ds) ++ left.dropWhile Text.isFigure = left := by
          rw [← hf, List.takeWhile_append_dropWhile]
        refine ⟨_, .some hc hs hfigures, ?_⟩
        show c :: rest = c :: (s ++ (d :: ds)) ++ left.dropWhile Text.isFigure
        rw [List.cons_append, List.append_assoc, hleft, hrest]
    · exact ⟨[], .none, rfl⟩
  · exact ⟨[], .none, rfl⟩

/-- The figures of a text around its point, if it has one, and what is left. -/
theorem exists_figures (t : Text) :
    ∃ w f tail, scanFigures t = (w, f, tail) ∧ (∀ c ∈ w, Text.isFigure c) ∧
      (∀ c ∈ f, Text.isFigure c) ∧ (f = [] ∧ t = w ++ tail ∨ t = w ++ '.' :: f ++ tail) := by
  have hw : ∀ c ∈ t.takeWhile Text.isFigure, Text.isFigure c :=
    fun _ h => List.mem_takeWhile_imp h
  have ht : t = t.takeWhile Text.isFigure ++ t.dropWhile Text.isFigure :=
    List.takeWhile_append_dropWhile.symm
  unfold scanFigures
  split
  · next rest hd =>
    refine ⟨_, _, _, rfl, hw, fun _ h => List.mem_takeWhile_imp h, Or.inr ?_⟩
    rw [List.append_assoc, List.cons_append, List.takeWhile_append_dropWhile, ← hd, ← ht]
  · exact ⟨_, _, _, rfl, hw, List.forall_mem_nil _, Or.inl ⟨rfl, ht⟩⟩

/-- **What the scanner takes is a numeral.** -/
theorem spelling_of_scan? {n : Numeral} {t rest : Text} (h : scan? t = some (n, rest)) :
    ∃ w, Spelling n w ∧ t = w ++ rest := by
  obtain ⟨w, f, tail, hs, hw, hf, ht⟩ := exists_figures t
  obtain ⟨x, hx, htail⟩ := exists_exponent tail
  simp only [scan?, hs] at h
  split at h
  · simp at h
  next hne =>
  obtain ⟨rfl, rfl⟩ := by simpa using h
  rcases ht with ⟨rfl, ht⟩ | ht
  · have hfigures : IsFigures w := ⟨by simpa using hne, hw⟩
    refine ⟨w ++ x, by simpa using Spelling.whole hfigures hx, ?_⟩
    rw [List.append_assoc, ← htail, ht]
  · refine ⟨w ++ '.' :: f ++ x, ?_, by rw [List.append_assoc, ← htail, ht]⟩
    by_cases hnil : w = []
    · subst hnil
      exact .fraction ⟨by simpa using hne, hf⟩ hx
    · exact .point ⟨hnil, hw⟩ hf hx

theorem read?_eq_some_iff {t : Text} {n : Numeral} : read? t = some n ↔ Spelling n t := by
  constructor
  · intro h
    unfold read? at h
    split at h
    · next n' hs =>
      obtain rfl : n' = n := by simpa using h
      obtain ⟨w, hw, rfl⟩ := spelling_of_scan? hs
      rwa [List.append_nil]
    · simp at h
  · intro h
    have hs := scan?_append h Text.endsWord_nil
    rw [List.append_nil] at hs
    rw [read?, hs]

/-! ## Characters -/

theorem mem_sign {s : Text} {negative : Bool} (h : Sign s negative) :
    ∀ c ∈ s, c = '+' ∨ c = '-' := by
  cases h with
  | none => exact List.forall_mem_nil _
  | plus => exact List.forall_mem_singleton.2 (.inl rfl)
  | minus => exact List.forall_mem_singleton.2 (.inr rfl)

/-- What stands in a numeral: figures, points, the letter of an exponent and signs. -/
def isNumeralChar (c : Char) : Bool :=
  Text.isFigure c || c == '.' || c == 'e' || c == 'E' || c == '+' || c == '-'

theorem isNumeralChar_of_isFigure {c : Char} (h : Text.isFigure c) : isNumeralChar c := by
  simp [isNumeralChar, h]

theorem isNumeralChar_of_mem_exponent {x : Text} {e : Int} (h : Exponent x e) :
    ∀ c ∈ x, isNumeralChar c := by
  cases h with
  | none => exact List.forall_mem_nil _
  | @some d sign negative figures hd hs hf =>
    refine List.forall_mem_cons.2 ⟨?_, List.forall_mem_append.2 ⟨fun c hc => ?_, fun c hc =>
      isNumeralChar_of_isFigure (hf.2 c hc)⟩⟩
    · rcases hd with rfl | rfl <;> decide
    · rcases mem_sign hs c hc with rfl | rfl <;> decide

theorem isNumeralChar_of_mem_spelling {n : Numeral} {w : Text} (h : Spelling n w) :
    ∀ c ∈ w, isNumeralChar c := by
  have hfigures : ∀ {f : Text}, (∀ c ∈ f, Text.isFigure c) → ∀ c ∈ f, isNumeralChar c :=
    fun hf c hc => isNumeralChar_of_isFigure (hf c hc)
  have hpoint : ∀ {f : Text}, (∀ c ∈ f, Text.isFigure c) → ∀ c ∈ '.' :: f, isNumeralChar c :=
    fun hf => List.forall_mem_cons.2 ⟨rfl, hfigures hf⟩
  cases h with
  | whole hw hx =>
    exact List.forall_mem_append.2 ⟨hfigures hw.2, isNumeralChar_of_mem_exponent hx⟩
  | point hw hf hx =>
    exact List.forall_mem_append.2 ⟨List.forall_mem_append.2 ⟨hfigures hw.2, hpoint hf⟩,
      isNumeralChar_of_mem_exponent hx⟩
  | fraction hf hx =>
    exact List.forall_mem_append.2 ⟨hpoint hf.2, isNumeralChar_of_mem_exponent hx⟩

theorem mem_spelling {n : Numeral} {w : Text} (h : Spelling n w) :
    ∀ c ∈ w, Text.isWordChar c ∨ c = '+' ∨ c = '-' := by
  intro c hc
  have hchar := isNumeralChar_of_mem_spelling h c hc
  simp only [isNumeralChar, Bool.or_eq_true, beq_iff_eq, or_assoc] at hchar
  rcases hchar with hc | rfl | rfl | rfl | hsign
  · exact .inl (isWordChar_of_isFigure hc)
  · exact .inl rfl
  · exact .inl rfl
  · exact .inl rfl
  · exact .inr hsign

end Numeral

/-! ## Bare numbers -/

theorem of_exactWord? {t : Text} {x : Float} (h : exactWord? t = some x) :
    t = "NaN" ∨ t = "Infinity" := by
  unfold exactWord? at h
  split at h
  · next ht => exact .inl ht
  · split at h
    · next ht => exact .inr ht
    · cases h

theorem exactWord?_eq_none {t : Text} (h : t ≠ "NaN") (h' : t ≠ "Infinity") :
    exactWord? t = none := by
  rw [exactWord?, if_neg h, if_neg h']

theorem readExact?_of_isWordChar {c : Char} (hc : Text.isWordChar c) (t : Text) :
    readExact? (c :: t) =
      (exactWord? (c :: t)).or ((Numeral.read? (c :: t)).map Numeral.value) := by
  simp [readExact?, readSigned?, Numeral.takeSign_of_isWordChar hc]

/-- **What is read as a bare number** is a word or a numeral, after at most one
    sign. -/
theorem of_readExact? {t : Text} {x : Float} (h : readExact? t = some x) :
    ∃ s u negative, Numeral.Sign s negative ∧ t = s ++ u ∧
      (u = "NaN" ∨ u = "Infinity" ∨ ∃ n, Numeral.Spelling n u) := by
  obtain ⟨s, hs, ht⟩ := Numeral.exists_sign t
  refine ⟨s, (Numeral.takeSign t).2, _, hs, ht, ?_⟩
  have hread : ((exactWord? (Numeral.takeSign t).2).or
      ((Numeral.read? (Numeral.takeSign t).2).map Numeral.value)).map
        (fun y => if (Numeral.takeSign t).1 then -y else y) = some x := h
  obtain ⟨m, hm, -⟩ := Option.map_eq_some_iff.1 hread
  rcases Option.or_eq_some_iff.1 hm with hm | ⟨-, hm⟩
  · exact (of_exactWord? hm).imp_right .inl
  · obtain ⟨n, hn, -⟩ := Option.map_eq_some_iff.1 hm
    exact .inr (.inr ⟨n, Numeral.read?_eq_some_iff.1 hn⟩)

theorem mem_of_readExact? {t : Text} {x : Float} (h : readExact? t = some x) :
    ∀ c ∈ t, Text.isWordChar c ∨ c = '+' ∨ c = '-' := by
  obtain ⟨s, u, negative, hs, rfl, hu⟩ := of_readExact? h
  refine List.forall_mem_append.2 ⟨fun c hc => .inr (Numeral.mem_sign hs c hc), ?_⟩
  rcases hu with rfl | rfl | ⟨n, hn⟩
  · exact fun c hc => .inl (List.all_eq_true.1 (by decide) c hc)
  · exact fun c hc => .inl (List.all_eq_true.1 (by decide) c hc)
  · exact Numeral.mem_spelling hn

end Notebook
