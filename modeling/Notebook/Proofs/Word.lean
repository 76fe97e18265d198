/-
  Names, and the words of a text.

  A name is an ASCII identifier.  The words of a text are its longest runs of
  letters, figures and `_`; where a formula uses a name, the name is one of its
  words.

  * `Text.mem_words_iff`: a word is a run that cannot be made longer on either
    side;
  * `Text.words_append_of_head`, `Text.words_append_of_getLast`: a text may be taken apart
    wherever no word is cut in two;
  * `Text.words_trim`: the blanks around a text are no part of its words.
-/
import Notebook.Proofs.Text

namespace Notebook.Text

/-! ## Names -/

/-- Whether a text is a name: an ASCII identifier. -/
def isName : Text → Bool
  | [] => false
  | c :: rest => isNameStart c && rest.all isNameChar

@[simp] theorem isName_cons {c : Char} {rest : Text} :
    isName (c :: rest) ↔ isNameStart c ∧ ∀ d ∈ rest, isNameChar d := by
  simp [isName]

theorem isNameChar_of_isNameStart {c : Char} (h : isNameStart c) : isNameChar c := by
  simp [isNameChar, h]

theorem isNameChar_of_isName {t : Text} (h : isName t) : ∀ c ∈ t, isNameChar c := by
  cases t with
  | nil => exact List.forall_mem_nil _
  | cons c rest =>
    obtain ⟨hc, hrest⟩ := isName_cons.1 h
    exact List.forall_mem_cons.2 ⟨isNameChar_of_isNameStart hc, hrest⟩

theorem ne_nil_of_isName {t : Text} (h : isName t) : t ≠ [] := by
  rintro rfl
  cases h

theorem isBlank_of_isNameChar {c : Char} (h : isNameChar c) : isBlank c = false := by
  have hrange : (97 ≤ c.toNat ∧ c.toNat ≤ 122) ∨ (65 ≤ c.toNat ∧ c.toNat ≤ 90) ∨
      c.toNat = 95 ∨ (48 ≤ c.toNat ∧ c.toNat ≤ 57) := by
    simp only [isNameChar, isNameStart, isFigure, Bool.or_eq_true, Bool.and_eq_true,
      decide_eq_true_eq, beq_iff_eq] at h
    rcases h with ((h | h) | rfl) | h
    · exact .inl h
    · exact .inr (.inl h)
    · exact .inr (.inr (.inl rfl))
    · exact .inr (.inr (.inr h))
  simp only [isBlank, Bool.or_eq_false_iff, Bool.and_eq_false_iff, decide_eq_false_iff_not,
    beq_eq_false_iff_ne]
  omega

theorem trim_of_isName {t : Text} (h : isName t) : trim t = t := by
  have hblank : ∀ c ∈ t, isBlank c = false := fun c hc =>
    isBlank_of_isNameChar (isNameChar_of_isName h c hc)
  exact trim_eq_self (fun c hc => hblank c (List.mem_of_mem_head? hc))
    fun c hc => hblank c (List.mem_of_getLast? hc)

/-! ## Words -/

/-- The words of a text, in order: its longest runs of letters, figures and `_`. -/
def words (t : Text) : List Text :=
  (t.splitOnP fun c => !isNameChar c).filter fun w => !w.isEmpty

@[simp] theorem words_nil : words [] = [] := rfl

theorem words_append_cons {c : Char} (hc : isNameChar c = false) (l r : Text) :
    words (l ++ c :: r) = words l ++ words r := by
  rw [words, List.splitOnP_append_cons _ _ (by simp [hc]), List.filter_append]
  rfl

theorem words_cons {c : Char} (hc : isNameChar c = false) (t : Text) : words (c :: t) = words t :=
  words_append_cons hc [] t

theorem words_of_forall {t : Text} (ht : ∀ c ∈ t, isNameChar c) (hne : t ≠ []) :
    words t = [t] := by
  rw [words, List.splitOnP_eq_singleton fun c hc => by simp [ht c hc]]
  simp [hne]

theorem words_eq_nil {t : Text} (ht : ∀ c ∈ t, isNameChar c = false) : words t = [] := by
  induction t with
  | nil => rfl
  | cons c t ih =>
    rw [words_cons (ht c (by simp)), ih fun d hd => ht d (by simp [hd])]

/-- No word goes on where something else than a letter, a figure or `_` follows. -/
theorem words_append_of_head {r : Text} (hr : ∀ c ∈ r.head?, isNameChar c = false) (l : Text) :
    words (l ++ r) = words l ++ words r := by
  cases r with
  | nil => simp
  | cons c r => rw [words_append_cons (hr c rfl), words_cons (hr c rfl)]

/-- No word goes on where something else than a letter, a figure or `_` came before. -/
theorem words_append_of_getLast {l : Text} (hl : ∀ c ∈ l.getLast?, isNameChar c = false)
    (r : Text) : words (l ++ r) = words l ++ words r := by
  rcases List.eq_nil_or_concat' l with rfl | ⟨l, c, rfl⟩
  · simp
  · have hc : isNameChar c = false := hl c (by simp)
    rw [List.append_assoc, List.singleton_append, words_append_cons hc, words_append_cons hc,
      words_nil, List.append_nil]

theorem words_trim (t : Text) : words (trim t) = words t := by
  obtain ⟨g, g', hg, hg', ht⟩ := exists_trim t
  have hblank : ∀ {c : Char}, isBlank c → isNameChar c = false := fun h => by
    by_contra hc
    simp [isBlank_of_isNameChar (by simpa using hc)] at h
  have hfirst : ∀ c ∈ g.getLast?, isNameChar c = false := fun c hc =>
    hblank (hg c (List.mem_of_getLast? hc))
  have hlast : ∀ c ∈ g'.head?, isNameChar c = false := fun c hc =>
    hblank (hg' c (List.mem_of_mem_head? hc))
  conv_rhs => rw [ht]
  rw [words_append_of_head hlast, words_append_of_getLast hfirst,
    words_eq_nil fun c hc => hblank (hg c hc), words_eq_nil fun c hc => hblank (hg' c hc)]
  simp

/-- **A word is a longest run** of letters, figures and `_`: it stands in the text
    with none of these right before it or after it. -/
theorem mem_words_iff {w t : Text} :
    w ∈ words t ↔ w ≠ [] ∧ (∀ c ∈ w, isNameChar c) ∧ ∃ l r, t = l ++ w ++ r ∧
      (∀ c ∈ l.getLast?, isNameChar c = false) ∧ ∀ c ∈ r.head?, isNameChar c = false := by
  rw [words, List.mem_filter, mem_splitOnP_iff]
  simp only [Bool.not_eq_false', Bool.not_eq_true', List.isEmpty_eq_false_iff]
  exact and_comm

theorem trim_mem_words {t : Text} (h : isName (trim t)) : trim t ∈ words t := by
  rw [← words_trim, words_of_forall (isNameChar_of_isName h) (ne_nil_of_isName h)]
  simp

end Notebook.Text
