/-
  Spellings put together, and trimmed.

  No token has a blank in it.  So the texts of tokens can be put one after the other,
  and what trimming takes off a spelling is never a part of a token.

  * `Token.isBlank_of_mem_spelling`: no blank is in a token;
  * `Token.Spelled.append`, `Token.Spelled.trim`: spellings one after the other, and a
    spelling without its blanks;
  * `Formula.ofText_of_spelled`: the text of the tokens of a formula is read as that
    formula.
-/
import Notebook.Proofs.Grammar
import Notebook.Proofs.Word

namespace Notebook

theorem Text.isWordChar_of_isNameChar {c : Char} (h : isNameChar c) : isWordChar c := by
  simp [isWordChar, h]

theorem Text.isBlank_of_isWordChar {c : Char} (h : isWordChar c) : isBlank c = false := by
  simp only [isWordChar, Bool.or_eq_true, beq_iff_eq] at h
  rcases h with h | rfl
  · exact isBlank_of_isNameChar h
  · decide

namespace Token

theorem isBlank_of_isGap {c : Char} (h : isGap c) : Text.isBlank c := by
  simp only [isGap, Bool.or_eq_true, beq_iff_eq] at h
  rcases h with rfl | rfl <;> decide

theorem isBlank_of_mem_spelling {token : Token} {w : Text} (h : Spelling token w) :
    ∀ c ∈ w, Text.isBlank c = false := by
  cases h with
  | number hn =>
    intro c hc
    rcases Numeral.mem_spelling hn c hc with h | rfl | rfl
    · exact Text.isBlank_of_isWordChar h
    · decide
    · decide
  | name hc hw =>
    refine List.forall_mem_cons.2 ⟨?_, fun d hd => Text.isBlank_of_isNameChar (hw d hd)⟩
    exact Text.isBlank_of_isNameChar (Text.isNameChar_of_isNameStart hc)
  | operator op => cases op <;> simp [Operator.symbol, Text.isBlank]
  | opening | closing => simp [Text.isBlank]

theorem Spelling.ne_nil {token : Token} {w : Text} (h : Spelling token w) : w ≠ [] := by
  cases h with
  | number hn =>
    obtain ⟨c, w, rfl, -⟩ := numeral_head hn
    exact List.cons_ne_nil c w
  | name | operator | opening | closing => exact List.cons_ne_nil _ _

theorem Spelling.isName {n w : Text} (h : Spelling (.name n) w) : Text.isName n := by
  cases h with
  | name hc hw => exact Text.isName_cons.2 ⟨hc, hw⟩

namespace Spelled

theorem exists_spelling {tokens : List Token} {t : Text} (h : Spelled tokens t) :
    ∀ token ∈ tokens, ∃ w, Spelling token w := by
  induction h with
  | nil => exact List.forall_mem_nil _
  | cons _ hw _ ih => exact List.forall_mem_cons.2 ⟨⟨_, hw⟩, ih⟩

theorem gaps {g : Text} (hg : ∀ c ∈ g, isGap c) {tokens : List Token} {t : Text}
    (h : Spelled tokens t) : Spelled tokens (g ++ t) := by
  induction g with
  | nil => exact h
  | cons c g ih =>
    obtain ⟨hc, hg⟩ := List.forall_mem_cons.1 hg
    exact spelled_gap hc (ih hg)

theorem append {tokens tokens' : List Token} {t t' : Text} (h : Spelled tokens t)
    (h' : Spelled tokens' t') : Spelled (tokens ++ tokens') (t ++ t') := by
  induction h with
  | nil hg => exact gaps hg h'
  | cons hg hw _ ih =>
    rw [List.append_assoc, List.cons_append]
    exact .cons hg hw ih

theorem singleton {token : Token} {w : Text} (hw : Spelling token w) : Spelled [token] w := by
  have := spelled_cons hw (.nil (List.forall_mem_nil _))
  rwa [List.append_nil] at this

theorem trimStart {tokens : List Token} {t : Text} (h : Spelled tokens t) :
    Spelled tokens (Text.trimStart t) := by
  cases h with
  | nil hg =>
    rw [Text.trimStart, List.dropWhile_eq_nil_iff.2 fun c hc => isBlank_of_isGap (hg c hc)]
    exact .nil (List.forall_mem_nil _)
  | @cons g w t token tokens hg hw ht =>
    obtain ⟨c, w, rfl⟩ := List.exists_cons_of_ne_nil hw.ne_nil
    have hc : ¬ Text.isBlank c := by simp [isBlank_of_mem_spelling hw c]
    rw [List.append_assoc, Text.trimStart_append fun c hc => isBlank_of_isGap (hg c hc),
      List.cons_append, Text.trimStart, List.dropWhile_cons_of_neg hc, ← List.cons_append]
    exact spelled_cons hw ht

theorem trimEnd {tokens : List Token} {t : Text} (h : Spelled tokens t) :
    Spelled tokens (Text.trimEnd t) := by
  induction h with
  | @nil g hg =>
    have hnil : Text.trimEnd ([] ++ g) = Text.trimEnd [] :=
      Text.trimEnd_append (fun c hc => isBlank_of_isGap (hg c hc)) []
    rw [List.nil_append] at hnil
    rw [hnil]
    exact .nil (List.forall_mem_nil _)
  | @cons g w t token tokens hg hw _ ih =>
    obtain ⟨g', hg', ht⟩ := Text.exists_trimEnd t
    have hend : Text.trimEnd (g ++ w ++ Text.trimEnd t) = g ++ w ++ Text.trimEnd t := by
      refine List.rdropWhile_eq_self_iff.2 fun hne => ?_
      by_cases hnil : Text.trimEnd t = []
      · simp only [hnil, List.append_nil]
        rw [List.getLast_append_of_ne_nil _ hw.ne_nil]
        simp [isBlank_of_mem_spelling hw _ (List.getLast_mem hw.ne_nil)]
      · rw [List.getLast_append_of_ne_nil _ hnil]
        exact List.rdropWhile_last_not _ _ hnil
    have htrim : Text.trimEnd (g ++ w ++ t) = g ++ w ++ Text.trimEnd t := by
      conv_lhs => rw [ht, ← List.append_assoc, Text.trimEnd_append hg', hend]
    rw [htrim]
    exact .cons hg hw ih

/-- A spelling without the blanks at its ends spells the same tokens. -/
theorem trim {tokens : List Token} {t : Text} (h : Spelled tokens t) :
    Spelled tokens (Text.trim t) :=
  h.trimStart.trimEnd

end Spelled

end Token

theorem Formula.ofText_of_spelled {tokens : List Token} {t : Text} {e : Formula}
    (ht : Token.Spelled tokens t) (h : Derives .sum tokens e) : ofText t = .ok e :=
  ofText_eq_ok_iff.2 ⟨tokens, ht.trim, h⟩

end Notebook
