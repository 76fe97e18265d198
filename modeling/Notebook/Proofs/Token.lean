/-
  How tokens are written, and the tokens of a text.

  * `Token.Spelled tokens t`: the text `t` is what the tokens are written as, with
    spaces and tabs between them but none inside of them.  A text can be spelled
    by several lists of tokens, as `12` by one number or by two;
  * `Token.ofText_of_spelled`: where no two numbers or names are neighbours, the
    tokens of a text are those that spell it;
  * `Token.spelled_ofText`: the tokens of a text spell it, unless one is stray.
-/
import Mathlib.Data.List.Chain
import Notebook.Formula.Token
import Notebook.Proofs.Numeral

namespace Notebook.Token

/-! ## Spelling -/

/-- What a token is written as.  A stray character has no spelling. -/
inductive Spelling : Token → Text → Prop
  | number {n w} : Numeral.Spelling n w → Spelling (.number n) w
  | name {c w} : Text.isNameStart c → (∀ d ∈ w, Text.isNameChar d) →
      Spelling (.name (c :: w)) (c :: w)
  | operator (op : Operator) : Spelling (.operator op) [op.symbol]
  | opening : Spelling .opening ['(']
  | closing : Spelling .closing [')']

/-- `Spelled tokens t`: the text `t` is what the tokens are written as one after
    the other, with spaces and tabs before, between and after them. -/
inductive Spelled : List Token → Text → Prop
  | nil {g} : (∀ c ∈ g, isGap c) → Spelled [] g
  | cons {g w t token tokens} : (∀ c ∈ g, isGap c) → Spelling token w → Spelled tokens t →
      Spelled (token :: tokens) (g ++ w ++ t)

/-- Whether a token is a number or a name. -/
def isWord : Token → Bool
  | number _ | name _ => true
  | operator _ | opening | closing | stray _ => false

/-- No two numbers or names are neighbours. -/
def Separated (tokens : List Token) : Prop :=
  tokens.IsChain fun a b => ¬ (a.isWord ∧ b.isWord)

/-! ## Characters -/

theorem isWordChar_of_isGap {c : Char} (h : isGap c) : Text.isWordChar c = false := by
  simp only [isGap, Bool.or_eq_true, beq_iff_eq] at h
  rcases h with rfl | rfl <;> decide

theorem isGap_of_isWordChar {c : Char} (h : Text.isWordChar c) : isGap c = false := by
  by_contra hg
  rw [Bool.not_eq_false] at hg
  simp [isWordChar_of_isGap hg] at h

theorem isWordChar_of_symbol? {c : Char} {token : Token} (h : symbol? c = some token) :
    Text.isWordChar c = false := by
  unfold symbol? at h
  split at h
  case h_8 => cases h
  all_goals decide

theorem symbol?_of_isWordChar {c : Char} (h : Text.isWordChar c) : symbol? c = none := by
  cases hs : symbol? c with
  | none => rfl
  | some token => simp [isWordChar_of_symbol? hs] at h

theorem isNameStart_of_isFigure {c : Char} (h : Text.isFigure c) :
    Text.isNameStart c = false := by
  simp only [Text.isFigure, Bool.and_eq_true, decide_eq_true_eq] at h
  have h9 : c.toNat ≤ 57 := h.2
  by_contra hs
  simp only [Text.isNameStart, Bool.not_eq_false, Bool.or_eq_true, Bool.and_eq_true,
    decide_eq_true_eq, beq_iff_eq] at hs
  rcases hs with (⟨ha, -⟩ | ⟨ha, -⟩) | rfl
  · have : 97 ≤ c.toNat := ha
    omega
  · have : 65 ≤ c.toNat := ha
    omega
  · revert h9
    decide

theorem numeral_head {n : Numeral} {w : Text} (h : Numeral.Spelling n w) :
    ∃ c w', w = c :: w' ∧ Text.isWordChar c ∧ Text.isNameStart c = false := by
  have hfigure : ∀ c, Text.isFigure c → Text.isWordChar c ∧ Text.isNameStart c = false :=
    fun c hc => ⟨Numeral.isWordChar_of_isFigure hc, isNameStart_of_isFigure hc⟩
  cases h with
  | whole hw | point hw =>
    obtain ⟨c, w, rfl⟩ := List.exists_cons_of_ne_nil hw.1
    exact ⟨c, _, rfl, hfigure c (hw.2 c (by simp))⟩
  | fraction => exact ⟨'.', _, rfl, by decide⟩

/-! ## The tokens of a spelling -/

theorem ofText_gaps {g : Text} (hg : ∀ c ∈ g, isGap c) (t : Text) :
    ofText (g ++ t) = ofText t := by
  induction g with
  | nil => rfl
  | cons c g ih =>
    rw [List.cons_append, ofText, if_pos (hg c (by simp)), ih fun d hd => hg d (by simp [hd])]

/-- The first token of a text is the one its start spells, if that cannot be read
    on. -/
theorem ofText_spelling {token : Token} {w rest : Text} (h : Spelling token w)
    (hrest : token.isWord → Text.EndsWord rest) :
    ofText (w ++ rest) = token :: ofText rest := by
  cases h with
  | number hn =>
    obtain ⟨c, w', rfl, hc, hs⟩ := numeral_head hn
    have hscan := Numeral.scan?_append hn (hrest rfl)
    rw [List.cons_append] at hscan ⊢
    rw [ofText, isGap_of_isWordChar hc, symbol?_of_isWordChar hc, hs]
    simp only [Bool.false_eq_true, if_false]
    split <;> simp_all
  | @name c w hc hw =>
    have hword : Text.isWordChar c := by simp [Text.isWordChar, Text.isNameChar, hc]
    have hend : ∀ d ∈ rest.head?, Text.isNameChar d = false := fun d hd => by
      have := hrest rfl d hd
      simp only [Text.isWordChar, Bool.or_eq_false_iff] at this
      exact this.1
    rw [List.cons_append, ofText, isGap_of_isWordChar hword, symbol?_of_isWordChar hword,
      hc, Text.takeWhile_append hw hend, Text.dropWhile_append hw hend]
    rfl
  | operator op => cases op <;> rw [List.singleton_append, ofText] <;> rfl
  | opening | closing => rw [List.singleton_append, ofText]; rfl

theorem endsWord_of_spelling {token : Token} {w : Text} (h : Spelling token w)
    (hw : token.isWord = false) (rest : Text) : Text.EndsWord (w ++ rest) := by
  rintro c hc
  cases h with
  | number | name => simp [isWord] at hw
  | operator op =>
    obtain rfl : op.symbol = c := by simpa using hc
    cases op <;> decide
  | opening | closing =>
    obtain rfl : _ = c := by simpa using hc
    decide

theorem endsWord_of_spelled {tokens : List Token} {t : Text} (h : Spelled tokens t)
    (hw : ∀ token ∈ tokens.head?, token.isWord = false) : Text.EndsWord t := by
  have hgap : ∀ {c : Char} {g t : Text}, (∀ d ∈ c :: g, isGap d) →
      Text.EndsWord (c :: g ++ t) := by
    rintro c g t hg d ⟨⟩
    exact isWordChar_of_isGap (hg c (by simp))
  cases h with
  | nil hg =>
    cases t with
    | nil => simp [Text.EndsWord]
    | cons c g => simpa using hgap (t := []) hg
  | @cons g w t token tokens hg hs ht =>
    cases g with
    | nil => exact endsWord_of_spelling hs (hw token rfl) t
    | cons c g => rw [List.append_assoc]; exact hgap hg

/-- **The tokens of a text are those that spell it**, if no two numbers or names
    are neighbours: the longest number or name at each place is the one that is
    spelled there. -/
theorem ofText_of_spelled {tokens : List Token} {t : Text} (h : Spelled tokens t)
    (hs : Separated tokens) : ofText t = tokens := by
  induction h with
  | @nil g hg =>
    have := ofText_gaps hg []
    rwa [List.append_nil, ofText] at this
  | @cons g w t token tokens hg hw ht ih =>
    obtain ⟨hhead, hs⟩ := List.isChain_cons.1 hs
    have hend : token.isWord → Text.EndsWord t := fun hword =>
      endsWord_of_spelled ht fun b hb => by simpa [hword] using hhead b hb
    rw [List.append_assoc, ofText_gaps hg, ofText_spelling hw hend, ih hs]

theorem spelled_gap {c : Char} (hc : isGap c) {tokens : List Token} {t : Text}
    (h : Spelled tokens t) : Spelled tokens (c :: t) := by
  have hcons : ∀ {g : Text}, (∀ d ∈ g, isGap d) → ∀ d ∈ c :: g, isGap d := by
    rintro g hg d hd
    rcases List.mem_cons.1 hd with rfl | hd
    · exact hc
    · exact hg d hd
  cases h with
  | nil hg => exact .nil (hcons hg)
  | cons hg hw ht => exact .cons (hcons hg) hw ht

theorem spelled_cons {token : Token} {w : Text} (hw : Spelling token w) {tokens : List Token}
    {t : Text} (h : Spelled tokens t) : Spelled (token :: tokens) (w ++ t) :=
  .cons (List.forall_mem_nil _) hw h

theorem spelling_of_symbol? {c : Char} {token : Token} (h : symbol? c = some token) :
    Spelling token [c] := by
  unfold symbol? at h
  split at h <;> cases h
  · exact .operator .add
  · exact .operator .subtract
  · exact .operator .multiply
  · exact .operator .divide
  · exact .operator .power
  · exact .opening
  · exact .closing

/-- **The tokens of a text spell it**, unless one of them is stray. -/
theorem spelled_ofText {t : Text} (h : ∀ c, stray c ∉ ofText t) : Spelled (ofText t) t := by
  fun_induction ofText t with
  | case1 => exact .nil (List.forall_mem_nil _)
  | case2 c rest hc ih => exact spelled_gap hc (ih h)
  | case3 c rest hc token htoken ih =>
    exact spelled_cons (spelling_of_symbol? htoken) (ih fun d hd => h d (by simp [hd]))
  | case4 c rest hc hsymbol hname ih =>
    have hw : ∀ d ∈ rest.takeWhile Text.isNameChar, Text.isNameChar d :=
      fun _ hd => List.mem_takeWhile_imp hd
    have := spelled_cons (.name hname hw) (ih fun d hd => h d (by simp [hd]))
    rwa [List.cons_append, List.takeWhile_append_dropWhile] at this
  | case5 c rest hc hsymbol hname n left hscan ih =>
    obtain ⟨w, hw, ht⟩ := Numeral.spelling_of_scan? hscan
    rw [ht]
    exact spelled_cons (.number hw) (ih fun d hd => h d (by simp [hd]))
  | case6 c => exact absurd (by simp) (h c)

end Notebook.Token
