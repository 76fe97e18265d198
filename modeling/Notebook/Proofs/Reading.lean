/-
  What a formula reads of the names bound above it.

  The legacy grammar looks up any piece of a text that it comes across, the
  standard grammar the names it finds.  In both only the words of the formula can
  be found to be bound, as long as nothing but names is bound at all.  So two
  notebooks that agree on these words give the formula the same value, or the same
  fault.

  * `Cutting.evaluate_congr`, `Formula.evaluate_congr`: this for each grammar;
  * `Entry.reads`, `Entry.status_congr`: what becomes of a line depends on the words
    of its formula, and on no other name.
-/
import Notebook.Proofs.Entry
import Notebook.Proofs.Grammar
import Notebook.Proofs.Value

namespace Notebook

/-! ## The legacy grammar -/

namespace Cutting

theorem pieces_eq (b : Bindings) (op : Operator) (t : Text) :
    pieces b op t =
      match Text.cutAt? op.symbol t with
      | none => ([], t)
      | some (left, right) =>
        match operand? b (Text.trimStart right) with
        | some _ => ([left], right)
        | none => (left :: (pieces b op right).1, (pieces b op right).2) := by
  rw [pieces]
  split
  · next h => rw [h]
  · next left right h =>
    cases ho : operand? b (Text.trimStart right) <;> simp only [h, ho]

theorem isNameChar_symbol (op : Operator) : Text.isNameChar op.symbol = false := by
  cases op <;> decide

theorem words_of_cutAt? {op : Operator} {t l r : Text}
    (h : Text.cutAt? op.symbol t = some (l, r)) : Text.words t = Text.words l ++ Text.words r := by
  obtain ⟨-, rfl⟩ := Text.cutAt?_eq_some_iff.1 h
  exact Text.words_append_cons (isNameChar_symbol op) l r

/-- No piece has a word that the text does not have. -/
theorem words_pieces (b : Bindings) (op : Operator) (t : Text) :
    (∀ left ∈ (pieces b op t).1, Text.words left ⊆ Text.words t) ∧
      Text.words (pieces b op t).2 ⊆ Text.words t := by
  fun_induction pieces b op t with
  | case1 t => exact ⟨List.forall_mem_nil _, List.Subset.refl _⟩
  | case2 t l r hcut =>
    rw [words_of_cutAt? hcut]
    exact ⟨by simp, List.subset_append_right _ _⟩
  | case3 t l r hcut _ more last hp ih =>
    rw [hp] at ih
    rw [words_of_cutAt? hcut]
    refine ⟨List.forall_mem_cons.2 ⟨List.subset_append_left _ _, fun left hleft => ?_⟩, ?_⟩
    · exact List.Subset.trans (ih.1 left hleft) (List.subset_append_right _ _)
    · exact List.Subset.trans ih.2 (List.subset_append_right _ _)

variable {b b' : Bindings} (hb : b.Named) (hb' : b'.Named)
include hb hb'

/-- A text that is looked up without its blanks is found only if it is a name, and
    then it is a word. -/
theorem operand?_congr {t : Text} (h : ∀ w ∈ Text.words t, b.get? w = b'.get? w) :
    operand? b (Text.trim t) = operand? b' (Text.trim t) := by
  by_cases hn : Text.isName (Text.trim t)
  · rw [operand?, operand?, h _ (Text.trim_mem_words hn)]
  · rw [hb.operand?_eq hn, hb'.operand?_eq hn]

theorem pieces_congr (op : Operator) {t : Text} (ht : Text.trimEnd t = t)
    (h : ∀ w ∈ Text.words t, b.get? w = b'.get? w) : pieces b op t = pieces b' op t := by
  induction hn : t.length using Nat.strong_induction_on generalizing t with
  | h n ih =>
    subst hn
    rw [pieces_eq, pieces_eq b']
    cases hcut : Text.cutAt? op.symbol t with
    | none => rfl
    | some p =>
      obtain ⟨left, right⟩ := p
      have hlt := (Text.length_lt_of_cutAt? hcut).2
      have hright : Text.trimEnd right = right := Text.trimEnd_of_cutAt? ht hcut
      have hwords : ∀ w ∈ Text.words right, b.get? w = b'.get? w := fun w hw =>
        h w (by rw [words_of_cutAt? hcut]; exact List.mem_append_right _ hw)
      dsimp only
      rw [Text.trimStart_eq_trim hright, operand?_congr hb hb' hwords,
        ih _ hlt hright hwords rfl]

theorem value_congr (limit levels : Nat) {t : Text}
    (h : ∀ w ∈ Text.words t, b.get? w = b'.get? w) :
    value b limit levels t = value b' limit levels t := by
  induction levels generalizing t with
  | zero => rfl
  | succ levels ih =>
    have htrim : ∀ w ∈ Text.words (Text.trim t), b.get? w = b'.get? w := by
      rwa [Text.words_trim]
    rw [value_succ, value_succ, operand?_congr hb hb' h]
    cases operand? b' (Text.trim t) with
    | some m => rfl
    | none =>
      cases operator? (Text.trim t) with
      | none => rfl
      | some op =>
        have hp := pieces_congr hb hb' op (Text.trimEnd_trim t) htrim
        obtain ⟨hlefts, hlast⟩ := words_pieces b' op (Text.trim t)
        dsimp only
        rw [hp]
        exact chain_congr (fun left hleft => ih fun w hw => htrim w (hlefts left hleft hw))
          (ih fun w hw => htrim w (hlast hw))

/-- **The legacy grammar reads the words of a text only.** -/
theorem evaluate_congr (limit : Nat) {t : Text}
    (h : ∀ w ∈ Text.words t, b.get? w = b'.get? w) : evaluate b limit t = evaluate b' limit t :=
  value_congr hb hb' limit limit h

end Cutting

/-! ## The standard grammar -/

namespace Formula

/-- The names that a formula uses. -/
def names : Formula → List Text
  | number _ => []
  | name n => [n]
  | negate inner => inner.names
  | binary left _ right => left.names ++ right.names

theorem value_congr {b b' : Bindings} (e : Formula)
    (h : ∀ n ∈ e.names, b.get? n = b'.get? n) : e.value b = e.value b' := by
  induction e with
  | number x => rfl
  | name n => rw [value, value, h n (List.mem_singleton_self n)]
  | negate inner ih => rw [value, value, ih h]
  | binary left op right ihl ihr =>
    have hl := ihl fun n hn => h n (List.mem_append_left _ hn)
    have hr := ihr fun n hn => h n (List.mem_append_right _ hn)
    by_cases hop : op = .power
    · subst hop
      rw [value, value, hl, hr]
    · rw [value_binary hop, value_binary hop, hl, hr]

theorem names_of_derives {k : Phrase} {ts : List Token} {e : Formula} (h : Derives k ts e) :
    ∀ n ∈ e.names, Token.name n ∈ ts := by
  induction h with
  | sum _ ih | product _ ih | unary _ ih | power _ ih => exact ih
  | sumOf _ _ _ ihl ihr | productOf _ _ _ ihl ihr | powerOf _ _ ihl ihr =>
    intro n hn
    rcases List.mem_append.1 hn with hn | hn
    · exact List.mem_append_left _ (ihl n hn)
    · exact List.mem_append_right _ (List.mem_cons_of_mem _ (ihr n hn))
  | negate _ ih | affirm _ ih => exact fun n hn => List.mem_cons_of_mem _ (ih n hn)
  | number => exact List.forall_mem_nil _
  | name m =>
    intro n hn
    obtain rfl : n = m := List.mem_singleton.1 hn
    exact List.mem_singleton_self _
  | brackets _ ih =>
    exact fun n hn => List.mem_append_left _ (List.mem_cons_of_mem _ (ih n hn))

end Formula

namespace Token

theorem isNameChar_of_not_isWordChar {c : Char} (h : Text.isWordChar c = false) :
    Text.isNameChar c = false := by
  simp only [Text.isWordChar, Bool.or_eq_false_iff] at h
  exact h.1

/-- What follows a token has its own words, and the token before it takes nothing
    away from them. -/
theorem words_of_spelling {token : Token} {w rest : Text} (h : Spelling token w)
    (hrest : token.isWord → Text.EndsWord rest) :
    Text.words (w ++ rest) = Text.words w ++ Text.words rest := by
  have hword : token.isWord → Text.words (w ++ rest) = Text.words w ++ Text.words rest := fun hw =>
    Text.words_append_of_head (fun c hc => isNameChar_of_not_isWordChar (hrest hw c hc)) w
  have hsymbol : ∀ {c : Char}, Text.isNameChar c = false →
      Text.words ([c] ++ rest) = Text.words [c] ++ Text.words rest := fun {c} hc =>
    Text.words_append_of_getLast (by simpa using hc) rest
  cases h with
  | number hn => exact hword rfl
  | name hc hw => exact hword rfl
  | operator op => exact hsymbol (Cutting.isNameChar_symbol op)
  | opening | closing => exact hsymbol rfl

theorem mem_words_of_spelled {tokens : List Token} {t : Text} (h : Spelled tokens t)
    (hs : Separated tokens) {n : Text} (hn : name n ∈ tokens) : n ∈ Text.words t := by
  induction h with
  | nil => cases hn
  | @cons g w t token tokens hg hw ht ih =>
    obtain ⟨hhead, hs⟩ := List.isChain_cons.1 hs
    have hend : token.isWord → Text.EndsWord t := fun hword =>
      endsWord_of_spelled ht fun b hb => by simpa [hword] using hhead b hb
    have hgap : ∀ c ∈ g.getLast?, Text.isNameChar c = false := fun c hc =>
      isNameChar_of_not_isWordChar (isWordChar_of_isGap (hg c (List.mem_of_getLast? hc)))
    rw [List.append_assoc, Text.words_append_of_getLast hgap, words_of_spelling hw hend]
    refine List.mem_append_right _ (List.mem_append.2 ?_)
    rcases List.mem_cons.1 hn with rfl | hn
    · left
      cases hw with
      | name hc hw =>
        have hname := Text.isName_cons.2 ⟨hc, hw⟩
        rw [Text.words_of_forall (Text.isNameChar_of_isName hname) (Text.ne_nil_of_isName hname)]
        exact List.mem_singleton_self _
    · exact .inr (ih hs hn)

end Token

/-- **The standard grammar reads the words of a text only.** -/
theorem Formula.evaluate_congr {b b' : Bindings} (limit : Nat) {t : Text}
    (h : ∀ w ∈ Text.words t, b.get? w = b'.get? w) : evaluate b limit t = evaluate b' limit t := by
  rw [evaluate, evaluate]
  cases ho : ofText t with
  | error fault => rfl
  | ok e =>
    obtain ⟨tokens, hspelled, hd⟩ := ofText_eq_ok_iff.1 ho
    have hnames : ∀ n ∈ e.names, b.get? n = b'.get? n := fun n hn => by
      refine h n ?_
      rw [← Text.words_trim]
      exact Token.mem_words_of_spelled hspelled (separated_of_derives hd)
        (names_of_derives hd n hn)
    dsimp only
    rw [value_congr e hnames]

/-! ## Lines -/

section
variable {b b' : Bindings} (hb : b.Named) (hb' : b'.Named)
include hb hb'

theorem evaluateFormula_congr (settings : Settings) {t : Text}
    (h : ∀ w ∈ Text.words t, b.get? w = b'.get? w) :
    evaluateFormula settings b t = evaluateFormula settings b' t := by
  unfold evaluateFormula
  cases settings.grammar with
  | legacy => exact Cutting.evaluate_congr hb hb' _ h
  | standard => exact Formula.evaluate_congr _ h

namespace Entry

omit hb hb' in
/-- The words that the formula of an entry reads. -/
def reads : Entry → List Text
  | derivation _ formula => Text.words formula
  | blank | definition .. | unrecognized => []

/-- **What becomes of a line** depends on the words of its formula. -/
theorem status_congr (settings : Settings) (entry : Entry)
    (h : ∀ w ∈ entry.reads, b.get? w = b'.get? w) :
    entry.status settings b = entry.status settings b' := by
  cases entry with
  | derivation name formula => rw [status, status, evaluateFormula_congr hb hb' settings h]
  | blank | definition | unrecognized => rfl

end Entry

end

end Notebook
