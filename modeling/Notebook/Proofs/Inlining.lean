/-
  An intermediate result by its name, and written out in place.

  A formula may be named by a line of its own and be referred to, or be written out in
  brackets wherever the name stands.  In the standard grammar that is the same: the
  formulas have the same value, or the same fault.

  * `Token.lexemes`: a text taken apart into its tokens and gaps (`Token.flatMap_lexemes`,
    `Token.filterMap_lexemes`), and `Token.inline`: a name token written out;
  * `Formula.replace`: a name replaced in a tree; `Formula.Derives.replace` and
    `Token.spelled_inline`: writing a name out in the text replaces it in the tree;
  * `Formula.value_replace`: replacing a name by a formula is binding it to its value;
  * `Formula.evaluate_inline`: both, for texts.
-/
import Notebook.Proofs.Reading
import Notebook.Proofs.Spelling

namespace Notebook

/-! ## Texts taken apart -/

namespace Token

/-- A text taken apart: its tokens, each with what it is written as, and the gaps between
    them, character by character. -/
def lexemes : Text → List (Option Token × Text)
  | [] => []
  | c :: rest =>
    if isGap c then (none, [c]) :: lexemes rest
    else
      match symbol? c with
      | some token => (some token, [c]) :: lexemes rest
      | none =>
        if Text.isNameStart c then
          let name := c :: rest.takeWhile Text.isNameChar
          (some (.name name), name) :: lexemes (rest.dropWhile Text.isNameChar)
        else
          match _h : Numeral.scan? (c :: rest) with
          | some (n, left) =>
            (some (.number n), (c :: rest).take ((c :: rest).length - left.length)) :: lexemes left
          | none => (some (.stray c), [c]) :: lexemes rest
termination_by t => t.length
decreasing_by
  all_goals simp only [List.length_cons]
  · omega
  · omega
  · have := Text.length_dropWhile_le Text.isNameChar rest
    omega
  · have := Numeral.length_lt_of_scan? _h
    simpa using this
  · omega

theorem take_length_sub (w left : Text) :
    (w ++ left).take ((w ++ left).length - left.length) = w := by
  rw [List.length_append, Nat.add_sub_cancel, List.take_left]

theorem flatMap_lexemes (t : Text) : (lexemes t).flatMap Prod.snd = t := by
  fun_induction lexemes t with
  | case1 => rfl
  | case2 c rest _ ih | case3 c rest _ token _ ih | case6 c rest _ _ _ _ ih =>
    rw [List.flatMap_cons, ih]
    rfl
  | case4 c rest _ _ _ name ih =>
    rw [List.flatMap_cons, ih, List.cons_append, List.takeWhile_append_dropWhile]
  | case5 c rest _ _ _ n left hscan ih =>
    obtain ⟨w, -, ht⟩ := Numeral.spelling_of_scan? hscan
    rw [List.flatMap_cons, ih, ht, take_length_sub]

section
variable {c : Char} (hgap : isGap c = false) (hsymbol : symbol? c = none)
  (hname : Text.isNameStart c = false)
include hgap hsymbol hname

theorem lexemes_number {rest left : Text} {n : Numeral}
    (hscan : Numeral.scan? (c :: rest) = some (n, left)) :
    lexemes (c :: rest) =
      (some (.number n), (c :: rest).take ((c :: rest).length - left.length)) :: lexemes left := by
  rw [lexemes]
  simp only [hgap, hsymbol, hname, Bool.false_eq_true, if_false]
  split <;> simp_all

theorem lexemes_stray {rest : Text} (hscan : Numeral.scan? (c :: rest) = none) :
    lexemes (c :: rest) = (some (.stray c), [c]) :: lexemes rest := by
  rw [lexemes]
  simp only [hgap, hsymbol, hname, Bool.false_eq_true, if_false]
  split <;> simp_all

end

theorem filterMap_lexemes (t : Text) : (lexemes t).filterMap Prod.fst = ofText t := by
  fun_induction ofText t with
  | case1 => simp [lexemes]
  | case2 c rest hgap ih => simp [lexemes, hgap, ih]
  | case3 c rest hgap token hsymbol ih => simp [lexemes, hgap, hsymbol, ih]
  | case4 c rest hgap hsymbol hname ih => simp [lexemes, hgap, hsymbol, hname, ih]
  | case5 c rest hgap hsymbol hname n left hscan ih =>
    rw [Bool.not_eq_true] at hgap hname
    rw [lexemes_number hgap hsymbol hname hscan, List.filterMap_cons, ih]
  | case6 c rest hgap hsymbol hname hscan ih =>
    rw [Bool.not_eq_true] at hgap hname
    rw [lexemes_stray hgap hsymbol hname hscan, List.filterMap_cons, ih]

/-- The first lexeme is the token that the start of a text spells, if that cannot be read
    on. -/
theorem lexemes_spelling {token : Token} {w rest : Text} (h : Spelling token w)
    (hrest : token.isWord → Text.EndsWord rest) :
    lexemes (w ++ rest) = (some token, w) :: lexemes rest := by
  cases h with
  | @number n w hn =>
    obtain ⟨c, w', rfl, hc, hs⟩ := numeral_head hn
    have hscan := Numeral.scan?_append hn (hrest rfl)
    rw [List.cons_append] at hscan ⊢
    rw [lexemes_number (isGap_of_isWordChar hc) (symbol?_of_isWordChar hc) hs hscan,
      ← List.cons_append, take_length_sub]
  | @name c w hc hw =>
    have hword : Text.isWordChar c :=
      Text.isWordChar_of_isNameChar (Text.isNameChar_of_isNameStart hc)
    have hend : ∀ d ∈ rest.head?, Text.isNameChar d = false := fun d hd =>
      isNameChar_of_not_isWordChar (hrest rfl d hd)
    rw [List.cons_append, lexemes, isGap_of_isWordChar hword, symbol?_of_isWordChar hword, hc,
      Text.takeWhile_append hw hend, Text.dropWhile_append hw hend]
    rfl
  | operator op => cases op <;> rw [List.singleton_append, lexemes] <;> rfl
  | opening | closing => rw [List.singleton_append, lexemes]; rfl

/-- A text with every name token `n` written out as the text `w` in brackets. -/
def inline (n w t : Text) : Text :=
  (lexemes t).flatMap fun lexeme =>
    if lexeme.1 = some (.name n) then '(' :: w ++ [')'] else lexeme.2

theorem symbol?_of_isBlank {c : Char} (h : Text.isBlank c) : symbol? c = none := by
  cases hs : symbol? c with
  | none => rfl
  | some token =>
    have := isBlank_of_mem_spelling (spelling_of_symbol? hs) c (List.mem_singleton_self c)
    simp [h] at this

theorem scan?_of_isBlank {c : Char} (h : Text.isBlank c) (t : Text) :
    Numeral.scan? (c :: t) = none := by
  cases hs : Numeral.scan? (c :: t) with
  | none => rfl
  | some p =>
    obtain ⟨w, hw, ht⟩ := Numeral.spelling_of_scan? hs
    obtain ⟨d, w', rfl, hd, -⟩ := numeral_head hw
    obtain ⟨rfl, -⟩ := List.cons.inj ht
    simp [Text.isBlank_of_isWordChar hd] at h

theorem endsWord_append {t g : Text} (ht : Text.EndsWord t) (hg : ∀ c ∈ g, Text.isBlank c) :
    Text.EndsWord (t ++ g) := by
  cases t with
  | nil =>
    intro c hc
    by_contra hword
    rw [Bool.not_eq_false] at hword
    simpa [Text.isBlank_of_isWordChar hword] using hg c (List.mem_of_mem_head? hc)
  | cons c t => exact ht

section
variable (n w : Text)

/-- Blanks are left where they are, also those that are no gaps. -/
theorem inline_blank {c : Char} (h : Text.isBlank c) (t : Text) :
    inline n w (c :: t) = c :: inline n w t := by
  by_cases hgap : isGap c
  · rw [inline, lexemes, if_pos hgap]
    rfl
  · have hname : Text.isNameStart c = false := by
      by_contra hc
      rw [Bool.not_eq_false] at hc
      simp [Text.isBlank_of_isNameChar (Text.isNameChar_of_isNameStart hc)] at h
    rw [inline, lexemes_stray (by simpa using hgap) (symbol?_of_isBlank h) hname
      (scan?_of_isBlank h t)]
    rfl

theorem inline_blanks {g : Text} (hg : ∀ c ∈ g, Text.isBlank c) (t : Text) :
    inline n w (g ++ t) = g ++ inline n w t := by
  induction g with
  | nil => rfl
  | cons c g ih =>
    obtain ⟨hc, hg⟩ := List.forall_mem_cons.1 hg
    rw [List.cons_append, inline_blank n w hc, ih hg, List.cons_append]

theorem inline_spelling {token : Token} {v rest : Text} (h : Spelling token v)
    (hrest : token.isWord → Text.EndsWord rest) :
    inline n w (v ++ rest) =
      (if token = .name n then '(' :: w ++ [')'] else v) ++ inline n w rest := by
  rw [inline, lexemes_spelling h hrest, List.flatMap_cons]
  simp only [Option.some.injEq]
  rfl

end

/-- A token with the name `n` written out as the tokens `ws` in brackets. -/
def replace (n : Text) (ws : List Token) (token : Token) : List Token :=
  if token = .name n then .opening :: ws ++ [.closing] else [token]

theorem replace_operator (n : Text) (ws : List Token) (op : Operator) :
    replace n ws (.operator op) = [.operator op] := rfl

theorem replace_opening (n : Text) (ws : List Token) : replace n ws .opening = [.opening] := rfl

theorem replace_closing (n : Text) (ws : List Token) : replace n ws .closing = [.closing] := rfl

theorem spelled_replace {n w : Text} {ws : List Token} (hw : Spelled ws w) {token : Token}
    {v : Text} (h : Spelling token v) :
    Spelled (replace n ws token) (if token = .name n then '(' :: w ++ [')'] else v) := by
  rw [replace]
  split
  · exact spelled_cons .opening (hw.append (.singleton .closing))
  · exact .singleton h

/-- **Writing a name out in a text** writes it out among the tokens of the text; blanks
    after the text stay. -/
theorem spelled_inline {tokens : List Token} {t : Text} (h : Spelled tokens t)
    (hs : Separated tokens) (n : Text) {w : Text} {ws : List Token} (hw : Spelled ws w)
    {g : Text} (hg : ∀ c ∈ g, Text.isBlank c) :
    ∃ t', inline n w (t ++ g) = t' ++ g ∧ Spelled (tokens.flatMap (replace n ws)) t' := by
  induction h with
  | @nil gaps hgaps =>
    refine ⟨gaps, ?_, .nil hgaps⟩
    have hblank : ∀ c ∈ gaps ++ g, Text.isBlank c :=
      List.forall_mem_append.2 ⟨fun c hc => isBlank_of_isGap (hgaps c hc), hg⟩
    have := inline_blanks n w hblank []
    simpa [inline, lexemes] using this
  | @cons gaps v t token tokens hgaps hv ht ih =>
    obtain ⟨hhead, hs⟩ := List.isChain_cons.1 hs
    obtain ⟨t', ht', hspelled⟩ := ih hs
    have hend : token.isWord → Text.EndsWord (t ++ g) := fun hword => by
      have ht := endsWord_of_spelled ht fun b hb => by simpa [hword] using hhead b hb
      exact endsWord_append ht hg
    refine ⟨gaps ++ ((if token = .name n then '(' :: w ++ [')'] else v) ++ t'), ?_, ?_⟩
    · have hblank : ∀ c ∈ gaps, Text.isBlank c := fun c hc => isBlank_of_isGap (hgaps c hc)
      simp only [List.append_assoc, inline_blanks n w hblank, inline_spelling n w hv hend, ht']
    · rw [List.flatMap_cons]
      exact Spelled.gaps hgaps ((spelled_replace hw hv).append hspelled)

end Token

namespace Formula

/-! ## Trees -/

/-- A formula with every name `n` replaced by the formula `r`. -/
def replace (e : Formula) (n : Text) (r : Formula) : Formula :=
  match e with
  | number x => number x
  | name k => if k = n then r else name k
  | negate inner => negate (inner.replace n r)
  | binary left op right => binary (left.replace n r) op (right.replace n r)

/-- **Writing a name out among the tokens** of a phrase replaces it in the tree. -/
theorem Derives.replace {n : Text} {r : Formula} {rs : List Token} (hr : Derives .sum rs r)
    {k : Phrase} {ts : List Token} {e : Formula} (h : Derives k ts e) :
    Derives k (ts.flatMap (Token.replace n rs)) (e.replace n r) := by
  induction h with
  | sum _ ih => exact .sum ih
  | product _ ih => exact .product ih
  | unary _ ih => exact .unary ih
  | power _ ih => exact .power ih
  | sumOf hop _ _ ihl ihr =>
    rw [List.flatMap_append, List.flatMap_cons, Token.replace_operator, List.singleton_append]
    exact .sumOf hop ihl ihr
  | productOf hop _ _ ihl ihr =>
    rw [List.flatMap_append, List.flatMap_cons, Token.replace_operator, List.singleton_append]
    exact .productOf hop ihl ihr
  | negate _ ih => exact .negate ih
  | affirm _ ih => exact .affirm ih
  | powerOf _ _ ihl ihr =>
    rw [List.flatMap_append, List.flatMap_cons, Token.replace_operator, List.singleton_append]
    exact .powerOf ihl ihr
  | number m => exact .number m
  | name k =>
    rw [List.flatMap_singleton, Token.replace, Formula.replace]
    by_cases hk : k = n
    · rw [if_pos (by rw [hk]), if_pos hk]
      exact .brackets hr
    · rw [if_neg (by simpa using hk), if_neg hk]
      exact .name k
  | brackets _ ih =>
    rw [List.flatMap_append, List.flatMap_cons, List.flatMap_singleton, Token.replace_opening,
      Token.replace_closing]
    exact .brackets ih

end Formula

/-! ## Values -/

/-- A fault with the exponent that it quotes, if it does, replaced likewise. -/
def Fault.replace (n : Text) (r : Formula) : Fault → Fault
  | inexactExponent exponent => inexactExponent (exponent.replace n r)
  | fault => fault

theorem mapError_bind {α β : Type} (f : Fault → Fault) (x : Except Fault α)
    (g : α → Except Fault β) :
    (x >>= g).mapError f = x.mapError f >>= fun a => (g a).mapError f := by
  cases x <;> rfl

namespace Formula

/-- **Replacing a name by a formula is binding it** to the value of the formula. -/
theorem value_replace {b : Bindings} {n : Text} {r : Formula} {m : Measurement}
    (hr : r.value b = .ok m) (e : Formula) :
    (e.replace n r).value b = (e.value (b.bind n m)).mapError (Fault.replace n r) := by
  induction e with
  | number x => rfl
  | name k =>
    rw [replace, value, Bindings.get?_bind]
    by_cases hk : k = n
    · rw [if_pos hk, if_pos hk, hr]
      rfl
    · rw [if_neg hk, if_neg hk, value]
      cases b.get? k <;> rfl
  | negate inner ih =>
    rw [replace, value, value, ih, mapError_bind]
    rfl
  | binary left op right ihl ihr =>
    by_cases hop : op = .power
    · subst hop
      rw [replace, value, value, ihl, ihr, mapError_bind]
      congr 1
      funext base
      rw [mapError_bind]
      congr 1
      funext exponent
      split <;> rfl
    · rw [replace, value_binary hop, value_binary hop, ihl, ihr, mapError_bind]
      congr 1
      funext x
      rw [mapError_bind]
      rfl

/-- Writing a name out in a text replaces it in the formula that the text is read as. -/
theorem ofText_inline {n expr text : Text} {r e : Formula} (hr : ofText expr = .ok r)
    (he : ofText text = .ok e) :
    ofText (Token.inline n (Text.trim expr) text) = .ok (e.replace n r) := by
  obtain ⟨rs, hrs, hdr⟩ := ofText_eq_ok_iff.1 hr
  obtain ⟨ts, hts, hd⟩ := ofText_eq_ok_iff.1 he
  obtain ⟨g, g', hg, hg', htext⟩ := Text.exists_trim text
  obtain ⟨t', ht', hspelled⟩ := Token.spelled_inline hts (separated_of_derives hd) n hrs hg'
  have hinline : Token.inline n (Text.trim expr) text = g ++ t' ++ g' := by
    conv_lhs => rw [htext]
    rw [List.append_assoc, Token.inline_blanks n _ hg, ht', List.append_assoc]
  rw [hinline, ofText_eq_ok_iff, Text.trim_append hg hg']
  exact ⟨_, hspelled.trim, Derives.replace hdr hd⟩

/-- **Naming a result is the same as writing it out.**  Let the text `expr` have the value
    `m`, and let the name `n` be written out in the text of a formula, everywhere as `expr`
    without the blanks at its ends and in brackets.  The new text is read as a formula, and
    if the limit allows for both of them, it has the value that the old one has where `n`
    is bound to `m`; or else both have the same fault, except that an exponent is quoted
    with `n` written out. -/
theorem evaluate_inline {b : Bindings} {n expr text : Text} {m : Measurement} {e : Formula}
    {limit : Nat} (hexpr : evaluate b limit expr = .ok m) (htext : ofText text = .ok e) :
    let text' := Token.inline n (Text.trim expr) text
    ∃ r, ofText expr = .ok r ∧ ofText text' = .ok (e.replace n r) ∧
      ∀ limit', e.depth ≤ limit' → (e.replace n r).depth ≤ limit' →
        evaluate b limit' text' =
          (evaluate (b.bind n m) limit' text).mapError (Fault.replace n r) := by
  intro text'
  obtain ⟨r, hr, -, hvalue⟩ := evaluate_eq_ok hexpr
  have htext' : ofText text' = .ok (e.replace n r) := ofText_inline hr htext
  refine ⟨r, hr, htext', fun limit' hdepth hdepth' => ?_⟩
  simp only [evaluate, htext, htext', Nat.not_lt.2 hdepth, Nat.not_lt.2 hdepth', if_false]
  exact value_replace hvalue e

/-- The name of a difference, as the base of a power and under a sign. -/
theorem evaluate_inline_difference :
    let b := (Bindings.empty.bind "a" (.exact 5)).bind "c" (.exact 2)
    evaluate b 100 " a - c " = .ok (.exact 5 - .exact 2) ∧
    ofText "c*-d^ c + a" =
      .ok (.binary (.binary (.name "c") .multiply
        (.negate (.binary (.name "d") .power (.name "c")))) .add (.name "a")) ∧
    Token.inline "d" (Text.trim " a - c ") "c*-d^ c + a" = "c*-(a - c)^ c + a".toList ∧
    evaluate b 100 "c*-(a - c)^ c + a" =
      (evaluate (b.bind "d" (.exact 5 - .exact 2)) 100 "c*-d^ c + a").mapError
        (Fault.replace "d" (.binary (.name "a") .subtract (.name "c"))) := by
  intro b
  have hr : ofText " a - c " = .ok (.binary (.name "a") .subtract (.name "c")) := by cbv
  have hexpr : evaluate b 100 " a - c " = .ok (.exact 5 - .exact 2) := by
    rw [evaluate, hr]
    rfl
  have htext : ofText "c*-d^ c + a" =
      .ok (.binary (.binary (.name "c") .multiply
        (.negate (.binary (.name "d") .power (.name "c")))) .add (.name "a")) := by cbv
  have hinline : Token.inline "d" (Text.trim " a - c ") "c*-d^ c + a" =
    "c*-(a - c)^ c + a".toList := by decide +kernel
  obtain ⟨r, hr', -, heval⟩ := @evaluate_inline b "d" " a - c " "c*-d^ c + a" _ _ 100 hexpr htext
  obtain rfl : _ = r := Except.ok.inj (hr.symm.trans hr')
  refine ⟨hexpr, htext, hinline, ?_⟩
  rw [← hinline]
  exact heval 100 (by decide) (by decide)

end Formula

end Notebook
