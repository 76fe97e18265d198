/-
  The lexemes of JSON texts, as they are read.

  A text is cut into lexemes as far as it can be.  Where it cannot, a malformed one
  is the last: who reads them in order finds that fault when it is reached and not
  before (`Json.Lexeme.ofText`).

  A string is kept as its units, code points among which a surrogate may stand
  alone; `Text.ofUnits?` is the text they make up, if the surrogates are in pairs.
-/
import Notebook.Json
import Notebook.Numeral

namespace Notebook

/-! ## Units -/

/-- Whether a unit is the first half of a surrogate pair. -/
def isLeading (unit : Nat) : Bool := 0xD800 ≤ unit && unit < 0xDC00

/-- Whether a unit is the second half of a surrogate pair. -/
def isTrailing (unit : Nat) : Bool := 0xDC00 ≤ unit && unit < 0xE000

/-- The characters `taken`, in reverse, then those that units make up; none if a
    surrogate stands alone. -/
def Text.unite? (taken : Text) : List Nat → Option Text
  | [] => some taken.reverse
  | [unit] =>
    if isLeading unit || isTrailing unit then none
    else some (Char.ofNat unit :: taken).reverse
  | unit :: next :: rest =>
    if isLeading unit then
      if isTrailing next then
        unite? (Char.ofNat (0x10000 + 0x400 * (unit - 0xD800) + (next - 0xDC00)) :: taken) rest
      else none
    else if isTrailing unit then none
    else unite? (Char.ofNat unit :: taken) (next :: rest)

/-- The text that units make up. -/
def Text.ofUnits? (units : List Nat) : Option Text := unite? [] units

namespace Json

/-! ## Lexemes -/

/-- The brackets around arrays and objects. -/
inductive Bracket where
  | square
  | curly
  deriving DecidableEq, Repr

/-- A lexeme of a JSON text. -/
inductive Lexeme where
  | opening (b : Bracket)
  | closing (b : Bracket)
  | comma
  | colon
  | null
  | boolean
  /-- A number, its sign left out. -/
  | number (n : Numeral)
  | string (units : List Nat)
  /-- The place where the text cannot be cut any further. -/
  | malformed
  deriving DecidableEq, Repr

namespace Lexeme

/-- What may stand between lexemes. -/
def isGap (c : Char) : Bool := c == ' ' || c == '\t' || c == '\n' || c == '\r'

/-! ## Strings -/

/-- The value of a hexadecimal figure. -/
def hexFigure? (c : Char) : Option Nat :=
  if Text.isFigure c then some (c.toNat - '0'.toNat)
  else if 'a' ≤ c ∧ c ≤ 'f' then some (c.toNat - 'a'.toNat + 10)
  else if 'A' ≤ c ∧ c ≤ 'F' then some (c.toNat - 'A'.toNat + 10)
  else none

/-- The unit with these hexadecimal figures. -/
def hexUnit? (figures : Text) : Option Nat :=
  figures.foldlM (fun n c => (hexFigure? c).map (16 * n + ·)) 0

/-- The character that stands for another one after a backslash. -/
def unescape? : Char → Option Char
  | '"' => some '"'
  | '\\' => some '\\'
  | '/' => some '/'
  | 'b' => some '\x08'
  | 'f' => some '\x0c'
  | 'n' => some '\n'
  | 'r' => some '\r'
  | 't' => some '\t'
  | _ => none

/-- Reads a string up to the quote that ends it, after the units `taken`, in
    reverse: its units, and what is left. -/
def scanString? (taken : List Nat) : Text → Option (List Nat × Text)
  | [] => none
  | '"' :: rest => some (taken.reverse, rest)
  | '\\' :: 'u' :: a :: b :: c :: d :: rest =>
    match hexUnit? [a, b, c, d] with
    | some unit => scanString? (unit :: taken) rest
    | none => none
  | '\\' :: c :: rest =>
    match unescape? c with
    | some c => scanString? (c.toNat :: taken) rest
    | none => none
  | c :: rest => if c.toNat < 0x20 then none else scanString? (c.toNat :: taken) rest

theorem length_lt_of_scanString? {t rest : Text} {taken units : List Nat}
    (h : scanString? taken t = some (units, rest)) : rest.length < t.length := by
  fun_induction scanString? taken t with
  | case1 => simp at h
  | case2 => simp_all
  | case3 taken a b c d rest unit hu ih => have := ih h; simp only [List.length_cons]; omega
  | case4 => simp at h
  | case5 taken c rest hc d hd ih => have := ih h; simp only [List.length_cons]; omega
  | case6 => simp at h
  | case7 => simp at h
  | case8 taken c rest _ _ _ hc ih => have := ih h; simp only [List.length_cons]; omega

/-! ## Numbers -/

/-- Whether a text starts with a point that no figure follows. -/
def isBarePoint : Text → Bool
  | '.' :: c :: _ => !Text.isFigure c
  | ['.'] => true
  | _ => false

/-- Reads a number without sign: figures, of which the first is zero only if it
    is the only one, then perhaps a point and figures, then perhaps an exponent. -/
def scanNumber? (t : Text) : Option (Numeral × Text) :=
  let whole := t.takeWhile Text.isFigure
  if whole.isEmpty || (whole.head? == some '0' && 1 < whole.length) ||
      isBarePoint (t.dropWhile Text.isFigure) then none
  else
    match Numeral.scan? t with
    | some (_, 'e' :: _) | some (_, 'E' :: _) => none
    | scanned => scanned

theorem length_lt_of_scanNumber? {t rest : Text} {n : Numeral}
    (h : scanNumber? t = some (n, rest)) : rest.length < t.length := by
  unfold scanNumber? at h
  simp only at h
  split at h
  · simp at h
  · split at h
    · simp at h
    · simp at h
    · exact Numeral.length_lt_of_scan? h

/-! ## Texts -/

/-- The lexeme that a text starts with, and what is left. -/
def next? : Text → Option (Lexeme × Text)
  | '[' :: rest => some (.opening .square, rest)
  | ']' :: rest => some (.closing .square, rest)
  | '\x7b' :: rest => some (.opening .curly, rest)
  | '\x7d' :: rest => some (.closing .curly, rest)
  | ',' :: rest => some (.comma, rest)
  | ':' :: rest => some (.colon, rest)
  | 'n' :: 'u' :: 'l' :: 'l' :: rest => some (.null, rest)
  | 't' :: 'r' :: 'u' :: 'e' :: rest => some (.boolean, rest)
  | 'f' :: 'a' :: 'l' :: 's' :: 'e' :: rest => some (.boolean, rest)
  | '"' :: rest => (scanString? [] rest).map fun (units, left) => (.string units, left)
  | '-' :: rest => (scanNumber? rest).map fun (n, left) => (.number n, left)
  | t => (scanNumber? t).map fun (n, left) => (.number n, left)

theorem length_lt_of_next? {t rest : Text} {lexeme : Lexeme} (h : next? t = some (lexeme, rest)) :
    rest.length < t.length := by
  unfold next? at h
  split at h
  case h_10 r =>
    obtain ⟨⟨units, left⟩, hs, he⟩ := Option.map_eq_some_iff.1 h
    obtain ⟨-, rfl⟩ := by simpa using he
    have := length_lt_of_scanString? hs
    simp only [List.length_cons]
    omega
  case h_11 r =>
    obtain ⟨⟨n, left⟩, hs, he⟩ := Option.map_eq_some_iff.1 h
    obtain ⟨-, rfl⟩ := by simpa using he
    have := length_lt_of_scanNumber? hs
    simp only [List.length_cons]
    omega
  case h_12 =>
    obtain ⟨⟨n, left⟩, hs, he⟩ := Option.map_eq_some_iff.1 h
    obtain ⟨-, rfl⟩ := by simpa using he
    exact length_lt_of_scanNumber? hs
  all_goals
    obtain ⟨-, rfl⟩ := by simpa using h
    simp only [List.length_cons]
    omega

/-- The lexemes `done`, then those of a text. -/
def collect (done : Array Lexeme) (t : Text) : Array Lexeme :=
  match _h : t.dropWhile isGap with
  | [] => done
  | c :: rest =>
    match _hn : next? (c :: rest) with
    | some (lexeme, left) => collect (done.push lexeme) left
    | none => done.push .malformed
termination_by t.length
decreasing_by
  have := length_lt_of_next? _hn
  have := Text.length_dropWhile_le isGap t
  simp only [_h, List.length_cons] at *
  omega

/-- The lexemes of a text. -/
def ofText (t : Text) : List Lexeme := (collect #[] t).toList

end Lexeme

end Json

end Notebook
