/-
  Numerals: the decimal numbers of a notebook, as they are typed.

  An unsigned numeral has figures with at most one point among them or at either
  end, at least one figure, and possibly an exponent: `12`, `1.`, `.5`,
  `6.02e23`.

  * `Numeral.scan?` reads the longest numeral that a text starts with; an `e`
    without a figure to follow is no exponent, and is left;
  * `Numeral.value` is the double nearest to the number;
  * `readExact?` reads a whole text as a bare number of an expression: a numeral
    or one of the words `NaN` and `Infinity`, after at most one sign;
  * `readLiteral?` reads the literal of a definition, and takes the words
    `nan`, `inf` and `infinity` in any case.
-/
import Notebook.Binary64
import Notebook.Text

namespace Notebook

/-- The number `coefficient * 10 ^ exponent`, the coefficient given by its
    figures. -/
structure Numeral where
  figures : Text
  exponent : Int
  deriving DecidableEq, Repr

namespace Numeral

/-! ## Values -/

/-- The value of a string of figures. -/
def natural (figures : Text) : Nat :=
  figures.foldl (fun n c => 10 * n + (c.toNat - '0'.toNat)) 0

/-- The double nearest to a numeral.  A number of `n` figures without leading
    zeros is below `10 ^ (n + exponent)` and not below a tenth of that; from
    `10 ^ 309` on it is infinite, and below `10 ^ (-324)` it is zero. -/
def value (n : Numeral) : Float :=
  let significant := n.figures.dropWhile (· == '0')
  let coefficient := natural significant
  let magnitude : Int := significant.length + n.exponent
  if coefficient = 0 ∨ magnitude < -323 then 0
  else if 309 < magnitude then Float.ofBits (UInt64.ofNat Binary64.infinityBits)
  else if 0 ≤ n.exponent then Binary64.nearest (coefficient * tenTo n.exponent.toNat) 1
  else Binary64.nearest coefficient (tenTo (-n.exponent).toNat)

/-! ## Reading -/

/-- Takes a sign off a text: whether it was a minus, and what is left. -/
def takeSign : Text → Bool × Text
  | '-' :: rest => (true, rest)
  | '+' :: rest => (false, rest)
  | t => (false, t)

/-- The exponent that a text starts with, and what is left; nothing is taken
    unless a figure follows the `e` and its sign. -/
def scanExponent (t : Text) : Int × Text :=
  match t with
  | c :: rest =>
    if c = 'e' ∨ c = 'E' then
      let (negative, rest) := takeSign rest
      match rest.takeWhile Text.isFigure with
      | [] => (0, t)
      | figures =>
        let e : Int := natural figures
        (if negative then -e else e, rest.dropWhile Text.isFigure)
    else (0, t)
  | [] => (0, t)

/-- The figures of a numeral around its point, if it has one, and what is left. -/
def scanFigures (t : Text) : Text × Text × Text :=
  let whole := t.takeWhile Text.isFigure
  match t.dropWhile Text.isFigure with
  | '.' :: rest => (whole, rest.takeWhile Text.isFigure, rest.dropWhile Text.isFigure)
  | rest => (whole, [], rest)

/-- The longest numeral that a text starts with, and what is left. -/
def scan? (t : Text) : Option (Numeral × Text) :=
  let (whole, fraction, rest) := scanFigures t
  if whole ++ fraction = [] then none
  else
    let (e, rest) := scanExponent rest
    some (⟨whole ++ fraction, e - fraction.length⟩, rest)

/-- Reads a whole text as an unsigned numeral. -/
def read? (t : Text) : Option Numeral :=
  match scan? t with
  | some (n, []) => some n
  | _ => none

theorem length_takeSign_le (t : Text) : (takeSign t).2.length ≤ t.length := by
  unfold takeSign
  split <;> simp

theorem length_scanExponent_le (t : Text) : (scanExponent t).2.length ≤ t.length := by
  unfold scanExponent
  split
  · next c rest =>
    have h := length_takeSign_le rest
    split
    · split
      next negative left heq =>
      rw [heq] at h
      split
      · simp
      · have := Text.length_dropWhile_le Text.isFigure left
        simp only [List.length_cons] at *
        omega
    · simp
  · simp

/-- What a numeral leaves of a text is shorter. -/
theorem length_lt_of_scan? {t rest : Text} {n : Numeral} (h : scan? t = some (n, rest)) :
    rest.length < t.length := by
  have hw := congrArg List.length (List.takeWhile_append_dropWhile (p := Text.isFigure) (l := t))
  unfold scan? scanFigures at h
  simp only [List.length_append] at hw
  split at h
  next whole fraction left heq =>
  split at heq
  · next rest' hd =>
    obtain ⟨rfl, rfl, rfl⟩ := by simpa using heq
    split at h
    · simp at h
    · have he := length_scanExponent_le (rest'.dropWhile Text.isFigure)
      have hl := Text.length_dropWhile_le Text.isFigure rest'
      obtain ⟨-, rfl⟩ := by simpa using h
      simp only [hd, List.length_cons] at hw
      omega
  · obtain ⟨rfl, rfl, rfl⟩ := by simpa using heq
    split at h
    · simp at h
    · next hne =>
      have he := length_scanExponent_le (t.dropWhile Text.isFigure)
      rw [List.append_nil] at hne
      have hp := List.length_pos_iff.2 hne
      obtain ⟨-, rfl⟩ := by simpa using h
      omega

end Numeral

/-! ## Signed numbers and words -/

/-- The double that is not a number. -/
def notANumber : Float := Float.ofBits 0x7FF8000000000000

/-- Positive infinity. -/
def infinity : Float := Float.ofBits (UInt64.ofNat Binary64.infinityBits)

/-- Reads a text as a sign, if there is one, and a number, which `word?` may name
    by a word. -/
def readSigned? (word? : Text → Option Float) (t : Text) : Option Float :=
  let (negative, t) := Numeral.takeSign t
  let magnitude? := (word? t).or ((Numeral.read? t).map Numeral.value)
  magnitude?.map fun x => if negative then -x else x

/-- The words an expression has for numbers, spelt exactly so. -/
def exactWord? (t : Text) : Option Float :=
  if t = "NaN" then some notANumber
  else if t = "Infinity" then some infinity
  else none

/-- The words a literal has for numbers, in lower case. -/
def literalWord? (t : Text) : Option Float :=
  let t := t.map Char.toLower
  if t = "nan" then some notANumber
  else if t = "inf" ∨ t = "infinity" then some infinity
  else none

/-- Reads a whole text as a bare number of an expression. -/
def readExact? (t : Text) : Option Float := readSigned? exactWord? t

/-- Reads a whole text as the literal of a definition. -/
def readLiteral? (t : Text) : Option Float := readSigned? literalWord? t

end Notebook
