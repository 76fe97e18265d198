/-
  The tokens of formulas.

  Spaces and tabs stand between tokens and never inside one; no other blank is
  allowed in a formula.  Numbers and names are as long as they can be: `1e` is
  the number `1` and the name `e`, `2a` the number `2` and the name `a`.  A
  character that starts no token is a token of its own, which fits nowhere.
-/
import Notebook.Formula
import Notebook.Numeral

namespace Notebook

/-- A token of a formula. -/
inductive Token where
  | number (n : Numeral)
  | name (name : Text)
  | operator (op : Operator)
  | opening
  | closing
  | stray (c : Char)
  deriving DecidableEq, Repr

namespace Token

/-- What may stand between tokens. -/
def isGap (c : Char) : Bool := c == ' ' || c == '\t'

/-- The token that a character is on its own. -/
def symbol? : Char → Option Token
  | '+' => some (.operator .add)
  | '-' => some (.operator .subtract)
  | '*' => some (.operator .multiply)
  | '/' => some (.operator .divide)
  | '^' => some (.operator .power)
  | '(' => some .opening
  | ')' => some .closing
  | _ => none

/-- The tokens of a text. -/
def ofText : Text → List Token
  | [] => []
  | c :: rest =>
    if isGap c then ofText rest
    else
      match symbol? c with
      | some token => token :: ofText rest
      | none =>
        if Text.isNameStart c then
          .name (c :: rest.takeWhile Text.isNameChar) :: ofText (rest.dropWhile Text.isNameChar)
        else
          match _h : Numeral.scan? (c :: rest) with
          | some (n, left) => .number n :: ofText left
          | none => .stray c :: ofText rest
termination_by t => t.length
decreasing_by
  all_goals simp only [List.length_cons]
  · omega
  · omega
  · have := Text.length_dropWhile_le Text.isNameChar rest
    omega
  · have := Numeral.length_lt_of_scan? _h
    simpa using this
  · omega

end Token

end Notebook
