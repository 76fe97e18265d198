/-
  JSON, as results are written.

  A number that is not finite is written `null`.  Strings are escaped as the
  format requires and no further: quotes, backslashes and control characters.
  `Json.compact` writes a value without blanks, `Json.pretty` with a line for each
  item and two spaces for each level.
-/
import Notebook.Decimal.Layout

namespace Notebook

/-- A JSON value.  Numbers are doubles or naturals, as they are counted. -/
inductive Json where
  | null
  | number (x : Float)
  | natural (n : Nat)
  | string (t : Text)
  | array (items : List Json)
  | object (fields : List (Text × Json))

namespace Json

/-- A number is written without exponent from `10 ^ (-5)` to below `10 ^ 16`, with
    a fraction even if it is whole; an exponent that is positive is signed. -/
def numberLayout : Decimal.Layout where
  positional e := -5 ≤ e && e < 16
  tie := .toEven
  pointZero := true
  plusSign := true

/-- A number, `null` if it is not finite. -/
def writeNumber (x : Float) : Text := if x.isFinite then numberLayout.write x else "null"

/-! ## Strings -/

/-- The escape of a control character by its code point, in four figures. -/
def escapeCode (c : Char) : Text :=
  let ds := Nat.toDigits 16 c.toNat
  '\\' :: 'u' :: (List.replicate (4 - ds.length) '0' ++ ds)

/-- A character as it stands in a string. -/
def escape (c : Char) : Text :=
  match c with
  | '"' => ['\\', '"']
  | '\\' => ['\\', '\\']
  | '\x08' => ['\\', 'b']
  | '\t' => ['\\', 't']
  | '\n' => ['\\', 'n']
  | '\x0c' => ['\\', 'f']
  | '\r' => ['\\', 'r']
  | c => if c.toNat < 0x20 then escapeCode c else [c]

/-- A string in quotes. -/
def quote (t : Text) : Text := '"' :: t.flatMap escape ++ ['"']

/-! ## Values -/

/-- Pieces with a separator between them. -/
def separated (separator : Text) (pieces : List Text) : Text := separator.intercalate pieces

mutual

/-- A value without blanks. -/
def compact : Json → Text
  | null => "null"
  | number x => writeNumber x
  | natural n => Decimal.figures n
  | string t => quote t
  | array items => '[' :: separated [','] (compactItems items) ++ [']']
  | object fields => '\x7b' :: separated [','] (compactFields fields) ++ ['\x7d']

/-- The items of an array. -/
def compactItems : List Json → List Text
  | [] => []
  | item :: items => item.compact :: compactItems items

/-- The fields of an object, each with its name. -/
def compactFields : List (Text × Json) → List Text
  | [] => []
  | (name, value) :: fields => (quote name ++ ':' :: value.compact) :: compactFields fields

end

/-- The start of a line at a level. -/
def newLine (level : Nat) : Text := '\n' :: List.replicate (2 * level) ' '

/-- Pieces between brackets, each on a line of its own. -/
def block (level : Nat) (opening closing : Char) (pieces : List Text) : Text :=
  if pieces.isEmpty then [opening, closing]
  else
    let inner := newLine (level + 1)
    opening :: inner ++ separated (',' :: inner) pieces ++ newLine level ++ [closing]

mutual

/-- A value at a level, with a line for each item. -/
def indented (level : Nat) : Json → Text
  | null => "null"
  | number x => writeNumber x
  | natural n => Decimal.figures n
  | string t => quote t
  | array items => block level '[' ']' (indentedItems (level + 1) items)
  | object fields => block level '\x7b' '\x7d' (indentedFields (level + 1) fields)

/-- The items of an array. -/
def indentedItems (level : Nat) : List Json → List Text
  | [] => []
  | item :: items => item.indented level :: indentedItems level items

/-- The fields of an object, each with its name. -/
def indentedFields (level : Nat) : List (Text × Json) → List Text
  | [] => []
  | (name, value) :: fields =>
    (quote name ++ ':' :: ' ' :: value.indented level) :: indentedFields level fields

end

/-- A value with a line for each item. -/
def pretty (j : Json) : Text := j.indented 0

end Json

end Notebook
