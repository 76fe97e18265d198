/-
  What a line of a notebook enters.

  A line is read without the blanks at its ends.  It is blank (or a comment), or
  it types a measurement in (`name = value ± uncertainty`, where `±` is typed as
  a plus, a slash and a minus), or it derives one (`name = formula`), or it is
  none of these.  Reading a line never fails, since a notebook that is being
  typed is malformed most of the time.

  `Entry.ofText` reads a line.  A name is an ASCII identifier; blanks are allowed
  around `=` and `±`; a literal is a run of figures and points, whether it is a
  number or not; a formula is all that follows `=`, within one line.
-/
import Notebook.Numeral

namespace Notebook

/-! ## Literals -/

/-- A number as it was typed into a line. -/
structure Literal where
  text : Text
  deriving DecidableEq, Repr

namespace Literal

/-- The number the text is read as, if it is one. -/
def number? (l : Literal) : Option Float := readLiteral? l.text

/-- The number, or zero for a text that is none. -/
def value (l : Literal) : Float := l.number?.getD 0

/-- Whether the text is not a number, and is read as zero. -/
def isFallback (l : Literal) : Bool := l.number?.isNone

/-- Whether there is a point in the text. -/
def hasPoint (l : Literal) : Bool := l.text.contains '.'

/-- How many characters follow the first point; none without a point. -/
def places (l : Literal) : Nat :=
  match Text.cutAt? '.' l.text with
  | some (_, fraction) => fraction.length
  | none => 0

/-- What a literal is made of: figures and points. -/
def isLiteralChar (c : Char) : Bool := Text.isFigure c || c == '.'

end Literal

/-! ## Entries -/

/-- What a line enters. -/
inductive Entry where
  /-- Nothing: the line is blank or a comment. -/
  | blank
  /-- A measurement typed in. -/
  | definition (name : Text) (value uncertainty : Literal)
  /-- A measurement derived by a formula. -/
  | derivation (name formula : Text)
  /-- None of these. -/
  | unrecognized
  deriving DecidableEq, Repr

namespace Entry

/-- The name an entry is to bind. -/
def name? : Entry → Option Text
  | definition name _ _ | derivation name _ => some name
  | blank | unrecognized => none

/-- The identifier a text starts with, and what follows it. -/
def takeName? : Text → Option (Text × Text)
  | [] => none
  | c :: rest =>
    if Text.isNameStart c then
      some (c :: rest.takeWhile Text.isNameChar, rest.dropWhile Text.isNameChar)
    else none

/-- The literal a text starts with, and what follows it. -/
def takeLiteral? (t : Text) : Option (Literal × Text) :=
  match t.takeWhile Literal.isLiteralChar with
  | [] => none
  | l => some (⟨l⟩, t.dropWhile Literal.isLiteralChar)

/-- What follows `=` in a text that starts with it after blanks; the blanks
    after `=` are left out. -/
def afterEquals? (t : Text) : Option Text :=
  match Text.trimStart t with
  | '=' :: rest => some (Text.trimStart rest)
  | _ => none

/-- Reads `value ± uncertainty`. -/
def takeMeasurement? (t : Text) : Option (Literal × Literal) := do
  let (value, rest) ← takeLiteral? t
  match Text.trimStart rest with
  | '+' :: '/' :: '-' :: rest =>
    let (uncertainty, rest) ← takeLiteral? (Text.trimStart rest)
    if rest = [] then some (value, uncertainty) else none
  | _ => none

/-- Whether a text is a formula: it is not empty and holds no line feed. -/
def isFormula (t : Text) : Bool := !t.isEmpty && !t.contains '\n'

/-- Reads what a trimmed line that is not blank enters. -/
def ofTrimmed (t : Text) : Entry :=
  match takeName? t with
  | none => unrecognized
  | some (name, rest) =>
    match afterEquals? rest with
    | none => unrecognized
    | some body =>
      match takeMeasurement? body with
      | some (value, uncertainty) => definition name value uncertainty
      | none => if isFormula body then derivation name body else unrecognized

/-- Reads what a line enters. -/
def ofText (line : Text) : Entry :=
  match Text.trim line with
  | [] => blank
  | '#' :: _ => blank
  | t => ofTrimmed t

end Entry

end Notebook
