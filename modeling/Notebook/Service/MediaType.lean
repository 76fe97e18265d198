/-
  Media types, as a request states that of its body.

  A media type is a type and a subtype with a slash between them, and perhaps
  parameters after a semicolon.  A body is taken for JSON if its type is
  `application` and its subtype `json`, with or without a suffix after a plus
  sign, or of any other name with the suffix `json` (`isJson`).  Case does not
  matter.
-/
import Notebook.Text

namespace Notebook

namespace MediaType

/-- The characters of types, subtypes and parameters: ASCII letters, figures and
    some signs. -/
def isTokenChar (c : Char) : Bool :=
  ('a' ≤ c && c ≤ 'z') || ('A' ≤ c && c ≤ 'Z') || Text.isFigure c ||
    ("!#$%&'*+-.^_`|~" : Text).contains c

/-- The characters between quotes: printed ASCII. -/
def isQuotedChar (c : Char) : Bool := ' ' ≤ c && c ≤ '~'

/-! ## Parameters -/

/-- What has been read of the parameters. -/
inductive Place where
  /-- Nothing of a parameter, or spaces before it. -/
  | start
  /-- A part of its name. -/
  | name
  /-- Its name and the equals sign. -/
  | equals
  /-- A part of its value. -/
  | value
  /-- The opening quote of its value. -/
  | quote
  /-- A part of its value in quotes. -/
  | quoted
  /-- Its value in quotes, or spaces after it. -/
  | closed
  deriving DecidableEq, Repr

namespace Place

/-- Reads one more character of the parameters. -/
def next? (place : Place) (c : Char) : Option Place :=
  match place with
  | start => if c = ' ' then some start else if isTokenChar c then some name else none
  | name => if c = '=' then some equals else if isTokenChar c then some name else none
  | equals => if c = '"' then some quote else if isTokenChar c then some value else none
  | value => if c = ';' then some start else if isTokenChar c then some value else none
  | quote => if isQuotedChar c then some quoted else none
  | quoted => if c = '"' then some closed else if isQuotedChar c then some quoted else none
  | closed => if c = ' ' then some closed else if c = ';' then some start else none

/-- Whether the parameters may end here. -/
def mayEnd : Place → Bool
  | start | equals | value | closed => true
  | name | quote | quoted => false

end Place

/-- Whether a text is parameters with semicolons between them. -/
def areParameters (t : Text) : Bool := (t.foldlM Place.next? .start).any Place.mayEnd

/-! ## JSON -/

/-- Whether a subtype, or its suffix after the last plus sign, is that of JSON. -/
def isJsonSubtype (subtype : Text) : Bool :=
  let json : Text := "json"
  match Text.cutAt? '+' subtype.reverse with
  | some (suffix, rest) => !rest.isEmpty && (suffix.reverse == json || rest.reverse == json)
  | none => subtype == json

/-- Whether a media type is one of JSON. -/
def isJson (t : Text) : Bool :=
  let (essence, parameters) := (Text.cutAt? ';' t).getD (t, [])
  match Text.cutAt? '/' (essence.map Char.toLower) with
  | some (kind, subtype) =>
    kind == ("application" : Text) && subtype.all isTokenChar && isJsonSubtype subtype &&
      areParameters parameters
  | none => false

end MediaType

end Notebook
