/-
  Where a JSON value ends.

  `Json.skip?` passes over the value that lexemes start with, whatever it is and
  however deep it nests: it only keeps the brackets that are open.  It leaves
  fewer lexemes than it was given (`length_lt_of_skip?`).
-/
import Notebook.Json.Lexeme

namespace Notebook

namespace Json

/-- What may come next within a value. -/
inductive Place where
  /-- A value. -/
  | value
  /-- A value, or the end of the array that was just opened. -/
  | item
  /-- The name of a field. -/
  | name
  /-- The name of a field, or the end of the object that was just opened. -/
  | field
  /-- The colon after a name. -/
  | colon
  /-- A comma, or the end of what is open. -/
  | after
  deriving DecidableEq, Repr

namespace Place

/-- What may come after an opening bracket. -/
def inside : Bracket → Place
  | .square => item
  | .curly => field

/-- What may come after a comma. -/
def afterComma : Bracket → Place
  | .square => value
  | .curly => name

/-- Whether a value may start here. -/
def isValue : Place → Bool
  | value | item => true
  | name | field | colon | after => false

/-- Whether a bracket may be closed here. -/
def mayClose : Place → Bracket → Bool
  | item, .square | field, .curly | after, _ => true
  | _, _ => false

end Place

/-- One step through a value: the brackets that are open, the innermost first, and
    what may come next. -/
def advance? (place : Place) (enclosing : List Bracket) :
    Lexeme → Option (Place × List Bracket)
  | .null | .boolean | .number _ =>
    if place.isValue then some (.after, enclosing) else none
  | .string _ =>
    match place with
    | .value | .item => some (.after, enclosing)
    | .name | .field => some (.colon, enclosing)
    | .colon | .after => none
  | .opening b => if place.isValue then some (.inside b, b :: enclosing) else none
  | .closing b =>
    match enclosing with
    | inner :: outer => if inner = b ∧ place.mayClose b then some (.after, outer) else none
    | [] => none
  | .comma =>
    match place, enclosing with
    | .after, inner :: _ => some (.afterComma inner, enclosing)
    | _, _ => none
  | .colon => if place = .colon then some (.value, enclosing) else none
  | .malformed => none

/-- Passes over the rest of a value within `enclosing` brackets. -/
def skipFrom? (place : Place) (enclosing : List Bracket) : List Lexeme → Option (List Lexeme)
  | [] => none
  | lexeme :: rest =>
    match advance? place enclosing lexeme with
    | none => none
    | some (.after, []) => some rest
    | some (place, enclosing) => skipFrom? place enclosing rest

/-- Passes over the value that lexemes start with: what is left. -/
def skip? (lexemes : List Lexeme) : Option (List Lexeme) := skipFrom? .value [] lexemes

theorem length_lt_of_skipFrom? {place : Place} {enclosing : List Bracket}
    {lexemes rest : List Lexeme} (h : skipFrom? place enclosing lexemes = some rest) :
    rest.length < lexemes.length := by
  induction lexemes generalizing place enclosing with
  | nil => simp [skipFrom?] at h
  | cons lexeme lexemes ih =>
    unfold skipFrom? at h
    split at h
    · simp at h
    · obtain rfl := by simpa using h
      simp
    · have := ih h
      simp only [List.length_cons]
      omega

theorem length_lt_of_skip? {lexemes rest : List Lexeme} (h : skip? lexemes = some rest) :
    rest.length < lexemes.length :=
  length_lt_of_skipFrom? h

end Json

end Notebook
