/-
  Submissions: the notebooks that are sent to the service, and how they are read
  from JSON.

  A submission is an object with the fields `text` and perhaps `grammar`, or an
  array of these two.  It is read from the left, and the first fault decides
  whether the body is refused as no JSON or as JSON of another shape.  What
  follows the submission is not read.
-/
import Notebook.Json.Extent
import Notebook.Settings

namespace Notebook

/-- A notebook that is to be evaluated. -/
structure Submission where
  text : Text
  grammar : Grammar := .legacy
  deriving DecidableEq, Repr

namespace Submission

open Json (Lexeme)

/-- Why a body is no submission. -/
inductive Refusal where
  /-- It is not JSON. -/
  | malformed
  /-- It is JSON of another shape. -/
  | misshapen
  deriving DecidableEq, Repr

/-- Whether a number is within the range of doubles. -/
def isInRange (n : Numeral) : Bool := n.value.isFinite

/-- Why a value of another shape is refused: for its first lexeme if that is
    faulty, else for its shape. -/
def refusal : List Lexeme → Refusal
  | .null :: _ | .boolean :: _ | .opening _ :: _ => .misshapen
  | .number n :: _ => if isInRange n then .misshapen else .malformed
  | .string units :: _ => if (Text.ofUnits? units).isSome then .misshapen else .malformed
  | .closing _ :: _ | .comma :: _ | .colon :: _ | .malformed :: _ | [] => .malformed

/-! ## Values -/

/-- What reading lexemes gives: a value and fewer lexemes, or a refusal. -/
abbrev Reading (α : Type) (lexemes : List Lexeme) : Type :=
  Except Refusal (α × { rest : List Lexeme // rest.length < lexemes.length })

/-- Reads a string. -/
def readString (lexemes : List Lexeme) : Reading Text lexemes :=
  match lexemes with
  | .string units :: rest =>
    match Text.ofUnits? units with
    | some t => .ok (t, ⟨rest, by simp⟩)
    | none => .error .malformed
  | lexemes => .error (refusal lexemes)

/-- Reads a lexeme that has to be there. -/
def expect (lexeme : Lexeme) (lexemes : List Lexeme) : Reading Unit lexemes :=
  match lexemes with
  | first :: rest => if first = lexeme then .ok ((), ⟨rest, by simp⟩) else .error .malformed
  | [] => .error .malformed

/-- Reads a null. -/
def readNull (lexemes : List Lexeme) : Reading Unit lexemes :=
  match lexemes with
  | .null :: rest => .ok ((), ⟨rest, by simp⟩)
  | lexemes => .error (refusal lexemes)

/-- Reads the word for a grammar. -/
def readWord (lexemes : List Lexeme) : Reading Grammar lexemes := do
  let (word, rest) ← readString lexemes
  match Grammar.ofWord? word with
  | some g => .ok (g, rest)
  | none => .error .misshapen

/-- Reads a grammar: its word, an object whose only field is its word with a null,
    or a null for the default. -/
def readGrammar (lexemes : List Lexeme) : Reading Grammar lexemes :=
  match lexemes with
  | .null :: rest => .ok (.legacy, ⟨rest, by simp⟩)
  | .string units :: rest => readWord (.string units :: rest)
  | .opening .curly :: rest => do
    let (g, ⟨rest, h₁⟩) ← readWord rest
    let (_, ⟨rest, h₂⟩) ← expect .colon rest
    let (_, ⟨rest, h₃⟩) ← readNull rest
    let (_, ⟨rest, h₄⟩) ← expect (.closing .curly) rest
    .ok (g, ⟨rest, by simp only [List.length_cons]; omega⟩)
  | _ => .error .malformed

/-- Passes over a value. -/
def readAny (lexemes : List Lexeme) : Reading Unit lexemes :=
  match _h : Json.skip? lexemes with
  | some rest => .ok ((), ⟨rest, Json.length_lt_of_skip? _h⟩)
  | none => .error .malformed

/-! ## Submissions -/

/-- The fields read so far. -/
structure Fields where
  text : Option Text := none
  grammar : Option Grammar := none

/-- The submission that fields make up; the text has to be there. -/
def Fields.submission (fields : Fields) : Except Refusal Submission :=
  match fields.text with
  | some text => .ok { text, grammar := fields.grammar.getD .legacy }
  | none => .error .misshapen

/-- Reads the value of a field.  A field that is there already is refused, and one
    of another name is passed over. -/
def Fields.read (fields : Fields) (name : Text) (lexemes : List Lexeme) : Reading Fields lexemes :=
  if name = ("text" : Text) then
    if fields.text.isSome then .error .misshapen
    else do
      let (_, ⟨rest, h₁⟩) ← expect .colon lexemes
      let (text, ⟨rest, h₂⟩) ← readString rest
      .ok ({ fields with text := some text }, ⟨rest, by omega⟩)
  else if name = ("grammar" : Text) then
    if fields.grammar.isSome then .error .misshapen
    else do
      let (_, ⟨rest, h₁⟩) ← expect .colon lexemes
      let (g, ⟨rest, h₂⟩) ← readGrammar rest
      .ok ({ fields with grammar := some g }, ⟨rest, by omega⟩)
  else do
    let (_, ⟨rest, h₁⟩) ← expect .colon lexemes
    let (_, ⟨rest, h₂⟩) ← readAny rest
    .ok (fields, ⟨rest, by omega⟩)

/-- The name of the next field, if the object goes on. -/
def readName (first : Bool) (lexemes : List Lexeme) : Option (Reading Text lexemes) :=
  match lexemes with
  | .closing .curly :: _ => none
  | .string units :: rest =>
    some (if first then readString (.string units :: rest) else .error .malformed)
  | .comma :: .string units :: rest =>
    some (if first then .error .malformed
      else do
        let (name, ⟨rest', h⟩) ← readString (.string units :: rest)
        .ok (name, ⟨rest', by simp only [List.length_cons] at *; omega⟩))
  | _ => some (.error .malformed)

/-- Reads an object from behind its opening bracket. -/
def readFields (fields : Fields) (first : Bool) (lexemes : List Lexeme) :
    Except Refusal Submission :=
  match readName first lexemes with
  | none => fields.submission
  | some (.error refusal) => .error refusal
  | some (.ok (name, ⟨rest, _⟩)) =>
    match fields.read name rest with
    | .error refusal => .error refusal
    | .ok (fields, ⟨rest, _⟩) => readFields fields false rest
termination_by lexemes.length

/-- Reads an array from behind its opening bracket. -/
def readItems (lexemes : List Lexeme) : Except Refusal Submission :=
  match lexemes with
  | .closing .square :: _ => .error .misshapen
  | lexemes => do
    let (text, ⟨rest, _⟩) ← readString lexemes
    match rest with
    | .closing .square :: _ => .ok { text }
    | rest =>
      let (_, ⟨rest, _⟩) ← expect .comma rest
      let (grammar, ⟨rest, _⟩) ← readGrammar rest
      let _ ← expect (.closing .square) rest
      .ok { text, grammar }

/-- Reads a submission. -/
def ofLexemes : List Lexeme → Except Refusal Submission
  | .opening .curly :: rest => readFields {} true rest
  | .opening .square :: rest => readItems rest
  | lexemes => .error (refusal lexemes)

/-- Reads the body of a request as a submission. -/
def ofText (body : Text) : Except Refusal Submission := ofLexemes (Lexeme.ofText body)

end Submission

end Notebook
