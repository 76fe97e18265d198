/-
  Sessions: a notebook that is entered line by line.

  What is typed is a command if it starts with a colon, and else a line to add to
  the notebook.  A line is added at the end of the document, which it leaves with
  a line feed; undoing takes the last line off again.

  `Session.step` is what a command does to the document, `Session.turn` also what
  is said of it.
-/
import Notebook.Path
import Notebook.Report.Variables

namespace Notebook

/-! ## Documents as stacks of lines -/

namespace Document

/-- Adds a line at the end of a document, on a line of its own. -/
def append (document line : Text) : Text :=
  let closed := if document.isEmpty ∨ document.getLast? = some '\n' then document
    else document ++ ['\n']
  closed ++ line ++ ['\n']

/-- A document without the line feed at its end, if there is one. -/
def body (document : Text) : Text :=
  if document.getLast? = some '\n' then document.dropLast else document

/-- Takes the last line off a document: the line, and what is left.  Nothing can
    be taken off an empty document or a lone line feed. -/
def removeLast? (document : Text) : Option (Text × Text) :=
  match (body document).reverse with
  | [] => none
  | reversed =>
    some ((reversed.takeWhile (· != '\n')).reverse, (reversed.dropWhile (· != '\n')).reverse)

end Document

/-! ## Commands -/

/-- What is typed into a session. -/
inductive Command where
  /-- A line for the notebook. -/
  | line (t : Text)
  /-- Show the notebook. -/
  | list
  /-- Take the last line off. -/
  | undo
  /-- Write the notebook to a file. -/
  | save (path : Text)
  | quit
  | unknown (t : Text)
  deriving DecidableEq, Repr

namespace Command

/-- The word of a command and its argument. -/
def split (t : Text) : Text × Text :=
  (t.takeWhile (!Text.isBlank ·), Text.trim (t.dropWhile (!Text.isBlank ·)))

/-- Reads what is typed into a session. -/
def ofText (input : Text) : Command :=
  match Text.trim input with
  | ':' :: t =>
    let (word, argument) := split t
    if word = "show" then .list
    else if word = "undo" then .undo
    else if word = "quit" ∨ word = "q" ∨ word = "exit" then .quit
    else if word = "save" ∧ argument ≠ [] then .save argument
    else .unknown (':' :: t)
  | _ => .line input

end Command

/-! ## Sessions -/

namespace Session

/-- The document after a command. -/
def step (document : Text) : Command → Text
  | .line t => Document.append document t
  | .undo =>
    match Document.removeLast? document with
    | some (_, rest) => rest
    | none => document
  | .list | .save _ | .quit | .unknown _ => document

/-- The document after commands. -/
def run (document : Text) (commands : List Command) : Text := commands.foldl step document

/-- Why the last line of an evaluation was dropped, if it was. -/
def lastFault? (e : Evaluation) : Option (Line × Fault) :=
  e.outcomes.back?.bind fun o => o.status.fault?.map fun fault => (o.line, fault)

/-! ## Turns -/

/-- The commands there are. -/
def help : Text :=
  ":show prints the notebook, :undo drops the last line, :save <path> writes it, :quit exits"

/-- What a command comes to. -/
structure Turn where
  /-- The document after it. -/
  document : Text
  /-- What is printed. -/
  printed : Text := []
  /-- What is noted, apart from what is printed. -/
  noted : Text := []
  /-- The path that the document is to be written to. -/
  saves : Option Text := none
  /-- Whether the session is over. -/
  isLast : Bool := false

/-- Evaluates the document after a change of it. -/
def changed (settings : Settings) (document : Text) : Turn :=
  let e := evaluate settings document
  let noted : Text := match lastFault? e with
    | some (line, fault) =>
      "line " ++ Decimal.figures line.span.line ++ " not bound: " ++ fault.message ++ "\n"
    | none => []
  { document, printed := e.bindings.table, noted }

/-- What a command comes to. -/
def turn (settings : Settings) (document : Text) : Command → Turn
  | .line t => changed settings (Document.append document t)
  | .undo =>
    match Document.removeLast? document with
    | some (_, rest) => changed settings rest
    | none => { document, noted := "Nothing to undo\n" }
  | .list => { document, printed := document }
  | .save path => { document, saves := some (Path.ofNotebook path) }
  | .quit => { document, isLast := true }
  | .unknown t => { document, noted := "Unknown command '" ++ t ++ "' (" ++ help ++ ")\n" }

theorem document_turn (settings : Settings) (document : Text) (command : Command) :
    (turn settings document command).document = step document command := by
  cases command with
  | undo => cases h : Document.removeLast? document <;> simp [turn, step, changed, h]
  | line | list | save | quit | unknown => rfl

end Session

end Notebook
