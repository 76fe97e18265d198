/-
  The program: what it does for each invocation, over its surroundings.

  An action that fails ends with a message, which is printed after `Error: `, and
  with the status one (`Program.start`).
-/
import Notebook.Address
import Notebook.Files
import Notebook.Invocation
import Notebook.Path
import Notebook.Report.Diagnostic
import Notebook.Report.Variables
import Notebook.Service
import Notebook.Starter

namespace Notebook

namespace Program

variable {m : Type → Type} [Monad m] (s : Surroundings m)

/-- An action that may fail with a message. -/
abbrev Action (m : Type → Type) (α : Type) : Type := ExceptT Text m α

/-- An action that says why it failed. -/
def attempt {ε α : Type} (action : m (Except ε α)) (message : ε → Text) : Action m α :=
  (ExceptT.mk action).adapt message

/-! ## Documents -/

/-- Whether a path stands for standard input. -/
def isInput (path : Text) : Bool :=
  path.head? == some '-' && Path.components path == [['-']]

/-- The document in a file or on standard input, unless it is too large. -/
def load (limits : Limits) (path : Text) : Action m Text := do
  let document ←
    if isInput path then
      attempt s.readInput fun fault => "Failed to read notebook from stdin: " ++ fault.message
    else
      attempt (s.read path) fun fault =>
        "failed to read '" ++ path ++ "': " ++ fault.message ++ ": " ++ fault.message
  match limits.check document with
  | .ok () => pure document
  | .error oversize => throw oversize.message

/-- The names that are bound, in a form. -/
def inForm (form : Form) (b : Bindings) : Text :=
  match form with
  | .table => b.table
  | .raw => b.raw
  | .json => b.listing.pretty ++ "\n"

/-! ## Invocations -/

/-- Prints the names that a notebook binds. -/
def run (file : Text) (settings : Settings) (form : Form) : Action m UInt32 := do
  let document ← load s settings.limits file
  s.print (inForm form (evaluate settings document).bindings)
  pure 0

/-- Prints what there is to say about a notebook.  The status tells whether lines
    were dropped. -/
def check (file : Text) (settings : Settings) : Action m UInt32 := do
  let document ← load s settings.limits file
  let e := evaluate settings document
  s.print (e.report file document)
  s.print (e.tally file).line
  pure (if e.dropped.isEmpty then 0 else 1)

/-- The paths of all notebooks at or below a path. -/
def notebooks (root : Text) : Action m (List Text) := do
  let paths ← attempt (s.walk root) fun (path, fault) =>
    "IO error for operation on " ++ path ++ ": " ++ fault.message ++ ": " ++ fault.message
  pure (paths.filter Path.isNotebook)

/-- Prints a summary of all notebooks in a directory. -/
def list (root : Text) (settings : Settings) : Action m UInt32 := do
  s.print ("Loading notebooks from " ++ root ++ "...\n")
  let paths ← notebooks s root
  let tallies ← paths.mapM fun path => do
    let document ← load s settings.limits path
    pure ((evaluate settings document).tally path)
  s.print ('\n' :: Tally.summary tallies)
  pure 0

/-- Starts a new notebook. -/
def create (path : Text) (overwrite : Bool) : Action m UInt32 := do
  let path := Path.ofNotebook path
  if (← s.holds path) && !overwrite then
    throw (path ++ " already exists (use --force to overwrite)")
  attempt (s.write path starter) fun fault => "Failed to write " ++ path ++ ": " ++ fault.message
  s.print ("Created " ++ path ++ "\n")
  pure 0

/-- Lets a notebook be entered line by line, after what a file holds. -/
def converse (file : Option Text) (settings : Settings) : Action m UInt32 := do
  let document ← match file with
    | some path => load s settings.limits path
    | none => pure []
  if !document.isEmpty then s.print (evaluate settings document).bindings.table
  attempt (s.converse settings document) id
  pure 0

/-- Answers requests at an address. -/
def serve (host : Text) (port : Nat) (limits : Limits) : Action m UInt32 := do
  if !Address.isHost host then throw ("invalid socket address syntax" : Text)
  attempt (s.serve limits host port) id
  pure 0

/-- Does what the program is asked to do: the status it ends with. -/
def perform : Invocation → Action m UInt32
  | .run file settings form => run s file settings form
  | .check file settings => check s file settings
  | .list root settings => list s root settings
  | .create path overwrite => create s path overwrite
  | .session file settings => converse s file settings
  | .serve host port limits => serve s host port limits

/-! ## Arguments -/

/-- How the program is used. -/
def usage : Text := "Usage: labbook [OPTIONS] <COMMAND>\n"

/-- Its commands. -/
def help : Text :=
  "Measurements in, uncertainties out.\n\n" ++ usage ++
    "\nCommands: run, check, list, new, repl, server, help\n"

/-- Runs the program: the status it ends with. -/
def start (arguments : List Text) : m UInt32 :=
  match Invocation.ofArguments arguments with
  | .error .help => do
    s.print help
    pure 0
  | .error .version => do
    s.print ("labbook " ++ Service.version ++ "\n")
    pure 0
  | .error .misuse => do
    s.note usage
    pure 2
  | .ok invocation => do
    match ← (perform s invocation).run with
    | .ok status => pure status
    | .error message =>
      s.note ("Error: " ++ message ++ "\n")
      pure 1

end Program

end Notebook
