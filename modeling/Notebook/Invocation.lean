/-
  What the program is asked to do by its arguments.

  The first operand is the word for a subcommand, and what follows it are the
  arguments of that (`Invocation.ofArguments`).
-/
import Notebook.Arguments
import Notebook.Settings

namespace Notebook

/-- The form in which names are printed. -/
inductive Form where
  | table
  | raw
  | json
  deriving DecidableEq, Repr

/-- What the program is asked to do. -/
inductive Invocation where
  /-- Print the names that a notebook binds. -/
  | run (file : Text) (settings : Settings) (form : Form)
  /-- Print what there is to say about a notebook. -/
  | check (file : Text) (settings : Settings)
  /-- Print a summary of all notebooks in a directory. -/
  | list (root : Text) (settings : Settings)
  /-- Start a new notebook. -/
  | create (path : Text) (overwrite : Bool)
  /-- Enter a notebook line by line, perhaps after what a file holds. -/
  | session (file : Option Text) (settings : Settings)
  /-- Answer requests at an address. -/
  | serve (host : Text) (port : Nat) (limits : Limits)
  deriving DecidableEq, Repr

namespace Invocation

open Arguments

/-- The switches that every subcommand has. -/
def common : List Switch := [.verbose, .help]

/-- The switches of subcommands that evaluate. -/
def evaluating : List Switch := [.grammar, .maxDepth]

/-- The one path that is an operand. -/
def onePath (arguments : List Argument) : Except Stop Text :=
  match operands arguments with
  | [t] => (path? t).elim (.error .misuse) .ok
  | _ => .error .misuse

/-- There are no operands. -/
def noOperands (arguments : List Argument) : Except Stop Unit :=
  if (operands arguments).isEmpty then .ok () else .error .misuse

/-- The limits that arguments set. -/
def limits (arguments : List Argument) : Except Stop Limits := do
  let default : Limits := {}
  let maxDepth ← value? .maxDepth (natural? (twoTo 64 - 1) false) arguments
  .ok { default with maxDepth := maxDepth.getD default.maxDepth }

/-- The settings that arguments make. -/
def settings (arguments : List Argument) : Except Stop Settings := do
  let grammar ← value? .grammar Grammar.read? arguments
  .ok { grammar := grammar.getD .legacy, limits := ← limits arguments }

/-- Reads the arguments of `run`. -/
def readRun (arguments : List Text) : Except Stop Invocation := do
  let arguments ← read (.raw :: .json :: evaluating ++ common) arguments
  let file ← onePath arguments
  let settings ← settings arguments
  match ← isGiven .raw arguments, ← isGiven .json arguments with
  | false, false => .ok (.run file settings .table)
  | true, false => .ok (.run file settings .raw)
  | false, true => .ok (.run file settings .json)
  | true, true => .error .misuse

/-- Reads the arguments of `check`. -/
def readCheck (arguments : List Text) : Except Stop Invocation := do
  let arguments ← read (evaluating ++ common) arguments
  .ok (.check (← onePath arguments) (← settings arguments))

/-- Reads the arguments of `list`. -/
def readList (arguments : List Text) : Except Stop Invocation := do
  let arguments ← read (evaluating ++ common) arguments
  let root ← if (operands arguments).isEmpty then .ok ['.'] else onePath arguments
  .ok (.list root (← settings arguments))

/-- Reads the arguments of `new`. -/
def readCreate (arguments : List Text) : Except Stop Invocation := do
  let arguments ← read (.force :: common) arguments
  .ok (.create (← onePath arguments) (← isGiven .force arguments))

/-- Reads the arguments of `repl`. -/
def readSession (arguments : List Text) : Except Stop Invocation := do
  let arguments ← read (.file :: evaluating ++ common) arguments
  noOperands arguments
  .ok (.session (← value? .file path? arguments) (← settings arguments))

/-- Reads the arguments of `server`. -/
def readServe (arguments : List Text) : Except Stop Invocation := do
  let arguments ← read (.host :: .port :: .maxDepth :: common) arguments
  noOperands arguments
  let host ← value? .host some arguments
  let port ← value? .port (natural? 65535 true) arguments
  .ok (.serve (host.getD "127.0.0.1") (port.getD 3000) (← limits arguments))

/-- How the arguments of a subcommand are read, by its word. -/
def subcommands : List (Text × (List Text → Except Stop Invocation)) :=
  [("run", readRun), ("check", readCheck), ("list", readList), ("new", readCreate),
    ("repl", readSession), ("server", readServe)]

/-- Reads the arguments of `help`, which may name a subcommand. -/
def readHelp (arguments : List Text) : Stop :=
  match arguments with
  | [] => .help
  | [word] => if word = ("help" : Text) ∨ (subcommands.lookup word).isSome then .help else .misuse
  | _ => .misuse

/-- Reads the arguments of the program. -/
def ofArguments (arguments : List Text) : Except Stop Invocation := do
  let (word, rest) ← readWord [.verbose, .help, .version] arguments
  match subcommands.lookup word with
  | some readRest => readRest rest
  | none => .error (if word = ("help" : Text) then readHelp rest else .misuse)

end Invocation

end Notebook
