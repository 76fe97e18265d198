/-
  The program at the command line: its surroundings are the file system and the
  standard streams.
-/
import Notebook.Program
import Notebook.Session

namespace Notebook

namespace CommandLine

/-- A text as the system takes it. -/
def native (t : Text) : String := String.ofList t

/-- Whether the system reports a fault by a number, which may be negated. -/
def isCode (n code : UInt32) : Bool := code == n || code == 0 - n

/-- The fault that the system reports. -/
def fault : IO.Error → FileFault
  | .noFileOrDirectory .. => .missing
  | .inappropriateType _ code message =>
    if isCode 20 code then .notDirectory
    else if isCode 21 code then .isDirectory
    else .other message.toList
  | e => .other (toString e).toList

/-- An action and the fault it may end with. -/
def trying {α : Type} (action : IO α) : IO (Except FileFault α) := do
  match ← action.toBaseIO with
  | .ok a => return .ok a
  | .error e => return .error (fault e)

/-- Prints on standard output. -/
def print (t : Text) : IO Unit := IO.print (native t)

/-- Prints on standard error. -/
def note (t : Text) : IO Unit := IO.eprint (native t)

/-- The paths of all files at or below a path, in the order of their names, or
    the path that cannot be visited. -/
partial def visit (root : Text) : IO (Except (Text × FileFault) (List Text)) := do
  let path := System.mkFilePath [native root]
  match ← trying path.metadata with
  | .error e => return .error (root, e)
  | .ok data =>
    match data.type with
    | .file => return .ok [root]
    | .dir =>
      match ← trying path.readDir with
      | .error e => return .error (root, e)
      | .ok entries =>
        let names := (entries.toList.map fun entry => entry.fileName.toList).mergeSort
          fun a b => !decide (b < a)
        let mut found := []
        for name in names do
          match ← visit (Path.inside root name) with
          | .ok paths => found := found ++ paths
          | .error e => return .error e
        return .ok found
    | _ => return .ok []

/-- Reads the lines of a session from a terminal. -/
partial def converse (settings : Settings) (document : Text) : IO (Except Text Unit) := do
  let input ← IO.getStdin
  if !(← input.isTty) then return .error "Failed to read input: The input device is not a TTY"
  print "> "
  let typed ← input.getLine
  if typed.isEmpty then return .ok ()
  let line := (native (typed.toList.takeWhile (!Line.isEnding ·))).toList
  let turn := Session.turn settings document (Command.ofText line)
  print turn.printed
  note turn.noted
  if let some path := turn.saves then
    match ← trying (IO.FS.writeFile (native path) (native document)) with
    | .ok () => print ("Saved " ++ path ++ "\n")
    | .error e => return .error ("Failed to write " ++ path ++ ": " ++ e.message)
  if turn.isLast then return .ok ()
  converse settings turn.document

/-- The file system and the standard streams. -/
def surroundings : Surroundings IO where
  print := print
  note := note
  readInput := do
    let content ← trying do (← IO.getStdin).readBinToEnd
    return content >>= decode
  read path := do
    let content ← trying (IO.FS.readBinFile (native path))
    return content >>= decode
  write path t := trying (IO.FS.writeBinFile (native path) (encode t))
  holds path := (System.mkFilePath [native path]).pathExists
  walk := visit
  converse := converse
  serve _ _ _ := return .error "there is no network to listen on"

end CommandLine

end Notebook

/-- Runs the program with its arguments. -/
def main (arguments : List String) : IO UInt32 :=
  Notebook.Program.start Notebook.CommandLine.surroundings (arguments.map String.toList)
