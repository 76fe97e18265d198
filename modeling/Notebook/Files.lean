/-
  Files and the rest of what the program works with, as far as it can tell.

  `Surroundings` are the actions that the program is written over.  They read and
  write files and standard streams, and may fail for the reasons in `FileFault`.
-/
import Notebook.Settings

namespace Notebook

/-- Why a file cannot be read or written. -/
inductive FileFault where
  | missing
  | notDirectory
  | isDirectory
  | nameTooLong
  /-- Its bytes are not UTF-8. -/
  | notText
  | other (message : Text)
  deriving DecidableEq, Repr

/-- The message for a fault. -/
def FileFault.message : FileFault → Text
  | missing => "No such file or directory (os error 2)"
  | notDirectory => "Not a directory (os error 20)"
  | isDirectory => "Is a directory (os error 21)"
  | nameTooLong => "File name too long (os error 36)"
  | notText => "stream did not contain valid UTF-8"
  | other message => message

/-- The text of a file. -/
def decode (content : ByteArray) : Except FileFault Text :=
  match String.fromUTF8? content with
  | some s => .ok s.toList
  | none => .error .notText

/-- The bytes of a text. -/
def encode (t : Text) : ByteArray := (String.ofList t).toUTF8

/-- What the program works with. -/
structure Surroundings (m : Type → Type) where
  /-- Prints on standard output. -/
  print : Text → m Unit
  /-- Prints on standard error. -/
  note : Text → m Unit
  /-- Reads standard input to its end. -/
  readInput : m (Except FileFault Text)
  /-- Reads a file. -/
  read : Text → m (Except FileFault Text)
  /-- Writes a file. -/
  write : Text → Text → m (Except FileFault Unit)
  /-- Whether there is a file or a directory at a path. -/
  holds : Text → m Bool
  /-- The paths of all files at or below a path, in the order of their names, or
      the path that cannot be visited. -/
  walk : Text → m (Except (Text × FileFault) (List Text))
  /-- Lets a document be entered line by line, or says why that cannot be. -/
  converse : Settings → Text → m (Except Text Unit)
  /-- Answers requests at a host and a port, or says why that cannot be. -/
  serve : Limits → Text → Nat → m (Except Text Unit)

end Notebook
