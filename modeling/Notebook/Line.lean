/-
  The lines of a document.

  A line feed, a carriage return and the two together in this order each end a
  line.  An ending at the very end of the document opens no further line, so the
  empty document is the one without lines.  Each line carries its place: its
  number from one, and the byte offsets between which its text stands.
-/
import Notebook.Text

namespace Notebook

/-- The place of a line in its document. -/
structure Span where
  /-- The number of the line, from one. -/
  line : Nat
  /-- The byte offset at which the text starts. -/
  start : Nat
  /-- The byte offset at which the text stops, its ending excluded. -/
  stop : Nat
  deriving DecidableEq, Repr

/-- One line of a document, without its ending and not trimmed. -/
structure Line where
  text : Text
  span : Span
  deriving DecidableEq, Repr

namespace Line

/-- The characters that end a line. -/
def isEnding (c : Char) : Bool := c == '\n' || c == '\r'

/-- The line that starts at the byte `start`, after `done`, and whose characters
    are `taken` in reverse. -/
def close (done : Array Line) (start : Nat) (taken : Text) : Line :=
  let text := taken.reverse
  ⟨text, done.size + 1, start, start + Text.byteSize text⟩

/-- The lines `done`, then those of the rest of a document, whose first line
    starts at the byte `start` and has the characters `taken` already, in
    reverse. -/
def collect (done : Array Line) (start : Nat) (taken : Text) : Text → Array Line
  | [] => if taken.isEmpty then done else done.push (close done start taken)
  | '\r' :: '\n' :: rest =>
    let line := close done start taken
    collect (done.push line) (line.span.stop + 2) [] rest
  | c :: rest =>
    if isEnding c then
      let line := close done start taken
      collect (done.push line) (line.span.stop + 1) [] rest
    else collect done start (c :: taken) rest

end Line

/-- The lines of a document. -/
def Text.lines (document : Text) : List Line := (Line.collect #[] 0 [] document).toList

end Notebook
