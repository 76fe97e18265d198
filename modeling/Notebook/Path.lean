/-
  Paths, and the extension of notebook files.

  A path is a text with components between slashes.  Empty components and `.`
  say nothing, except for a `.` that a path starts with; the file name is the
  last component that says something, unless that is `..`.  The extension is what
  follows the last point of the file name, if that point is not its first
  character.
-/
import Notebook.Text

namespace Notebook

namespace Path

/-- The components of a path that say something. -/
def components (path : Text) : List Text :=
  (path.splitOn '/').filter fun c => !(c.isEmpty || c == ['.'])

/-- The file name of a path. -/
def fileName? (path : Text) : Option Text :=
  match (components path).getLast? with
  | some name => if name = ['.', '.'] then none else some name
  | none => none

/-- What follows the last point of a file name, unless there is no point or it is
    the first character. -/
def extensionOf? (name : Text) : Option Text :=
  match name.reverse.dropWhile (· != '.') with
  | [] => none
  | _ :: before => if before.isEmpty then none else some (name.drop (before.length + 1))

/-- The extension of a path. -/
def extension? (path : Text) : Option Text := (fileName? path).bind extensionOf?

/-- Whether a path ends in a slash, as only that of a folder may. -/
def endsAsFolder (path : Text) : Bool := path.getLast? == some '/'

/-- The path of what a folder holds under a name. -/
def inside (folder name : Text) : Text :=
  if endsAsFolder folder then folder ++ name else folder ++ '/' :: name

/-- The extension of notebook files. -/
def notebookExtension : Text := "lab"

/-- Whether a path is that of a notebook file. -/
def isNotebook (path : Text) : Bool := extension? path == some notebookExtension

/-- A path with the extension of notebook files, which is added if it is not
    there. -/
def ofNotebook (path : Text) : Text :=
  if isNotebook path then path else path ++ '.' :: notebookExtension

end Path

end Notebook
