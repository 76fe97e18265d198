/-
  A directory of files held in memory, and the program at work in it.

  A path leads from the directory through its names, with `.` and `..`.  Every
  name but the last has to be that of a directory.  Nothing is known of what lies
  outside, except that `..` leads there.

  Files are visited in the order of their names, a directory as soon as it is met:
  that is the order of the lists of names that lead to them (`Directory.precedes`).
-/
import Notebook.Files
import Notebook.Path

namespace Notebook

/-- Files by the names that lead to them, and folders that may be empty. -/
structure Directory where
  files : List (List Text × ByteArray) := []
  folders : List (List Text) := []

namespace Directory

/-! ## Paths -/

/-- Where a path leads: through names from the directory, or outside. -/
abbrev Location : Type := Option (List Text)

/-- What is found at a location. -/
inductive Found where
  | file (content : ByteArray)
  | folder

/-- Whether names lead to a folder. -/
def isFolder (d : Directory) (names : List Text) : Bool :=
  names.isEmpty || d.folders.any names.isPrefixOf ||
    d.files.any fun f => names.isPrefixOf f.1 && names != f.1

/-- What is at a location. -/
def find? (d : Directory) : Location → Option Found
  | none => some .folder
  | some names =>
    match d.files.lookup names with
    | some content => some (.file content)
    | none => if isFolder d names then some .folder else none

/-- The most bytes that a name may have. -/
def maxName : Nat := 255

/-- Goes from a location, which has to be a folder, by one name. -/
def enter (d : Directory) (place : Location) (name : Text) : Except FileFault Location :=
  match d.find? place with
  | none => .error .missing
  | some (.file _) => .error .notDirectory
  | some .folder =>
    if name = ['.'] then .ok place
    else if name = ['.', '.'] then
      match place with
      | none | some [] => .ok none
      | some names => .ok (some names.dropLast)
    else if maxName < Text.byteSize name then .error .nameTooLong
    else
      match place with
      | some names => .ok (some (names ++ [name]))
      | none => .error .missing

/-- The location that a path leads to. -/
def locate (d : Directory) (path : Text) : Except FileFault Location :=
  if path.isEmpty then .error .missing
  else
    let place : Location := if path.head? = some '/' then none else some []
    ((path.splitOn '/').filter fun name => !name.isEmpty).foldlM d.enter place

/-- What a path leads to. -/
def visit (d : Directory) (path : Text) : Except FileFault Found := do
  match d.find? (← d.locate path) with
  | none => .error .missing
  | some (.file content) =>
    if Path.endsAsFolder path then .error .notDirectory else .ok (.file content)
  | some .folder => .ok .folder

/-! ## Files -/

/-- The bytes of the file at a path. -/
def read (d : Directory) (path : Text) : Except FileFault ByteArray := do
  match ← d.visit path with
  | .file content => .ok content
  | .folder => .error .isDirectory

/-- Whether there is anything at a path. -/
def holds (d : Directory) (path : Text) : Bool :=
  match d.visit path with
  | .ok _ => true
  | .error _ => false

/-- Puts a file where names lead. -/
def put (d : Directory) (names : List Text) (content : ByteArray) : Directory :=
  { d with files := (names, content) :: d.files.filter fun f => f.1 != names }

/-- Writes a file. -/
def write (d : Directory) (path : Text) (content : ByteArray) : Except FileFault Directory := do
  let place ← d.locate path
  if Path.endsAsFolder path then .error .isDirectory
  else
    match place, d.find? place with
    | none, _ | _, some .folder => .error .isDirectory
    | some names, _ => .ok (d.put names content)

/-! ## Walks -/

/-- Whether names are visited before others, or are the same. -/
def precedes (a b : List Text) : Bool := !decide (b < a)

/-- The paths of the files below a folder, in the order in which they are
    visited. -/
def below (d : Directory) (root : Text) (names : List Text) : List Text :=
  let inner := d.files.filterMap fun f =>
    if names.isPrefixOf f.1 && names != f.1 then some (f.1.drop names.length) else none
  (inner.mergeSort precedes).map fun names => Path.inside root (List.intercalate ['/'] names)

/-- The paths of all files at or below a path. -/
def walk (d : Directory) (root : Text) : Except FileFault (List Text) := do
  match ← d.visit root with
  | .file _ => pure [root]
  | .folder =>
    match ← d.locate root with
    | some names => pure (d.below root names)
    | none => pure []

end Directory

/-! ## The program in a directory -/

/-- A directory, standard input, and what was printed on the standard streams. -/
structure Workplace where
  directory : Directory
  input : ByteArray := .empty
  printed : Text := []
  noted : Text := []

namespace Workplace

/-- The surroundings that a workplace is.  It has no terminal and no network. -/
def surroundings : Surroundings (StateM Workplace) where
  print t := modify fun w => { w with printed := w.printed ++ t }
  note t := modify fun w => { w with noted := w.noted ++ t }
  readInput := do return decode (← get).input
  read path := do return (← get).directory.read path >>= decode
  write path t := do
    let w ← get
    match w.directory.write path (encode t) with
    | .ok directory =>
      set { w with directory }
      return .ok ()
    | .error fault => return .error fault
  holds path := do return (← get).directory.holds path
  walk root := do
    return ((← get).directory.walk root).mapError fun fault => (root, fault)
  converse _ _ := pure (.error "Failed to read input: The input device is not a TTY")
  serve _ _ _ := pure (.ok ())

end Workplace

end Notebook
