/-
  Registers: how the names of a notebook are kept while it is read.

  The entries stand in the order in which their names were first bound, and an index
  gives the position of the entry of each name, so that a name is found without
  walking the entries.  `Bindings` is what a register stands for.

  Entries and index are kept side by side, and nothing in their types holds them
  together: a position in the index may be one at which no entry stands.  Then neither
  looking a name up nor binding it has a result (`Register.Stray`).
-/
import Notebook.Measurement.Display

namespace Notebook

/-- Names with their measurements, and an index from names to positions. -/
structure Register where
  entries : Array (Text × Measurement) := #[]
  index : List (Text × Nat) := []
  deriving Repr

namespace Register

/-- A position at which no entry stands, and how many entries there are. -/
structure Stray where
  position : Nat
  size : Nat
  deriving DecidableEq, Repr

/-- The entry at a position. -/
def entryAt (r : Register) (position : Nat) : Except Stray (Text × Measurement) :=
  match r.entries[position]? with
  | some entry => .ok entry
  | none => .error ⟨position, r.entries.size⟩

/-- Binds a name.  An entry that it has already gets the measurement and keeps its name
    and its position; else the name gets an entry after the others. -/
def bind (r : Register) (name : Text) (m : Measurement) : Except Stray Register :=
  match r.index.lookup name with
  | some position => do
    let entry ← r.entryAt position
    return { r with entries := r.entries.setIfInBounds position (entry.1, m) }
  | none =>
    .ok { entries := r.entries.push (name, m), index := (name, r.entries.size) :: r.index }

/-- The measurement of a name, if it has an entry. -/
def get? (r : Register) (name : Text) : Except Stray (Option Measurement) :=
  match r.index.lookup name with
  | some position => do
    let entry ← r.entryAt position
    return some entry.2
  | none => .ok none

/-- Whether a name has an entry. -/
def contains (r : Register) (name : Text) : Bool := (r.index.lookup name).isSome

/-- How many entries there are. -/
def size (r : Register) : Nat := r.entries.size

/-- The entries in their order. -/
def toList (r : Register) : List (Text × Measurement) := r.entries.toList

/-- The names in the order of their entries. -/
def names (r : Register) : List Text := r.toList.map Prod.fst

/-- Each name with the text of its measurement. -/
def displayed (r : Register) : List (Text × Text) := r.toList.map fun e => (e.1, e.2.display)

/-- The register after a history of bindings, the first one first. -/
def ofHistory (history : List (Text × Measurement)) : Except Stray Register :=
  history.foldlM (fun r e => r.bind e.1 e.2) {}

end Register

end Notebook
