/-
  The names a notebook has bound, in the order in which they were first bound.

  Binding a name again replaces its measurement and keeps its place; no name
  occurs twice (`Bindings.nodup`).  `Bindings.get?` looks a name up.
-/
import Notebook.Measurement.Display

namespace Notebook

/-- Names with their measurements, each name once. -/
structure Bindings where
  entries : List (Text × Measurement) := []
  nodup : (entries.map Prod.fst).Nodup := by simp

namespace Bindings

@[ext] theorem ext {a b : Bindings} (h : a.entries = b.entries) : a = b := by
  cases a
  cases b
  congr

/-- No names. -/
def empty : Bindings := {}

/-- The names, in the order in which they were first bound. -/
def names (b : Bindings) : List Text := b.entries.map Prod.fst

/-- The measurement a name is bound to. -/
def get? (b : Bindings) (name : Text) : Option Measurement := b.entries.lookup name

/-- Whether a name is bound. -/
def contains (b : Bindings) (name : Text) : Bool := b.names.contains name

/-- How many names are bound. -/
def size (b : Bindings) : Nat := b.entries.length

/-- The entries with the measurement of `name` replaced. -/
def replace (name : Text) (m : Measurement) (entries : List (Text × Measurement)) :
    List (Text × Measurement) :=
  entries.map fun e => if e.1 = name then (name, m) else e

theorem map_fst_replace (name : Text) (m : Measurement) (entries : List (Text × Measurement)) :
    (replace name m entries).map Prod.fst = entries.map Prod.fst := by
  simp only [replace, List.map_map]
  apply List.map_congr_left
  intro e _
  simp only [Function.comp_apply]
  split
  · next h => exact h.symm
  · rfl

/-- Binds a name: in its old place if it is bound already, else at the end. -/
def bind (b : Bindings) (name : Text) (m : Measurement) : Bindings :=
  if h : b.contains name then
    { entries := replace name m b.entries
      nodup := by rw [map_fst_replace]; exact b.nodup }
  else
    { entries := b.entries ++ [(name, m)]
      nodup := by
        rw [List.map_append, List.nodup_append]
        refine ⟨b.nodup, by simp, ?_⟩
        intro x hx y hy hxy
        have hy : y = name := by simpa using hy
        subst hxy hy
        exact h (List.contains_iff_mem.2 hx) }

/-- Each binding with its text. -/
def displayed (b : Bindings) : List (Text × Text) := b.entries.map fun e => (e.1, e.2.display)

end Bindings

end Notebook
