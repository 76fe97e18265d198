/-
  The names an evaluation has bound, as they are printed: one a line, as a table,
  or as JSON; and the summary of a set of notebooks.
-/
import Notebook.Evaluation
import Notebook.Json
import Notebook.Report.BoxTable

namespace Notebook

namespace Bindings

/-- One line for each binding: `name = value`. -/
def raw (b : Bindings) : Text := b.displayed.flatMap fun e => e.1 ++ " = " ++ e.2 ++ "\n"

/-- A table of the bindings, or a note that there are none. -/
def table (b : Bindings) : Text :=
  if b.entries.isEmpty then "No measurements defined\n"
  else
    { columns := [("Name", .left), ("Value", .right)]
      rows := b.displayed.map fun e => [e.1, e.2] : BoxTable }.render

/-- The bindings with their texts, as an array of objects. -/
def listing (b : Bindings) : Json :=
  .array (b.entries.map fun e =>
    .object [("name", .string e.1), ("value", .number e.2.value),
      ("uncertainty", .number e.2.uncertainty), ("display", .string e.2.display)])

end Bindings

/-! ## Sets of notebooks -/

/-- What an evaluation came to. -/
structure Tally where
  path : Text
  bound : Nat
  dropped : Nat
  warnings : Nat
  deriving DecidableEq, Repr

/-- The counts of an evaluation. -/
def Evaluation.tally (e : Evaluation) (path : Text) : Tally :=
  { path, bound := e.bindings.size, dropped := e.dropped.length, warnings := e.fallbacks.size }

/-- One line of counts. -/
def Tally.line (t : Tally) : Text :=
  t.path ++ ": " ++ s!"{t.bound}" ++ " bound, " ++ s!"{t.dropped}" ++ " dropped, " ++
    s!"{t.warnings}" ++ " warning(s)\n"

/-- The summary of a set of notebooks: how many, and a table of their counts. -/
def Tally.summary (tallies : List Tally) : Text :=
  let head : Text := "Workspace contains " ++ s!"{tallies.length}" ++ " notebook(s)\n"
  if tallies.isEmpty then head
  else
    let table : BoxTable :=
      { columns := [("Notebook", .left), ("Variables", .left), ("Dropped", .left),
          ("Warnings", .left)]
        rows := tallies.map fun t =>
          [t.path, Decimal.figures t.bound, Decimal.figures t.dropped,
            Decimal.figures t.warnings] }
    head ++ "\n" ++ table.render

end Notebook
