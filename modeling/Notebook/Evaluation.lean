/-
  The evaluation of a document.

  A document is evaluated in one pass from the top.  Each line sees the names
  bound above it and nothing else; a line that cannot be evaluated is dropped,
  and the pass goes on.

  * `Status` is what became of a line, `Status.bind` what that does to the names
    bound so far: nothing else changes them;
  * `Fallback` is a warning: a literal that is not a number was read as zero;
  * `Evaluation.step` adds one line, `evaluate` is its fold over all lines.
-/
import Notebook.Entry
import Notebook.Formula.Cutting
import Notebook.Formula.Value
import Notebook.Line
import Notebook.Settings

namespace Notebook

/-- The value of a text in the grammar of the settings. -/
def evaluateFormula (settings : Settings) (bindings : Bindings) (t : Text) :
    Except Fault Measurement :=
  match settings.grammar with
  | .legacy => Cutting.evaluate bindings settings.limits.maxDepth t
  | .standard => Formula.evaluate bindings settings.limits.maxDepth t

/-! ## What became of a line -/

/-- What became of a line. -/
inductive Status where
  /-- It was blank or a comment. -/
  | skipped
  /-- It bound a measurement that it types in. -/
  | defined (name : Text) (m : Measurement)
  /-- It bound a measurement that it derives. -/
  | derived (name : Text) (m : Measurement)
  /-- It bound nothing; the name is the one it was to bind. -/
  | dropped (name : Option Text) (fault : Fault)
  deriving Repr

namespace Status

/-- The binding that a line made. -/
def binding? : Status → Option (Text × Measurement)
  | defined name m | derived name m => some (name, m)
  | skipped | dropped .. => none

/-- The fault a line was dropped for. -/
def fault? : Status → Option Fault
  | dropped _ fault => some fault
  | skipped | defined .. | derived .. => none

/-- Adds the binding that a line made. -/
def bind (bindings : Bindings) (status : Status) : Bindings :=
  match status.binding? with
  | some (name, m) => bindings.bind name m
  | none => bindings

end Status

/-- A line and what became of it. -/
structure Outcome where
  line : Line
  status : Status
  deriving Repr

/-- Whether a line was dropped. -/
def Outcome.isDropped (o : Outcome) : Bool := o.status.fault?.isSome

/-- A literal of a definition that is not a number, and was read as zero. -/
structure Fallback where
  span : Span
  name : Text
  literal : Text
  deriving DecidableEq, Repr

/-- The warning about a literal. -/
def Fallback.message (f : Fallback) : Text :=
  "'" ++ f.literal ++ "' in the definition of '" ++ f.name ++ "' is not a number, read as 0"

/-! ## One line -/

namespace Entry

/-- The measurement that two literals type in.  It keeps the places of the
    uncertainty if that has a point. -/
def measurement (value uncertainty : Literal) : Measurement where
  value := value.value
  uncertainty := uncertainty.value
  places := if uncertainty.hasPoint then some uncertainty.places else none

/-- What becomes of an entry, given the names bound above it. -/
def status (settings : Settings) (bindings : Bindings) : Entry → Status
  | blank => .skipped
  | definition name value uncertainty => .defined name (measurement value uncertainty)
  | derivation name formula =>
    match evaluateFormula settings bindings formula with
    | .ok m => .derived name m
    | .error fault => .dropped (some name) fault
  | unrecognized => .dropped none .unrecognized

/-- The warnings about an entry: the value before the uncertainty. -/
def fallbacks (span : Span) : Entry → List Fallback
  | definition name value uncertainty =>
    ([value, uncertainty].filter Literal.isFallback).map fun l => ⟨span, name, l.text⟩
  | blank | derivation .. | unrecognized => []

end Entry

/-! ## All lines -/

/-- The names bound by the lines read so far, and what became of each line. -/
structure Evaluation where
  bindings : Bindings := .empty
  outcomes : Array Outcome := #[]
  fallbacks : Array Fallback := #[]

namespace Evaluation

/-- Reads one more line. -/
def step (settings : Settings) (e : Evaluation) (line : Line) : Evaluation :=
  let entry := Entry.ofText line.text
  let status := entry.status settings e.bindings
  { bindings := status.bind e.bindings
    outcomes := e.outcomes.push ⟨line, status⟩
    fallbacks := e.fallbacks ++ entry.fallbacks line.span }

/-- The dropped lines, in order. -/
def dropped (e : Evaluation) : List Outcome := e.outcomes.toList.filter Outcome.isDropped

/-- Whether no line was dropped and no literal read as zero. -/
def isClean (e : Evaluation) : Bool := e.dropped.isEmpty && e.fallbacks.isEmpty

end Evaluation

/-- Evaluates a document. -/
def evaluate (settings : Settings) (document : Text) : Evaluation :=
  (Text.lines document).foldl (Evaluation.step settings) {}

end Notebook
