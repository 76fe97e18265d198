/-
  The record of an evaluation as JSON: the names bound, what became of each line,
  and the warnings.  The places of a measurement are left out where it was not
  typed in with a point.
-/
import Notebook.Evaluation
import Notebook.Json

namespace Notebook

/-- A measurement as an object. -/
def Measurement.record (m : Measurement) : Json :=
  let places : List (Text × Json) := match m.places with
    | some n => [("manual_precision", .natural n)]
    | none => []
  .object (("value", .number m.value) :: ("uncertainty", .number m.uncertainty) :: places)

/-- The bindings as an object, in their order. -/
def Bindings.record (b : Bindings) : Json :=
  .object (b.entries.map fun e => (e.1, e.2.record))

/-- The place of a line. -/
def Span.record (s : Span) : Json :=
  .object [("start", .natural s.start), ("end", .natural s.stop), ("line", .natural s.line)]

/-- A fault: its kind, and what it is about. -/
def Fault.record : Fault → Json
  | unrecognized => .object [("kind", .string "parse_mismatch")]
  | unknownToken token => .object [("kind", .string "unknown_token"), ("token", .string token)]
  | tooDeep limit => .object [("kind", .string "depth_exceeded"), ("limit", .natural limit)]
  | malformed fault => .object [("kind", .string "syntax"), ("message", .string fault.message)]
  | inexactExponent exponent =>
    .object [("kind", .string "non_scalar_exponent"), ("exponent", .string exponent.text)]

/-- The fields that say what became of a line. -/
def Status.fields : Status → List (Text × Json)
  | skipped => [("status", .string "skipped")]
  | defined name m =>
    [("status", .string "defined"), ("name", .string name), ("measurement", m.record)]
  | derived name m =>
    [("status", .string "derived"), ("name", .string name), ("measurement", m.record)]
  | dropped (some name) fault =>
    [("status", .string "dropped"), ("name", .string name), ("error", fault.record)]
  | dropped none fault => [("status", .string "dropped"), ("error", fault.record)]

/-- A line and what became of it. -/
def Outcome.record (o : Outcome) : Json :=
  .object (("span", o.line.span.record) :: ("source", .string o.line.text) :: o.status.fields)

/-- A warning. -/
def Fallback.record (f : Fallback) : Json :=
  .object [("kind", .string "numeric_fallback"), ("span", f.span.record),
    ("name", .string f.name), ("literal", .string f.literal)]

/-- An evaluation. -/
def Evaluation.record (e : Evaluation) : Json :=
  .object [("symbols", e.bindings.record),
    ("lines", .array (e.outcomes.toList.map Outcome.record)),
    ("warnings", .array (e.fallbacks.toList.map Fallback.record))]

end Notebook
