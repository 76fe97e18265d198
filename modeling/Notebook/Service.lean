/-
  The service: requests that evaluate notebooks, and what they are answered.

  Two resources are known.  `/health` tells that the service runs; a submission
  posted to `/evaluate` is answered with the names that it binds, the lines that
  were dropped and the warnings.  An answer has a body if there is something to
  tell; a request that is refused for its form has none.
-/
import Notebook.Report.Variables
import Notebook.Service.MediaType
import Notebook.Service.Submission

namespace Notebook

namespace Service

/-! ## Requests and answers -/

/-- A request.  Its target may have a query after a question mark. -/
structure Request where
  method : Text
  target : Text
  contentType : Option Text := none
  body : Text := []

/-- How a request went. -/
inductive Status where
  | ok
  | badRequest
  | notFound
  | methodNotAllowed
  | payloadTooLarge
  | unsupportedMediaType
  | unprocessable
  deriving DecidableEq, Repr

/-- The number of a status. -/
def Status.code : Status → Nat
  | ok => 200
  | badRequest => 400
  | notFound => 404
  | methodNotAllowed => 405
  | payloadTooLarge => 413
  | unsupportedMediaType => 415
  | unprocessable => 422

/-- An answer. -/
structure Response where
  status : Status
  body : Option Json := none

/-- The path of a target: what comes before the query. -/
def pathOf (target : Text) : Text := target.takeWhile fun c => c != '?' && c != '#'

/-! ## Health -/

/-- The version of the program. -/
def version : Text := "0.3.0"

/-- What is told of the service. -/
def health : Json :=
  .object [("service", .string "labbook"), ("status", .string "ok"), ("version", .string version)]

/-! ## Evaluation -/

/-- A dropped line and why it was dropped. -/
def diagnostic (o : Outcome) : Option Json :=
  o.status.fault?.map fun fault =>
    .object [("line", .natural o.line.span.line), ("source", .string o.line.text),
      ("message", .string fault.message)]

/-- The answer to an evaluation. -/
def results (e : Evaluation) : Json :=
  .object [("variables", e.bindings.listing),
    ("diagnostics", .array (e.dropped.filterMap diagnostic)),
    ("warnings", .array (e.fallbacks.toList.map fun f => .string f.message))]

/-- Evaluates a submission, unless it is too large. -/
def evaluate (limits : Limits) (s : Submission) : Response :=
  match limits.check s.text with
  | .error oversize => ⟨.badRequest, some (.object [("error", .string oversize.message)])⟩
  | .ok () => ⟨.ok, some (results (Notebook.evaluate { grammar := s.grammar, limits } s.text))⟩

/-- The most bytes that a body may have. -/
def maxBody : Nat := 2097152

/-- Evaluates the body of a request. -/
def submit (limits : Limits) (r : Request) : Response :=
  if !r.contentType.any MediaType.isJson then ⟨.unsupportedMediaType, none⟩
  else if maxBody < Text.byteSize r.body then ⟨.payloadTooLarge, none⟩
  else
    match Submission.ofText r.body with
    | .error .malformed => ⟨.badRequest, none⟩
    | .error .misshapen => ⟨.unprocessable, none⟩
    | .ok s => evaluate limits s

/-! ## Routes -/

/-- Answers a request. -/
def respond (limits : Limits) (r : Request) : Response :=
  let path := pathOf r.target
  if path = ("/health" : Text) then
    if r.method = ("GET" : Text) then ⟨.ok, some health⟩
    else if r.method = ("HEAD" : Text) then ⟨.ok, none⟩
    else ⟨.methodNotAllowed, none⟩
  else if path = ("/evaluate" : Text) then
    if r.method = ("POST" : Text) then submit limits r else ⟨.methodNotAllowed, none⟩
  else ⟨.notFound, none⟩

end Service

end Notebook
