/-
  The legacy grammar: a text is evaluated by cutting it at operators.

  A text that is a bound name or a number is an operand.  Any other is cut at the
  first class of operator that occurs in it, looked for in the order `*`, `+`,
  `/`, `-`; so `a + b * c` is cut at `*` and means `(a + b) * c`.  It is cut at
  every occurrence, from the left, until what is left is an operand: `a - 1e-3`
  is not cut inside the number.  The pieces are evaluated from left to right and
  combined from the right, so `a - b - c` means `a - (b - c)`.

  A chain of one operator costs one level of depth, however long it is; only a
  change of operator nests deeper.
-/
import Notebook.Bindings
import Notebook.Fault

namespace Notebook.Cutting

/-- A bound name or a bare number. -/
def operand? (bindings : Bindings) (token : Text) : Option Measurement :=
  (bindings.get? token).or ((readExact? token).map .exact)

/-- The operators in the order in which a text is searched for them. -/
def searchOrder : List Operator := [.multiply, .add, .divide, .subtract]

/-- The operator to cut a text at. -/
def operator? (token : Text) : Option Operator :=
  searchOrder.find? fun op => token.contains op.symbol

/-- Cuts a text, which does not end in a blank, at every `op` until what is left
    is an operand: the pieces before the cuts, and what is left. -/
def pieces (bindings : Bindings) (op : Operator) (rest : Text) : List Text × Text :=
  match _h : Text.cutAt? op.symbol rest with
  | none => ([], rest)
  | some (left, right) =>
    match operand? bindings (Text.trimStart right) with
    | some _ => ([left], right)
    | none =>
      let (more, last) := pieces bindings op right
      (left :: more, last)
termination_by rest.length
decreasing_by exact (Text.length_lt_of_cutAt? _h).2

/-- The value of a text with `levels` levels left out of `limit`. -/
def value (bindings : Bindings) (limit : Nat) : (levels : Nat) → Text → Except Fault Measurement
  | 0, _ => .error (.tooDeep limit)
  | levels + 1, t =>
    let token := Text.trim t
    match operand? bindings token with
    | some m => .ok m
    | none =>
      match operator? token with
      | none => .error (.unknownToken token)
      | some op => do
        let (lefts, last) := pieces bindings op token
        let operands ← lefts.mapM (value bindings limit levels)
        let last ← value bindings limit levels last
        return operands.foldr op.apply last

/-- The value of a text, unless it nests deeper than `limit`. -/
def evaluate (bindings : Bindings) (limit : Nat) (t : Text) : Except Fault Measurement :=
  value bindings limit limit t

end Notebook.Cutting
