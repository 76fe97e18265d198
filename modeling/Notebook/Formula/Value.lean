/-
  The value of a formula of the standard grammar.

  Operands are evaluated from left to right, and the first fault met is the
  result.  An exponent has to be an exact number: one with an uncertainty is
  refused.
-/
import Notebook.Bindings
import Notebook.Fault

namespace Notebook.Formula

/-- The value of a formula, given the names bound so far. -/
def value (bindings : Bindings) : Formula → Except Fault Measurement
  | number x => .ok (.exact x)
  | name n =>
    match bindings.get? n with
    | some m => .ok m
    | none => .error (.unknownToken n)
  | negate inner => do
    let m ← inner.value bindings
    return -m
  | binary left .power right => do
    let base ← left.value bindings
    let exponent ← right.value bindings
    if exponent.uncertainty != 0 then throw (.inexactExponent right)
    return Operator.power.apply base exponent
  | binary left op right => do
    let a ← left.value bindings
    let b ← right.value bindings
    return op.apply a b

/-- Reads and evaluates a text, unless it nests deeper than `limit`. -/
def evaluate (bindings : Bindings) (limit : Nat) (t : Text) : Except Fault Measurement :=
  match ofText t with
  | .error fault => .error (.malformed fault)
  | .ok e => if limit < e.depth then .error (.tooDeep limit) else e.value bindings

end Notebook.Formula
