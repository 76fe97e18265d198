/-
  Reading formulas: `+` and `-` bind loosest, then `*` and `/`, then signs, then
  `^`.  Chains of one strength group to the left; the exponent of `^` is all that
  a sign may stand before, a further `^` included.

  A formula is read token by token from the left.  What has been read but still
  waits for something on its right is kept on a stack of `Pending` parts, the
  last one first: a left operand with its operator, a sign, an open bracket.
  Either an operand comes next (`Formula.readOperand`), or a whole operand has
  been read (`Formula.readOperator`); there a token that binds less tightly than
  a pending part completes that part (`Formula.settle`).

  The first token that fits nowhere decides the error: `SyntaxFault` says what
  was expected in its place.
-/
import Notebook.Formula.Token

namespace Notebook

/-! ## What was expected -/

/-- What is missing where a text stops being a formula. -/
inductive SyntaxFault where
  /-- An operand. -/
  | operand
  /-- An operand, or another sign, after a sign. -/
  | afterSign
  /-- An operator, within brackets. -/
  | operator
  /-- An operator or the end, outside of brackets. -/
  | operatorOrEnd
  deriving DecidableEq, Repr

namespace SyntaxFault

/-- What was expected, in words. -/
def message : SyntaxFault → Text
  | operand => "expected unary"
  | afterSign => "expected power, negate, or affirm"
  | operator => "expected plus, minus, star, slash, or caret"
  | operatorOrEnd => "expected EOI, plus, minus, star, slash, or caret"

end SyntaxFault

/-! ## Pending parts -/

/-- How tightly an operator binds. -/
def Operator.strength : Operator → Nat
  | add | subtract => 1
  | multiply | divide => 2
  | power => 3

/-- A part of a formula that waits for what stands on its right. -/
inductive Pending where
  /-- A left operand and the operator after it. -/
  | binary (left : Formula) (op : Operator)
  /-- The sign `-`. -/
  | minus
  /-- The sign `+`. -/
  | plus
  /-- An open bracket. -/
  | bracket
  deriving Repr

namespace Pending

/-- How tightly a pending part binds: a sign as tightly as a power, an open
    bracket less than any operator. -/
def strength : Pending → Nat
  | binary _ op => op.strength
  | minus | plus => 3
  | bracket => 0

/-- A pending part with its right operand.  The sign `+` and brackets leave no
    trace. -/
def complete : Pending → Formula → Formula
  | binary left op, e => .binary left op e
  | minus, e => .negate e
  | plus, e => e
  | bracket, e => e

/-- Whether a pending part is a sign. -/
def isSign : Pending → Bool
  | minus | plus => true
  | binary .. | bracket => false

/-- Whether a pending part is an open bracket. -/
def isBracket : Pending → Bool
  | bracket => true
  | binary .. | minus | plus => false

end Pending

namespace Formula

/-! ## Reading -/

/-- Completes the pending parts that bind at least as tightly as `strength`, the
    last one first, with the operand `e`. -/
def settle (strength : Nat) : List Pending → Formula → List Pending × Formula
  | [], e => ([], e)
  | p :: pending, e =>
    if strength ≤ p.strength then settle strength pending (p.complete e) else (p :: pending, e)

/-- What was expected where no operand starts. -/
def operandFault : List Pending → SyntaxFault
  | p :: _ => if p.isSign then .afterSign else .operand
  | [] => .operand

/-- What was expected where an operand ends. -/
def operatorFault (pending : List Pending) : SyntaxFault :=
  if pending.any Pending.isBracket then .operator else .operatorOrEnd

/-- The formula that an operand completes at the end of the text. -/
def finish (pending : List Pending) (e : Formula) : Except SyntaxFault Formula :=
  match settle 1 pending e with
  | ([], e) => .ok e
  | (pending, _) => .error (operatorFault pending)

/-- Adds an operator with its left operand to the pending parts.  The left
    operand of a power is the operand just read, that of any other operator all
    that binds as tightly. -/
def pushOperator (pending : List Pending) (e : Formula) (op : Operator) : List Pending :=
  match op with
  | .power => .binary e .power :: pending
  | op =>
    let (pending, e) := settle op.strength pending e
    .binary e op :: pending

/-- How far a formula has been read. -/
inductive Progress where
  /-- An operand comes next. -/
  | operand (pending : List Pending)
  /-- The operand `e` has been read. -/
  | operator (pending : List Pending) (e : Formula)
  deriving Repr

/-- Reads one token. -/
def Progress.read : Progress → Token → Except SyntaxFault Progress
  | .operand pending, .number n => .ok (.operator pending (.number n.value))
  | .operand pending, .name n => .ok (.operator pending (.name n))
  | .operand pending, .opening => .ok (.operand (.bracket :: pending))
  | .operand pending, .operator .subtract => .ok (.operand (.minus :: pending))
  | .operand pending, .operator .add => .ok (.operand (.plus :: pending))
  | .operand pending, _ => .error (operandFault pending)
  | .operator pending e, .operator op => .ok (.operand (pushOperator pending e op))
  | .operator pending e, .closing =>
    match settle 1 pending e with
    | (.bracket :: pending, e) => .ok (.operator pending e)
    | (pending, _) => .error (operatorFault pending)
  | .operator pending _, _ => .error (operatorFault pending)

/-- Ends the reading. -/
def Progress.finish : Progress → Except SyntaxFault Formula
  | .operand pending => .error (operandFault pending)
  | .operator pending e => Formula.finish pending e

/-- Reads the tokens of a formula. -/
def ofTokens (tokens : List Token) : Except SyntaxFault Formula := do
  (← tokens.foldlM Progress.read (.operand [])).finish

/-- Reads a text as a formula, without the blanks at its ends. -/
def ofText (t : Text) : Except SyntaxFault Formula := ofTokens (Token.ofText (Text.trim t))

end Formula

end Notebook
