/-
  Why a line binds nothing.

  A faulty line is dropped, and the evaluation goes on with the next one.  Each
  cause has its message (`Fault.message`).
-/
import Notebook.Formula.Parser

namespace Notebook

/-- Why a line binds nothing. -/
inductive Fault where
  /-- The line is neither blank nor a definition nor a derivation. -/
  | unrecognized
  /-- An operand is neither a bound name nor a number. -/
  | unknownToken (token : Text)
  /-- The formula nests deeper than allowed. -/
  | tooDeep (limit : Nat)
  /-- The text is no formula of the standard grammar. -/
  | malformed (fault : SyntaxFault)
  /-- An exponent has an uncertainty of its own. -/
  | inexactExponent (exponent : Formula)
  deriving Repr

namespace Fault

/-- The message for a fault. -/
def message : Fault → Text
  | unrecognized =>
    "line does not match `name = value +/- uncertainty` or `name = expression`"
  | unknownToken token => "unknown token '" ++ token ++ "'"
  | tooDeep limit => "expression nests deeper than " ++ s!"{limit}" ++ " levels"
  | malformed fault => "syntax error: " ++ fault.message
  | inexactExponent exponent => "exponent '" ++ exponent.text ++ "' must be an exact number"

end Fault

end Notebook
