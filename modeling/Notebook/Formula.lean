/-
  Formulas of the standard grammar, as trees.

  `Formula.text` writes a tree as text: every operation in brackets, a sign
  directly before what it negates.  Numbers are written without exponent, however
  long that is, so that the text can be read again.
-/
import Notebook.Decimal.Layout
import Notebook.Measurement

namespace Notebook

/-- A formula. -/
inductive Formula where
  | number (value : Float)
  | name (name : Text)
  | negate (inner : Formula)
  | binary (left : Formula) (op : Operator) (right : Formula)
  deriving Repr

namespace Formula

/-- How deep a formula nests; a number or a name has depth one. -/
def depth : Formula → Nat
  | number _ | name _ => 1
  | negate inner => inner.depth + 1
  | binary left _ right => max left.depth right.depth + 1

/-- A number in a formula is written without exponent, and without a fraction if
    it is whole. -/
def numberLayout : Decimal.Layout where
  positional _ := true
  tie := .up
  pointZero := false
  plusSign := false

/-- The text of a formula, followed by `rest`. -/
def textBefore (rest : Text) : Formula → Text
  | number x => numberLayout.write x ++ rest
  | name n => n ++ rest
  | negate inner => '-' :: inner.textBefore rest
  | binary left op right =>
    '(' :: left.textBefore (' ' :: op.symbol :: ' ' :: right.textBefore (')' :: rest))

/-- The text of a formula. -/
def text (e : Formula) : Text := e.textBefore []

theorem textBefore_eq (e : Formula) (rest : Text) : e.textBefore rest = e.text ++ rest := by
  unfold text
  induction e generalizing rest with
  | number | name => simp [textBefore]
  | negate inner ih => rw [textBefore, textBefore, ih, List.cons_append]
  | binary left op right ihl ihr =>
    rw [textBefore, textBefore, ihl, ihl (' ' :: _), ihr, ihr [')']]
    simp

theorem text_binary (left right : Formula) (op : Operator) :
    (binary left op right).text =
      '(' :: left.text ++ [' ', op.symbol, ' '] ++ right.text ++ [')'] := by
  rw [text, textBefore, textBefore_eq, textBefore_eq]
  simp

end Formula

end Notebook
