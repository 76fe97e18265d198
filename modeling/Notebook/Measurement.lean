/-
  Measurements: a central value with an absolute uncertainty, and how the
  uncertainty propagates.

  Sums and differences combine the uncertainties in quadrature, products and
  quotients the relative uncertainties.  Every result of arithmetic is a new
  measurement, which no longer knows with how many places its operands were
  typed.  Division by a value of zero is not refused: the result is not finite,
  and is carried along as such.
-/

namespace Notebook

/-- A value and its absolute uncertainty.  `places` is set for measurements that
    were typed in: the number of places their uncertainty was written with. -/
structure Measurement where
  value : Float
  uncertainty : Float
  places : Option Nat := none
  deriving Repr

namespace Measurement

/-- A number known without uncertainty. -/
def exact (x : Float) : Measurement := { value := x, uncertainty := 0 }

/-- The uncertainty relative to the value, with the sign of the value; zero for
    a value of zero. -/
def relative (m : Measurement) : Float := if m.value != 0 then m.uncertainty / m.value else 0

/-- The root of the sum of two squares. -/
def quadrature (a b : Float) : Float := (a * a + b * b).sqrt

/-- The value of a product or quotient of two measurements, with the relative
    uncertainties of both combined. -/
def ofRelative (value : Float) (a b : Measurement) : Measurement :=
  { value, uncertainty := value.abs * quadrature a.relative b.relative }

def add (a b : Measurement) : Measurement :=
  { value := a.value + b.value, uncertainty := quadrature a.uncertainty b.uncertainty }

def sub (a b : Measurement) : Measurement :=
  { value := a.value - b.value, uncertainty := quadrature a.uncertainty b.uncertainty }

def mul (a b : Measurement) : Measurement := ofRelative (a.value * b.value) a b

def div (a b : Measurement) : Measurement := ofRelative (a.value / b.value) a b

def neg (a : Measurement) : Measurement := { value := -a.value, uncertainty := a.uncertainty }

/-- A measurement to the power of an exact number `k`; the uncertainty is that of
    the value times the slope `k * v ^ (k - 1)`. -/
def pow (a : Measurement) (k : Float) : Measurement :=
  { value := Float.pow a.value k
    uncertainty := (k * Float.pow a.value (k - 1) * a.uncertainty).abs }

instance : Add Measurement := ⟨add⟩
instance : Sub Measurement := ⟨sub⟩
instance : Mul Measurement := ⟨mul⟩
instance : Div Measurement := ⟨div⟩
instance : Neg Measurement := ⟨neg⟩

end Measurement

/-! ## Operators -/

/-- The operators of formulas. -/
inductive Operator where
  | add
  | subtract
  | multiply
  | divide
  | power
  deriving DecidableEq, Repr

namespace Operator

/-- The character an operator is written with. -/
def symbol : Operator → Char
  | add => '+'
  | subtract => '-'
  | multiply => '*'
  | divide => '/'
  | power => '^'

/-- Combines two measurements.  A power takes the value of its right operand as
    an exact exponent. -/
def apply : Operator → Measurement → Measurement → Measurement
  | add, a, b => a + b
  | subtract, a, b => a - b
  | multiply, a, b => a * b
  | divide, a, b => a / b
  | power, a, b => a.pow b.value

/-- No two operators are written alike. -/
theorem symbol_injective {a b : Operator} (h : a.symbol = b.symbol) : a = b := by
  cases a <;> cases b <;> simp_all [symbol]

end Operator

end Notebook
