/-
  The shortest decimal that reads back as a given double.

  The reals that round to the double `m * 2 ^ q` form an interval around it,
  whose ends belong to it exactly if `m` is even.  A grid of step `10 ^ g` has a
  point in the interval only if one of the two grid points next to the double is
  in it, so the coarsest grid with a hit is found by trying those two on ever
  finer grids.  Of two hits the nearer is taken; where both are equally near,
  the caller says which.

  * `Interval.around` is the interval, `Interval.mem` the test for a decimal;
  * `shortest` is the decimal with the fewest figures.
-/
import Notebook.Binary64

namespace Notebook

/-- The decimal number `coefficient * 10 ^ exponent`. -/
structure Decimal where
  coefficient : Nat
  exponent : Int
  deriving DecidableEq, Repr

namespace Decimal

/-- Which of two equally near decimals to take. -/
inductive Tie where
  | up
  | toEven
  deriving DecidableEq, Repr

/-- The reals that round to one double, in units of `unit / scale`. -/
structure Interval where
  /-- Four times the coefficient of the double, and the ends on that scale. -/
  middle : Nat
  low : Nat
  high : Nat
  /-- Whether the ends belong to the interval. -/
  closed : Bool
  unit : Nat
  scale : Nat

/-- The interval around `m * 2 ^ q`, in units of a quarter of `2 ^ q`.  Below a
    power of two the next double is only half as far away. -/
def Interval.around (m : Nat) (q : Int) : Interval :=
  let (scale, unit) := Binary64.unscale 1 1 (q - 2)
  let low := if m = twoTo 52 ∧ q ≠ Binary64.leastExponent then 4 * m - 1 else 4 * m - 2
  ⟨4 * m, low, 4 * m + 2, m % 2 == 0, unit, scale⟩

/-- The double and the grid of step `10 ^ g` on a common scale: the numerator of
    a count of units, and that of a count of grid steps. -/
def Interval.onGrid (i : Interval) (g : Int) : Nat × Nat :=
  if 0 ≤ g then (i.unit, i.scale * tenTo g.toNat) else (i.unit * tenTo (-g).toNat, i.scale)

/-- Whether `n * 10 ^ g` is in the interval. -/
def Interval.mem (i : Interval) (n : Nat) (g : Int) : Bool :=
  let (u, s) := i.onGrid g
  if i.closed then i.low * u ≤ n * s && n * s ≤ i.high * u
  else i.low * u < n * s && n * s < i.high * u

/-- The point of the grid of step `10 ^ g` to write for the interval, if there
    is one: the nearer of the two next to its middle. -/
def Interval.onGrid? (i : Interval) (tie : Tie) (g : Int) : Option Decimal :=
  let (u, s) := i.onGrid g
  let down := i.middle * u / s
  match i.mem down g, i.mem (down + 1) g with
  | false, false => none
  | true, false => some ⟨down, g⟩
  | false, true => some ⟨down + 1, g⟩
  | true, true =>
    match compare (2 * (i.middle * u % s)) s with
    | .lt => some ⟨down, g⟩
    | .gt => some ⟨down + 1, g⟩
    | .eq =>
      match tie with
      | .up => some ⟨down + 1, g⟩
      | .toEven => some ⟨down + down % 2, g⟩

/-- The first hit on the grids `10 ^ g`, `10 ^ (g - 1)`, …; on the last of them
    the point below the double, hit or not. -/
def Interval.coarsest (i : Interval) (tie : Tie) : Nat → Int → Decimal
  | 0, g =>
    let (u, s) := i.onGrid g
    ⟨i.middle * u / s, g⟩
  | steps + 1, g =>
    match i.onGrid? tie g with
    | some d => d
    | none => i.coarsest tie steps (g - 1)

/-- A grid too coarse for a double of the binary exponent `e` (its magnitude is
    below `2 ^ (e + 1)`): a thousand binary places are at most 302 decimal ones. -/
def coarseGrid (e : Int) : Int := (e + 1) * 302 / 1000 + 3

/-- The decimal with the fewest figures that reads back as `m * 2 ^ q`.  From
    the coarsest grid on, the twentieth has a step below any interval, since a
    double has at most seventeen figures. -/
def shortest (tie : Tie) (m : Nat) (q : Int) : Decimal :=
  if m = 0 then ⟨0, 0⟩
  else (Interval.around m q).coarsest tie 24 (coarseGrid (m.log2 + q))

end Decimal

end Notebook
