/-
  How a double is written as decimal text.

  Two forms are written in a notebook's output.  The shortest form
  (`Layout.write`) has the fewest figures that read back; where it ends being
  positional, what a whole number ends in and how an exponent is signed are
  decided by a `Layout`, a value of the module that writes the output.  The
  form with fixed places (`fixed`) is the exact value rounded to so many places,
  a half to the even neighbour.

  A minus sign is written for every negative double, zero among them.  What is
  not finite is written `inf` or `NaN` in both forms.
-/
import Notebook.Decimal.Shortest
import Notebook.Text

namespace Notebook.Decimal

/-- The figures of a natural number. -/
def figures (n : Nat) : Text := Nat.toDigits 10 n

/-- `count` zeros. -/
def zeros (count : Nat) : Text := List.replicate count '0'

/-- The sign of a double: a minus or nothing. -/
def signOf (negative : Bool) : Text := if negative then ['-'] else []

/-- How the shortest form is laid out. -/
structure Layout where
  /-- Whether a number whose first figure stands for `10 ^ e` is written without
      an exponent. -/
  positional : Int → Bool
  /-- Which of two equally near shortest decimals is written. -/
  tie : Tie
  /-- Whether a whole number without exponent ends in `.0`. -/
  pointZero : Bool
  /-- Whether an exponent that is not negative is written with a plus sign. -/
  plusSign : Bool

/-- What a whole number written without exponent ends in. -/
def Layout.wholeEnd (layout : Layout) : Text := if layout.pointZero then ".0" else []

/-- The figures `ds`, the last of which stands for `10 ^ exponent`, without an
    exponent. -/
def Layout.writePositional (layout : Layout) (ds : Text) (exponent : Int) : Text :=
  if 0 ≤ exponent then ds ++ zeros exponent.toNat ++ layout.wholeEnd
  else
    let places := (-exponent).toNat
    if places < ds.length then
      ds.take (ds.length - places) ++ '.' :: ds.drop (ds.length - places)
    else "0." ++ zeros (places - ds.length) ++ ds

/-- The figures `ds`, the first of which stands for `10 ^ e`, with the exponent. -/
def Layout.writeScientific (layout : Layout) (ds : Text) (e : Int) : Text :=
  let mantissa := match ds with
    | d :: rest@(_ :: _) => d :: '.' :: rest
    | _ => ds
  let sign : Text := if e < 0 then ['-'] else if layout.plusSign then ['+'] else []
  mantissa ++ 'e' :: sign ++ figures e.natAbs

/-- The text of a decimal that is not negative. -/
def Layout.writeDecimal (layout : Layout) (d : Decimal) : Text :=
  if d.coefficient = 0 then ['0'] ++ layout.wholeEnd
  else
    let ds := figures d.coefficient
    let e := d.exponent + ds.length - 1
    if layout.positional e then layout.writePositional ds d.exponent
    else layout.writeScientific ds e

/-- A double in the fewest figures that read back. -/
def Layout.write (layout : Layout) (x : Float) : Text :=
  match Binary64.ofFloat x with
  | .nan => "NaN"
  | .infinite negative => signOf negative ++ "inf"
  | .finite negative m q => signOf negative ++ layout.writeDecimal (shortest layout.tie m q)

/-- `n / 10 ^ places`, with exactly so many places and a figure before the
    point; no point without places. -/
def pointed (places n : Nat) : Text :=
  let ds := figures n
  let ds := zeros (places + 1 - ds.length) ++ ds
  let whole := ds.take (ds.length - places)
  if places = 0 then whole else whole ++ '.' :: ds.drop (ds.length - places)

/-- A double rounded to so many places, a half to the even neighbour. -/
def fixed (places : Nat) (x : Float) : Text :=
  match Binary64.ofFloat x with
  | .nan => "NaN"
  | .infinite negative => signOf negative ++ "inf"
  | .finite negative m q =>
    let (num, den) := Binary64.unscale (m * tenTo places) 1 (-q)
    signOf negative ++ pointed places (roundDiv num den)

end Notebook.Decimal
