/-
  How a measurement is displayed: `value ± uncertainty`.

  A measurement that was typed in is displayed with the places it was typed
  with.  A computed one is rounded so that its uncertainty keeps one significant
  figure, and its value to the same decimal place.  A computed measurement
  without uncertainty is its bare value.

  Which power of ten the first figure of an uncertainty stands for is found with
  a decimal logarithm and a power, which are those of a `Library`.
-/
import Notebook.Decimal.Layout
import Notebook.Measurement

namespace Notebook.Measurement

/-- What stands between the value and the uncertainty. -/
def plusMinus : Text := " ± "

/-- A bare value is written without exponent from `10 ^ (-4)` to below `10 ^ 16`,
    with a fraction even if it is whole. -/
def bareLayout : Decimal.Layout where
  positional e := -4 ≤ e && e < 16
  tie := .up
  pointZero := true
  plusSign := false

/-- Value and uncertainty with the same number of places. -/
def displayFixed (places : Nat) (value uncertainty : Float) : Text :=
  Decimal.fixed places value ++ plusMinus ++ Decimal.fixed places uncertainty

/-- The places that a figure standing for `10 ^ magnitude` needs after the
    point: none unless the magnitude is below zero. -/
def placesFor (magnitude : Float) : Nat :=
  if 0 < -magnitude then (-magnitude).toUInt64.toNat else 0

/-- The functions of a mathematical library that a figure is found with. -/
structure Library where
  log10 : Float → Float
  pow : Float → Float → Float

/-- The library of the platform. -/
def Library.platform : Library := ⟨Float.log10, Float.pow⟩

/-- The exponent of the power of ten that the first figure of an uncertainty
    stands for. -/
def Library.magnitude (library : Library) (uncertainty : Float) : Float :=
  Binary64.floor (library.log10 uncertainty)

/-- The power of ten that the first figure of an uncertainty stands for. -/
def Library.scale (library : Library) (uncertainty : Float) : Float :=
  library.pow 10 (library.magnitude uncertainty)

/-- The text of a measurement, with the functions of a library. -/
def displayWith (library : Library) (m : Measurement) : Text :=
  match m.places with
  | some places => displayFixed places m.value m.uncertainty
  | none =>
    if m.uncertainty == 0 then bareLayout.write m.value
    else
      let scale := library.scale m.uncertainty
      displayFixed (placesFor (library.magnitude m.uncertainty))
        (Binary64.roundToWhole (m.value / scale) * scale)
        (Binary64.roundToWhole (m.uncertainty / scale) * scale)

/-- The text of a measurement. -/
def display (m : Measurement) : Text := m.displayWith .platform

end Notebook.Measurement
