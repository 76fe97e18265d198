/-
  Doubles taken apart, and the double nearest to a ratio of naturals.

  A finite double is a sign and a magnitude `m * 2 ^ q` with `q ≥ -1074`.  All
  that is written or read as decimal text is computed on `m` and `q` in exact
  arithmetic on naturals; only the results of arithmetic on measurements are
  left to the operations of `Float`.

  * `Binary64.ofFloat` takes a double apart;
  * `roundDiv` is a quotient rounded to the nearest natural, a half to the even
    neighbour: it is off by at most half a unit (`two_mul_roundDiv_mul_le`,
    `le_two_mul_roundDiv_mul`);
  * `Binary64.nearest` is the double nearest to a ratio, infinity where the
    ratio is too large;
  * `Binary64.roundToWhole` is the whole number nearest to a double, and
    `Binary64.floor` the next one below.
-/

namespace Notebook

/-! ## Powers -/

/-- The power `2 ^ n`. -/
def twoTo (n : Nat) : Nat := Nat.pow 2 n

/-- The power `10 ^ n`. -/
def tenTo (n : Nat) : Nat := Nat.pow 10 n

/-! ## Rounded quotients -/

/-- `num / den` rounded to the nearest natural, a half to the even neighbour. -/
def roundDiv (num den : Nat) : Nat :=
  let down := num / den
  match compare (2 * (num % den)) den with
  | .lt => down
  | .eq => down + down % 2
  | .gt => down + 1

/-- The rounded quotient is at most half a unit too large. -/
theorem two_mul_roundDiv_mul_le (num den : Nat) :
    2 * (roundDiv num den * den) ≤ 2 * num + den := by
  have h := Nat.div_add_mod' num den
  unfold roundDiv
  simp only
  split
  · omega
  · next hc =>
    have := Nat.compare_eq_eq.1 hc
    rcases Nat.mod_two_eq_zero_or_one (num / den) with h2 | h2 <;>
      simp only [h2, Nat.add_zero, Nat.add_mul] <;> omega
  · next hc =>
    have := Nat.compare_eq_gt.1 hc
    simp only [Nat.add_mul]
    omega

/-- The rounded quotient is at most half a unit too small. -/
theorem le_two_mul_roundDiv_mul {num den : Nat} (hd : 0 < den) :
    2 * num ≤ 2 * (roundDiv num den * den) + den := by
  have h := Nat.div_add_mod' num den
  have hm := Nat.mod_lt num hd
  unfold roundDiv
  simp only
  split
  · next hc =>
    have := Nat.compare_eq_lt.1 hc
    omega
  · next hc =>
    have := Nat.compare_eq_eq.1 hc
    rcases Nat.mod_two_eq_zero_or_one (num / den) with h2 | h2 <;>
      simp only [h2, Nat.add_zero, Nat.add_mul] <;> omega
  · simp only [Nat.add_mul]
    omega

/-- A half goes to the even neighbour. -/
theorem roundDiv_half_even {num den : Nat} (h : 2 * (num % den) = den) :
    roundDiv num den % 2 = 0 := by
  have hc : compare (2 * (num % den)) den = .eq := Nat.compare_eq_eq.2 h
  simp only [roundDiv, hc]
  omega

/-! ## Doubles -/

/-- A double: not a number, infinite, or a sign and the magnitude `m * 2 ^ q`. -/
inductive Binary64 where
  | nan
  | infinite (negative : Bool)
  | finite (negative : Bool) (m : Nat) (q : Int)
  deriving DecidableEq, Repr

namespace Binary64

/-- The exponent of the smallest magnitude above zero. -/
def leastExponent : Int := -1074

/-- The bits of infinity; those of a finite magnitude are below them. -/
def infinityBits : Nat := 0x7FF0000000000000

/-- Takes a double apart by its sign bit, its 11 exponent bits and its 52
    fraction bits. -/
def ofFloat (x : Float) : Binary64 :=
  let bits := x.toBits.toNat
  let negative := bits / twoTo 63 == 1
  let exponent : Nat := bits / twoTo 52 % twoTo 11
  let fraction : Nat := bits % twoTo 52
  if exponent = 0x7FF then
    if fraction = 0 then .infinite negative else .nan
  else if exponent = 0 then .finite negative fraction leastExponent
  else .finite negative (twoTo 52 + fraction) ((exponent : Int) - 1075)

/-- The ratio `num / (den * 2 ^ q)` as numerator and denominator. -/
def unscale (num den : Nat) (q : Int) : Nat × Nat :=
  if 0 ≤ q then (num, den * twoTo q.toNat) else (num * twoTo (-q).toNat, den)

/-- The exponent `q` of the double nearest to `num / den`: the ratio is between
    `2 ^ (q + 52)` and `2 ^ (q + 53)`, unless it is too small for that. -/
def exponentOf (num den : Nat) : Int :=
  let guess : Int := num.log2 - den.log2
  let (n, d) := unscale num den guess
  max leastExponent (if d ≤ n then guess - 52 else guess - 53)

/-- The bits of the double nearest to `num / den`, of two the even one.  A
    magnitude `m * 2 ^ q` has the bits `m + (q + 1074) * 2 ^ 52`, also where the
    rounding carries into the next exponent. -/
def nearestBits (num den : Nat) : Nat :=
  if num = 0 then 0
  else
    let q := exponentOf num den
    let (n, d) := unscale num den q
    min infinityBits (roundDiv n d + (q - leastExponent).toNat * twoTo 52)

/-- The double nearest to `num / den`; infinity if it is too large. -/
def nearest (num den : Nat) : Float := Float.ofBits (UInt64.ofNat (nearestBits num den))

/-- A double made whole: `whole` gets the sign and the magnitude as a ratio, and
    gives the new magnitude.  What is whole stays, and a zero keeps the sign. -/
def makeWhole (whole : Bool → Nat → Nat → Nat) (x : Float) : Float :=
  match ofFloat x with
  | .finite negative m q =>
    if 0 ≤ q then x
    else
      let magnitude := nearest (whole negative m (twoTo (-q).toNat)) 1
      if negative then -magnitude else magnitude
  | _ => x

/-- The whole number nearest to a double, of two the even one. -/
def roundToWhole : Float → Float := makeWhole fun _ => roundDiv

/-- The greatest whole number up to a double. -/
def floor : Float → Float :=
  makeWhole fun negative num den => if negative then (num + den - 1) / den else num / den

end Binary64

end Notebook
