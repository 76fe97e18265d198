/-
  Products and quotients of doubles.

  An operation of `Float` computes a mantissa that may be cut off, and two bits for what was
  cut off.  They are enough to round it: the product or the quotient of two doubles above
  zero is the double nearest to the exact one.

  * `Represents em v`: the mantissa `em` and its two bits stand for the number `v`, which
    shifting keeps (`represents_shiftRight`);
  * `Represents.rounded`: the rounded mantissa is half a unit away at most, of two the even
    one;
  * `toNat_pack_round`: what is rounded and packed has the bits of the nearest double;
  * `unpack_eq_finite`: a double above zero, unpacked;
  * `mul_eq_nearest`, `div_eq_nearest`: products and quotients.
-/
import Notebook.Proofs.Rounding

namespace Notebook.Binary64

open Float.Model (Format UnpackedFloat totalExponent)
open Float.Model.UnpackedFloat

/-! ## A mantissa that was cut off -/

/-- The number `v` is from `em.mantissa` to the next natural: the round bit says whether it
    is half way at least, and the sticky bit whether it is between the halves. -/
def Represents (em : ExtendedMantissa) (v : ℚ) : Prop :=
  match em.roundBit, em.stickyBit with
  | false, false => v = em.mantissa
  | false, true => em.mantissa < v ∧ v < em.mantissa + 1 / 2
  | true, false => v = em.mantissa + 1 / 2
  | true, true => em.mantissa + 1 / 2 < v ∧ v < em.mantissa + 1

theorem represents_shiftRightOne {em : ExtendedMantissa} {v : ℚ} (h : Represents em v) :
    Represents em.shiftRightOne (v / 2) := by
  obtain ⟨m, r, s⟩ := em
  -- the last bit of the mantissa becomes the round bit
  have hm : (m : ℚ) = 2 * (m / 2 : ℕ) + if m % 2 != 0 then 1 else 0 := by
    have hlast : (if m % 2 != 0 then 1 else 0) = m % 2 := by
      rcases Nat.mod_two_eq_zero_or_one m with hmod | hmod <;> rw [hmod] <;> rfl
    exact_mod_cast (hlast ▸ Nat.div_add_mod m 2).symm
  simp only [ExtendedMantissa.shiftRightOne]
  generalize (m % 2 != 0) = last at hm ⊢
  cases last <;> cases r <;> cases s <;>
    simp only [Represents, Bool.or_false, Bool.or_true, if_true, Bool.false_eq_true, if_false]
      at h hm ⊢ <;>
    first | linarith | (constructor <;> linarith)

theorem represents_shiftRight {em : ExtendedMantissa} {v : ℚ} (h : Represents em v) (n : ℕ) :
    Represents (em >>> n) (v / 2 ^ n) := by
  induction n with
  | zero =>
    rw [pow_zero, div_one]
    exact h
  | succ n ih =>
    rw [pow_succ, ← div_div]
    exact represents_shiftRightOne ih

theorem represents_exact (m : ℕ) :
    Represents (ExtendedMantissa.ofMantissaAndAccuracy m .exact) m := rfl

/-- A quotient cut off, with what its remainder says. -/
theorem represents_quotient (num : ℕ) {den : ℕ} (hden : 0 < den) :
    Represents (ExtendedMantissa.ofMantissaAndAccuracy (num / den)
      (accuracyOfFraction (num % den) den)) (num / den) := by
  have hd : (0 : ℚ) < den := Nat.cast_pos.2 hden
  have hnum : (num : ℚ) = (num / den : ℕ) * den + (num % den : ℕ) := by
    exact_mod_cast (Nat.div_add_mod' num den).symm
  have hlt : ((num % den : ℕ) : ℚ) < den := Nat.cast_lt.2 (Nat.mod_lt num hden)
  have hquotient : (num : ℚ) / den = (num / den : ℕ) + (num % den : ℕ) / den := by
    rw [hnum, add_div, mul_div_cancel_right₀ _ hd.ne']
  rw [hquotient, accuracyOfFraction]
  split
  · next hzero =>
    rw [hzero, Nat.cast_zero, zero_div, add_zero]
    rfl
  · next hzero =>
    have hpos : (0 : ℚ) < (num % den : ℕ) / den :=
      div_pos (Nat.cast_pos.2 (Nat.pos_of_ne_zero hzero)) hd
    have hone : ((num % den : ℕ) : ℚ) / den < 1 := (div_lt_one hd).2 hlt
    cases hc : compare (2 * (num % den)) den with
    | lt =>
      have hhalf : ((2 * (num % den) : ℕ) : ℚ) < den := Nat.cast_lt.2 (Nat.compare_eq_lt.1 hc)
      push_cast at hhalf
      have hhalf : ((num % den : ℕ) : ℚ) / den < 1 / 2 := by
        rw [div_lt_iff₀ hd]
        linarith
      exact ⟨lt_add_of_pos_right _ hpos, (add_lt_add_iff_left _).2 hhalf⟩
    | eq =>
      have hhalf : ((2 * (num % den) : ℕ) : ℚ) = den :=
        congrArg Nat.cast (Nat.compare_eq_eq.1 hc)
      push_cast at hhalf
      have hhalf : ((num % den : ℕ) : ℚ) / den = 1 / 2 := by
        rw [div_eq_iff hd.ne']
        linarith
      rw [hhalf]
      rfl
    | gt =>
      have hhalf : (den : ℚ) < (2 * (num % den) : ℕ) := Nat.cast_lt.2 (Nat.compare_eq_gt.1 hc)
      push_cast at hhalf
      have hhalf : 1 / 2 < ((num % den : ℕ) : ℚ) / den := by
        rw [lt_div_iff₀ hd]
        linarith
      exact ⟨(add_lt_add_iff_left _).2 hhalf, (add_lt_add_iff_left _).2 hone⟩

theorem Represents.bounds {em : ExtendedMantissa} {v : ℚ} (h : Represents em v) :
    em.mantissa ≤ v ∧ v < em.mantissa + 1 := by
  obtain ⟨m, r, s⟩ := em
  cases r <;> cases s <;> simp only [Represents] at h ⊢ <;> constructor <;> linarith

/-- The rounded mantissa is half a unit away at most, and half a unit only if it is even. -/
theorem Represents.rounded {em : ExtendedMantissa} {v : ℚ} (h : Represents em v) :
    em.roundedMantissa - 1 / 2 ≤ v ∧ v ≤ em.roundedMantissa + 1 / 2 ∧
      (em.roundedMantissa % 2 = 0 ∨
        em.roundedMantissa - 1 / 2 < v ∧ v < em.roundedMantissa + 1 / 2) := by
  obtain ⟨m, r, s⟩ := em
  cases r <;> cases s <;>
    simp only [Represents, ExtendedMantissa.roundedMantissa, ExtendedMantissa.accuracy,
      Accuracy.roundToNearestEven] at h ⊢
  · subst h
    exact ⟨by linarith, by linarith, .inr ⟨by linarith, by linarith⟩⟩
  · exact ⟨by linarith, by linarith, .inr ⟨by linarith, by linarith⟩⟩
  · subst h
    rcases Nat.mod_two_eq_zero_or_one m with hmod | hmod <;> rw [hmod] <;> push_cast
    · exact ⟨by linarith, by linarith, .inl (by omega)⟩
    · exact ⟨by linarith, by linarith, .inl (by omega)⟩
  · push_cast
    exact ⟨by linarith, by linarith, .inr ⟨by linarith, by linarith⟩⟩

/-! ## Rounding -/

theorem targetExponent_eq (t : ℤ) : Format.binary64.targetExponent t = max (t - 53) leastExponent :=
  rfl

/-- A mantissa that is not too short is shifted to the exponent that it is rounded at. -/
theorem shiftToTargetExponent_eq {m : ℕ} {e : ℤ} (a : Accuracy)
    (h : e ≤ Format.binary64.targetExponent (totalExponent m e)) :
    shiftToTargetExponent .binary64 m e a =
      (ExtendedMantissa.ofMantissaAndAccuracy m a >>>
        (Format.binary64.targetExponent (totalExponent m e) - e).toNat,
        Format.binary64.targetExponent (totalExponent m e)) := by
  rw [shiftToTargetExponent, shiftToExponent, Prod.mk.injEq]
  exact ⟨rfl, by omega⟩

theorem toNat_pack_finite {m : ℕ} {q : ℤ} (hm : 0 < m) (hlt : m < 2 ^ 53)
    (hq : leastExponent ≤ q) (hnormal : q = leastExponent ∨ 2 ^ 52 ≤ m) :
    (pack .binary64 (.finite .positive m q hm)).toNat = min infinityBits (bitsOf m q) := by
  have hleast : leastExponent = -1074 := rfl
  have hinfinity : infinityBits = 2047 * 2 ^ 52 := rfl
  rw [bitsOf_eq]
  by_cases hsub : m < 2 ^ 52
  · obtain rfl : q = -1074 := by omega
    rw [pack_subnormal _ hm hsub, toNat_packComponents, hinfinity]
    show 0 * 2 ^ 63 + 0 * 2 ^ 52 + m % 2 ^ 52 = _
    omega
  · obtain ⟨f, rfl⟩ := Nat.exists_eq_add_of_le (Nat.not_lt.1 hsub)
    by_cases hlarge : q < 972
    · obtain ⟨e, rfl⟩ : ∃ e : ℕ, q = e - 1075 := ⟨(q + 1075).toNat, by omega⟩
      rw [pack_normal _ (by omega) (by omega), toNat_packComponents, hinfinity]
      show 0 * 2 ^ 63 + e % 2 ^ 11 * 2 ^ 52 + (2 ^ 52 + f) % 2 ^ 52 = _
      omega
    · have hover : 2 ^ Format.binary64.exponentBits ≤ (q + Format.binary64.exponentBias +
          Format.binary64.mantissaBitsWithoutImplicit).toNat + 1 := by
        show 2 ^ 11 ≤ (q + 1023 + 52).toNat + 1
        omega
      rw [pack]
      dsimp only
      rw [if_pos hover, hinfinity]
      show 2047 * 2 ^ 52 = _
      omega

/-- A rounded mantissa of 54 bits is shifted once more, which leaves the bits as they are. -/
theorem exists_shifted {m : ℕ} {q : ℤ} (hm : m ≤ 2 ^ 53) (hq : leastExponent ≤ q)
    (hnormal : q = leastExponent ∨ 2 ^ 52 ≤ m) :
    ∃ em q', shiftToTargetExponent .binary64 m q .exact = (em, q') ∧ em.mantissa < 2 ^ 53 ∧
      leastExponent ≤ q' ∧ (q' = leastExponent ∨ 2 ^ 52 ≤ em.mantissa) ∧
      bitsOf em.mantissa q' = bitsOf m q := by
  rcases hm.eq_or_lt with rfl | hlt
  · have htarget : Format.binary64.targetExponent (totalExponent (2 ^ 53) q) = q + 1 := by
      rw [targetExponent_eq, totalExponent, Nat.log2_two_pow]
      omega
    refine ⟨_, _, shiftToTargetExponent_eq _ (by omega), ?_⟩
    rw [htarget, add_sub_cancel_left]
    show 2 ^ 52 < 2 ^ 53 ∧ _ ∧ (_ ∨ 2 ^ 52 ≤ 2 ^ 52) ∧ bitsOf (2 ^ 52) (q + 1) = _
    rw [← bitsOf_carry (by omega), add_sub_cancel_right]
    exact ⟨by norm_num, by omega, .inr le_rfl, rfl⟩
  · have htarget : Format.binary64.targetExponent (totalExponent m q) = q := by
      rw [targetExponent_eq, totalExponent]
      rcases Nat.eq_zero_or_pos m with rfl | hpos
      · rw [Nat.log2_zero]
        omega
      · have hlog := (Nat.log2_lt hpos.ne').2 hlt
        rcases hnormal with rfl | hnormal
        · omega
        · have hlog' := (Nat.le_log2 hpos.ne').2 hnormal
          omega
    refine ⟨_, _, shiftToTargetExponent_eq _ htarget.ge, ?_⟩
    rw [htarget, sub_self]
    exact ⟨hlt, hq, hnormal, rfl⟩

theorem toNat_pack_roundWithAccuracy_of_shifted {m r : ℕ} {e q : ℤ} {a : Accuracy}
    {em : ExtendedMantissa} (hshift : shiftToTargetExponent .binary64 m e a = (em, q))
    (hr : em.roundedMantissa = r) (hr53 : r ≤ 2 ^ 53) (hq : leastExponent ≤ q)
    (hnormal : q = leastExponent ∨ 2 ^ 52 ≤ r) :
    (pack .binary64 (roundWithAccuracy .binary64 .positive m e a)).toNat =
      min infinityBits (bitsOf r q) := by
  obtain ⟨em', q', hshift', hlt, hq', hnormal', hbits⟩ := exists_shifted hr53 hq hnormal
  rw [roundWithAccuracy, hshift]
  dsimp only
  rw [hr, hshift', ← hbits]
  dsimp only
  split
  · next hzero =>
    rw [hzero] at hnormal' ⊢
    obtain rfl : q' = leastExponent := by omega
    rfl
  · exact toNat_pack_finite _ hlt hq' hnormal'

/-- **Rounding gives the nearest double.**  The mantissa is long enough, or the exponent is
    small enough, for the rounding to shift to the right only. -/
theorem toNat_pack_round {num den m : ℕ} {e : ℤ} {a : Accuracy} (hnum : 0 < num) (hden : 0 < den)
    (h : Represents (ExtendedMantissa.ofMantissaAndAccuracy m a) (num / den / 2 ^ e))
    (hlong : e ≤ leastExponent ∨ 2 ^ 52 ≤ m) :
    (pack .binary64 (roundWithAccuracy .binary64 .positive m e a)).toNat =
      nearestBits num den := by
  have hmantissa : (ExtendedMantissa.ofMantissaAndAccuracy m a).mantissa = m := by
    cases a with
    | exact => rfl
    | inexact o => cases o <;> rfl
  obtain ⟨hlow, hhigh⟩ := h.bounds
  rw [hmantissa] at hlow hhigh
  have htarget : Format.binary64.targetExponent (totalExponent m e) =
      max (m.log2 + 1 + e - 53) leastExponent := rfl
  have hlog : 2 ^ 52 ≤ m → 52 ≤ m.log2 := fun hm => (Nat.le_log2 (by omega)).2 hm
  have hshort : e ≤ Format.binary64.targetExponent (totalExponent m e) := by omega
  obtain ⟨s, hs⟩ := Int.le.dest hshort
  have hshift := shiftToTargetExponent_eq a hshort
  rw [← hs, add_sub_cancel_left, Int.toNat_natCast] at hshift
  rw [← hs] at htarget
  -- the number in units of the shifted mantissa
  have hscaled : (num / den / 2 ^ (e + s) : ℚ) = num / den / 2 ^ e / 2 ^ s := by
    rw [div_div _ ((2 : ℚ) ^ e), zpow_add₀ two_ne_zero, zpow_natCast]
  have hlt : (num / den / 2 ^ (e + s) : ℚ) < 2 ^ 53 := by
    rw [hscaled, div_lt_iff₀ (by positivity), ← pow_add]
    calc (num / den / 2 ^ e : ℚ) < m + 1 := hhigh
      _ ≤ 2 ^ (m.log2 + 1) := by exact_mod_cast Nat.lt_log2_self
      _ ≤ 2 ^ (53 + s) := pow_le_pow_right₀ one_le_two (by omega)
  have hge : e + s = leastExponent ∨ (2 : ℚ) ^ 52 ≤ num / den / 2 ^ (e + s) := by
    refine or_iff_not_imp_left.2 fun hne => ?_
    have hm : m ≠ 0 := by
      rintro rfl
      rw [Nat.log2_zero] at htarget
      omega
    rw [hscaled, le_div_iff₀ (by positivity), ← pow_add, show 52 + s = m.log2 by omega]
    exact le_trans (by exact_mod_cast Nat.log2_self_le hm) hlow
  have hrounded := represents_shiftRight h s
  rw [← hscaled] at hrounded
  obtain ⟨hround, hround', hends⟩ := hrounded.rounded
  generalize hm : (ExtendedMantissa.ofMantissaAndAccuracy m a >>> s).roundedMantissa = r at *
  have hr : Rounded (num / den) r (e + s) := ⟨by omega, hlt, hge, hround, hround', hends⟩
  rw [toNat_pack_roundWithAccuracy_of_shifted hshift hm hr.mantissa_le hr.least hr.le_mantissa,
    nearestBits_of_rounded hnum hden hr]

/-! ## Unpacked doubles -/

/-- The sign of a double that is taken apart. -/
def signOf (negative : Bool) : Sign := if negative then .negative else .positive

theorem ofBitVec_unpackSign (b : Bits) :
    Sign.ofBitVec (unpackSign b) = signOf (b.toNat / 2 ^ 63 == 1) := by
  have hcases : ∀ s : BitVec 1, s = 0#1 ∨ s = 1#1 := by decide
  rw [← toNat_unpackSign]
  rcases hcases (unpackSign b) with hs | hs <;> rw [hs] <;> rfl

theorem unpack_of_finite {x : Float} {negative : Bool} {m : ℕ} {q : ℤ}
    (h : ofFloat x = .finite negative m q) :
    x.toModel.unpack = if hm : 0 < m then .finite (signOf negative) m q hm
      else .zero (signOf negative) := by
  obtain ⟨b, hb⟩ : ∃ b : Bits, x.toBits.toBitVec = b := ⟨_, rfl⟩
  have hbits : x.toBits.toNat = b.toNat := congrArg BitVec.toNat hb
  have hexponent : (unpackExponent b).toNat = b.toNat / twoTo 52 % twoTo 11 :=
    toNat_unpackExponent b
  have hmantissa : (unpackMantissa b).toNat = b.toNat % twoTo 52 := toNat_unpackMantissa b
  have hsign : Sign.ofBitVec (unpackSign b) = signOf (b.toNat / twoTo 63 == 1) :=
    ofBitVec_unpackSign b
  show unpack .binary64 x.toBits.toBitVec = _
  rw [hb, unpack]
  dsimp only
  unfold ofFloat at h
  dsimp only at h
  rw [hbits] at h
  split at h
  · split at h <;> cases h
  next hfull =>
  have hfull : unpackExponent b ≠ -1#_ := fun he =>
    hfull (hexponent.symm.trans (congrArg BitVec.toNat he))
  rw [if_neg hfull]
  split at h
  · next hzero =>
    obtain ⟨rfl, rfl, rfl⟩ := Binary64.finite.inj h
    have he : unpackExponent b = 0#_ := BitVec.eq_of_toNat_eq (hexponent.trans hzero)
    rw [if_pos he]
    by_cases hm : unpackMantissa b = 0#_
    · have hzero : b.toNat % twoTo 52 = 0 := hmantissa.symm.trans (congrArg BitVec.toNat hm)
      rw [dif_pos hm, dif_neg (by omega), hsign]
    · have hpos : 0 < b.toNat % twoTo 52 :=
        hmantissa ▸ Nat.pos_of_ne_zero fun hzero => hm (BitVec.eq_of_toNat_eq hzero)
      rw [dif_neg hm, dif_pos hpos, he]
      simp only [hsign, hmantissa]
      rfl
  · next hzero =>
    obtain ⟨rfl, rfl, rfl⟩ := Binary64.finite.inj h
    have he : unpackExponent b ≠ 0#_ := fun he => by
      rw [he] at hexponent
      exact hzero hexponent.symm
    have hpos : 0 < twoTo 52 + b.toNat % twoTo 52 := Nat.add_pos_left (Nat.pow_pos two_pos) _
    rw [if_neg he, dif_pos hpos]
    simp only [hsign, toNat_implicit, hmantissa, hexponent]
    rfl

theorem unpack_eq_finite {x : Float} {negative : Bool} {m : ℕ} {q : ℤ}
    (h : ofFloat x = .finite negative m q) (hm : 0 < m) :
    x.toModel.unpack = .finite (signOf negative) m q hm :=
  (unpack_of_finite h).trans (dif_pos hm)

/-! ## Values -/

/-- `HasValue x v`: the double `x` is finite and stands for the number `v`. -/
def HasValue (x : Float) (v : ℚ) : Prop :=
  ∃ negative m q, ofFloat x = .finite negative m q ∧
    v = if negative then -((m : ℚ) * 2 ^ q) else m * 2 ^ q

theorem toBits_lt_of_ofFloat {x : Float} {m : ℕ} {q : ℤ} (h : ofFloat x = .finite false m q) :
    x.toBits.toNat < infinityBits := by
  have hlt : x.toBits.toNat < 2 ^ 64 := x.toBits.toNat_lt
  unfold ofFloat at h
  dsimp only at h
  split at h
  · split at h <;> cases h
  · next hfull =>
    have hfull : x.toBits.toNat / 2 ^ 52 % 2 ^ 11 ≠ 2047 := hfull
    have hsign : (x.toBits.toNat / twoTo 63 == 1) = false := by
      split at h <;> exact (Binary64.finite.inj h).1
    have hsign : x.toBits.toNat / 2 ^ 63 ≠ 1 := beq_eq_false_iff_ne.1 hsign
    show x.toBits.toNat < 0x7FF0000000000000
    omega

theorem HasValue.exists_magnitude {x : Float} {v : ℚ} (h : HasValue x v) (hv : 0 < v) :
    ∃ m q, Magnitude m q ∧ ofFloat x = .finite false m q ∧ v = m * 2 ^ q := by
  obtain ⟨negative, m, q, hx, rfl⟩ := h
  cases negative with
  | true =>
    have : (0 : ℚ) ≤ m * 2 ^ q := by positivity
    rw [if_pos rfl] at hv
    linarith
  | false =>
    rw [if_neg Bool.false_ne_true] at hv
    rcases ofFloat_cases (toBits_lt_of_ofFloat hx) with ⟨-, hzero⟩ | ⟨m', q', hm', -, hx'⟩
    · obtain ⟨-, rfl, -⟩ := Binary64.finite.inj (hx.symm.trans hzero)
      rw [Nat.cast_zero, zero_mul] at hv
      exact absurd hv (lt_irrefl 0)
    · obtain ⟨-, rfl, rfl⟩ := Binary64.finite.inj (hx.symm.trans hx')
      exact ⟨m, q, hm', hx, rfl⟩

theorem eq_nearest_of_toBits {x : Float} {num den : ℕ} (h : x.toBits.toNat = nearestBits num den) :
    x = nearest num den := by
  rw [nearest, ← h, ofBits_toBits]

section
variable {x y : Float} {v w : ℚ} (hx : HasValue x v) (hv : 0 < v) (hy : HasValue y w) (hw : 0 < w)
  {num den : ℕ} (hden : 0 < den)
include hx hv hy hw hden

/-- **A product is the double nearest to the exact product.** -/
theorem mul_eq_nearest (h : (num / den : ℚ) = v * w) : x * y = nearest num den := by
  have hd : (0 : ℚ) < den := Nat.cast_pos.2 hden
  have hnum : 0 < num := by
    have : (0 : ℚ) < num / den := h ▸ mul_pos hv hw
    exact_mod_cast (div_pos_iff_of_pos_right hd).1 this
  obtain ⟨m, q, hm, hxm, rfl⟩ := hx.exists_magnitude hv
  obtain ⟨m', q', hm', hym, rfl⟩ := hy.exists_magnitude hw
  have hmul : (x * y).toBits.toNat =
      (pack .binary64 (x.toModel.unpack.mul .binary64 y.toModel.unpack)).toNat := rfl
  refine eq_nearest_of_toBits (hmul.trans ?_)
  rw [unpack_eq_finite hxm hm.pos, unpack_eq_finite hym hm'.pos]
  refine toNat_pack_round hnum hden ?_ ?_
  · have hscaled : (num / den / 2 ^ (q + q') : ℚ) = (m * m' : ℕ) := by
      rw [h, zpow_add₀ two_ne_zero]
      push_cast
      field_simp
    rw [hscaled]
    exact represents_exact _
  · have hpos := hm.pos
    have hpos' := hm'.pos
    rcases hm.normal with hq | hnormal
    · rcases hm'.normal with hq' | hnormal
      · left
        rw [hq, hq', leastExponent]
        decide
      · exact .inr (hnormal.trans (Nat.le_mul_of_pos_left _ hpos))
    · exact .inr (hnormal.trans (Nat.le_mul_of_pos_right _ hpos'))

/-- **A quotient is the double nearest to the exact quotient.** -/
theorem div_eq_nearest (h : (num / den : ℚ) = v / w) : x / y = nearest num den := by
  have hd : (0 : ℚ) < den := Nat.cast_pos.2 hden
  have hnum : 0 < num := by
    have : (0 : ℚ) < num / den := h ▸ div_pos hv hw
    exact_mod_cast (div_pos_iff_of_pos_right hd).1 this
  obtain ⟨m, q, hm, hxm, rfl⟩ := hx.exists_magnitude hv
  obtain ⟨m', q', hm', hym, rfl⟩ := hy.exists_magnitude hw
  have hdiv : (x / y).toBits.toNat =
      (pack .binary64 (x.toModel.unpack.div .binary64 y.toModel.unpack)).toNat := rfl
  refine eq_nearest_of_toBits (hdiv.trans ?_)
  rw [unpack_eq_finite hxm hm.pos, unpack_eq_finite hym hm'.pos]
  -- the dividend is shifted so far that the quotient has 53 binary figures, if it can have them
  obtain ⟨t, ht⟩ : ∃ t, min (q - q') (Format.binary64.targetExponent
      (totalExponent m q - totalExponent m' q')) = t := ⟨_, rfl⟩
  obtain ⟨s, hs⟩ := Int.le.dest (ht ▸ min_le_left _ _ : t ≤ q - q')
  have hshift : m <<< (q - q' - t).toNat = m * 2 ^ s := by
    rw [Nat.shiftLeft_eq, ← hs, add_sub_cancel_left, Int.toNat_natCast]
  have hcore : divCore .binary64 m q m' q' = (m * 2 ^ s / m', t,
      accuracyOfFraction (m * 2 ^ s % m') m') := by
    rw [divCore, ht, hshift]
  rw [UnpackedFloat.div, hcore]
  refine toNat_pack_round hnum hden ?_ ?_
  · have hscaled : (num / den / 2 ^ t : ℚ) = (m * 2 ^ s : ℕ) / m' := by
      rw [h, show q = q' + t + s by omega, zpow_add₀ two_ne_zero, zpow_add₀ two_ne_zero,
        zpow_natCast]
      push_cast
      have := hm'.pos
      field_simp
    rw [hscaled]
    exact represents_quotient _ hm'.pos
  · have htarget : t ≤ max (m.log2 + 1 + q - (m'.log2 + 1 + q') - 53) leastExponent :=
      ht ▸ min_le_right _ _
    refine or_iff_not_imp_left.2 fun hleast => (Nat.le_div_iff_mul_le hm'.pos).2 ?_
    calc 2 ^ 52 * m' ≤ 2 ^ 52 * 2 ^ (m'.log2 + 1) :=
          Nat.mul_le_mul_left _ Nat.lt_log2_self.le
      _ = 2 ^ (52 + (m'.log2 + 1)) := (pow_add 2 52 _).symm
      _ ≤ 2 ^ (m.log2 + s) := Nat.pow_le_pow_right two_pos (by omega)
      _ = 2 ^ m.log2 * 2 ^ s := pow_add 2 _ s
      _ ≤ m * 2 ^ s := Nat.mul_le_mul_right _ (Nat.log2_self_le hm.pos.ne')

end

end Notebook.Binary64
