/-
  Doubles and their bits.

  The operations of `Float` unpack the bits of a double, compute, and pack the result.
  A double is its bits: packing what was unpacked gives the same bits again, the bits of
  a number that is not the canonical `NaN` apart.  A double is below zero only if its
  sign bit is set.

  * `toNat_unpackSign`, `toNat_unpackExponent`, `toNat_unpackMantissa`,
    `toNat_packComponents`: the three fields, in arithmetic on naturals;
  * `pack_unpack`, `ofBits_toBits`, `toBits_ofBits`: a double and its bits are the same
    thing;
  * `isFinite_iff`, `isFinite_abs`: what is finite has a magnitude, and keeps it without
    its sign;
  * `beq_zero_iff`, `isNaN_iff`: zero, and what is not a number, unpacked;
  * `not_lt_zero_of_toBits_le`, `not_sqrt_lt_zero`, `not_abs_lt_zero`, `not_mul_lt_zero`:
    what is never below zero;
  * `Numeral.toBits_value_le`: the value of a numeral has no sign bit.
-/
import Mathlib
import Notebook.Numeral

namespace Notebook

namespace Binary64

open Float.Model (Format UnpackedFloat)
open Float.Model.UnpackedFloat

/-- The bits of a double. -/
abbrev Bits := BitVec Format.binary64.numBits

/-! ## Fields -/

theorem Bits.toNat_lt (b : Bits) : b.toNat < 2 ^ 64 := b.isLt

theorem toNat_unpackSign (b : Bits) : (unpackSign b).toNat = b.toNat / 2 ^ 63 := by
  have := b.toNat_lt
  simp only [unpackSign, BitVec.extractLsb, BitVec.toNat_cast, BitVec.extractLsb'_toNat,
    Nat.shiftRight_eq_div_pow]
  omega

theorem toNat_unpackExponent (b : Bits) :
    (unpackExponent b).toNat = b.toNat / 2 ^ 52 % 2 ^ 11 := by
  simp [unpackExponent, Nat.shiftRight_eq_div_pow]

theorem toNat_unpackMantissa (b : Bits) : (unpackMantissa b).toNat = b.toNat % 2 ^ 52 := by
  simp [unpackMantissa]

theorem toNat_packComponents (s : Sign) (e : BitVec Format.binary64.exponentBits)
    (m : BitVec Format.binary64.mantissaBitsWithoutImplicit) :
    (packComponents .binary64 s e m).toNat =
      s.toBitVec.toNat * 2 ^ 63 + e.toNat * 2 ^ 52 + m.toNat := by
  simp only [packComponents, BitVec.toNat_append]
  rw [← Nat.shiftLeft_add_eq_or_of_lt e.isLt, ← Nat.shiftLeft_add_eq_or_of_lt m.isLt]
  simp only [Nat.shiftLeft_eq]
  omega

theorem packComponents_unpack (b : Bits) :
    packComponents .binary64 (Sign.ofBitVec (unpackSign b)) (unpackExponent b)
      (unpackMantissa b) = b := by
  have hsign : ∀ s : BitVec 1, (Sign.ofBitVec s).toBitVec = s := by decide
  have := b.toNat_lt
  apply BitVec.eq_of_toNat_eq
  rw [toNat_packComponents, hsign, toNat_unpackSign, toNat_unpackExponent, toNat_unpackMantissa]
  omega

/-! ## Packing -/

theorem toNat_implicit (m : BitVec 52) : (1#1 ++ m).toNat = 2 ^ 52 + m.toNat := by
  rw [BitVec.toNat_append, ← Nat.shiftLeft_add_eq_or_of_lt m.isLt, Nat.shiftLeft_eq]
  rfl

/-- A number too small for the implicit bit has the exponent field zero. -/
theorem pack_subnormal (s : Sign) {m : Nat} (hm : 0 < m) (hlt : m < 2 ^ 52) :
    pack .binary64 (.finite s m (-1074) hm) = packComponents .binary64 s 0#11 (.ofNat 52 m) := by
  have hlog : ¬ m.log2 + 1 = Format.binary64.mantissaBits := by
    have := (Nat.log2_lt (Nat.ne_of_gt hm)).2 hlt
    show ¬ m.log2 + 1 = 53
    omega
  rw [pack]
  dsimp only
  rw [if_neg (by decide), if_neg hlog]

/-- The exponent field of any other number is its exponent, moved by 1075. -/
theorem pack_normal (s : Sign) {m e : Nat} (hm : m < 2 ^ 52) (he : e < 2 ^ 11 - 1)
    (hpos : 0 < 2 ^ 52 + m) :
    pack .binary64 (.finite s (2 ^ 52 + m) (e - 1075) hpos) =
      packComponents .binary64 s (.ofNat 11 e) (.ofNat 52 (2 ^ 52 + m)) := by
  have hlog : (2 ^ 52 + m).log2 = 52 := (Nat.log2_eq_iff (Nat.ne_of_gt hpos)).2 (by omega)
  have hexponent : ((e : Int) - 1075 + Format.binary64.exponentBias +
      Format.binary64.mantissaBitsWithoutImplicit).toNat = e := by
    show ((e : Int) - 1075 + 1023 + 52).toNat = e
    omega
  rw [pack]
  dsimp only
  rw [hexponent, hlog, if_neg (by show ¬ 2 ^ 11 ≤ e + 1; omega)]
  rfl

/-- **Packing undoes unpacking.** -/
theorem pack_unpack {b : Bits} (h : Format.binary64.Valid b) :
    pack .binary64 (unpack .binary64 b) = b := by
  have hb := packComponents_unpack b
  rw [unpack]
  dsimp only
  split
  · next he =>
    split
    · next hm =>
      conv_rhs => rw [← hb, he, hm]
      rfl
    · next hm => exact (h.eq_packedNaN he hm).symm
  next he =>
  have hfull : (unpackExponent b).toNat ≠ 2 ^ 11 - 1 := fun h => he (BitVec.eq_of_toNat_eq h)
  split
  · next hzero =>
    split
    · next hm =>
      conv_rhs => rw [← hb, hzero, hm]
      rfl
    · conv_rhs => rw [← hb, hzero]
      rw [hzero]
      refine (pack_subnormal _ _ (unpackMantissa b).isLt).trans ?_
      rw [BitVec.ofNat_toNat, BitVec.setWidth_eq]
  · have he : (unpackExponent b).toNat < 2 ^ 11 := (unpackExponent b).isLt
    have hm : (unpackMantissa b).toNat < 2 ^ 52 := (unpackMantissa b).isLt
    have hmantissa : BitVec.ofNat 52 (2 ^ 52 + (unpackMantissa b).toNat) = unpackMantissa b := by
      apply BitVec.eq_of_toNat_eq
      rw [BitVec.toNat_ofNat, Nat.add_mod_left, Nat.mod_eq_of_lt hm]
    conv_rhs => rw [← hb]
    simp only [toNat_implicit]
    refine (pack_normal _ hm (by omega) _).trans ?_
    rw [hmantissa, BitVec.ofNat_toNat, BitVec.setWidth_eq]

theorem ofBits_toBits (x : Float) : Float.ofBits (UInt64.ofNat x.toBits.toNat) = x := by
  rw [UInt64.ofNat_toNat]
  obtain ⟨bits, hvalid⟩ := x
  have h : pack .binary64 (unpack .binary64 bits.toBitVec) = bits.toBitVec := pack_unpack hvalid
  simp only [Float.ofBits, Float.toBits, Float.Model.ofBits, Float.Model.pack, h]

theorem valid_of_le {b : Bits} (h : b.toNat ≤ infinityBits) : Format.binary64.Valid b := by
  refine ⟨fun he hm => absurd (BitVec.eq_of_toNat_eq ?_) hm⟩
  have he : (unpackExponent b).toNat = 2 ^ 11 - 1 := congrArg BitVec.toNat he
  rw [toNat_unpackExponent] at he
  rw [toNat_unpackMantissa]
  unfold infinityBits at h
  show b.toNat % 2 ^ 52 = 0
  omega

theorem toBits_ofBits {k : Nat} (hk : k ≤ infinityBits) :
    (Float.ofBits (UInt64.ofNat k)).toBits.toNat = k := by
  have hbits : (UInt64.ofNat k).toBitVec.toNat = k :=
    Nat.mod_eq_of_lt (Nat.lt_of_le_of_lt hk (by decide))
  have hpack : (Float.ofBits (UInt64.ofNat k)).toBits.toBitVec = (UInt64.ofNat k).toBitVec :=
    pack_unpack (valid_of_le (Nat.le_trans (Nat.le_of_eq hbits) hk))
  rw [← UInt64.toNat_toBitVec, hpack, hbits]

/-! ## What is finite -/

theorem isFinite_unpack (b : Bits) :
    (unpack .binary64 b).isFinite ↔ b.toNat / 2 ^ 52 % 2 ^ 11 ≠ 2 ^ 11 - 1 := by
  have hfull : unpackExponent b = -1#11 ↔
      (unpackExponent b).toNat = 2 ^ 11 - 1 :=
    ⟨congrArg BitVec.toNat, fun h => BitVec.eq_of_toNat_eq h⟩
  rw [← toNat_unpackExponent, Ne, ← hfull, unpack]
  dsimp only
  split
  · next he =>
    refine iff_of_false ?_ (not_not.2 he)
    split <;> exact Bool.false_ne_true
  · next he =>
    refine iff_of_true ?_ he
    split
    · split <;> rfl
    · rfl

theorem isFinite_iff (x : Float) :
    x.isFinite ↔ ∃ negative m q, ofFloat x = .finite negative m q := by
  have hunpack : x.isFinite ↔ x.toBits.toNat / 2 ^ 52 % 2 ^ 11 ≠ 2 ^ 11 - 1 :=
    isFinite_unpack x.toBits.toBitVec
  rw [hunpack]
  unfold ofFloat
  dsimp only
  split
  · next he =>
    refine iff_of_false (not_not.2 he) ?_
    rintro ⟨negative, m, q, h⟩
    split at h <;> cases h
  · next he =>
    refine iff_of_true he ?_
    split <;> exact ⟨_, _, _, rfl⟩

theorem unpackExponent_packComponents (s : Sign) (e : BitVec Format.binary64.exponentBits)
    (m : BitVec Format.binary64.mantissaBitsWithoutImplicit) :
    unpackExponent (packComponents .binary64 s e m) = e := by
  have hs : s.toBitVec.toNat < 2 := s.toBitVec.isLt
  have he : e.toNat < 2 ^ 11 := e.isLt
  have hm : m.toNat < 2 ^ 52 := m.isLt
  apply BitVec.eq_of_toNat_eq
  rw [toNat_unpackExponent, toNat_packComponents]
  omega

/-- Only the sign field of what is packed depends on the sign. -/
theorem exists_pack_eq {m : ℕ} (e : ℤ) (hm : 0 < m) :
    ∃ exponent mantissa, ∀ s,
      pack .binary64 (.finite s m e hm) = packComponents .binary64 s exponent mantissa := by
  by_cases hlarge : 2 ^ 11 ≤ (e + 1023 + 52).toNat + 1
  · exact ⟨_, _, fun s => if_pos hlarge⟩
  by_cases hnormal : m.log2 + 1 = 53
  · exact ⟨_, _, fun s => (if_neg hlarge).trans (if_pos hnormal)⟩
  · exact ⟨_, _, fun s => (if_neg hlarge).trans (if_neg hnormal)⟩

theorem isFinite_abs (x : Float) : x.abs.isFinite = x.isFinite := by
  have habs : x.abs.isFinite = (unpack .binary64 (pack .binary64 x.toModel.unpack.abs)).isFinite :=
    rfl
  have hx : x.isFinite = (unpack .binary64 (pack .binary64 x.toModel.unpack)).isFinite := by
    rw [show pack .binary64 x.toModel.unpack = _ from pack_unpack x.toModel.valid]
    rfl
  rw [habs, hx]
  cases hf : x.toModel.unpack with
  | notANumber => rfl
  | infinity s | zero s => cases s <;> rfl
  | finite s m e hm =>
    obtain ⟨exponent, mantissa, hpack⟩ := exists_pack_eq e hm
    rw [UnpackedFloat.abs, Bool.eq_iff_iff, isFinite_unpack, isFinite_unpack, hpack, hpack,
      ← toNat_unpackExponent, ← toNat_unpackExponent, unpackExponent_packComponents,
      unpackExponent_packComponents]

theorem negative_eq_false {x : Float} (hx : x.toBits.toNat ≤ infinityBits) {negative : Bool}
    {m : Nat} {q : Int} (h : ofFloat x = .finite negative m q) : negative = false := by
  have hsign : (x.toBits.toNat / twoTo 63 == 1) = false := by
    rw [beq_eq_false_iff_ne]
    have hx : x.toBits.toNat ≤ 0x7FF0000000000000 := hx
    show x.toBits.toNat / 2 ^ 63 ≠ 1
    omega
  simp only [ofFloat, hsign] at h
  split at h
  · split at h <;> cases h
  · split at h <;> exact (Binary64.finite.inj h).1.symm

/-! ## Zero, and what is not a number -/

theorem beq_zero_iff (x : Float) : x == 0 ↔ ∃ s, x.toModel.unpack = .zero s := by
  have hbeq : (x == 0) = x.toModel.unpack.beq (.zero .positive) := rfl
  rw [hbeq]
  cases x.toModel.unpack with
  | notANumber => exact iff_of_false (by decide) nofun
  | infinity s => exact iff_of_false (by cases s <;> decide) nofun
  | zero s => exact iff_of_true rfl ⟨s, rfl⟩
  | finite s => exact iff_of_false (by cases s <;> exact Bool.false_ne_true) nofun

theorem isFinite_of_beq_zero {x : Float} (h : x == 0) : x.isFinite := by
  obtain ⟨s, hs⟩ := (beq_zero_iff x).1 h
  have hfinite : x.isFinite = x.toModel.unpack.isFinite := rfl
  rw [hfinite, hs]
  rfl

theorem isNaN_iff (x : Float) : x.isNaN ↔ x.toModel.unpack = .notANumber := by
  have hnan : x.isNaN = x.toModel.unpack.isNaN := rfl
  rw [hnan]
  cases x.toModel.unpack <;> simp [UnpackedFloat.isNaN]

theorem isFinite_of_eq_notANumber {f : UnpackedFloat} (h : f = .notANumber) :
    (unpack .binary64 (pack .binary64 f)).isFinite = false := by
  rw [h]
  rfl

theorem isFinite_mul_of_isNaN {x y : Float} (h : x.isNaN ∨ y.isNaN) :
    (x * y).isFinite = false := by
  rw [isNaN_iff, isNaN_iff] at h
  have hmul : x.toModel.unpack.mul .binary64 y.toModel.unpack = .notANumber := by
    rcases h with h | h <;> rw [h]
    · rfl
    · cases x.toModel.unpack <;> rfl
  exact isFinite_of_eq_notANumber hmul

theorem isFinite_div_of_isNaN {x y : Float} (h : x.isNaN ∨ y.isNaN) :
    (x / y).isFinite = false := by
  rw [isNaN_iff, isNaN_iff] at h
  have hdiv : x.toModel.unpack.div .binary64 y.toModel.unpack = .notANumber := by
    rcases h with h | h <;> rw [h]
    · rfl
    · cases x.toModel.unpack <;> rfl
  exact isFinite_of_eq_notANumber hdiv

/-! ## What is below zero -/

/-- Whether an unpacked double is below zero. -/
def isBelow : UnpackedFloat → Bool
  | .infinity .negative | .finite .negative .. => true
  | .infinity .positive | .finite .positive .. | .zero _ | .notANumber => false

theorem lt_zero_iff (x : Float) : x < 0 ↔ isBelow x.toModel.unpack := by
  have hzero : (0 : Float).toModel.unpack = .zero .positive := rfl
  have hlt : x < 0 ↔ x.toModel.unpack.lt (.zero .positive) := by
    rw [← hzero]
    exact decide_eq_true_iff
  rw [hlt]
  cases x.toModel.unpack with
  | notANumber => decide
  | infinity s => cases s <;> decide
  | zero s => cases s <;> decide
  | finite s => cases s <;> simp [isBelow, UnpackedFloat.lt, UnpackedFloat.compare]

theorem sign_of_isBelow {b : Bits} (h : isBelow (unpack .binary64 b)) : 2 ^ 63 ≤ b.toNat := by
  have hs : Sign.ofBitVec (unpackSign b) = .negative := by
    revert h
    rw [unpack]
    generalize Sign.ofBitVec (unpackSign b) = s
    cases s with
    | negative => exact fun _ => rfl
    | positive =>
      intro h
      dsimp only at h
      split at h
      · split at h <;> cases h
      · split at h
        · split at h <;> cases h
        · cases h
  have hne : (unpackSign b).toNat ≠ 0 := fun hzero => by
    rw [BitVec.eq_of_toNat_eq (y := 0#1) hzero] at hs
    cases hs
  rw [toNat_unpackSign] at hne
  omega

theorem isBelow_of_pack {f : UnpackedFloat} (h : isBelow (unpack .binary64 (pack .binary64 f))) :
    isBelow f := by
  have hpositive : ∀ {e m}, (packComponents .binary64 .positive e m).toNat < 2 ^ 63 := by
    intro e m
    have he : e.toNat < 2 ^ 11 := e.isLt
    have hm : m.toNat < 2 ^ 52 := m.isLt
    rw [toNat_packComponents]
    show 0 * 2 ^ 63 + e.toNat * 2 ^ 52 + m.toNat < 2 ^ 63
    omega
  cases f with
  | notANumber => exact absurd h (by decide)
  | infinity s => cases s with
    | negative => rfl
    | positive => exact absurd h (by decide)
  | zero s => cases s <;> exact absurd h (by decide)
  | finite s m e hm => cases s with
    | negative => rfl
    | positive =>
      refine absurd (sign_of_isBelow h) (Nat.not_le_of_lt ?_)
      rw [pack]
      dsimp only
      split
      · exact hpositive
      · split <;> exact hpositive

theorem not_zero_lt_zero : ¬ (0 : Float) < 0 := by
  rw [lt_zero_iff]
  decide

theorem not_lt_zero_of_toBits_le {x : Float} (hx : x.toBits.toNat ≤ infinityBits) :
    ¬ x < 0 := by
  intro h
  have hsign : 2 ^ 63 ≤ x.toBits.toNat := sign_of_isBelow ((lt_zero_iff x).1 h)
  have hlt : infinityBits < 2 ^ 63 := by decide
  omega

theorem not_abs_lt_zero (x : Float) : ¬ x.abs < 0 := by
  rw [lt_zero_iff]
  intro h
  have h : isBelow x.toModel.unpack.abs := isBelow_of_pack h
  cases hx : x.toModel.unpack <;> rw [hx] at h <;> cases h

theorem isBelow_roundWithAccuracy (m : Nat) (e : Int) (a : Accuracy) :
    isBelow (roundWithAccuracy .binary64 .positive m e a) = false := by
  rw [roundWithAccuracy]
  dsimp only
  split <;> rfl

theorem not_sqrt_lt_zero (x : Float) : ¬ x.sqrt < 0 := by
  rw [lt_zero_iff, Bool.not_eq_true]
  refine Bool.eq_false_iff.2 fun h => ?_
  have h : isBelow (UnpackedFloat.sqrt .binary64 x.toModel.unpack) := isBelow_of_pack h
  cases hx : x.toModel.unpack with
  | notANumber | zero s =>
    rw [hx] at h
    cases h
  | infinity s =>
    rw [hx] at h
    cases s <;> cases h
  | finite s m e hm =>
    rw [hx] at h
    cases s with
    | negative => cases h
    | positive =>
      rw [UnpackedFloat.sqrt] at h
      dsimp only at h
      rw [isBelow_roundWithAccuracy] at h
      cases h

theorem positive_of_infinity {s : Sign} (h : isBelow (.infinity s) = false) : s = .positive := by
  cases s with
  | negative => cases h
  | positive => rfl

theorem positive_of_finite {s : Sign} {m : Nat} {e : Int} {hm : 0 < m}
    (h : isBelow (.finite s m e hm) = false) : s = .positive := by
  cases s with
  | negative => cases h
  | positive => rfl

theorem isBelow_mul {a b : UnpackedFloat} (ha : isBelow a = false) (hb : isBelow b = false) :
    isBelow (a.mul .binary64 b) = false := by
  cases a with
  | notANumber => rfl
  | zero s => cases b <;> rfl
  | infinity s =>
    obtain rfl := positive_of_infinity ha
    cases b with
    | notANumber | zero t => rfl
    | infinity t =>
      obtain rfl := positive_of_infinity hb
      rfl
    | finite t =>
      obtain rfl := positive_of_finite hb
      rfl
  | finite s m e hm =>
    obtain rfl := positive_of_finite ha
    cases b with
    | notANumber | zero t => rfl
    | infinity t =>
      obtain rfl := positive_of_infinity hb
      rfl
    | finite t m' e' hm' =>
      obtain rfl := positive_of_finite hb
      exact isBelow_roundWithAccuracy (m * m') (e + e') .exact

theorem not_mul_lt_zero {x y : Float} (hx : ¬ x < 0) (hy : ¬ y < 0) : ¬ x * y < 0 := by
  rw [lt_zero_iff, Bool.not_eq_true] at hx hy
  rw [lt_zero_iff]
  intro h
  have h : isBelow (UnpackedFloat.mul .binary64 x.toModel.unpack y.toModel.unpack) :=
    isBelow_of_pack h
  rw [isBelow_mul hx hy] at h
  cases h

end Binary64

/-- The value of a numeral has no sign bit, and is infinity at most. -/
theorem Numeral.toBits_value_le (n : Numeral) :
    n.value.toBits.toNat ≤ Binary64.infinityBits := by
  have hbits {k : Nat} (hk : k ≤ Binary64.infinityBits) :
      (Float.ofBits (UInt64.ofNat k)).toBits.toNat ≤ Binary64.infinityBits :=
    (Binary64.toBits_ofBits hk).trans_le hk
  have hnearest (num den : Nat) :
      (Binary64.nearest num den).toBits.toNat ≤ Binary64.infinityBits := by
    refine hbits ?_
    rw [Binary64.nearestBits]
    split
    · exact Nat.zero_le _
    · exact Nat.min_le_left _ _
  unfold value
  simp only
  split
  · exact hbits (Nat.zero_le _)
  · split
    · exact hbits (Nat.le_refl _)
    · split <;> exact hnearest _ _

end Notebook
