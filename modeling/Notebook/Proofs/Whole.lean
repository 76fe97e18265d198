/-
  The numbers that doubles stand for.

  * `hasValue_nearest`, `exists_error`: a ratio that a double stands for is its own nearest
    double, and from any other the nearest double is off by half a unit at most;
  * `HasValue.mul_cases`, `HasValue.div_error`: so are products and quotients, and
    `HasValue.neg` is exact;
  * `HasValue.floor`, `HasValue.roundToWhole`: doubles made whole;
  * `HasValue.toUInt64`, `Measurement.placesFor_eq`: the natural that a whole double is.
-/
import Notebook.Proofs.Display
import Notebook.Proofs.Product

namespace Notebook

namespace Binary64

open Float.Model (Format UnpackedFloat totalExponent)
open Float.Model.UnpackedFloat

/-! ## The nearest double -/

/-- A double with the bits of a rounded mantissa, which may have carried. -/
theorem hasValue_of_bits {x : Float} {m : ℕ} {q : ℤ} (hx : x.toBits.toNat = bitsOf m q)
    (hm : m ≤ 2 ^ 53) (hq : leastExponent ≤ q) (hnormal : q = leastExponent ∨ 2 ^ 52 ≤ m)
    (hlt : bitsOf m q < infinityBits) : HasValue x (m * 2 ^ q) := by
  have hleast : leastExponent = -1074 := rfl
  rcases ofFloat_cases (hx.trans_lt hlt) with ⟨hzero, hx'⟩ | ⟨m', q', hm', hbits, hx'⟩
  · rw [hx, bitsOf_eq] at hzero
    obtain rfl : m = 0 := by omega
    exact ⟨false, 0, leastExponent, hx', by simp⟩
  · refine ⟨false, m', q', hx', ?_⟩
    rw [if_neg Bool.false_ne_true]
    rw [hx, bitsOf_eq, bitsOf_eq] at hbits
    obtain ⟨hpos, hlt', hq', -, hnormal'⟩ := hm'
    rcases hm.eq_or_lt with rfl | hm
    · obtain ⟨rfl, rfl⟩ : m' = 2 ^ 52 ∧ q' = q + 1 := by omega
      rw [zpow_add_one₀ two_ne_zero]
      norm_num
      ring
    · obtain ⟨rfl, rfl⟩ : m' = m ∧ q' = q := by omega
      rfl

/-- A number with 53 binary figures, in the form of a double. -/
theorem exists_magnitude_eq {c : ℕ} {b : ℤ} (hc : 0 < c) (hlt : c < 2 ^ 53)
    (hb : leastExponent ≤ b) (hlarge : (c * 2 ^ b : ℚ) < 2 ^ 1024) :
    ∃ m q, Magnitude m q ∧ (m * 2 ^ q : ℚ) = c * 2 ^ b := by
  have hlog : c.log2 < 53 := (Nat.log2_lt hc.ne').2 hlt
  obtain ⟨s, hs⟩ : ∃ s : ℕ, (s : ℤ) = min (52 - c.log2 : ℤ) (b - leastExponent) :=
    Int.eq_ofNat_of_zero_le (by omega) |>.imp fun _ h => h.symm
  have hvalue : ((c * 2 ^ s : ℕ) * 2 ^ (b - s) : ℚ) = c * 2 ^ b := by
    rw [zpow_sub₀ two_ne_zero, zpow_natCast]
    push_cast
    field_simp
  have hnormal : b - s = leastExponent ∨ 2 ^ 52 ≤ c * 2 ^ s := by
    refine or_iff_not_imp_left.2 fun hne => ?_
    calc 2 ^ 52 = 2 ^ c.log2 * 2 ^ s := by
          rw [← pow_add]
          congr 1
          omega
      _ ≤ c * 2 ^ s := Nat.mul_le_mul_right _ (Nat.log2_self_le hc.ne')
  refine ⟨c * 2 ^ s, b - s, ⟨by positivity, ?_, by omega, ?_, hnormal⟩, hvalue⟩
  · calc c * 2 ^ s < 2 ^ (c.log2 + 1) * 2 ^ s :=
          Nat.mul_lt_mul_of_pos_right Nat.lt_log2_self (by positivity)
      _ = 2 ^ (c.log2 + 1 + s) := (pow_add 2 _ s).symm
      _ ≤ 2 ^ 53 := Nat.pow_le_pow_right two_pos (by omega)
  · rcases hnormal with hleast | hnormal
    · rw [hleast]
      decide
    · have hnormal : (2 : ℚ) ^ 52 ≤ (c * 2 ^ s : ℕ) := by exact_mod_cast hnormal
      have hpow : (2 : ℚ) ^ (52 + (b - s)) < 2 ^ (1024 : ℤ) := by
        calc (2 : ℚ) ^ (52 + (b - s)) = 2 ^ 52 * 2 ^ (b - s) := by
              rw [zpow_add₀ two_ne_zero]
              rfl
          _ ≤ (c * 2 ^ s : ℕ) * 2 ^ (b - s) := by gcongr
          _ < 2 ^ (1024 : ℤ) := hvalue.trans_lt hlarge
      have := (zpow_lt_zpow_iff_right₀ one_lt_two).1 hpow
      omega

/-- **A number that a double stands for is its own nearest double.** -/
theorem hasValue_nearest {num den : ℕ} (hden : 0 < den) {m : ℕ} {q : ℤ} (h : Magnitude m q)
    (hvalue : (num / den : ℚ) = m * 2 ^ q) : HasValue (nearest num den) (m * 2 ^ q) := by
  have hcontains : (Decimal.Interval.around m q).Contains (num / den) := by
    obtain ⟨hbelow, -⟩ := Decimal.Interval.below_bounds m q
    rw [Decimal.Interval.contains_around_iff h.pos, hvalue,
      mul_div_cancel_right₀ _ (zpow_ne_zero q two_ne_zero)]
    split <;> constructor <;> linarith
  have hbits := nearestBits_of_contains hden h hcontains
  have hlt := h.bitsOf_lt
  refine hasValue_of_bits ?_ h.lt.le h.least h.normal hlt
  rw [nearest, hbits, toBits_ofBits hlt.le]

theorem hasValue_nearest_zero (den : ℕ) : HasValue (nearest 0 den) 0 := by
  have hzero : nearest 0 den = Float.ofBits (UInt64.ofNat 0) := by
    rw [nearest, nearestBits, if_pos rfl]
  rw [hzero]
  exact ⟨false, 0, leastExponent, rfl, by simp⟩

theorem hasValue_nearest_of_eq {num den c : ℕ} {b : ℤ} (hden : 0 < den) (hc : c ≤ 2 ^ 53)
    (hb : leastExponent ≤ b) (hlarge : (c * 2 ^ b : ℚ) < 2 ^ 1024)
    (hvalue : (num / den : ℚ) = c * 2 ^ b) : HasValue (nearest num den) (c * 2 ^ b) := by
  rcases Nat.eq_zero_or_pos c with rfl | hpos
  · rw [Nat.cast_zero, zero_mul] at hvalue ⊢
    have hnum : num = 0 := by
      rw [div_eq_zero_iff] at hvalue
      exact_mod_cast hvalue.resolve_right (Nat.cast_ne_zero.2 hden.ne')
    rw [hnum]
    exact hasValue_nearest_zero den
  rcases hc.eq_or_lt with rfl | hlt
  · have hone : ((2 ^ 53 : ℕ) * 2 ^ b : ℚ) = (1 : ℕ) * 2 ^ (53 + b) := by
      rw [zpow_add₀ two_ne_zero]
      norm_num
    rw [hone] at hlarge hvalue ⊢
    obtain ⟨m, q, hm, heq⟩ := exists_magnitude_eq one_pos (by norm_num) (by omega) hlarge
    rw [← heq] at hvalue ⊢
    exact hasValue_nearest hden hm hvalue
  · obtain ⟨m, q, hm, heq⟩ := exists_magnitude_eq hpos hlt hb hlarge
    rw [← heq] at hvalue ⊢
    exact hasValue_nearest hden hm hvalue

theorem hasValue_nearest_natCast {n : ℕ} (hn : n < 2 ^ 53) : HasValue (nearest n 1) n := by
  have hlt : (n * 2 ^ (0 : ℤ) : ℚ) < 2 ^ 1024 := by
    rw [zpow_zero, mul_one]
    calc (n : ℚ) < 2 ^ 53 := by exact_mod_cast hn
      _ ≤ 2 ^ 1024 := pow_le_pow_right₀ one_le_two (by norm_num)
  have hvalue : (n / (1 : ℕ) : ℚ) = n * 2 ^ (0 : ℤ) := by simp
  have h := hasValue_nearest_of_eq one_pos hn.le (by decide) hlt hvalue
  rwa [zpow_zero, mul_one] at h

/-- What is rounded is off by half a unit of the last of 53 binary figures, or of the
    smallest double. -/
theorem Rounded.error_le {v : ℚ} {m : ℕ} {q : ℤ} (h : Rounded v m q) :
    |m * 2 ^ q - v| ≤ max (2 ^ (-53 : ℤ) * v) (2 ^ leastExponent / 2) := by
  have hpow : (0 : ℚ) < 2 ^ q := by positivity
  have hdiff : (m * 2 ^ q - v : ℚ) = (m - v / 2 ^ q) * 2 ^ q := by field_simp
  have hround : |m - v / 2 ^ q| ≤ 1 / 2 :=
    abs_le.2 ⟨by linarith [h.high], by linarith [h.low]⟩
  rw [hdiff, abs_mul, abs_of_pos hpow]
  refine (mul_le_mul_of_nonneg_right hround hpow.le).trans ?_
  rcases h.normal with rfl | hnormal
  · refine le_max_of_le_right (le_of_eq ?_)
    ring
  · refine le_max_of_le_left ?_
    have hv := (le_div_iff₀ hpow).1 hnormal
    calc (1 / 2 * 2 ^ q : ℚ) = 2 ^ (-53 : ℤ) * (2 ^ 52 * 2 ^ q) := by
          rw [← mul_assoc]
          norm_num
      _ ≤ 2 ^ (-53 : ℤ) * v := mul_le_mul_of_nonneg_left hv (by positivity)

/-- The nearest double is off by `2 ^ (-53)` of the number at most, or by half of the
    smallest double; it is infinite only if the number is large. -/
theorem exists_error {num den : ℕ} (hnum : 0 < num) (hden : 0 < den) :
    (nearest num den).toBits.toNat = infinityBits ∧ (2 : ℚ) ^ (1023 : ℤ) ≤ num / den ∨
      ∃ v, HasValue (nearest num den) v ∧
        |v - num / den| ≤ max ((2 : ℚ) ^ (-53 : ℤ) * (num / den)) (2 ^ leastExponent / 2) := by
  obtain ⟨m, q, h⟩ := exists_rounded hnum hden
  have hbits := nearestBits_of_rounded hnum hden h
  rcases le_or_gt infinityBits (bitsOf m q) with hover | hunder
  · refine .inl ⟨?_, le_trans ?_ (h.infinityBits_le_iff.1 hover)⟩
    · rw [nearest, hbits, Nat.min_eq_left hover, toBits_ofBits le_rfl]
    · calc (2 : ℚ) ^ (1023 : ℤ) = 2 ^ (52 : ℤ) * 2 ^ (971 : ℤ) := by
            rw [← zpow_add₀ two_ne_zero]
            rfl
        _ ≤ overflow := mul_le_mul_of_nonneg_right (by norm_num) (by positivity)
  · have htoBits : (nearest num den).toBits.toNat = bitsOf m q := by
      rw [nearest, hbits, Nat.min_eq_right hunder.le, toBits_ofBits hunder.le]
    exact .inr ⟨m * 2 ^ q, hasValue_of_bits htoBits h.mantissa_le h.least h.le_mantissa hunder,
      h.error_le⟩

theorem not_hasValue_of_toBits {x : Float} (hx : x.toBits.toNat = infinityBits) (v : ℚ) :
    ¬ HasValue x v := by
  rintro ⟨negative, m, q, h, -⟩
  have hinfinite : ofFloat (Float.ofBits (UInt64.ofNat infinityBits)) = .infinite false := by
    decide +kernel
  rw [← hx, ofBits_toBits, h] at hinfinite
  cases hinfinite

theorem HasValue.unique {x : Float} {v w : ℚ} (hv : HasValue x v) (hw : HasValue x w) : v = w := by
  obtain ⟨negative, m, q, hx, rfl⟩ := hv
  obtain ⟨negative', m', q', hx', rfl⟩ := hw
  obtain ⟨rfl, rfl, rfl⟩ := Binary64.finite.inj (hx.symm.trans hx')
  rfl

theorem HasValue.isFinite {x : Float} {v : ℚ} (h : HasValue x v) : x.isFinite := by
  obtain ⟨negative, m, q, hx, -⟩ := h
  exact (isFinite_iff x).2 ⟨negative, m, q, hx⟩

/-! ## Operations -/

theorem exists_ratio {v : ℚ} (hv : 0 < v) :
    ∃ num den : ℕ, 0 < num ∧ 0 < den ∧ (num / den : ℚ) = v := by
  refine ⟨v.num.toNat, v.den, ?_, v.den_pos, ?_⟩
  · have := Rat.num_pos.2 hv
    omega
  · have hnum : ((v.num.toNat : ℤ) : ℚ) = v.num := by
      rw [Int.toNat_of_nonneg (Rat.num_pos.2 hv).le]
    rw [Int.cast_natCast] at hnum
    rw [hnum, Rat.num_div_den]

section
variable {x y : Float} {v w : ℚ} (hx : HasValue x v) (hv : 0 < v) (hy : HasValue y w) (hw : 0 < w)
include hx hv hy hw

theorem HasValue.mul_cases :
    (x * y).toBits.toNat = infinityBits ∧ 2 ^ (1023 : ℤ) ≤ v * w ∨
      ∃ z, HasValue (x * y) z ∧
        |z - v * w| ≤ max (2 ^ (-53 : ℤ) * (v * w)) (2 ^ leastExponent / 2) := by
  obtain ⟨num, den, hnum, hden, hratio⟩ := exists_ratio (mul_pos hv hw)
  have herror := exists_error hnum hden
  rw [hratio] at herror
  rwa [mul_eq_nearest hx hv hy hw hden hratio]

theorem HasValue.mul_exact {c : ℕ} {b : ℤ} (hc : c ≤ 2 ^ 53) (hb : leastExponent ≤ b)
    (hlarge : (c * 2 ^ b : ℚ) < 2 ^ 1024) (h : v * w = c * 2 ^ b) : HasValue (x * y) (v * w) := by
  obtain ⟨num, den, -, hden, hratio⟩ := exists_ratio (mul_pos hv hw)
  rw [mul_eq_nearest hx hv hy hw hden hratio, h]
  exact hasValue_nearest_of_eq hden hc hb hlarge (hratio.trans h)

theorem HasValue.div_error (hlt : v / w < 2 ^ (1023 : ℤ)) :
    ∃ z, HasValue (x / y) z ∧
      |z - v / w| ≤ max (2 ^ (-53 : ℤ) * (v / w)) (2 ^ leastExponent / 2) := by
  obtain ⟨num, den, hnum, hden, hratio⟩ := exists_ratio (div_pos hv hw)
  have herror := exists_error hnum hden
  rw [hratio] at herror
  rw [div_eq_nearest hx hv hy hw hden hratio]
  exact herror.resolve_left fun hover => hlt.not_ge hover.2

end

/-! ## Signs -/

theorem neg_signOf (negative : Bool) : -signOf negative = signOf (!negative) := by
  cases negative <;> rfl

/-- What is taken apart has its sign in one bit, and nowhere else. -/
theorem exists_toBits_eq {x : Float} {negative : Bool} {m : ℕ} {q : ℤ}
    (h : ofFloat x = .finite negative m q) :
    ∃ r < 2 ^ 63, x.toBits.toNat = (signOf negative).toBitVec.toNat * 2 ^ 63 + r ∧
      (-x).toBits.toNat = (signOf !negative).toBitVec.toNat * 2 ^ 63 + r := by
  have hunpack := unpack_of_finite h
  have hx : x.toBits.toNat = (pack .binary64 x.toModel.unpack).toNat :=
    congrArg BitVec.toNat (pack_unpack x.toModel.valid).symm
  have hneg : (-x).toBits.toNat = (pack .binary64 x.toModel.unpack.neg).toNat := rfl
  have hfields (e : BitVec Format.binary64.exponentBits)
      (f : BitVec Format.binary64.mantissaBitsWithoutImplicit) :
      e.toNat * 2 ^ 52 + f.toNat < 2 ^ 63 := by
    have he : e.toNat < 2 ^ 11 := e.isLt
    have hf : f.toNat < 2 ^ 52 := f.isLt
    omega
  rcases Nat.eq_zero_or_pos m with rfl | hm
  · rw [dif_neg (lt_irrefl 0)] at hunpack
    rw [hunpack] at hx hneg
    rw [UnpackedFloat.neg, neg_signOf] at hneg
    refine ⟨_, hfields 0 0, hx.trans ?_, hneg.trans ?_⟩ <;>
      exact (toNat_packComponents _ _ _).trans (Nat.add_assoc _ _ _)
  · rw [dif_pos hm] at hunpack
    rw [hunpack] at hx hneg
    rw [UnpackedFloat.neg, neg_signOf] at hneg
    obtain ⟨e, f, hpack⟩ := exists_pack_eq q hm
    rw [hpack, toNat_packComponents, Nat.add_assoc] at hx hneg
    exact ⟨_, hfields e f, hx, hneg⟩

theorem ofFloat_neg {x : Float} {negative : Bool} {m : ℕ} {q : ℤ}
    (h : ofFloat x = .finite negative m q) : ofFloat (-x) = .finite (!negative) m q := by
  obtain ⟨r, hr, hx, hneg⟩ := exists_toBits_eq h
  have hsign (s : Sign) : s.toBitVec.toNat < 2 := s.toBitVec.isLt
  have hexponent : (-x).toBits.toNat / twoTo 52 % twoTo 11 =
      x.toBits.toNat / twoTo 52 % twoTo 11 := by
    show (-x).toBits.toNat / 2 ^ 52 % 2 ^ 11 = x.toBits.toNat / 2 ^ 52 % 2 ^ 11
    omega
  have hfraction : (-x).toBits.toNat % twoTo 52 = x.toBits.toNat % twoTo 52 := by
    show (-x).toBits.toNat % 2 ^ 52 = x.toBits.toNat % 2 ^ 52
    omega
  have hnegative : ((-x).toBits.toNat / twoTo 63 == 1) = !negative := by
    show ((-x).toBits.toNat / 2 ^ 63 == 1) = !negative
    rw [hneg, Nat.mul_comm, Nat.mul_add_div (by norm_num), Nat.div_eq_of_lt hr]
    cases negative <;> rfl
  unfold ofFloat at h ⊢
  dsimp only at h ⊢
  rw [hexponent, hfraction, hnegative]
  split at h
  · split at h <;> cases h
  · next hfull =>
    rw [if_neg hfull]
    split at h <;> obtain ⟨-, rfl, rfl⟩ := Binary64.finite.inj h
    · next hzero => rw [if_pos hzero]
    · next hzero => rw [if_neg hzero]

theorem HasValue.neg {x : Float} {v : ℚ} (h : HasValue x v) : HasValue (-x) (-v) := by
  obtain ⟨negative, m, q, hx, rfl⟩ := h
  refine ⟨!negative, m, q, ofFloat_neg hx, ?_⟩
  cases negative <;> simp

/-! ## Whole numbers -/

theorem bounds_of_ofFloat {x : Float} {negative : Bool} {m : ℕ} {q : ℤ}
    (h : ofFloat x = .finite negative m q) : m < 2 ^ 53 ∧ leastExponent ≤ q := by
  have hfraction : x.toBits.toNat % twoTo 52 < 2 ^ 52 := Nat.mod_lt _ (Nat.pow_pos two_pos)
  have htwo : twoTo 52 = 2 ^ 52 := rfl
  have hleast : leastExponent = -1074 := rfl
  unfold ofFloat at h
  dsimp only at h
  split at h
  · split at h <;> cases h
  · split at h <;> obtain ⟨-, rfl, rfl⟩ := Binary64.finite.inj h <;> omega

theorem HasValue.exists_eq_mul {x : Float} {v : ℚ} (h : HasValue x v) :
    ∃ z : ℤ, v = z * 2 ^ leastExponent := by
  obtain ⟨negative, m, q, hx, rfl⟩ := h
  obtain ⟨-, hq⟩ := bounds_of_ofFloat hx
  obtain ⟨j, rfl⟩ := Int.le.dest hq
  have hpow : (m * 2 ^ (leastExponent + j) : ℚ) = (m * 2 ^ j : ℤ) * 2 ^ leastExponent := by
    rw [zpow_add₀ two_ne_zero, zpow_natCast]
    push_cast
    ring
  rw [hpow]
  cases negative with
  | false => exact ⟨m * 2 ^ j, if_neg Bool.false_ne_true⟩
  | true => exact ⟨-(m * 2 ^ j), by rw [if_pos rfl, Int.cast_neg, neg_mul]⟩

/-- Doubles from `2 ^ 53` on are whole. -/
theorem HasValue.exists_mul_two_pow {x : Float} {v : ℚ} (h : HasValue x v) (hv : 2 ^ 53 ≤ v) :
    ∃ m q : ℕ, 0 < m ∧ m < 2 ^ 53 ∧ v = m * 2 ^ q := by
  obtain ⟨m, q, hm, -, rfl⟩ := h.exists_magnitude ((by positivity : (0 : ℚ) < 2 ^ 53).trans_le hv)
  have hm53 : (m : ℚ) < 2 ^ 53 := by exact_mod_cast hm.lt
  have hq : 0 ≤ q := by
    by_contra hq
    have hle : (m * 2 ^ q : ℚ) ≤ m * 1 := by
      gcongr
      exact zpow_le_one_of_nonpos₀ one_le_two (by omega)
    linarith
  lift q to ℕ using hq
  exact ⟨m, q, hm.pos, hm.lt, by rw [zpow_natCast]⟩

section
variable {whole : Bool → ℕ → ℕ → ℕ} {x : Float} {negative : Bool} {m : ℕ} {q : ℤ}
  (hx : ofFloat x = .finite negative m q)
include hx

theorem makeWhole_of_nonneg (hq : 0 ≤ q) : makeWhole whole x = x := by
  rw [makeWhole, hx]
  exact if_pos hq

theorem hasValue_makeWhole (hq : ¬ 0 ≤ q)
    (hlt : whole negative m (twoTo (-q).toNat) < 2 ^ 53) :
    HasValue (makeWhole whole x) (if negative then -(whole negative m (twoTo (-q).toNat) : ℚ)
      else whole negative m (twoTo (-q).toNat)) := by
  rw [makeWhole, hx]
  dsimp only
  rw [if_neg hq]
  cases negative with
  | false => exact hasValue_nearest_natCast hlt
  | true => exact (hasValue_nearest_natCast hlt).neg

end

theorem makeWhole_of_not_isFinite {whole : Bool → ℕ → ℕ → ℕ} {x : Float}
    (hx : x.isFinite = false) : makeWhole whole x = x := by
  unfold makeWhole
  split
  · next negative m q h =>
    rw [(isFinite_iff x).2 ⟨negative, m, q, h⟩] at hx
    cases hx
  · rfl

theorem mul_zpow_eq_div (m : ℕ) {q : ℤ} (hq : ¬ 0 ≤ q) :
    (m * 2 ^ q : ℚ) = m / twoTo (-q).toNat := by
  rw [cast_twoTo, ← zpow_natCast, Int.toNat_of_nonneg (by omega), zpow_neg, div_inv_eq_mul]

theorem ceil_div (m : ℕ) {den : ℕ} (hden : 0 < den) :
    ⌈(m / den : ℚ)⌉ = ((m + den - 1) / den : ℕ) := by
  have hd : (0 : ℚ) < den := Nat.cast_pos.2 hden
  have hmod := Nat.div_add_mod' (m + den - 1) den
  have hlt := Nat.mod_lt (m + den - 1) hden
  rw [Int.ceil_eq_iff, Int.cast_natCast]
  generalize (m + den - 1) / den = c at *
  have hlow : c * den < m + den := by omega
  have hhigh : m ≤ c * den := by omega
  constructor
  · rw [lt_div_iff₀ hd, sub_one_mul, sub_lt_iff_lt_add]
    exact_mod_cast hlow
  · rw [div_le_iff₀ hd]
    exact_mod_cast hhigh

theorem div_natCast_le (m : ℕ) {den : ℕ} (hden : 0 < den) : (m / den : ℚ) ≤ m :=
  div_le_self m.cast_nonneg (Nat.one_le_cast.2 hden)

theorem HasValue.floor {x : Float} {v : ℚ} (h : HasValue x v) :
    HasValue (Binary64.floor x) ⌊v⌋ := by
  obtain ⟨negative, m, q, hx, rfl⟩ := h
  by_cases hq : 0 ≤ q
  · have hwhole : ∃ n : ℤ, (if negative then -(m * 2 ^ q : ℚ) else m * 2 ^ q) = n := by
      lift q to ℕ using hq
      cases negative with
      | false => exact ⟨m * 2 ^ q, by push_cast; rfl⟩
      | true => exact ⟨-(m * 2 ^ q), by push_cast; rfl⟩
    obtain ⟨n, hn⟩ := hwhole
    rw [Binary64.floor, makeWhole_of_nonneg hx hq]
    refine ⟨negative, m, q, hx, ?_⟩
    rw [hn, Int.floor_intCast]
  · have hm := (bounds_of_ofFloat hx).1
    have hden : 0 < twoTo (-q).toNat := Nat.pow_pos two_pos
    rw [mul_zpow_eq_div m hq]
    cases negative with
    | false =>
      have hfloor : ⌊(m / twoTo (-q).toNat : ℚ)⌋ = (m / twoTo (-q).toNat : ℕ) :=
        Rat.floor_natCast_div_natCast m _
      rw [if_neg Bool.false_ne_true, hfloor, Int.cast_natCast]
      exact hasValue_makeWhole hx hq ((Nat.div_le_self _ _).trans_lt hm)
    | true =>
      rw [if_pos rfl, Int.floor_neg, ceil_div m hden, Int.cast_neg, Int.cast_natCast]
      refine hasValue_makeWhole hx hq (lt_of_le_of_lt ?_ hm)
      have hceil : ⌈(m / twoTo (-q).toNat : ℚ)⌉ ≤ m := Int.ceil_le.2 (div_natCast_le m hden)
      rw [ceil_div m hden] at hceil
      exact Int.ofNat_le.1 hceil

/-- A double above zero is made the nearest whole number. -/
theorem HasValue.roundToWhole {x : Float} {v : ℚ} (h : HasValue x v) (hv : 0 < v) :
    ∃ n : ℕ, HasValue (Binary64.roundToWhole x) n ∧ |n - v| ≤ 1 / 2 := by
  obtain ⟨m, q, hm, hx, rfl⟩ := h.exists_magnitude hv
  by_cases hq : 0 ≤ q
  · rw [Binary64.roundToWhole, makeWhole_of_nonneg hx hq]
    lift q to ℕ using hq
    refine ⟨m * 2 ^ q, ?_, ?_⟩
    · exact ⟨false, m, q, hx, by push_cast; rfl⟩
    · norm_num
  · have hden : 0 < twoTo (-q).toNat := Nat.pow_pos two_pos
    rw [mul_zpow_eq_div m hq]
    have hround := abs_roundDiv_sub_le m hden
    refine ⟨_, hasValue_makeWhole hx hq (lt_of_le_of_lt ?_ hm.lt), hround⟩
    have hlt : (roundDiv m (twoTo (-q).toNat) : ℚ) < m + 1 := by
      linarith [(abs_le.1 hround).2, div_natCast_le m hden]
    exact Nat.lt_succ_iff.1 (by exact_mod_cast hlt)

/-! ## Naturals -/

theorem HasValue.zero_lt_iff {x : Float} {v : ℚ} (h : HasValue x v) : 0 < x ↔ 0 < v := by
  have hzero : (0 : Float).toModel.unpack = .zero .positive := rfl
  have hlt : 0 < x ↔ UnpackedFloat.lt (.zero .positive) x.toModel.unpack := by
    rw [← hzero]
    exact decide_eq_true_iff
  obtain ⟨negative, m, q, hx, rfl⟩ := h
  rw [hlt, unpack_of_finite hx]
  rcases Nat.eq_zero_or_pos m with rfl | hm
  · rw [dif_neg (lt_irrefl 0)]
    exact iff_of_false Bool.false_ne_true (by simp)
  · have hpos : (0 : ℚ) < m * 2 ^ q := by positivity
    rw [dif_pos hm]
    cases negative with
    | false => exact iff_of_true rfl hpos
    | true => exact iff_of_false Bool.false_ne_true (by simpa using hpos.le)

theorem HasValue.beq_zero_iff {x : Float} {v : ℚ} (h : HasValue x v) : x == 0 ↔ v = 0 := by
  rw [Binary64.beq_zero_iff]
  obtain ⟨negative, m, q, hx, rfl⟩ := h
  have hpow : (2 : ℚ) ^ q ≠ 0 := by positivity
  rw [unpack_of_finite hx]
  by_cases hm : 0 < m
  · rw [dif_pos hm]
    refine iff_of_false (fun ⟨sign, hsign⟩ => by cases hsign) ?_
    cases negative <;> simp [hm.ne', hpow]
  · obtain rfl : m = 0 := by omega
    exact iff_of_true ⟨_, dif_neg hm⟩ (by simp)

theorem HasValue.exists_infinity_div_zero {x y : Float} {v : ℚ} (hx : HasValue x v) (hv : 0 < v)
    (hy : HasValue y 0) : ∃ sign, (x / y).toModel.unpack = .infinity sign := by
  obtain ⟨m, q, hm, hx, -⟩ := hx.exists_magnitude hv
  obtain ⟨sign, hzero⟩ := (Binary64.beq_zero_iff y).1 (hy.beq_zero_iff.2 rfl)
  have hdiv : (x / y).toModel.unpack = unpack .binary64
      (pack .binary64 (x.toModel.unpack.div .binary64 y.toModel.unpack)) := rfl
  have hinfinity (s : Sign) : unpack .binary64 (pack .binary64 (.infinity s)) = .infinity s := by
    cases s <;> rfl
  rw [hdiv, hzero, unpack_eq_finite hx hm.pos]
  exact ⟨_, hinfinity _⟩

theorem roundToInt_eq {m n : ℕ} {q : ℤ} (h : (m * 2 ^ q : ℚ) = n) :
    roundToInt .positive m q = n := by
  have hpow : (2 : ℚ) ^ q = 2 ^ q.toNat / 2 ^ (-q).toNat := by
    rw [← zpow_natCast, ← zpow_natCast, ← zpow_sub₀ two_ne_zero]
    congr 1
    omega
  have hvalue : ((m * 2 ^ q.toNat : ℕ) / 2 ^ (-q).toNat : ℚ) = n := by
    rw [← h, hpow]
    push_cast
    ring
  have hshift := represents_shiftRight (represents_exact (m * 2 ^ q.toNat)) (-q).toNat
  rw [hvalue] at hshift
  obtain ⟨hlow, hhigh⟩ := hshift.bounds
  have hround : roundToInt .positive m q = (ExtendedMantissa.ofMantissaAndAccuracy
      (m <<< (q - 0).toNat) .exact >>> (0 - (q - (q - 0).toNat)).toNat).mantissa := rfl
  rw [hround, Nat.shiftLeft_eq, sub_zero, show (0 - (q - q.toNat)).toNat = (-q).toNat by omega]
  generalize (ExtendedMantissa.ofMantissaAndAccuracy (m * 2 ^ q.toNat) .exact >>>
    (-q).toNat).mantissa = r at *
  have hlow : r ≤ n := by exact_mod_cast hlow
  have hhigh : n < r + 1 := by exact_mod_cast hhigh
  omega

theorem HasValue.toUInt64 {x : Float} {n : ℕ} (h : HasValue x n) (hpos : 0 < n)
    (hlt : n < 2 ^ 64) : x.toUInt64.toNat = n := by
  obtain ⟨m, q, hm, hx, hn⟩ := h.exists_magnitude (Nat.cast_pos.2 hpos)
  have htoUInt64 : x.toUInt64 = x.toModel.unpack.toUInt64 := rfl
  have hclamp : (UInt64.ofNatClamp n).toNat = n := by
    have hsize : n < UInt64.size := hlt
    rw [UInt64.ofNatClamp, dif_pos hsize]
    exact UInt64.toNat_ofNatLT
  rw [htoUInt64, unpack_eq_finite hx hm.pos]
  show (UInt64.ofNatClamp (roundToInt .positive m q).toNat).toNat = n
  rw [roundToInt_eq hn.symm, Int.toNat_natCast, hclamp]

end Binary64

/-! ## Places -/

open Binary64 in
/-- A figure that stands for a power of ten needs places if the power is below zero. -/
theorem Measurement.placesFor_eq {x : Float} {k : ℤ} (h : HasValue x k) (hk : -2 ^ 64 < k) :
    placesFor x = (-k).toNat := by
  have hneg : HasValue (-x) (-k : ℤ) := by
    rw [Int.cast_neg]
    exact h.neg
  have hpos : 0 < -x ↔ k < 0 := by
    rw [hneg.zero_lt_iff, Int.cast_pos, neg_pos]
  rw [placesFor]
  split
  · next hlt =>
    have hlt := hpos.1 hlt
    obtain ⟨n, hn⟩ := Int.eq_ofNat_of_zero_le (neg_nonneg.2 hlt.le)
    rw [hn] at hneg ⊢
    exact hneg.toUInt64 (by omega) (by omega)
  · next hge =>
    have hge := mt hpos.2 hge
    omega

end Notebook
