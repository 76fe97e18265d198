/-
  How many figures of an uncertainty are displayed.

  The power of ten that the first figure stands for is found before the uncertainty is rounded,
  and the places are those of that power.

  * `IsRounded`: the figure that an uncertainty is rounded to, and its scale;
  * `IsRounded.hasOneFigure_iff`: which figures are displayed alone, by their powers of ten;
  * `displayWith_hasOneFigure_iff`: so which uncertainties are displayed with one figure;
  * `Library.IsAccurate.not_hasOneFigure_of_carry`: those are not that are rounded up to a power
    of ten below the units.
-/
import Notebook.Proofs.Accuracy
import Notebook.Proofs.Significant

namespace Notebook

namespace Measurement

open Binary64 Decimal
open Float.Model (UnpackedFloat)
open Float.Model.UnpackedFloat

/-! ## A figure and its scale -/

/-- The double `f` is a natural `n` from `1` to `10`, and the double `x` is `s`, which is so
    close to `10 ^ k` that ten times the error, and half of the smallest double, are less than
    half of it. -/
structure IsRounded (f x : Float) (n : ℕ) (s : ℚ) (k : ℤ) : Prop where
  figure : HasValue f n
  one_le : 1 ≤ n
  le_ten : n ≤ 10
  scale : HasValue x s
  bound : 10 * |s - 10 ^ k| + 2 ^ leastExponent / 2 ≤ 2 / 5 * 10 ^ k

theorem rounding_error_le {v : ℚ} (hv : 0 ≤ v) :
    max (2 ^ (-53 : ℤ) * v) (2 ^ leastExponent / 2) ≤ (v + 1) / 10 ^ 4 := by
  have hsmall : (2 : ℚ) ^ leastExponent ≤ 2 ^ (-14 : ℤ) :=
    zpow_le_zpow_right₀ one_le_two (by decide)
  norm_num at hsmall
  refine max_le ?_ ?_
  · norm_num
    linarith
  · linarith

section
variable {s : ℚ} {k : ℤ} (hbound : 10 * |s - 10 ^ k| + 2 ^ leastExponent / 2 ≤ 2 / 5 * 10 ^ k)
include hbound

theorem scale_bounds : 24 / 25 * 10 ^ k ≤ s ∧ s ≤ 26 / 25 * 10 ^ k := by
  have hleast : (0 : ℚ) < 2 ^ leastExponent := by positivity
  obtain ⟨hlow, hhigh⟩ := abs_le.1 (by linarith : |s - 10 ^ k| ≤ 10 ^ k / 25)
  constructor <;> linarith

/-- An uncertainty is rounded to a figure from one to ten that is about half a scale away at
    most. -/
theorem exists_isRounded {u x : Float} {v : ℚ} (hu : HasValue u v) (hv : 0 < v)
    (hlow : 10 ^ k ≤ v * (1 + 1 / 10 ^ 11)) (hhigh : v ≤ 10 ^ (k + 1) * (1 + 1 / 10 ^ 11))
    (hx : HasValue x s) :
    ∃ n : ℕ, IsRounded (roundToWhole (u / x)) x n s k ∧ |n - v / s| ≤ 51 / 100 := by
  have hten : (0 : ℚ) < 10 ^ k := by positivity
  rw [zpow_add_one₀ (by norm_num)] at hhigh
  obtain ⟨hs, hs'⟩ := scale_bounds hbound
  have hpos : 0 < s := by linarith
  have hratio : 96 / 100 ≤ v / s := by
    rw [le_div_iff₀ hpos]
    linarith
  have hratio' : v / s ≤ 1042 / 100 := by
    rw [div_le_iff₀ hpos]
    linarith
  have hlarge : v / s < 2 ^ (1023 : ℤ) :=
    hratio'.trans_lt (lt_of_lt_of_le (by norm_num : (1042 / 100 : ℚ) < 2 ^ (4 : ℤ))
      (zpow_le_zpow_right₀ one_le_two (by norm_num)))
  obtain ⟨z, hz, herror⟩ := hu.div_error hv hx hpos hlarge
  have herror : |z - v / s| ≤ 1 / 100 := by
    linarith [herror.trans (rounding_error_le (by positivity))]
  obtain ⟨hz1, hz2⟩ := abs_le.1 herror
  obtain ⟨n, hn, hround⟩ := hz.roundToWhole (by linarith)
  obtain ⟨hn1, hn2⟩ := abs_le.1 hround
  refine ⟨n, ⟨hn, ?_, ?_, hx, hbound⟩, abs_le.2 ⟨by linarith, by linarith⟩⟩
  · have : (0 : ℚ) < n := by linarith
    exact_mod_cast this
  · have : (n : ℚ) < 11 := by linarith
    exact Nat.lt_succ_iff.1 (by exact_mod_cast this)

end

theorem eq_of_abs_sub_lt_one {m n : ℕ} (h : |(m - n : ℚ)| < 1) : m = n := by
  have h : |(m - n : ℤ)| < 1 := by exact_mod_cast h
  have := Int.abs_lt_one_iff.1 h
  omega

/-- A figure times a power of ten that is close to a multiple of `10 ^ j`, and not less than
    that by more than a tenth, is the multiple. -/
theorem eq_of_close {n d i j : ℕ} (hd : d ≤ 9) (hlow : (9 / 10 * 10 ^ j : ℚ) < d * 10 ^ i)
    (hclose : |(d * 10 ^ i - n * 10 ^ j : ℚ)| < 10 ^ j / 2) : d * 10 ^ i = n * 10 ^ j := by
  have hji : j ≤ i := by
    by_contra hji
    have hpow : (10 : ℚ) ^ j = 10 * 10 ^ (j - 1) := by
      rw [← pow_succ', Nat.sub_add_cancel (by omega)]
    have hle : (d * 10 ^ i : ℚ) ≤ 9 * 10 ^ (j - 1) := by
      gcongr
      · exact_mod_cast hd
      · norm_num
      · omega
    linarith
  obtain ⟨i, rfl⟩ := Nat.exists_eq_add_of_le' hji
  have hpow : (0 : ℚ) < 10 ^ j := by positivity
  rw [pow_add, ← mul_assoc, ← sub_mul, abs_mul, abs_of_pos hpow, div_eq_inv_mul,
    mul_lt_mul_iff_left₀ hpow] at hclose
  have heq : d * 10 ^ i = n := eq_of_abs_sub_lt_one (by
    push_cast
    exact hclose.trans (by norm_num))
  rw [pow_add, ← mul_assoc, heq]

/-- From `10 ^ 23` on, and from `5 * 10 ^ 22` on for most of the figures, a figure times a power
    of ten has an odd part with more than 53 binary figures. -/
theorem mul_ten_pow_ne {n j c q : ℕ} (hc : 0 < c) (hlt : c < 2 ^ 53) (hj : 22 ≤ j)
    (hne : 23 ≤ j ∨ n = 5 ∨ n = 7 ∨ n = 9 ∨ n = 10) : n * 10 ^ j ≠ c * 2 ^ q := by
  have hodd {a : ℕ} (ha : 2 ^ 53 ≤ a) (hcoprime : a.Coprime 2) : ¬ a ∣ c * 2 ^ q := fun hdvd =>
    absurd (Nat.le_of_dvd hc ((hcoprime.pow_right q).dvd_of_dvd_mul_right hdvd)) (by omega)
  intro heq
  rw [← heq] at hodd
  by_cases hj23 : 23 ≤ j
  · refine hodd (a := 5 ^ 23) (by norm_num) (by norm_num) (Dvd.dvd.mul_left ?_ n)
    exact (pow_dvd_pow 5 hj23).trans (pow_dvd_pow_of_dvd (by norm_num) j)
  · obtain rfl : j = 22 := by omega
    rcases hne.resolve_left hj23 with rfl | rfl | rfl | rfl
    · exact hodd (a := 5 ^ 23) (by norm_num) (by norm_num) (by norm_num)
    · exact hodd (a := 7 * 5 ^ 22) (by norm_num) (by norm_num) (by norm_num)
    · exact hodd (a := 9 * 5 ^ 22) (by norm_num) (by norm_num) (by norm_num)
    · exact hodd (a := 5 ^ 23) (by norm_num) (by norm_num) (by norm_num)

/-- The figure `n`, standing for `10 ^ k`, is displayed alone: below the units if it is not
    ten, at the units and above as far as the product of the figure and the power of ten is a
    double. -/
def StandsAlone (n : ℕ) (k : ℤ) : Prop :=
  -323 ≤ k ∧ k < 0 ∧ n ≤ 9 ∨ 0 ≤ k ∧ k ≤ 21 ∨ k = 22 ∧ n ∈ [1, 2, 3, 4, 6, 8]

namespace IsRounded
variable {f x : Float} {n : ℕ} {s : ℚ} {k : ℤ} (h : IsRounded f x n s k)
include h

theorem scale_pos : 0 < s :=
  lt_of_lt_of_le (by positivity) (scale_bounds h.bound).1

theorem figure_pos : (0 : ℚ) < n := Nat.cast_pos.2 h.one_le

theorem product_error {z : ℚ}
    (hz : |z - n * s| ≤ max (2 ^ (-53 : ℤ) * (n * s)) (2 ^ leastExponent / 2)) :
    |z - n * 10 ^ k| < 10 ^ k / 2 := by
  have hten : (0 : ℚ) < 10 ^ k := by positivity
  have hleast : (0 : ℚ) < 2 ^ leastExponent := by positivity
  have hn : (n : ℚ) ≤ 10 := by exact_mod_cast h.le_ten
  have hscale : |n * (s - 10 ^ k)| ≤ 10 * |s - 10 ^ k| := by
    rw [abs_mul, Nat.abs_cast]
    exact mul_le_mul_of_nonneg_right hn (abs_nonneg _)
  have hproduct : n * s ≤ 10 * (26 / 25 * 10 ^ k) :=
    mul_le_mul hn (scale_bounds h.bound).2 h.scale_pos.le (by norm_num)
  have hround : |z - n * s| ≤ 10 ^ k / 1000 + 2 ^ leastExponent / 2 := by
    refine hz.trans (max_le ?_ (le_add_of_nonneg_left (by positivity)))
    norm_num
    linarith
  calc |z - n * 10 ^ k| = |z - n * s + n * (s - 10 ^ k)| := by
        congr 1
        ring
    _ ≤ |z - n * s| + |n * (s - 10 ^ k)| := abs_add_le _ _
    _ ≤ 10 ^ k / 1000 + 2 ^ leastExponent / 2 + 10 * |s - 10 ^ k| := add_le_add hround hscale
    _ < 10 ^ k / 2 := by linarith [h.bound]

/-- A product that is finite is close to the figure times the power of ten. -/
theorem product_cases : (f * x).toBits.toNat = infinityBits ∧ 2 ^ (1023 : ℤ) ≤ n * s ∨
    ∃ z, HasValue (f * x) z ∧ |z - n * s| ≤ max (2 ^ (-53 : ℤ) * (n * s)) (2 ^ leastExponent / 2) ∧
      |z - n * 10 ^ k| < 10 ^ k / 2 ∧ 0 < z := by
  refine (h.figure.mul_cases h.figure_pos h.scale h.scale_pos).imp_right fun ⟨z, hz, herror⟩ => ?_
  have hclose := h.product_error herror
  have hone : (1 : ℚ) ≤ n := Nat.one_le_cast.2 h.one_le
  have hten : (10 : ℚ) ^ k ≤ n * 10 ^ k := le_mul_of_one_le_left (by positivity) hone
  have hpos : (0 : ℚ) < 10 ^ k := by positivity
  exact ⟨z, hz, herror, hclose, by linarith [(abs_lt.1 hclose).1]⟩

theorem exists_figure_mul_pow (j : ℕ) :
    ∃ d i, 1 ≤ d ∧ d ≤ 9 ∧ n * 10 ^ j = d * 10 ^ i := by
  rcases h.le_ten.eq_or_lt with rfl | hlt
  · exact ⟨1, j + 1, le_rfl, by norm_num, by ring⟩
  · exact ⟨n, j, h.one_le, by omega, rfl⟩

/-- At the units and below, the figure itself is written.  Ten has two figures, and the
    second one counts if there are places. -/
theorem hasOneFigure_iff_of_nonpos (hk : k ≤ 0) :
    hasOneFigure (fixed (-k).toNat (f * x)) ↔ k = 0 ∨ n ≤ 9 := by
  obtain ⟨places, rfl⟩ : ∃ places : ℕ, k = -places := ⟨(-k).toNat, by omega⟩
  rw [neg_neg, Int.toNat_natCast]
  have hten : (1 : ℚ) ≤ 10 ^ places := one_le_pow₀ (by norm_num)
  have hpow : (10 : ℚ) ^ (-places : ℤ) = 1 / 10 ^ places := by
    rw [zpow_neg, zpow_natCast, one_div]
  have hsmall : n * s < 2 ^ (1023 : ℤ) := by
    have hn : (n : ℚ) ≤ 10 := by exact_mod_cast h.le_ten
    have hs : s ≤ 26 / 25 := by
      have := (scale_bounds h.bound).2
      rw [hpow] at this
      linarith [div_le_one_of_le₀ hten (by positivity)]
    calc n * s ≤ 10 * (26 / 25) := mul_le_mul hn hs h.scale_pos.le (by norm_num)
      _ < 2 ^ (4 : ℤ) := by norm_num
      _ ≤ 2 ^ (1023 : ℤ) := zpow_le_zpow_right₀ one_le_two (by norm_num)
  obtain ⟨z, hz, -, hclose, hpos⟩ :=
    h.product_cases.resolve_left fun hover => hsmall.not_ge hover.2
  obtain ⟨m, hm, hone⟩ := (plain_fixed places hz hpos).hasOneFigure_iff
  -- both the figure and the numeral are half a unit of the last place away at most
  have hmn : m = n := by
    rw [hpow, mul_one_div, div_right_comm] at hclose
    have hdiff : |(m / 10 ^ places - n / 10 ^ places : ℚ)| < 1 / 10 ^ places := by
      calc |(m / 10 ^ places - n / 10 ^ places : ℚ)|
          ≤ |m / 10 ^ places - z| + |z - n / 10 ^ places| := abs_sub_le _ _ _
        _ < 1 / 2 / 10 ^ places + 1 / 2 / 10 ^ places := add_lt_add_of_le_of_lt hm hclose
        _ = 1 / 10 ^ places := by ring
    rw [← sub_div, abs_div, abs_of_pos (by positivity : (0 : ℚ) < 10 ^ places),
      div_lt_div_iff_of_pos_right (by positivity)] at hdiff
    exact eq_of_abs_sub_lt_one hdiff
  subst hmn
  rw [hone]
  split
  · next hzero =>
    subst hzero
    have := h.exists_figure_mul_pow 0
    simp only [pow_zero, mul_one] at this
    exact iff_of_true this (.inl rfl)
  · next hne =>
    have hone := h.one_le
    omega

/-- Above the units a figure is written with zeros behind it, if the product is a double. -/
theorem hasOneFigure_of_exact {j : ℕ} (hk : k = j) (hj : j ≤ 22) (hs : s = 10 ^ k) {c b : ℕ}
    (hc : c ≤ 2 ^ 53) (heq : n * 10 ^ j = c * 2 ^ b) : hasOneFigure (fixed 0 (f * x)) := by
  have hvalue : (n * s : ℚ) = (n * 10 ^ j : ℕ) := by
    rw [hs, hk, zpow_natCast]
    push_cast
    rfl
  have hscaled : (n * s : ℚ) = c * 2 ^ (b : ℤ) := by
    rw [hvalue, heq, zpow_natCast]
    push_cast
    rfl
  have hlarge : (c * 2 ^ (b : ℤ) : ℚ) < 2 ^ 1024 := by
    have hn : (n : ℚ) ≤ 10 := by exact_mod_cast h.le_ten
    rw [← hscaled, hs, hk, zpow_natCast]
    calc (n * 10 ^ j : ℚ) ≤ 10 * 10 ^ 22 := by
          gcongr
          norm_num
      _ < 2 ^ 80 := by norm_num
      _ ≤ 2 ^ 1024 := pow_le_pow_right₀ one_le_two (by norm_num)
  have hleast : leastExponent ≤ b := (by decide : leastExponent ≤ 0).trans (Int.natCast_nonneg b)
  have hproduct := h.figure.mul_exact h.figure_pos h.scale h.scale_pos hc hleast hlarge hscaled
  obtain ⟨m, hm, hone⟩ :=
    (plain_fixed 0 hproduct (mul_pos h.figure_pos h.scale_pos)).hasOneFigure_iff
  rw [hvalue, pow_zero, div_one, div_one] at hm
  have hmn : m = n * 10 ^ j := eq_of_abs_sub_lt_one (hm.trans_lt (by norm_num))
  rw [hone, if_pos rfl, hmn]
  exact h.exists_figure_mul_pow j

theorem product_large (hk : 22 ≤ k) {z : ℚ}
    (hz : |z - n * s| ≤ max (2 ^ (-53 : ℤ) * (n * s)) (2 ^ leastExponent / 2)) :
    9 / 10 * 10 ^ k < z := by
  have hscale := (scale_bounds h.bound).1
  have hpos := h.scale_pos
  have hn : s ≤ n * s := le_mul_of_one_le_left hpos.le (Nat.one_le_cast.2 h.one_le)
  have hten : (10 : ℚ) ^ (1 : ℤ) ≤ 10 ^ k := zpow_le_zpow_right₀ (by norm_num) (by omega)
  have herror := hz.trans (rounding_error_le (by linarith))
  linarith [(abs_le.1 herror).1]

/-- A large product is written as it is, and the only figure times a power of ten that it is
    close to is not a double. -/
theorem not_hasOneFigure_of_large (hk : 22 ≤ k)
    (hne : 23 ≤ k ∨ n = 5 ∨ n = 7 ∨ n = 9 ∨ n = 10) : ¬ hasOneFigure (fixed 0 (f * x)) := by
  rcases h.product_cases with ⟨hover, -⟩ | ⟨z, hz, herror, hclose, hpos⟩
  · rw [hasOneFigure_of_not_finite (not_hasValue_of_toBits hover)]
    exact Bool.false_ne_true
  have hlow := h.product_large hk herror
  obtain ⟨j, rfl⟩ := Int.eq_ofNat_of_zero_le (by omega : 0 ≤ k)
  have hj : 22 ≤ j := by exact_mod_cast hk
  rw [zpow_natCast] at hlow hclose
  have hten : (10 : ℚ) ^ 22 ≤ 10 ^ j := pow_le_pow_right₀ (by norm_num) hj
  obtain ⟨c, q, hc, hlt, rfl⟩ := hz.exists_mul_two_pow (by linarith)
  obtain ⟨N, hN, hone⟩ := (plain_fixed 0 hz hpos).hasOneFigure_iff
  rw [pow_zero, div_one, div_one] at hN
  have hN : N = c * 2 ^ q := eq_of_abs_sub_lt_one (by
    push_cast
    exact hN.trans_lt (by norm_num))
  rw [hone, if_pos rfl, hN]
  rintro ⟨d, i, -, hd, hwhole⟩
  refine mul_ten_pow_ne hc hlt hj (by exact_mod_cast hne) (Eq.trans ?_ hwhole.symm)
  have hcast : (c * 2 ^ q : ℚ) = d * 10 ^ i := by exact_mod_cast hwhole
  rw [hcast] at hlow hclose
  exact (eq_of_close hd hlow hclose).symm

/-- **Which figures are displayed alone**, with the power of ten that they stand for. -/
theorem hasOneFigure_iff (hk : -323 ≤ k) (hs : 1 ≤ k → k ≤ 22 → s = 10 ^ k) :
    hasOneFigure (fixed (-k).toNat (f * x)) ↔ StandsAlone n k := by
  unfold StandsAlone
  rcases le_or_gt k 0 with hnonpos | hpos
  · rw [h.hasOneFigure_iff_of_nonpos hnonpos]
    omega
  obtain ⟨j, rfl⟩ := Int.eq_ofNat_of_zero_le hpos.le
  rw [show (-(j : ℤ)).toNat = 0 by omega]
  have hone := h.one_le
  have hten := h.le_ten
  rcases le_or_gt j 21 with hj | hj
  · have hc : n * 5 ^ j ≤ 2 ^ 53 :=
      (Nat.mul_le_mul hten (Nat.pow_le_pow_right (by norm_num) hj)).trans (by norm_num)
    refine iff_of_true (h.hasOneFigure_of_exact rfl (by omega) (hs (by omega) (by omega)) hc
      (b := j) ?_) (by omega)
    rw [mul_assoc, ← mul_pow]
    norm_num
  by_cases halone : j = 22 ∧ n ∈ [1, 2, 3, 4, 6, 8]
  · obtain ⟨rfl, hn⟩ := halone
    -- the odd part of the figure times `5 ^ 22` has 53 binary figures at most
    obtain ⟨c, b, hc, heq⟩ : ∃ c b, c ≤ 2 ^ 53 ∧ n * 10 ^ 22 = c * 2 ^ b := by
      fin_cases hn
      · exact ⟨5 ^ 22, 22, by norm_num, by norm_num⟩
      · exact ⟨5 ^ 22, 23, by norm_num, by norm_num⟩
      · exact ⟨3 * 5 ^ 22, 22, by norm_num, by norm_num⟩
      · exact ⟨5 ^ 22, 24, by norm_num, by norm_num⟩
      · exact ⟨3 * 5 ^ 22, 23, by norm_num, by norm_num⟩
      · exact ⟨5 ^ 22, 25, by norm_num, by norm_num⟩
    exact iff_of_true (h.hasOneFigure_of_exact rfl le_rfl (hs (by omega) (by omega)) hc heq)
      (.inr (.inr ⟨rfl, hn⟩))
  · have hlarge : 23 ≤ (j : ℤ) ∨ n = 5 ∨ n = 7 ∨ n = 9 ∨ n = 10 := by
      simp only [List.mem_cons, List.not_mem_nil, or_false] at halone
      omega
    refine iff_of_false (h.not_hasOneFigure_of_large (by omega) hlarge) ?_
    rintro (⟨-, hneg, -⟩ | ⟨-, hsmall⟩ | ⟨hj, hn⟩)
    · omega
    · omega
    · exact halone ⟨by exact_mod_cast hj, hn⟩

end IsRounded

/-! ## Displayed uncertainties -/

theorem not_hasValue_of_scale_zero {u x : Float} {v : ℚ} (hu : HasValue u v) (hv : 0 < v)
    (hx : HasValue x 0) (w : ℚ) : ¬ HasValue (roundToWhole (u / x) * x) w := by
  obtain ⟨sign, hzero⟩ := (beq_zero_iff x).1 (hx.beq_zero_iff.2 rfl)
  obtain ⟨sign', hinfinity⟩ := hu.exists_infinity_div_zero hv hx
  have hwhole : roundToWhole (u / x) = u / x := makeWhole_of_not_isFinite (by
    show (u / x).toModel.unpack.isFinite = false
    rw [hinfinity]
    rfl)
  have hmul : (u / x).toModel.unpack.mul .binary64 x.toModel.unpack = .notANumber := by
    rw [hinfinity, hzero]
    rfl
  intro h
  have hfinite := h.isFinite
  rw [hwhole] at hfinite
  exact Bool.false_ne_true ((isFinite_of_eq_notANumber hmul).symm.trans hfinite)

theorem eq_of_append_plusMinus {value value' uncertainty uncertainty' : Text} (hvalue : '±' ∉ value)
    (hvalue' : '±' ∉ value')
    (h : value ++ plusMinus ++ uncertainty = value' ++ plusMinus ++ uncertainty') :
    uncertainty = uncertainty' := by
  have hdrop {t u : Text} (ht : '±' ∉ t) :
      (t ++ plusMinus ++ u).dropWhile (· != '±') = '±' :: ' ' :: u := by
    have ht : ∀ c ∈ t, (c != '±') = true := fun c hc => bne_iff_ne.2 fun heq => ht (heq ▸ hc)
    rw [List.append_assoc, List.dropWhile_append_of_pos ht]
    rfl
  have hrest := congrArg (List.dropWhile (· != '±')) h
  rw [hdrop hvalue, hdrop hvalue'] at hrest
  exact (List.cons.inj (List.cons.inj hrest).2).2

section
variable {m : Measurement} {v : ℚ} (hu : HasValue m.uncertainty v) (hv : 0 < v)
include hu hv

theorem exists_displayWith_eq (library : Library) (hplaces : m.places = none) :
    ∃ value : Text, '±' ∉ value ∧ m.displayWith library = value ++ plusMinus ++
      fixed (placesFor (library.magnitude m.uncertainty))
        (roundToWhole (m.uncertainty / library.scale m.uncertainty) *
          library.scale m.uncertainty) := by
  have hzero : ¬ (m.uncertainty == 0) = true := fun hzero => hv.ne' (hu.beq_zero_iff.1 hzero)
  refine ⟨fixed (placesFor (library.magnitude m.uncertainty))
    (roundToWhole (m.value / library.scale m.uncertainty) * library.scale m.uncertainty),
    fun hmem => absurd ((fixed_form _ _).mem _ hmem) (by decide), ?_⟩
  rw [displayWith, hplaces]
  exact if_neg hzero

/-- An uncertainty is rounded to a figure and its scale, unless the scale is below the
    smallest double. -/
theorem Library.IsAccurate.isRounded {library : Library} (h : library.IsAccurate) : ∃ k : ℤ,
    HasValue (library.magnitude m.uncertainty) k ∧ -324 ≤ k ∧
      10 ^ k ≤ v * (1 + 1 / 10 ^ 11) ∧ v ≤ 10 ^ (k + 1) * (1 + 1 / 10 ^ 11) ∧
      (k = -324 → HasValue (library.scale m.uncertainty) 0) ∧
      (-323 ≤ k → ∃ (n : ℕ) (s : ℚ), |n - v / s| ≤ 51 / 100 ∧ (1 ≤ k → k ≤ 22 → s = 10 ^ k) ∧
        IsRounded (roundToWhole (m.uncertainty / library.scale m.uncertainty))
          (library.scale m.uncertainty) n s k) := by
  obtain ⟨k, hk, hlow, hhigh⟩ := h.magnitude hu hv
  obtain ⟨hleast, hmost⟩ := magnitude_bounds hu hv hlow hhigh
  obtain ⟨s, hs, hunits⟩ := h.scale hk hleast hmost
  refine ⟨k, hk, hleast, hlow, hhigh, fun hzero => ?_, fun hk => ?_⟩
  · rwa [scale_eq_zero hs hunits hzero] at hs
  · obtain ⟨n, hn, hfigure⟩ :=
      exists_isRounded (scale_bound hs hunits hk) hu hv hlow hhigh hs
    exact ⟨n, s, hfigure, scale_eq_pow hs hunits, hn⟩

end

/-- A number well between two powers of ten has its magnitude. -/
theorem magnitude_unique {v : ℚ} {j k : ℤ} (hlow : 10 ^ k ≤ v * (1 + 1 / 10 ^ 11))
    (hhigh : v ≤ 10 ^ (k + 1) * (1 + 1 / 10 ^ 11)) (hv : 10 ^ j * (1 + 1 / 10 ^ 11) < v)
    (hv' : v * (1 + 1 / 10 ^ 11) < 10 ^ (j + 1)) : k = j := by
  have hten : (1 : ℚ) < 10 := by norm_num
  have hle := (zpow_lt_zpow_iff_right₀ hten).1 (hlow.trans_lt hv')
  have hge := (zpow_lt_zpow_iff_right₀ hten).1
    (lt_of_mul_lt_mul_right (hv.trans_le hhigh) (by norm_num))
  omega

/-- An uncertainty that is rounded up to a power of ten is displayed with two figures below the
    units, as the places are those of the power of ten below it. -/
theorem Library.IsAccurate.not_hasOneFigure_of_carry {library : Library} (h : library.IsAccurate)
    {m : Measurement} (hplaces : m.places = none) {v : ℚ} (hu : HasValue m.uncertainty v) {j : ℤ}
    (hj : -323 ≤ j) (hneg : j < 0) (hlow : 994 / 1000 * 10 ^ (j + 1) ≤ v)
    (hhigh : v * (1 + 1 / 10 ^ 11) < 10 ^ (j + 1)) :
    ∃ value uncertainty : Text, m.displayWith library = value ++ plusMinus ++ uncertainty ∧
      '±' ∉ value ∧ ¬ hasOneFigure uncertainty := by
  have hten : (0 : ℚ) < 10 ^ j := by positivity
  have hnext : (10 : ℚ) ^ (j + 1) = 10 * 10 ^ j := by
    rw [zpow_add_one₀ (by norm_num), mul_comm]
  have hv : 0 < v := lt_of_lt_of_le (by positivity) hlow
  obtain ⟨k, hk, -, hlow', hhigh', -, hfigure⟩ := h.isRounded hu hv
  obtain rfl : k = j := magnitude_unique hlow' hhigh' (by linarith) hhigh
  obtain ⟨n, s, hn, hs, hrounded⟩ := hfigure hj
  obtain ⟨value, hvalue, hdisplay⟩ := exists_displayWith_eq hu hv library hplaces
  rw [placesFor_eq hk (by omega)] at hdisplay
  refine ⟨value, _, hdisplay, hvalue, ?_⟩
  -- the quotient is above nine and a half, so the figure is ten
  have hratio : 955 / 100 ≤ v / s := by
    rw [le_div_iff₀ hrounded.scale_pos]
    linarith [(scale_bounds hrounded.bound).2]
  have hlarge : (9 : ℚ) < n := by linarith [(abs_le.1 hn).1]
  have hlarge : 9 < n := by exact_mod_cast hlarge
  rw [hrounded.hasOneFigure_iff hj hs]
  rintro (⟨-, -, hnine⟩ | ⟨hnonneg, -⟩ | ⟨hlarge, -⟩) <;> omega

/-- **Displayed uncertainties.**  A computed measurement with an uncertainty above zero is
    displayed as two numerals around ` ± `.  With `10 ^ k` for the scale of the uncertainty and
    `n` for the figure that it is rounded to, one figure of its numeral counts if and only if
    the figure stands alone. -/
theorem displayWith_hasOneFigure_iff {library : Library} (h : library.IsAccurate)
    {m : Measurement} (hplaces : m.places = none) (hfinite : m.uncertainty.isFinite)
    (hpos : 0 < m.uncertainty) :
    ∃ (v : ℚ) (k : ℤ) (value uncertainty : Text),
      HasValue m.uncertainty v ∧ HasValue (library.magnitude m.uncertainty) k ∧
      10 ^ k ≤ v * (1 + 1 / 10 ^ 11) ∧ v ≤ 10 ^ (k + 1) * (1 + 1 / 10 ^ 11) ∧
      (-323 ≤ k → ∃ n : ℕ, 1 ≤ n ∧ n ≤ 10 ∧
        HasValue (roundToWhole (m.uncertainty / library.scale m.uncertainty)) n) ∧
      m.displayWith library = value ++ plusMinus ++ uncertainty ∧
      '±' ∉ value ∧ '±' ∉ uncertainty ∧
      (hasOneFigure uncertainty ↔ ∃ n : ℕ, StandsAlone n k ∧
        HasValue (roundToWhole (m.uncertainty / library.scale m.uncertainty)) n) := by
  obtain ⟨negative, c, q, hx⟩ := (isFinite_iff _).1 hfinite
  have hu : HasValue m.uncertainty _ := ⟨negative, c, q, hx, rfl⟩
  have hv := hu.zero_lt_iff.1 hpos
  obtain ⟨k, hk, hleast, hlow, hhigh, hscale, hfigure⟩ := h.isRounded hu hv
  obtain ⟨value, hvalue, hdisplay⟩ := exists_displayWith_eq hu hv library hplaces
  rw [placesFor_eq hk (by omega)] at hdisplay
  refine ⟨_, k, value, _, hu, hk, hlow, hhigh, fun hk => ?_, hdisplay, hvalue,
    fun hmem => absurd ((fixed_form _ _).mem _ hmem) (by decide), ?_⟩
  · obtain ⟨n, s, -, -, hn⟩ := hfigure hk
    exact ⟨n, hn.one_le, hn.le_ten, hn.figure⟩
  · rcases hleast.eq_or_lt with hk | hk
    · rw [hasOneFigure_of_not_finite (not_hasValue_of_scale_zero hu hv (hscale hk.symm))]
      refine iff_of_false Bool.false_ne_true ?_
      rintro ⟨n, ⟨hk', -⟩ | ⟨hk', -⟩ | ⟨hk', -⟩, -⟩ <;> omega
    · obtain ⟨n, s, -, hs, hn⟩ := hfigure hk
      rw [hn.hasOneFigure_iff hk hs]
      refine ⟨fun halone => ⟨n, halone, hn.figure⟩, fun ⟨n', halone, hn'⟩ => ?_⟩
      rwa [Nat.cast_injective (hn.figure.unique hn')]

theorem displayWith_hundreds : ∃ value uncertainty : Text,
    (⟨12345, 678, none⟩ : Measurement).displayWith .nearest = value ++ plusMinus ++ uncertainty ∧
      '±' ∉ value ∧ '±' ∉ uncertainty ∧ hasOneFigure uncertainty := by
  obtain ⟨v, k, value, uncertainty, hu, -, hlow, hhigh, hfigure, hdisplay, hvalue, hmem, hone⟩ :=
    displayWith_hasOneFigure_iff Library.nearest_isAccurate
      (m := ⟨12345, 678, none⟩) rfl (by decide +kernel) (by decide +kernel)
  have h678 : HasValue 678 678 :=
    ⟨false, 5963751069057024, -43, by decide +kernel, by norm_num⟩
  obtain rfl := hu.unique h678
  obtain rfl : k = 2 := magnitude_unique hlow hhigh (by norm_num) (by norm_num)
  obtain ⟨n, -, -, hn⟩ := hfigure (by norm_num)
  exact ⟨value, uncertainty, hdisplay, hvalue, hmem,
    hone.2 ⟨n, .inr (.inl ⟨by norm_num, by norm_num⟩), hn⟩⟩

theorem not_displayWith_hasOneFigure : ¬ ∀ (library : Library) (m : Measurement),
    library.IsAccurate → m.places = none → m.value.isFinite → m.uncertainty.isFinite →
      0 < m.uncertainty → ∃ value uncertainty : Text,
        m.displayWith library = value ++ plusMinus ++ uncertainty ∧
          '±' ∉ value ∧ hasOneFigure uncertainty := by
  intro h
  obtain ⟨value, uncertainty, hdisplay, hvalue, hone⟩ :=
    h .nearest ⟨1, nearest 995 10000, none⟩ Library.nearest_isAccurate rfl (by decide +kernel)
      (by decide +kernel) (by decide +kernel)
  have hu : HasValue (nearest 995 10000) (7169730606773830 * 2 ^ (-56 : ℤ)) :=
    ⟨false, 7169730606773830, -56, by decide +kernel, rfl⟩
  obtain ⟨value', uncertainty', hdisplay', hvalue', htwo⟩ :=
    Library.nearest_isAccurate.not_hasOneFigure_of_carry (m := ⟨1, nearest 995 10000, none⟩)
      rfl hu (j := -2) (by norm_num) (by norm_num) (by norm_num) (by norm_num)
  obtain rfl := eq_of_append_plusMinus hvalue hvalue' (hdisplay.symm.trans hdisplay')
  exact htwo hone

end Measurement

end Notebook
