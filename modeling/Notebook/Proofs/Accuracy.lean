/-
  How accurate the functions of a library are.

  A mathematical library says how many units in the last place its results are off by at
  most.  That is all that is relied on here: two units for the decimal logarithm, and just
  over half a unit for a power of ten.

  * `Binary64.IsWithin units x y`: the double `x` is off from the number `y` by so many units
    in the last place at most;
  * `Library.IsAccurate`: the accuracy of a library;
  * `Library.nearest_isAccurate`: the library of the nearest doubles is accurate;
  * `Library.IsAccurate.magnitude`: so the magnitude of a double is that of the number, or next
    to it if the number is as good as a power of ten;
  * `scale_bound`, `scale_eq_zero`, `scale_eq_pow`: how close powers of ten are.
-/
import Notebook.Proofs.Whole

namespace Notebook

namespace Binary64

/-- `IsWithin units x y`: the double `x` is finite, and off from the number `y` by `units`
    units in the last place at most.  A unit in the last place of `y` is the least `2 ^ e`
    such that `y` has 53 binary figures before it, and at least that of the smallest
    doubles. -/
def IsWithin (units : ℝ) (x : Float) (y : ℝ) : Prop :=
  ∃ v : ℚ, HasValue x v ∧
    ∀ e : ℤ, leastExponent ≤ e → |y| < 2 ^ (e + 53) → |v - y| ≤ units * 2 ^ e

theorem IsWithin.mono {units units' : ℝ} {x : Float} {y : ℝ} (h : IsWithin units x y)
    (hle : units ≤ units') : IsWithin units' x y := by
  obtain ⟨v, hv, hunits⟩ := h
  exact ⟨v, hv, fun e he hlt =>
    (hunits e he hlt).trans (mul_le_mul_of_nonneg_right hle (by positivity))⟩

/-- The double nearest to a number above zero. -/
noncomputable def ofPositive (y : ℝ) : Float :=
  let e := max leastExponent (Int.log 2 y - 52)
  let (num, den) := unscale ⌊y / 2 ^ e + 1 / 2⌋₊ 1 (-e)
  nearest num den

theorem rounded_lt_two_pow {y : ℝ} {r : ℕ} {e : ℤ} (hr : (r : ℝ) ≤ y / 2 ^ e + 1 / 2)
    (he : e ≤ 971) (hy : y ≤ 2 ^ 1024 - 2 ^ 971) : (r * 2 ^ e : ℚ) < 2 ^ 1024 := by
  have hlt : (r * 2 ^ e : ℝ) < 2 ^ 1024 := by
    calc (r * 2 ^ e : ℝ) ≤ (y / 2 ^ e + 1 / 2) * 2 ^ e :=
          mul_le_mul_of_nonneg_right hr (by positivity)
      _ = y + 1 / 2 * 2 ^ e := by
        field_simp
      _ ≤ 2 ^ 1024 - 2 ^ 971 + 1 / 2 * 2 ^ (971 : ℤ) := by
        gcongr
        exact one_le_two
      _ < 2 ^ 1024 := by
        have hpos : (0 : ℝ) < 2 ^ 971 := by positivity
        rw [zpow_ofNat]
        generalize (2 : ℝ) ^ 971 = x at hpos ⊢
        generalize (2 : ℝ) ^ 1024 = y
        linarith
  refine (Rat.cast_lt (K := ℝ)).1 ?_
  push_cast
  exact hlt

theorem isWithin_ofPositive {y : ℝ} (hpos : 0 < y) (hy : y ≤ 2 ^ 1024 - 2 ^ 971) :
    IsWithin (1 / 2) (ofPositive y) y := by
  obtain ⟨e, he⟩ : ∃ e, max leastExponent (Int.log 2 y - 52) = e := ⟨_, rfl⟩
  obtain ⟨r, hr⟩ : ∃ r, ⌊y / 2 ^ e + 1 / 2⌋₊ = r := ⟨_, rfl⟩
  have hofPositive : ofPositive y = nearest (unscale r 1 (-e)).1 (unscale r 1 (-e)).2 := by
    rw [ofPositive, he, hr]
  have hpow : (0 : ℝ) < 2 ^ e := by positivity
  have hlow := Nat.floor_le (by positivity : 0 ≤ y / 2 ^ e + 1 / 2)
  have hhigh := Nat.lt_floor_add_one (y / 2 ^ e + 1 / 2)
  rw [hr] at hlow hhigh
  have hlog : (2 : ℝ) ^ Int.log 2 y ≤ y := by
    exact_mod_cast Int.zpow_log_le_self one_lt_two hpos
  have hlog' : y < (2 : ℝ) ^ (Int.log 2 y + 1) := by
    exact_mod_cast Int.lt_zpow_succ_log_self one_lt_two y
  have hlt : y / 2 ^ e < 2 ^ 53 := scaled_lt hlog' (by omega)
  have hr53 : r ≤ 2 ^ 53 := rounded_le (sub_le_iff_le_add.2 hlow) (by exact_mod_cast hlt)
  have he971 : e ≤ 971 := by
    have hlt : y < (2 : ℝ) ^ (1024 : ℤ) := hy.trans_lt (sub_lt_self _ (by positivity))
    have := (zpow_lt_zpow_iff_right₀ one_lt_two).1 (hlog.trans_lt hlt)
    have hleast : leastExponent = -1074 := rfl
    omega
  obtain ⟨hden, hratio⟩ := unscale_spec r one_pos (-e)
  rw [Nat.cast_one, div_one, zpow_neg, div_inv_eq_mul] at hratio
  rw [hofPositive]
  refine ⟨_, hasValue_nearest_of_eq hden hr53 (he ▸ le_max_left _ _)
    (rounded_lt_two_pow hlow he971 hy) hratio, fun e' he' hlt => ?_⟩
  -- no unit in the last place is smaller than `2 ^ e`
  have hunit : e ≤ e' := by
    rw [abs_of_pos hpos] at hlt
    have := (zpow_lt_zpow_iff_right₀ one_lt_two).1 (hlog.trans_lt hlt)
    omega
  have hdiff : ((r * 2 ^ e : ℚ) : ℝ) - y = (r - y / 2 ^ e) * 2 ^ e := by
    push_cast
    field_simp
  have hround : |(r : ℝ) - y / 2 ^ e| ≤ 1 / 2 := by
    rw [abs_le]
    constructor <;> linarith
  rw [hdiff, abs_mul, abs_of_pos hpow]
  calc |(r : ℝ) - y / 2 ^ e| * 2 ^ e ≤ 1 / 2 * 2 ^ e := mul_le_mul_of_nonneg_right hround hpow.le
    _ ≤ 1 / 2 * 2 ^ e' := by
      gcongr
      exact one_le_two

/-- The double nearest to a real number. -/
noncomputable def ofReal (y : ℝ) : Float :=
  if 0 < y then ofPositive y else if y < 0 then -ofPositive (-y) else 0

theorem isWithin_ofReal {y : ℝ} (hy : |y| ≤ 2 ^ 1024 - 2 ^ 971) :
    IsWithin (1 / 2) (ofReal y) y := by
  unfold ofReal
  split
  · next hpos => exact isWithin_ofPositive hpos ((le_abs_self y).trans hy)
  · split
    · next hneg =>
      obtain ⟨v, hv, hunits⟩ :=
        isWithin_ofPositive (neg_pos.2 hneg) ((neg_le_abs y).trans hy)
      refine ⟨-v, hv.neg, fun e he hlt => ?_⟩
      have hdiff : ((-v : ℚ) : ℝ) - y = -(v - -y) := by
        push_cast
        ring
      rw [hdiff, abs_neg]
      exact hunits e he (by rwa [abs_neg])
    · next hnonpos hnonneg =>
      obtain rfl : y = 0 := le_antisymm (not_lt.1 hnonpos) (not_lt.1 hnonneg)
      refine ⟨0, ⟨false, 0, leastExponent, rfl, by simp⟩, fun e _ _ => ?_⟩
      rw [Rat.cast_zero, sub_zero, abs_zero]
      positivity

end Binary64

namespace Measurement

open Binary64

/-! ## Libraries -/

/-- What is relied on of a library: its decimal logarithm is off by two units in the last
    place at most, and its powers of ten by nine sixteenths of one. -/
structure Library.IsAccurate (library : Library) : Prop where
  log10 : ∀ {x : Float} {v : ℚ}, HasValue x v → 0 < v →
    IsWithin 2 (library.log10 x) (Real.logb 10 v)
  pow : ∀ {x : Float} {k : ℤ}, HasValue x k → -324 ≤ k → k ≤ 308 →
    IsWithin (9 / 16) (library.pow 10 x) (10 ^ k)

/-- The number that a finite double stands for. -/
noncomputable def realValue (x : Float) : ℝ :=
  match ofFloat x with
  | .finite negative m q => if negative then -(m * 2 ^ q) else m * 2 ^ q
  | .infinite _ | .nan => 0

/-- The library of the nearest doubles. -/
noncomputable def Library.nearest : Library where
  log10 x := ofReal (Real.logb 10 (realValue x))
  pow x y := ofReal (realValue x ^ realValue y)

theorem realValue_eq {x : Float} {v : ℚ} (h : HasValue x v) : realValue x = v := by
  obtain ⟨negative, m, q, hx, rfl⟩ := h
  rw [realValue, hx]
  cases negative <;> simp

theorem bounds_of_hasValue {x : Float} {v : ℚ} (h : HasValue x v) (hv : 0 < v) :
    10 ^ (-324 : ℤ) * 2 < v ∧ v * 2 < 10 ^ (309 : ℤ) := by
  obtain ⟨m, q, hm, -, rfl⟩ := h.exists_magnitude hv
  have hone : (1 : ℚ) ≤ m := Nat.one_le_cast.2 hm.pos
  have hm53 : (m : ℚ) < 2 ^ 53 := by exact_mod_cast hm.lt
  have hsmall : (2 : ℚ) ^ 1075 < 10 ^ 324 := by
    exact_mod_cast (by decide +kernel : 2 ^ 1075 < 10 ^ 324)
  have hlarge : (2 : ℚ) ^ 1025 < 10 ^ 309 := by
    exact_mod_cast (by decide +kernel : 2 ^ 1025 < 10 ^ 309)
  constructor
  · calc (10 : ℚ) ^ (-324 : ℤ) * 2 < 2 ^ (-1075 : ℤ) * 2 := by
          rw [zpow_neg, zpow_neg]
          exact mul_lt_mul_of_pos_right (inv_strictAnti₀ (by positivity) hsmall) two_pos
      _ = 2 ^ (-1074 : ℤ) := (zpow_add_one₀ two_ne_zero (-1075)).symm
      _ ≤ 2 ^ q := zpow_le_zpow_right₀ one_le_two hm.least
      _ ≤ m * 2 ^ q := le_mul_of_one_le_left (by positivity) hone
  · calc (m * 2 ^ q * 2 : ℚ) < 2 ^ 53 * 2 ^ q * 2 := by gcongr
      _ = 2 ^ (53 + q + 1) := by
        rw [zpow_add_one₀ two_ne_zero, zpow_add₀ two_ne_zero]
        rfl
      _ ≤ 2 ^ (1025 : ℤ) := zpow_le_zpow_right₀ one_le_two (by linarith [hm.most])
      _ < 10 ^ (309 : ℤ) := hlarge

theorem abs_logb_lt {x : Float} {v : ℚ} (h : HasValue x v) (hv : 0 < v) :
    |Real.logb 10 v| < 512 := by
  obtain ⟨hlow, hhigh⟩ := bounds_of_hasValue h hv
  have hlow := (Rat.cast_lt (K := ℝ)).2 hlow
  have hhigh := (Rat.cast_lt (K := ℝ)).2 hhigh
  simp only [Rat.cast_mul, Rat.cast_zpow, Rat.cast_ofNat] at hlow hhigh
  have hv : (0 : ℝ) < v := Rat.cast_pos.2 hv
  have hten : (1 : ℝ) < 10 := by norm_num
  have hlow : (-324 : ℤ) < Real.logb 10 v := by
    rw [Real.lt_logb_iff_rpow_lt hten hv, Real.rpow_intCast]
    exact (le_mul_of_one_le_right (by positivity) one_le_two).trans_lt hlow
  have hhigh : Real.logb 10 v < (309 : ℤ) := by
    rw [Real.logb_lt_iff_lt_rpow hten hv, Real.rpow_intCast]
    exact (le_mul_of_one_le_right hv.le one_le_two).trans_lt hhigh
  push_cast at hlow hhigh
  rw [abs_lt]
  constructor <;> linarith

theorem hasValue_ten : HasValue 10 10 :=
  ⟨false, 5629499534213120, -49, by decide +kernel, by norm_num⟩

theorem ten_pow_le_greatest : (10 : ℝ) ^ (308 : ℤ) ≤ 2 ^ 1024 - 2 ^ 971 := by
  rw [le_sub_iff_add_le]
  exact_mod_cast (by decide +kernel : 10 ^ 308 + 2 ^ 971 ≤ 2 ^ 1024)

/-- **The library of the nearest doubles is accurate.** -/
theorem Library.nearest_isAccurate : Library.nearest.IsAccurate where
  log10 {x v} hx hv := by
    show IsWithin 2 (ofReal (Real.logb 10 (realValue x))) _
    rw [realValue_eq hx]
    refine (isWithin_ofReal ?_).mono (by norm_num)
    calc |Real.logb 10 v| ≤ 10 ^ 3 := by linarith [abs_logb_lt hx hv]
      _ ≤ 10 ^ (308 : ℤ) := pow_le_pow_right₀ (by norm_num) (by norm_num)
      _ ≤ 2 ^ 1024 - 2 ^ 971 := ten_pow_le_greatest
  pow {x k} hx hk hk' := by
    show IsWithin (9 / 16) (ofReal (realValue 10 ^ realValue x)) _
    rw [realValue_eq hx, realValue_eq hasValue_ten, Rat.cast_ofNat, Rat.cast_intCast,
      Real.rpow_intCast]
    refine (isWithin_ofReal ?_).mono (by norm_num)
    rw [abs_of_pos (by positivity)]
    exact (zpow_le_zpow_right₀ (by norm_num) hk').trans ten_pow_le_greatest

/-! ## Magnitudes -/

theorem ten_rpow_le {t : ℝ} (h : 0 ≤ t) (h' : t ≤ 1) : (10 : ℝ) ^ t ≤ 1 + t * 9 := by
  have := rpow_one_add_le_one_add_mul_self (by norm_num : (-1 : ℝ) ≤ 9) h h'
  rwa [show (1 + 9 : ℝ) = 10 by norm_num] at this

section
variable {library : Library} (h : library.IsAccurate) {u : Float} {v : ℚ} (hu : HasValue u v)
  (hv : 0 < v)
include h hu hv

/-- The magnitude is a whole number, and an uncertainty is between its power of ten and the
    next one, up to the accuracy of the logarithm. -/
theorem Library.IsAccurate.magnitude : ∃ k : ℤ, HasValue (library.magnitude u) k ∧
    10 ^ k ≤ v * (1 + 1 / 10 ^ 11) ∧ v ≤ 10 ^ (k + 1) * (1 + 1 / 10 ^ 11) := by
  obtain ⟨w, hw, hunits⟩ := h.log10 hu hv
  obtain ⟨t, ht, herror, hsmall⟩ : ∃ t : ℝ, 0 ≤ t ∧ |w - Real.logb 10 v| ≤ t ∧
      (10 : ℝ) ^ t ≤ 1 + 1 / 10 ^ 11 := by
    have hlt : |Real.logb 10 v| < 2 ^ (-44 + 53 : ℤ) := by
      norm_num
      exact abs_logb_lt hu hv
    refine ⟨2 * 2 ^ (-44 : ℤ), by norm_num, hunits (-44) (by decide) hlt, ?_⟩
    refine (ten_rpow_le ?_ ?_).trans ?_ <;> norm_num
  obtain ⟨herror, herror'⟩ := abs_le.1 herror
  have hfloor : (⌊w⌋ : ℝ) ≤ w := by exact_mod_cast Int.floor_le w
  have hfloor' : (w : ℝ) < ⌊w⌋ + 1 := by exact_mod_cast Int.lt_floor_add_one w
  have hv' : (0 : ℝ) < v := Rat.cast_pos.2 hv
  have hten : (0 : ℝ) < 10 := by norm_num
  have hpower : (10 : ℝ) ^ Real.logb 10 v = v := Real.rpow_logb hten (by norm_num) hv'
  refine ⟨⌊w⌋, hw.floor, ?_, ?_⟩
  · refine (Rat.cast_le (K := ℝ)).1 ?_
    push_cast
    calc (10 : ℝ) ^ ⌊w⌋ = 10 ^ (⌊w⌋ : ℝ) := (Real.rpow_intCast _ _).symm
      _ ≤ 10 ^ (Real.logb 10 v + t) :=
        Real.rpow_le_rpow_of_exponent_le (by norm_num) (by linarith)
      _ = v * 10 ^ t := by rw [Real.rpow_add hten, hpower]
      _ ≤ v * (1 + 1 / 10 ^ 11) := mul_le_mul_of_nonneg_left hsmall hv'.le
  · refine (Rat.cast_le (K := ℝ)).1 ?_
    push_cast
    calc (v : ℝ) = 10 ^ Real.logb 10 v := hpower.symm
      _ ≤ 10 ^ ((⌊w⌋ + 1 : ℤ) + t : ℝ) := by
        refine Real.rpow_le_rpow_of_exponent_le (by norm_num) ?_
        push_cast
        linarith
      _ = 10 ^ (⌊w⌋ + 1) * 10 ^ t := by rw [Real.rpow_add hten, Real.rpow_intCast]
      _ ≤ 10 ^ (⌊w⌋ + 1) * (1 + 1 / 10 ^ 11) := mul_le_mul_of_nonneg_left hsmall (by positivity)

end

theorem magnitude_bounds {u : Float} {v : ℚ} (hu : HasValue u v) (hv : 0 < v) {k : ℤ}
    (hlow : 10 ^ k ≤ v * (1 + 1 / 10 ^ 11)) (hhigh : v ≤ 10 ^ (k + 1) * (1 + 1 / 10 ^ 11)) :
    -324 ≤ k ∧ k ≤ 308 := by
  obtain ⟨hv1, hv2⟩ := bounds_of_hasValue hu hv
  have hten : (1 : ℚ) < 10 := by norm_num
  have htwo : (1 + 1 / 10 ^ 11 : ℚ) ≤ 2 := by norm_num
  constructor
  · have hlt : (10 : ℚ) ^ (-324 : ℤ) < 10 ^ (k + 1) := by
      refine lt_of_mul_lt_mul_right (hv1.trans_le (hhigh.trans ?_)) two_pos.le
      exact mul_le_mul_of_nonneg_left htwo (by positivity)
    have := (zpow_lt_zpow_iff_right₀ hten).1 hlt
    omega
  · have hlt : (10 : ℚ) ^ k < 10 ^ (309 : ℤ) :=
      (hlow.trans (mul_le_mul_of_nonneg_left htwo hv.le)).trans_lt hv2
    have := (zpow_lt_zpow_iff_right₀ hten).1 hlt
    omega

/-! ## Scales -/

theorem Library.IsAccurate.scale {library : Library} (h : library.IsAccurate) {x : Float} {k : ℤ}
    (hx : HasValue x k) (hk : -324 ≤ k) (hk' : k ≤ 308) :
    ∃ s, HasValue (library.pow 10 x) s ∧
      ∀ e : ℤ, leastExponent ≤ e → (10 : ℚ) ^ k < 2 ^ (e + 53) →
        |s - 10 ^ k| ≤ 9 / 16 * 2 ^ e := by
  obtain ⟨s, hs, hunits⟩ := h.pow hx hk hk'
  refine ⟨s, hs, fun e he hlt => (Rat.cast_le (K := ℝ)).1 ?_⟩
  have hlt := (Rat.cast_lt (K := ℝ)).2 hlt
  push_cast at hlt ⊢
  exact hunits e he (by rwa [abs_of_pos (by positivity)])

theorem least_bounds : (10 : ℚ) ^ (-321 : ℤ) / 203 ≤ 2 ^ leastExponent ∧
    (2 : ℚ) ^ leastExponent ≤ 10 ^ (-321 : ℤ) / 202 := by
  have hleast : (2 : ℚ) ^ leastExponent = (2 ^ 1074)⁻¹ := zpow_neg 2 1074
  have hten : (10 : ℚ) ^ (-321 : ℤ) = (10 ^ 321)⁻¹ := zpow_neg 10 321
  rw [hleast, hten, div_eq_mul_inv, ← mul_inv, div_eq_mul_inv, ← mul_inv]
  constructor <;> refine inv_anti₀ (by positivity) ?_
  · exact_mod_cast (by decide +kernel : 2 ^ 1074 ≤ 10 ^ 321 * 203)
  · exact_mod_cast (by decide +kernel : 10 ^ 321 * 202 ≤ 2 ^ 1074)

section
variable {x : Float} {s : ℚ} {k : ℤ} (hs : HasValue x s)
  (hunits : ∀ e : ℤ, leastExponent ≤ e → (10 : ℚ) ^ k < 2 ^ (e + 53) →
    |s - 10 ^ k| ≤ 9 / 16 * 2 ^ e)

include hunits in
/-- A unit in the last place is small, compared to the number or altogether. -/
theorem scale_error :
    |s - 10 ^ k| ≤ 9 / 16 * (2 ^ (-52 : ℤ) * 10 ^ k) + 9 / 16 * 2 ^ leastExponent := by
  obtain ⟨f, hf, hf'⟩ := exists_mem_Ico_zpow (by positivity : (0 : ℚ) < 10 ^ k) one_lt_two
  rcases le_total leastExponent (f - 52) with hle | hle
  · have hlt : (10 : ℚ) ^ k < 2 ^ (f - 52 + 53) := by
      rwa [sub_add, show f - (52 - 53) = f + 1 by ring]
    calc |s - 10 ^ k| ≤ 9 / 16 * 2 ^ (f - 52) := hunits _ hle hlt
      _ = 9 / 16 * (2 ^ (-52 : ℤ) * 2 ^ f) := by
        rw [← zpow_add₀ two_ne_zero, neg_add_eq_sub]
      _ ≤ 9 / 16 * (2 ^ (-52 : ℤ) * 10 ^ k) := by gcongr
      _ ≤ _ := le_add_of_nonneg_right (by positivity)
  · have hlt : (10 : ℚ) ^ k < 2 ^ (leastExponent + 53) :=
      hf'.trans_le (zpow_le_zpow_right₀ one_le_two (by omega))
    exact (hunits _ le_rfl hlt).trans (le_add_of_nonneg_left (by positivity))

include hs hunits

theorem scale_eq_zero (hk : k = -324) : s = 0 := by
  obtain ⟨z, rfl⟩ := hs.exists_eq_mul
  have hpow : (10 : ℚ) ^ k = 10 ^ (-321 : ℤ) / 10 ^ 3 := by
    rw [hk]
    exact zpow_sub₀ (by norm_num : (10 : ℚ) ≠ 0) (-321) 3
  have herror := scale_error hunits
  rw [hpow] at herror
  obtain ⟨hleast, -⟩ := least_bounds
  have hpos : (0 : ℚ) < 2 ^ leastExponent := by positivity
  have hpos' : (0 : ℚ) < 10 ^ (-321 : ℤ) := by positivity
  generalize (10 : ℚ) ^ (-321 : ℤ) = t at *
  generalize (2 : ℚ) ^ leastExponent = u at *
  norm_num at herror
  obtain ⟨herror, herror'⟩ := abs_le.1 herror
  have hz : z < 1 := by
    have : (z : ℚ) * u < 1 * u := by linarith
    exact_mod_cast lt_of_mul_lt_mul_right this hpos.le
  have hz' : -1 < z := by
    have : (-1 : ℚ) * u < z * u := by linarith
    exact_mod_cast lt_of_mul_lt_mul_right this hpos.le
  obtain rfl : z = 0 := by omega
  simp

/-- Any other power of ten is given so accurately that ten times the error, and half a unit
    of the smallest double, are less than half of it. -/
theorem scale_bound (hk : -323 ≤ k) :
    10 * |s - 10 ^ k| + 2 ^ leastExponent / 2 ≤ 2 / 5 * 10 ^ k := by
  have herror := scale_error hunits
  have hpos : (0 : ℚ) < 2 ^ leastExponent := by positivity
  obtain ⟨hleast, hleast'⟩ := least_bounds
  have hpos' : (0 : ℚ) < 10 ^ (-321 : ℤ) := by positivity
  rcases hk.eq_or_lt with hk | hk
  · -- here the power of ten lies between doubles, and the nearest one is known
    obtain ⟨z, rfl⟩ := hs.exists_eq_mul
    have hpow : (10 : ℚ) ^ k = 10 ^ (-321 : ℤ) / 10 ^ 2 := by
      rw [← hk]
      exact zpow_sub₀ (by norm_num : (10 : ℚ) ≠ 0) (-321) 2
    rw [hpow] at herror ⊢
    generalize (10 : ℚ) ^ (-321 : ℤ) = t at *
    generalize (2 : ℚ) ^ leastExponent = u at *
    norm_num at herror
    obtain ⟨herror, herror'⟩ := abs_le.1 herror
    have hz : z < 3 := by
      have : (z : ℚ) * u < 3 * u := by linarith
      exact_mod_cast lt_of_mul_lt_mul_right this hpos.le
    have hz' : 1 < z := by
      have : (1 : ℚ) * u < z * u := by linarith
      exact_mod_cast lt_of_mul_lt_mul_right this hpos.le
    obtain rfl : z = 2 := by omega
    rw [abs_of_nonpos] <;> push_cast <;> linarith
  · have hpow : (10 : ℚ) ^ (-321 : ℤ) ≤ 10 * 10 ^ k := by
      rw [← zpow_one_add₀ (by norm_num)]
      exact zpow_le_zpow_right₀ (by norm_num) (by omega)
    generalize (10 : ℚ) ^ (-321 : ℤ) = t at *
    generalize (2 : ℚ) ^ leastExponent = u at *
    generalize (10 : ℚ) ^ k = y at *
    norm_num at herror
    linarith

end

/-- Powers of ten up to the `22`nd have 53 binary figures, and are none of two. -/
theorem exists_ten_pow_eq {k : ℤ} (hk : 1 ≤ k) (hk' : k ≤ 22) : ∃ (c : ℕ) (e : ℤ),
    (10 : ℚ) ^ k = c * 2 ^ e ∧ 2 ^ 52 < c ∧ (10 : ℚ) ^ k < 2 ^ (e + 53) ∧ leastExponent ≤ e := by
  obtain ⟨f, hf, hf'⟩ := exists_mem_Ico_zpow (by positivity : (0 : ℚ) < 10 ^ k) one_lt_two
  obtain ⟨e, rfl⟩ : ∃ e, f = e + 52 := ⟨f - 52, by ring⟩
  lift k to ℕ using by omega
  have hsplit : (10 : ℚ) ^ (k : ℤ) = 5 ^ k * 2 ^ (k : ℤ) := by
    rw [zpow_natCast, zpow_natCast, ← mul_pow]
    norm_num
  have hfive : (5 : ℚ) ^ k < 2 ^ (52 : ℤ) :=
    (pow_le_pow_right₀ (by norm_num) (by omega : k ≤ 22)).trans_lt (by norm_num)
  have hek : e < k := by
    have hlt : (2 : ℚ) ^ (e + 52) < 2 ^ (52 + (k : ℤ)) := by
      rw [zpow_add₀ two_ne_zero 52]
      exact hf.trans_lt (hsplit ▸ mul_lt_mul_of_pos_right hfive (by positivity))
    have := (zpow_lt_zpow_iff_right₀ one_lt_two).1 hlt
    omega
  obtain ⟨i, hi⟩ := Int.le.dest hek.le
  have hpow : (10 : ℚ) ^ (k : ℤ) = (5 ^ k * 2 ^ i : ℕ) * 2 ^ e := by
    rw [hsplit, ← hi, zpow_add₀ two_ne_zero, zpow_natCast]
    push_cast
    ring
  refine ⟨5 ^ k * 2 ^ i, e, hpow, lt_of_le_of_ne ?_ fun heq => ?_, by rwa [add_assoc] at hf', ?_⟩
  · rw [hpow, add_comm, zpow_add₀ two_ne_zero] at hf
    exact_mod_cast le_of_mul_le_mul_right hf (by positivity)
  · have hdvd : 5 ∣ 2 ^ 52 := heq ▸ Dvd.dvd.mul_right (dvd_pow_self 5 (by omega)) _
    exact absurd hdvd (by decide)
  · have hlt : (2 : ℚ) ^ (0 : ℤ) < 2 ^ (e + 52 + 1) :=
      (one_le_zpow₀ (by norm_num) (by omega)).trans_lt hf'
    have := (zpow_lt_zpow_iff_right₀ one_lt_two).1 hlt
    have hleast : leastExponent = -1074 := rfl
    omega

/-- No two doubles are less than a unit in the last place apart, above a power of two. -/
theorem eq_of_abs_sub_lt {x : Float} {s : ℚ} (hs : HasValue x s) {c : ℕ} {e : ℤ}
    (hc : 2 ^ 52 < c) (herror : |s - c * 2 ^ e| < 2 ^ e) : s = c * 2 ^ e := by
  have hunit : (0 : ℚ) < 2 ^ e := by positivity
  have hc52 : (2 ^ 52 + 1 : ℚ) ≤ c := by exact_mod_cast hc
  obtain ⟨herror, herror'⟩ := abs_lt.1 herror
  have hlarge : 2 ^ 52 * 2 ^ e < s := by
    calc (2 ^ 52 * 2 ^ e : ℚ) ≤ (c - 1) * 2 ^ e := by
          gcongr
          linarith
      _ < s := by linarith
  obtain ⟨m, q, hm, -, rfl⟩ := hs.exists_magnitude ((by positivity : (0 : ℚ) ≤ _).trans_lt hlarge)
  rcases le_or_gt e q with hq | hq
  · obtain ⟨j, rfl⟩ := Int.le.dest hq
    have hscaled : (m * 2 ^ (e + j) : ℚ) = (m * 2 ^ j : ℕ) * 2 ^ e := by
      rw [zpow_add₀ two_ne_zero, zpow_natCast]
      push_cast
      ring
    rw [hscaled] at herror herror' ⊢
    generalize m * 2 ^ j = d at *
    have hlt : d < c + 1 := by
      have : (d : ℚ) * 2 ^ e < (c + 1) * 2 ^ e := by linarith
      exact_mod_cast lt_of_mul_lt_mul_right this hunit.le
    have hlt' : c < d + 1 := by
      have : (c : ℚ) * 2 ^ e < (d + 1) * 2 ^ e := by linarith
      exact_mod_cast lt_of_mul_lt_mul_right this hunit.le
    obtain rfl : d = c := by omega
    rfl
  · -- with a smaller unit, the double is below the power of two
    have hm53 : (m : ℚ) < 2 ^ 53 := by exact_mod_cast hm.lt
    refine absurd hlarge (not_lt.2 ?_)
    calc (m * 2 ^ q : ℚ) ≤ 2 ^ 53 * 2 ^ (e - 1) := by
          gcongr
          · exact one_le_two
          · omega
      _ = 2 ^ 52 * 2 ^ e := by
        rw [zpow_sub_one₀ two_ne_zero]
        ring

theorem scale_eq_pow {x : Float} {s : ℚ} {k : ℤ} (hs : HasValue x s)
    (hunits : ∀ e : ℤ, leastExponent ≤ e → (10 : ℚ) ^ k < 2 ^ (e + 53) →
      |s - 10 ^ k| ≤ 9 / 16 * 2 ^ e) (hk : 1 ≤ k) (hk' : k ≤ 22) : s = 10 ^ k := by
  obtain ⟨c, e, hpow, hc, hlt, he⟩ := exists_ten_pow_eq hk hk'
  have herror := hunits e he hlt
  rw [hpow] at herror ⊢
  refine eq_of_abs_sub_lt hs hc (herror.trans_lt ?_)
  exact mul_lt_of_lt_one_left (by positivity) (by norm_num)

end Measurement

end Notebook
