/-
  Every numeral is read as the double nearest to its number.

  * `Binary64.IsNearest x v`: no double is nearer to the number `v` than `x`, and of two
    that are as near `x` is the even one; a number from `Binary64.overflow` on has no
    nearest double but infinity;
  * `HasValue.onGrid`: a double is a multiple of a unit, or too small for 53 binary figures
    in that unit;
  * `Rounded.nearer`: no double is nearer to a number than what it is rounded to;
  * `isNearest_nearest`, `Numeral.isNearest_value`: so is the double that a ratio or a
    numeral is read as.
-/
import Notebook.Proofs.Whole

namespace Notebook

namespace Binary64

/-- `IsNearest x v`: the double `x` is what the number `v`, not below zero, is read as. -/
inductive IsNearest (x : Float) (v : ℚ) : Prop
  | finite {z : ℚ} : v < overflow → x.toBits.toNat < infinityBits → HasValue x z →
      (∀ y w, HasValue y w → |z - v| ≤ |w - v| ∧
        (w ≠ z → |z - v| = |w - v| → x.toBits.toNat % 2 = 0)) → IsNearest x v
  | infinite : overflow ≤ v → x = infinity → IsNearest x v

/-! ## Grids -/

theorem abs_ite_neg (negative : Bool) (v : ℚ) : |if negative then -v else v| = |v| := by
  cases negative
  · rfl
  · exact abs_neg v

theorem HasValue.onGrid {y : Float} {w : ℚ} (h : HasValue y w) (q : ℤ) :
    (∃ k : ℤ, w = k * 2 ^ q) ∨ leastExponent < q ∧ |w| < 2 ^ 52 * 2 ^ q := by
  obtain ⟨negative, m, e, hy, rfl⟩ := h
  obtain ⟨hm, he⟩ := bounds_of_ofFloat hy
  rcases le_or_gt q e with hle | hgt
  · obtain ⟨s, rfl⟩ := Int.le.dest hle
    left
    rw [zpow_add₀ two_ne_zero, zpow_natCast]
    cases negative with
    | false => exact ⟨m * 2 ^ s, by rw [if_neg Bool.false_ne_true]; push_cast; ring⟩
    | true => exact ⟨-(m * 2 ^ s), by rw [if_pos rfl]; push_cast; ring⟩
  · right
    have hm : (m : ℚ) < 2 ^ 53 := by exact_mod_cast hm
    have hq : (2 : ℚ) ^ (e + 1) ≤ 2 ^ q := zpow_le_zpow_right₀ one_le_two hgt
    have hpow : (0 : ℚ) < 2 ^ e := by positivity
    rw [abs_ite_neg, abs_of_nonneg (by positivity)]
    refine ⟨he.trans_lt hgt, ?_⟩
    calc (m * 2 ^ e : ℚ) < 2 ^ 53 * 2 ^ e := by gcongr
      _ = 2 ^ 52 * 2 ^ (e + 1) := by
        rw [zpow_add_one₀ two_ne_zero]
        ring
      _ ≤ 2 ^ 52 * 2 ^ q := by gcongr

section
variable {v : ℚ} {m : ℕ} {q : ℤ} (h : Rounded v m q)
include h

/-- No multiple of the unit is nearer. -/
theorem Rounded.nearer_on_grid (k : ℤ) :
    |m * 2 ^ q - v| ≤ |k * 2 ^ q - v| ∧
      (k ≠ m → |m * 2 ^ q - v| = |k * 2 ^ q - v| → m % 2 = 0) := by
  have hpow : (0 : ℚ) < 2 ^ q := by positivity
  have hscale (x : ℚ) : |x * 2 ^ q - v| = |x - v / 2 ^ q| * 2 ^ q := by
    rw [← abs_of_pos hpow, ← abs_mul, abs_of_pos hpow, sub_mul, div_mul_cancel₀ _ hpow.ne']
  have hlow := h.low
  have hhigh := h.high
  have heven := h.even
  rw [hscale, hscale, mul_le_mul_iff_left₀ hpow, mul_left_inj' hpow.ne']
  generalize v / 2 ^ q = u at *
  have hhalf : |m - u| ≤ 1 / 2 := abs_le.2 ⟨by linarith, by linarith⟩
  by_cases hk : k = m
  · subst hk
    exact ⟨le_rfl, fun hne => absurd rfl hne⟩
  · have hone : 1 ≤ |(k : ℚ) - m| := by exact_mod_cast Int.one_le_abs (sub_ne_zero.2 hk)
    have htriangle : |(k : ℚ) - m| ≤ |k - u| + |m - u| := by
      rw [abs_sub_comm (m : ℚ)]
      exact abs_sub_le _ _ _
    refine ⟨by linarith, fun _ heq => heven.resolve_right fun ⟨hlow, hhigh⟩ => ?_⟩
    have hlt : |m - u| < 1 / 2 := abs_lt.2 ⟨by linarith, by linarith⟩
    linarith

/-- **No double is nearer** to a number than what it is rounded to, and another is as near
    only if the mantissa is even. -/
theorem Rounded.nearer {y : Float} {w : ℚ} (hy : HasValue y w) :
    |m * 2 ^ q - v| ≤ |w - v| ∧
      (w ≠ m * 2 ^ q → |m * 2 ^ q - v| = |w - v| → m % 2 = 0) := by
  rcases hy.onGrid q with ⟨k, rfl⟩ | ⟨hleast, hw⟩
  · obtain ⟨hle, heq⟩ := h.nearer_on_grid k
    refine ⟨hle, fun hne => heq fun hk => hne ?_⟩
    rw [hk, Int.cast_natCast]
  · -- the power of two that the number is not below is on the grid, and nearer than `w`
    have hv := (le_div_iff₀ (by positivity)).1 (h.normal.resolve_left hleast.ne')
    have hpower := (h.nearer_on_grid (2 ^ 52)).1
    have hbelow : |((2 ^ 52 : ℤ) : ℚ) * 2 ^ q - v| = v - 2 ^ 52 * 2 ^ q := by
      rw [Int.cast_pow, Int.cast_ofNat, abs_sub_comm, abs_of_nonneg (sub_nonneg.2 hv)]
    rw [hbelow] at hpower
    have hlt : |m * 2 ^ q - v| < |w - v| := by
      rw [abs_sub_comm w]
      linarith [le_abs_self w, le_abs_self (v - w)]
    exact ⟨hlt.le, fun _ heq => absurd heq hlt.ne⟩

end

/-! ## Ratios and numerals -/

theorem isNearest_nearest (num : ℕ) {den : ℕ} (hden : 0 < den) :
    IsNearest (nearest num den) (num / den) := by
  rcases Nat.eq_zero_or_pos num with rfl | hnum
  · have hbits : (nearest 0 den).toBits.toNat = 0 := toBits_ofBits (Nat.zero_le _)
    rw [Nat.cast_zero, zero_div]
    refine .finite overflow_pos (hbits.trans_lt (by decide)) (hasValue_nearest_zero den) ?_
    exact fun y w _ => ⟨by simp, fun _ _ => by rw [hbits]⟩
  obtain ⟨m, q, h⟩ := exists_rounded hnum hden
  rcases le_or_gt overflow (num / den) with hover | hunder
  · refine .infinite hover ?_
    rw [nearest, nearestBits_of_overflow hden hover, infinity]
  · have hlt : bitsOf m q < infinityBits := not_le.1 (mt h.infinityBits_le_iff.1 (not_le.2 hunder))
    have hbits : (nearest num den).toBits.toNat = bitsOf m q := by
      rw [nearest, nearestBits_of_rounded hnum hden h, Nat.min_eq_right hlt.le,
        toBits_ofBits hlt.le]
    have heven : (nearest num den).toBits.toNat % 2 = m % 2 := by
      rw [hbits, bitsOf_eq]
      omega
    refine .finite hunder (hbits.trans_lt hlt)
      (hasValue_of_bits hbits h.mantissa_le h.least h.le_mantissa hlt) fun y w hy => ?_
    rw [heven]
    exact h.nearer hy

end Binary64

/-- **A numeral is read as the double nearest to the number that it spells.** -/
theorem Numeral.isNearest_value {n : Numeral} {w : Text} (h : Spelling n w) :
    Binary64.IsNearest n.value n.toRat := by
  obtain ⟨num, den, hden, hratio, hvalue⟩ := exists_value_eq_nearest (isFigure_of_spelling h)
  rw [hvalue, ← hratio]
  exact Binary64.isNearest_nearest num hden

end Notebook
