/-
  The shortest decimal is read back as the double it is written for.

  The search runs over ever finer grids and takes a point of the first grid that has one
  in the interval around the double.  On the last grid the step is below a quarter of a
  unit, so that the point next below the double is in the interval, hit or not.

  * `Decimal.Interval.mem_iff`: the test on naturals is membership in the interval;
  * `Decimal.Interval.contains_coarsest`: what the search ends with is in the interval;
  * `Decimal.ten_zpow_le_two_zpow`: powers of ten and two compared by their exponents;
  * `Decimal.ten_zpow_coarseGrid_le`: it starts close enough to get to the last grid;
  * `Decimal.contains_shortest`: the shortest decimal is in the interval.
-/
import Notebook.Proofs.Rounding

namespace Notebook.Decimal

/-- The number that a decimal stands for. -/
def toRat (d : Decimal) : ℚ := d.coefficient * 10 ^ d.exponent

namespace Interval

/-! ## Grids -/

theorem scale_around_pos (m : ℕ) (q : ℤ) : 0 < (around m q).scale := by
  show 0 < (Binary64.unscale 1 1 (q - 2)).1
  unfold Binary64.unscale
  split
  · exact one_pos
  · exact Nat.mul_pos one_pos (Nat.pow_pos Nat.two_pos)

section
variable {i : Interval} (hscale : 0 < i.scale) (g : ℤ)
include hscale

/-- The interval and a grid on a common scale. -/
theorem exists_onGrid :
    ∃ c : ℚ, 0 < c ∧ ((i.onGrid g).1 : ℚ) = c * i.step ∧ ((i.onGrid g).2 : ℚ) = c * 10 ^ g := by
  have hs : (0 : ℚ) < i.scale := Nat.cast_pos.2 hscale
  unfold onGrid step
  split
  · next hg =>
    lift g to ℕ using hg
    refine ⟨i.scale, hs, ?_, ?_⟩
    · field_simp
    · rw [Int.toNat_natCast, Nat.cast_mul, cast_tenTo, zpow_natCast]
  · next hg =>
    obtain ⟨k, rfl⟩ := Int.exists_eq_neg_ofNat (by omega : g ≤ 0)
    refine ⟨i.scale * 10 ^ k, by positivity, ?_, ?_⟩
    · rw [neg_neg, Int.toNat_natCast, Nat.cast_mul, cast_tenTo]
      field_simp
    · rw [zpow_neg, zpow_natCast]
      field_simp

/-- Comparisons on the common scale are comparisons of numbers. -/
theorem onGrid_le_iff (a b : ℕ) :
    (a * (i.onGrid g).1 ≤ b * (i.onGrid g).2 ↔ a * i.step ≤ b * 10 ^ g) ∧
      (b * (i.onGrid g).2 ≤ a * (i.onGrid g).1 ↔ b * 10 ^ g ≤ a * i.step) := by
  obtain ⟨c, hc, hu, hs⟩ := exists_onGrid hscale g
  have ha : ((a * (i.onGrid g).1 : ℕ) : ℚ) = c * (a * i.step) := by
    rw [Nat.cast_mul, hu]
    ring
  have hb : ((b * (i.onGrid g).2 : ℕ) : ℚ) = c * (b * 10 ^ g) := by
    rw [Nat.cast_mul, hs]
    ring
  rw [← @Nat.cast_le ℚ, ← @Nat.cast_le ℚ, ha, hb]
  exact ⟨mul_le_mul_iff_right₀ hc, mul_le_mul_iff_right₀ hc⟩

theorem mem_iff (n : ℕ) : i.mem n g ↔ i.Contains (n * 10 ^ g) := by
  have hle (a : ℕ) := onGrid_le_iff hscale g a n
  simp only [mem, Contains]
  split
  · simp only [Bool.and_eq_true, decide_eq_true_eq, (hle _).1, (hle _).2]
  · simp only [Bool.and_eq_true, decide_eq_true_eq, ← not_le, (hle _).1, (hle _).2]

theorem floor_bounds :
    let down := i.middle * (i.onGrid g).1 / (i.onGrid g).2
    down * 10 ^ g ≤ i.middle * i.step ∧ i.middle * i.step < (down + 1) * 10 ^ g := by
  intro down
  have hpos : 0 < (i.onGrid g).2 := by
    obtain ⟨c, hc, -, hs⟩ := exists_onGrid hscale g
    rw [← @Nat.cast_pos ℚ, hs]
    positivity
  refine ⟨(onGrid_le_iff hscale g _ _).2.1 (Nat.div_mul_le_self _ _), ?_⟩
  by_contra hle
  have hle : ((down + 1 : ℕ) : ℚ) * 10 ^ g ≤ i.middle * i.step := by
    push_cast
    exact not_lt.1 hle
  have hdown := (Nat.le_div_iff_mul_le hpos).2 ((onGrid_le_iff hscale g _ _).2.2 hle)
  exact Nat.not_succ_le_self _ hdown

theorem contains_of_onGrid? {tie : Tie} {d : Decimal} (h : i.onGrid? tie g = some d) :
    i.Contains d.toRat := by
  have hmem (n : ℕ) (hn : i.mem n g = true) : some (Decimal.mk n g) = some d →
      i.Contains d.toRat := by
    intro h
    obtain rfl := Option.some.inj h
    exact (mem_iff hscale g n).1 hn
  unfold onGrid? at h
  simp only at h
  split at h
  · cases h
  · next hdown _ => exact hmem _ hdown h
  · next _ hup => exact hmem _ hup h
  · next hdown hup =>
    split at h
    · exact hmem _ hdown h
    · exact hmem _ hup h
    · split at h
      · exact hmem _ hup h
      · refine hmem _ ?_ h
        rcases Nat.mod_two_eq_zero_or_one (i.middle * (i.onGrid g).1 / (i.onGrid g).2) with hm | hm
        · rw [hm]
          exact hdown
        · rw [hm]
          exact hup

end

/-- On a grid whose step is at most a quarter of a unit, the point next below the double is
    in the interval around it. -/
theorem contains_floor {m : ℕ} (hm : 0 < m) {q g : ℤ} (h : (10 : ℚ) ^ g ≤ 2 ^ q / 4) :
    let i := around m q
    i.Contains ((i.middle * (i.onGrid g).1 / (i.onGrid g).2 : ℕ) * 10 ^ g) := by
  intro i
  have hpow : (0 : ℚ) < 2 ^ q := by positivity
  obtain ⟨hbelow, -⟩ := below_bounds m q
  obtain ⟨hle, hlt⟩ := floor_bounds (scale_around_pos m q) g
  have hmiddle : (i.middle : ℚ) * i.step = m * 2 ^ q := by
    have hcast : i.middle = 4 * m := rfl
    rw [hcast, step_around]
    push_cast
    ring
  rw [hmiddle] at hle hlt
  generalize i.middle * (i.onGrid g).1 / (i.onGrid g).2 = down at hle hlt ⊢
  have hlow : (m - 1 / 4 : ℚ) < down * 10 ^ g / 2 ^ q := by
    rw [lt_div_iff₀ hpow]
    linarith
  have hhigh : down * 10 ^ g / 2 ^ q ≤ (m : ℚ) := by
    rwa [div_le_iff₀ hpow]
  rw [contains_around_iff hm]
  split <;> constructor <;> linarith

/-- What the search ends with is in the interval, if it gets to such a grid. -/
theorem contains_coarsest {m : ℕ} (hm : 0 < m) {q : ℤ} (tie : Tie) (steps : ℕ) {g : ℤ}
    (h : (10 : ℚ) ^ (g - steps) ≤ 2 ^ q / 4) :
    (around m q).Contains ((around m q).coarsest tie steps g).toRat := by
  induction steps generalizing g with
  | zero =>
    rw [Nat.cast_zero, sub_zero] at h
    exact contains_floor hm h
  | succ steps ih =>
    rw [coarsest]
    split
    · next d hd => exact contains_of_onGrid? (scale_around_pos m q) g hd
    · refine ih ?_
      rwa [sub_sub, add_comm (1 : ℤ), ← Nat.cast_succ]

end Interval

/-! ## The shortest decimal -/

/-- Powers of ten and two compare as their exponents do, where `10 ^ k` is near `2 ^ n`. -/
theorem ten_zpow_le_two_zpow {a b : ℤ} {n k : ℕ} (hn : n ≠ 0) (h : n * a ≤ k * b)
    (hb : ((10 : ℚ) ^ k) ^ b ≤ (2 ^ n) ^ b) : (10 : ℚ) ^ a ≤ 2 ^ b := by
  refine (pow_le_pow_iff_left₀ (by positivity) (by positivity) hn).1 ?_
  calc ((10 : ℚ) ^ a) ^ n = 10 ^ (n * a) := by rw [mul_comm, zpow_mul, zpow_natCast]
    _ ≤ 10 ^ (k * b) := zpow_le_zpow_right₀ (by norm_num) h
    _ = (10 ^ k) ^ b := by rw [zpow_mul, zpow_natCast]
    _ ≤ (2 ^ n) ^ b := hb
    _ = 2 ^ (n * b) := by rw [zpow_mul, zpow_natCast]
    _ = (2 ^ b) ^ n := by rw [mul_comm, zpow_mul, zpow_natCast]

/-- Twenty-eight decimal places are more than ninety-three binary ones. -/
theorem ten_zpow_le_of_nonpos {a b : ℤ} (hb : b ≤ 0) (h : 93 * a ≤ 28 * b) :
    (10 : ℚ) ^ a ≤ 2 ^ b := by
  refine ten_zpow_le_two_zpow (n := 93) (k := 28) (by norm_num) (by exact_mod_cast h) ?_
  obtain ⟨k, hk⟩ := Int.exists_eq_neg_ofNat hb
  rw [hk, zpow_neg, zpow_neg, zpow_natCast, zpow_natCast]
  exact inv_anti₀ (by positivity) (pow_le_pow_left₀ (by norm_num) (by norm_num) k)

/-- The search starts close enough to get to a grid whose step is at most a quarter of a
    unit. -/
theorem ten_zpow_coarseGrid_le {m : ℕ} {q : ℤ} (h : Binary64.Magnitude m q) :
    (10 : ℚ) ^ (coarseGrid (m.log2 + q) - 24) ≤ 2 ^ q / 4 := by
  have hlog : m.log2 < 53 := (Nat.log2_lt h.pos.ne').2 h.lt
  have hleast : -1074 ≤ q := h.least
  have hmost := h.most
  have hquarter : (2 : ℚ) ^ q / 4 = 2 ^ (q - 2) := by
    rw [zpow_sub₀ two_ne_zero]
    norm_num
  rw [hquarter, coarseGrid]
  rcases le_total 0 (q - 2) with hq | hq
  · refine ten_zpow_le_two_zpow (n := 10) (k := 3) (by norm_num) (by push_cast; omega) ?_
    exact zpow_le_zpow_left₀ hq (by norm_num) (by norm_num)
  · exact ten_zpow_le_of_nonpos hq (by omega)

/-- **The shortest decimal of a double** is in the interval around it. -/
theorem contains_shortest (tie : Tie) {m : ℕ} {q : ℤ} (h : Binary64.Magnitude m q) :
    (Interval.around m q).Contains (shortest tie m q).toRat := by
  rw [shortest, if_neg h.pos.ne']
  exact Interval.contains_coarsest h.pos tie 24 (ten_zpow_coarseGrid_le h)

end Notebook.Decimal
