/-
  Which ratios are read as a double.

  A ratio is read as the double nearest to it.  The ratios that are read as a given
  double are those of the interval around it: up to half way to its neighbours, the ends
  included if the double is even.

  * `Binary64.Magnitude m q`: `m * 2 ^ q` is a finite double above zero, in the one form
    that `Binary64.ofFloat` gives (`ofFloat_cases`);
  * `roundDiv_eq`: a quotient within half a unit of a natural is rounded to it;
  * `Binary64.exponentOf_eq`: the exponent that a ratio is rounded at;
  * `Binary64.Rounded v m q`: the number `v` is rounded to `m * 2 ^ q`, and
    `nearestBits_of_rounded`: a ratio is read as the double that it is rounded to;
  * `Decimal.Interval.Contains`: the interval, as a set of rationals;
  * `Binary64.nearestBits_of_contains`: a ratio in the interval around a double is read
    as that double.
-/
import Notebook.Decimal.Shortest
import Notebook.Proofs.Binary64

namespace Notebook

theorem cast_twoTo (n : ℕ) : (twoTo n : ℚ) = 2 ^ n := by
  rw [twoTo, Nat.pow_eq]
  push_cast
  rfl

theorem cast_tenTo (n : ℕ) : (tenTo n : ℚ) = 10 ^ n := by
  rw [tenTo, Nat.pow_eq]
  push_cast
  rfl

/-! ## Rounded quotients -/

theorem abs_roundDiv_sub_le (num : ℕ) {den : ℕ} (hden : 0 < den) :
    |(roundDiv num den : ℚ) - num / den| ≤ 1 / 2 := by
  have hd : (0 : ℚ) < den := Nat.cast_pos.2 hden
  have hlow : (2 : ℚ) * (roundDiv num den * den) ≤ 2 * num + den := by
    exact_mod_cast two_mul_roundDiv_mul_le num den
  have hhigh : (2 : ℚ) * num ≤ 2 * (roundDiv num den * den) + den := by
    exact_mod_cast le_two_mul_roundDiv_mul hden
  have hnum : (num : ℚ) / den * den = num := div_mul_cancel₀ _ hd.ne'
  rw [abs_sub_le_iff]
  constructor <;> refine le_of_mul_le_mul_right ?_ hd <;> rw [sub_mul, hnum] <;> linarith

/-- Half way between two naturals, the even one is taken. -/
theorem roundDiv_half {num den k : ℕ} (hden : 0 < den) (h : 2 * num = 2 * (k * den) + den) :
    roundDiv num den % 2 = 0 := by
  refine roundDiv_half_even ?_
  have hnum : num = k * den + den / 2 := by omega
  rw [hnum, Nat.mul_add_mod', Nat.mod_eq_of_lt (Nat.div_lt_self hden Nat.one_lt_two)]
  omega

/-- A quotient within half a unit of a natural is rounded to it, half a unit away only if
    the natural is even. -/
theorem roundDiv_eq {num den m : ℕ} (hden : 0 < den) (hlow : 2 * (m * den) ≤ 2 * num + den)
    (hhigh : 2 * num ≤ 2 * (m * den) + den)
    (hends : m % 2 = 0 ∨ 2 * (m * den) < 2 * num + den ∧ 2 * num < 2 * (m * den) + den) :
    roundDiv num den = m := by
  have hle := two_mul_roundDiv_mul_le num den
  have hge : 2 * num ≤ 2 * (roundDiv num den * den) + den := le_two_mul_roundDiv_mul hden
  have hhalf := @roundDiv_half num den
  generalize roundDiv num den = r at *
  rcases Nat.lt_trichotomy r m with hlt | rfl | hgt
  · -- the quotient is half way from `r` to `m`, so that both are even
    have hr : (r + 1) * den ≤ m * den := Nat.mul_le_mul_right den hlt
    rw [Nat.add_one_mul] at hr
    have hm : m * den = (r + 1) * den := by
      rw [Nat.add_one_mul]
      omega
    have hm : m = r + 1 := Nat.eq_of_mul_eq_mul_right hden hm
    have heven := hhalf (k := r) hden (by omega)
    omega
  · rfl
  · have hr : (m + 1) * den ≤ r * den := Nat.mul_le_mul_right den hgt
    rw [Nat.add_one_mul] at hr
    have hm : r * den = (m + 1) * den := by
      rw [Nat.add_one_mul]
      omega
    have hm : r = m + 1 := Nat.eq_of_mul_eq_mul_right hden hm
    have heven := hhalf (k := m) hden (by omega)
    omega

theorem roundDiv_eq_of_div {num den m : ℕ} (hden : 0 < den) {x : ℚ} (hx : (num : ℚ) / den = x)
    (hlow : m - 1 / 2 ≤ x) (hhigh : x ≤ m + 1 / 2)
    (hends : m % 2 = 0 ∨ m - 1 / 2 < x ∧ x < m + 1 / 2) : roundDiv num den = m := by
  have hd : (0 : ℚ) < den := Nat.cast_pos.2 hden
  obtain rfl := hx
  rw [le_div_iff₀ hd] at hlow
  rw [div_le_iff₀ hd] at hhigh
  rw [lt_div_iff₀ hd, div_lt_iff₀ hd] at hends
  refine roundDiv_eq hden ?_ ?_ (hends.imp_right fun ⟨h, h'⟩ => ⟨?_, ?_⟩) <;>
    qify <;> linarith

namespace Binary64

/-! ## The exponent of a ratio -/

theorem unscale_spec (num : ℕ) {den : ℕ} (hden : 0 < den) (q : ℤ) :
    0 < (unscale num den q).2 ∧
      ((unscale num den q).1 : ℚ) / (unscale num den q).2 = num / den / 2 ^ q := by
  have hd : (den : ℚ) ≠ 0 := Nat.cast_ne_zero.2 hden.ne'
  unfold unscale
  split
  · next hq =>
    lift q to ℕ using hq
    refine ⟨Nat.mul_pos hden (Nat.pow_pos Nat.two_pos), ?_⟩
    rw [Int.toNat_natCast, Nat.cast_mul, cast_twoTo, zpow_natCast, div_div]
  · next hq =>
    obtain ⟨k, rfl⟩ := Int.exists_eq_neg_ofNat (by omega : q ≤ 0)
    refine ⟨hden, ?_⟩
    rw [neg_neg, Int.toNat_natCast, Nat.cast_mul, cast_twoTo, zpow_neg, zpow_natCast,
      div_inv_eq_mul, mul_div_right_comm]

theorem zpow_log2 {n : ℕ} (hn : 0 < n) :
    (2 : ℚ) ^ (n.log2 : ℤ) ≤ n ∧ (n : ℚ) < 2 ^ ((n.log2 : ℤ) + 1) := by
  refine ⟨?_, ?_⟩
  · rw [zpow_natCast]
    exact_mod_cast Nat.log2_self_le hn.ne'
  · exact_mod_cast @Nat.lt_log2_self n

theorem ratio_bounds {num den : ℕ} (hnum : 0 < num) (hden : 0 < den) :
    (2 : ℚ) ^ ((num.log2 : ℤ) - den.log2 - 1) < num / den ∧
      (num : ℚ) / den < 2 ^ ((num.log2 : ℤ) - den.log2 + 1) := by
  have hd : (0 : ℚ) < den := Nat.cast_pos.2 hden
  obtain ⟨hn1, hn2⟩ := zpow_log2 hnum
  obtain ⟨hd1, hd2⟩ := zpow_log2 hden
  constructor
  · rw [lt_div_iff₀ hd]
    calc (2 : ℚ) ^ ((num.log2 : ℤ) - den.log2 - 1) * den
        < 2 ^ ((num.log2 : ℤ) - den.log2 - 1) * 2 ^ ((den.log2 : ℤ) + 1) := by gcongr
      _ = 2 ^ (num.log2 : ℤ) := by
        rw [← zpow_add₀ two_ne_zero]
        congr 1
        omega
      _ ≤ num := hn1
  · rw [div_lt_iff₀ hd]
    calc (num : ℚ) < 2 ^ ((num.log2 : ℤ) + 1) := hn2
      _ = 2 ^ ((num.log2 : ℤ) - den.log2 + 1) * 2 ^ (den.log2 : ℤ) := by
        rw [← zpow_add₀ two_ne_zero]
        congr 1
        omega
      _ ≤ 2 ^ ((num.log2 : ℤ) - den.log2 + 1) * den := by gcongr

/-- A ratio from `2 ^ f` to the next power of two is rounded at the exponent `f - 52`, or
    at the least one. -/
theorem exponentOf_eq {num den : ℕ} (hnum : 0 < num) (hden : 0 < den) {f : ℤ}
    (hle : (2 : ℚ) ^ f ≤ num / den) (hlt : (num : ℚ) / den < 2 ^ (f + 1)) :
    exponentOf num den = max leastExponent (f - 52) := by
  obtain ⟨hlow, hhigh⟩ := ratio_bounds hnum hden
  set guess : ℤ := num.log2 - den.log2
  have hf : f < guess + 1 := (zpow_lt_zpow_iff_right₀ one_lt_two).1 (hle.trans_lt hhigh)
  have hf' : guess - 1 < f + 1 := (zpow_lt_zpow_iff_right₀ one_lt_two).1 (hlow.trans hlt)
  obtain ⟨hpos, hratio⟩ := unscale_spec num hden guess
  have hcompare : (unscale num den guess).2 ≤ (unscale num den guess).1 ↔
      (2 : ℚ) ^ guess ≤ num / den := by
    have hpow : (0 : ℚ) < 2 ^ guess := by positivity
    rw [← one_le_div hpow, ← hratio, one_le_div (Nat.cast_pos.2 hpos), Nat.cast_le]
  have hexponent : exponentOf num den =
      max leastExponent (if (unscale num den guess).2 ≤ (unscale num den guess).1 then guess - 52
        else guess - 53) := rfl
  rw [hexponent]
  split
  · next h =>
    have : guess < f + 1 :=
      (zpow_lt_zpow_iff_right₀ one_lt_two).1 ((hcompare.1 h).trans_lt hlt)
    rw [show guess = f by omega]
  · next h =>
    have : f < guess :=
      (zpow_lt_zpow_iff_right₀ one_lt_two).1 (hle.trans_lt (not_le.1 (mt hcompare.2 h)))
    rw [show guess - 53 = f - 52 by omega]

/-! ## Finite doubles -/

/-- `m * 2 ^ q` is a finite double above zero, in the form it is taken apart into. -/
structure Magnitude (m : ℕ) (q : ℤ) : Prop where
  pos : 0 < m
  lt : m < 2 ^ 53
  least : leastExponent ≤ q
  most : q ≤ 971
  normal : q = leastExponent ∨ 2 ^ 52 ≤ m

/-- The bits of the double `m * 2 ^ q`. -/
def bitsOf (m : ℕ) (q : ℤ) : ℕ := m + (q - leastExponent).toNat * twoTo 52

theorem bitsOf_eq (m : ℕ) (q : ℤ) : bitsOf m q = m + (q + 1074).toNat * 2 ^ 52 := by
  rw [bitsOf, leastExponent, sub_neg_eq_add]
  rfl

theorem Magnitude.bitsOf_lt {m : ℕ} {q : ℤ} (h : Magnitude m q) : bitsOf m q < infinityBits := by
  have hlt := h.lt
  have hmost := h.most
  rw [bitsOf_eq, infinityBits]
  omega

theorem ofFloat_eq {x : Float} {k : ℕ} (hx : x.toBits.toNat = k) (hk : k < infinityBits) :
    ofFloat x =
      if k / 2 ^ 52 = 0 then .finite false (k % 2 ^ 52) leastExponent
      else .finite false (2 ^ 52 + k % 2 ^ 52) ((k / 2 ^ 52 : ℕ) - 1075) := by
  have hlt : k < 0x7FF0000000000000 := hk
  have hsign : (k / twoTo 63 == 1) = false := by
    rw [beq_eq_false_iff_ne]
    show k / 2 ^ 63 ≠ 1
    omega
  have hexponent : k / twoTo 52 % twoTo 11 = k / 2 ^ 52 := by
    show k / 2 ^ 52 % 2 ^ 11 = k / 2 ^ 52
    omega
  have hfull : k / 2 ^ 52 ≠ 0x7FF := by omega
  simp only [ofFloat, hx, hsign, hexponent, if_neg hfull]
  rfl

/-- A finite double without a sign is zero, or is taken apart into its magnitude. -/
theorem ofFloat_cases {x : Float} (hx : x.toBits.toNat < infinityBits) :
    (x.toBits.toNat = 0 ∧ ofFloat x = .finite false 0 leastExponent) ∨
      ∃ m q, Magnitude m q ∧ x.toBits.toNat = bitsOf m q ∧ ofFloat x = .finite false m q := by
  have hlt : x.toBits.toNat < 0x7FF0000000000000 := hx
  rw [ofFloat_eq rfl hx]
  generalize x.toBits.toNat = k at *
  by_cases hzero : k = 0
  · subst hzero
    exact .inl ⟨rfl, rfl⟩
  · right
    split
    · next hsub =>
      refine ⟨_, _, ⟨by omega, by omega, le_rfl, by decide, .inl rfl⟩, ?_, rfl⟩
      rw [bitsOf_eq, leastExponent]
      omega
    · next hsub =>
      refine ⟨_, _, ⟨by omega, by omega, ?_, by omega, .inr (by omega)⟩, ?_, rfl⟩
      · rw [leastExponent]
        omega
      · rw [bitsOf_eq]
        omega

end Binary64

/-! ## The interval around a double -/

namespace Decimal.Interval

/-- The unit of the ends. -/
def step (i : Interval) : ℚ := i.unit / i.scale

/-- `Contains i v`: the number `v` is in the interval. -/
def Contains (i : Interval) (v : ℚ) : Prop :=
  if i.closed then i.low * i.step ≤ v ∧ v ≤ i.high * i.step
  else i.low * i.step < v ∧ v < i.high * i.step

theorem step_around (m : ℕ) (q : ℤ) : (around m q).step = 2 ^ q / 4 := by
  obtain ⟨hpos, hratio⟩ := Binary64.unscale_spec 1 one_pos (q - 2)
  have hstep : (around m q).step =
      (Binary64.unscale 1 1 (q - 2)).2 / (Binary64.unscale 1 1 (q - 2)).1 := rfl
  rw [hstep, ← inv_div, hratio, Nat.cast_one, div_one, one_div, inv_inv, zpow_sub₀ two_ne_zero]
  norm_num

/-- How far the interval around a double reaches down: half a unit, and below a power of
    two a quarter. -/
def below (m : ℕ) (q : ℤ) : ℚ :=
  if m = 2 ^ 52 ∧ q ≠ Binary64.leastExponent then 1 / 4 else 1 / 2

theorem below_bounds (m : ℕ) (q : ℤ) : 1 / 4 ≤ below m q ∧ below m q ≤ 1 / 2 := by
  unfold below
  split <;> norm_num

theorem cast_low_around {m : ℕ} (hm : 0 < m) (q : ℤ) :
    ((around m q).low : ℚ) = 4 * (m - below m q) := by
  have hlow : (around m q).low =
      if m = 2 ^ 52 ∧ q ≠ Binary64.leastExponent then 4 * m - 1 else 4 * m - 2 := rfl
  rw [hlow, below]
  split
  · rw [Nat.cast_sub (by omega)]
    push_cast
    ring
  · rw [Nat.cast_sub (by omega)]
    push_cast
    ring

theorem cast_high_around (m : ℕ) (q : ℤ) : ((around m q).high : ℚ) = 4 * (m + 1 / 2) := by
  have hhigh : (around m q).high = 4 * m + 2 := rfl
  rw [hhigh]
  push_cast
  ring

/-- The interval around a double, in units of its last place. -/
theorem contains_around_iff {m : ℕ} (hm : 0 < m) (q : ℤ) (v : ℚ) :
    (around m q).Contains v ↔
      if m % 2 = 0 then m - below m q ≤ v / 2 ^ q ∧ v / 2 ^ q ≤ m + 1 / 2
      else m - below m q < v / 2 ^ q ∧ v / 2 ^ q < m + 1 / 2 := by
  have hpow : (0 : ℚ) < 2 ^ q := by positivity
  have hclosed : (around m q).closed = (m % 2 == 0) := rfl
  have hscale (x : ℚ) : 4 * x * (2 ^ q / 4) = x * 2 ^ q := by ring
  simp only [Contains, step_around, cast_low_around hm, cast_high_around, hscale, hclosed,
    beq_iff_eq, le_div_iff₀ hpow, div_le_iff₀ hpow, lt_div_iff₀ hpow, div_lt_iff₀ hpow]

/-- What is in the interval is at most half a unit away, and closer if the double is odd. -/
theorem bounds_of_contains {m : ℕ} (hm : 0 < m) {q : ℤ} {v : ℚ} (h : (around m q).Contains v) :
    m - below m q ≤ v / 2 ^ q ∧ v / 2 ^ q ≤ m + 1 / 2 ∧
      (m % 2 = 0 ∨ m - 1 / 2 < v / 2 ^ q ∧ v / 2 ^ q < m + 1 / 2) := by
  obtain ⟨-, hbelow⟩ := below_bounds m q
  rw [contains_around_iff hm] at h
  split at h
  · next heven => exact ⟨h.1, h.2, .inl heven⟩
  · exact ⟨h.1.le, h.2.le, .inr ⟨by linarith [h.1], h.2⟩⟩

end Decimal.Interval

/-! ## Reading -/

namespace Binary64

section
variable {K : Type*} [Field K] [LinearOrder K] [IsStrictOrderedRing K] {v : K}

theorem rounded_le {m n : ℕ} (h : m - 1 / 2 ≤ v) (hv : v < n) : m ≤ n := by
  have hlt : (m : K) < n + 1 := by linarith
  exact Nat.lt_succ_iff.1 (by exact_mod_cast hlt)

theorem le_rounded {m n : ℕ} (h : v ≤ m + 1 / 2) (hv : n ≤ v) : n ≤ m := by
  have hlt : (n : K) < m + 1 := by linarith
  exact Nat.lt_succ_iff.1 (by exact_mod_cast hlt)

/-- A number in units of `2 ^ q` has 53 binary figures at most, if the first is that of
    `2 ^ (q + 52)` or a later one. -/
theorem scaled_lt {f q : ℤ} (hv : v < 2 ^ (f + 1)) (hq : f ≤ q + 52) : v / 2 ^ q < 2 ^ 53 := by
  rw [div_lt_iff₀ (by positivity)]
  calc v < 2 ^ (f + 1) := hv
    _ ≤ 2 ^ (53 + q) := zpow_le_zpow_right₀ one_le_two (by omega)
    _ = 2 ^ 53 * 2 ^ q := by rw [zpow_add₀ two_ne_zero, zpow_ofNat]

theorem le_scaled {f q : ℤ} (hv : 2 ^ f ≤ v) (hq : q + 52 ≤ f) : 2 ^ 52 ≤ v / 2 ^ q := by
  rw [le_div_iff₀ (by positivity)]
  calc (2 : K) ^ 52 * 2 ^ q = 2 ^ (52 + q) := by rw [zpow_add₀ two_ne_zero, zpow_ofNat]
    _ ≤ 2 ^ f := zpow_le_zpow_right₀ one_le_two (by omega)
    _ ≤ v := hv

end

/-- `Rounded v m q`: the number `v` is rounded to `m * 2 ^ q`.  The exponent is the one at
    which the number has 53 binary figures, or the least one, and half way between two
    naturals the even one is taken. -/
structure Rounded (v : ℚ) (m : ℕ) (q : ℤ) : Prop where
  least : leastExponent ≤ q
  lt : v / 2 ^ q < 2 ^ 53
  normal : q = leastExponent ∨ 2 ^ 52 ≤ v / 2 ^ q
  low : m - 1 / 2 ≤ v / 2 ^ q
  high : v / 2 ^ q ≤ m + 1 / 2
  even : m % 2 = 0 ∨ m - 1 / 2 < v / 2 ^ q ∧ v / 2 ^ q < m + 1 / 2

theorem Rounded.mantissa_le {v : ℚ} {m : ℕ} {q : ℤ} (h : Rounded v m q) : m ≤ 2 ^ 53 :=
  rounded_le h.low (by exact_mod_cast h.lt)

theorem Rounded.le_mantissa {v : ℚ} {m : ℕ} {q : ℤ} (h : Rounded v m q) :
    q = leastExponent ∨ 2 ^ 52 ≤ m :=
  h.normal.imp_right fun hge => le_rounded h.high (by exact_mod_cast hge)

section
variable {num den : ℕ} {q : ℤ} (hnum : 0 < num) (hden : 0 < den)
include hnum hden

/-- A ratio is rounded at the exponent at which it has 53 binary figures, or at the least
    one. -/
theorem exponentOf_of_scaled (hq : leastExponent ≤ q) (hlt : (num / den / 2 ^ q : ℚ) < 2 ^ 53)
    (hge : q = leastExponent ∨ (2 ^ 52 : ℚ) ≤ num / den / 2 ^ q) : exponentOf num den = q := by
  have hpow : (0 : ℚ) < 2 ^ q := by positivity
  have hv : (0 : ℚ) < num / den := div_pos (Nat.cast_pos.2 hnum) (Nat.cast_pos.2 hden)
  obtain ⟨f, hf, hf'⟩ := exists_mem_Ico_zpow hv one_lt_two
  have hfq : f < q + 53 := by
    refine (zpow_lt_zpow_iff_right₀ one_lt_two).1 (hf.trans_lt ?_)
    rw [add_comm, zpow_add₀ two_ne_zero]
    exact (div_lt_iff₀ hpow).1 hlt
  rw [exponentOf_eq hnum hden hf hf']
  rcases hge with hleast | hge
  · omega
  · have hqf : q + 52 < f + 1 := by
      refine (zpow_lt_zpow_iff_right₀ one_lt_two).1 (lt_of_le_of_lt ?_ hf')
      rw [add_comm, zpow_add₀ two_ne_zero]
      exact (le_div_iff₀ hpow).1 hge
    omega

theorem nearestBits_of_rounded {m : ℕ} (h : Rounded (num / den) m q) :
    nearestBits num den = min infinityBits (bitsOf m q) := by
  obtain ⟨hpos, hratio⟩ := unscale_spec num hden q
  have hround := roundDiv_eq_of_div hpos hratio h.low h.high h.even
  rw [nearestBits, if_neg hnum.ne', exponentOf_of_scaled hnum hden h.least h.lt h.normal]
  show min infinityBits (roundDiv (unscale num den q).1 (unscale num den q).2 + _) = _
  rw [hround, bitsOf]

theorem exists_rounded : ∃ m q, Rounded (num / den) m q := by
  have hv : (0 : ℚ) < num / den := div_pos (Nat.cast_pos.2 hnum) (Nat.cast_pos.2 hden)
  obtain ⟨f, hf, hf'⟩ := exists_mem_Ico_zpow hv one_lt_two
  obtain ⟨q, hq⟩ : ∃ q, q = max leastExponent (f - 52) := ⟨_, rfl⟩
  obtain ⟨hpos, hratio⟩ := unscale_spec num hden q
  have hround := abs_roundDiv_sub_le (unscale num den q).1 hpos
  have hhalf (k : ℕ) (hk : (num / den / 2 ^ q : ℚ) = k + 1 / 2) :
      roundDiv (unscale num den q).1 (unscale num den q).2 % 2 = 0 := by
    refine roundDiv_half (k := k) hpos ?_
    rw [← hratio, div_eq_iff (Nat.cast_pos.2 hpos).ne'] at hk
    qify
    linarith
  rw [hratio] at hround
  obtain ⟨hhigh, hlow⟩ := abs_sub_le_iff.1 hround
  generalize roundDiv (unscale num den q).1 (unscale num den q).2 = m at *
  refine ⟨m, q, hq ▸ le_max_left _ _, scaled_lt hf' (by omega),
    or_iff_not_imp_left.2 fun hne => le_scaled hf (by omega), by linarith, by linarith, ?_⟩
  refine or_iff_not_imp_left.2 fun hodd => ⟨lt_of_le_of_ne (by linarith) fun heq => hodd ?_,
    lt_of_le_of_ne (by linarith) fun heq => hodd (hhalf m heq)⟩
  refine hhalf (m - 1) (heq.symm.trans ?_)
  rw [Nat.cast_sub (by omega)]
  push_cast
  ring

end

theorem bitsOf_carry {q : ℤ} (h : leastExponent < q) :
    bitsOf (2 ^ 53) (q - 1) = bitsOf (2 ^ 52) q := by
  rw [leastExponent] at h
  rw [bitsOf_eq, bitsOf_eq]
  omega

/-- The least number that is read as infinity: it is half way from the greatest double to
    the power of two that would follow. -/
def overflow : ℚ := (2 ^ 53 - 1 / 2) * 2 ^ (971 : ℤ)

theorem overflow_pos : 0 < overflow := mul_pos (by norm_num) (by positivity)

theorem Rounded.infinityBits_le_iff {v : ℚ} {m : ℕ} {q : ℤ} (h : Rounded v m q) :
    infinityBits ≤ bitsOf m q ↔ overflow ≤ v := by
  have hleast : leastExponent = -1074 := rfl
  have hinfinity : infinityBits = 2047 * 2 ^ 52 := rfl
  have hpow : (0 : ℚ) < 2 ^ q := by positivity
  have hm53 := h.mantissa_le
  have hm52 := h.le_mantissa
  rw [bitsOf_eq, hinfinity, overflow]
  have htop : (0 : ℚ) < 2 ^ (971 : ℤ) := by positivity
  rcases lt_trichotomy q 971 with hlt | rfl | hgt
  · have hq : (2 : ℚ) ^ (q + 1) ≤ 2 ^ (971 : ℤ) := zpow_le_zpow_right₀ one_le_two (by omega)
    rw [zpow_add_one₀ two_ne_zero] at hq
    have hv := (div_lt_iff₀ hpow).1 h.lt
    refine iff_of_false (by omega) (not_le.2 ?_)
    generalize (2 : ℚ) ^ (971 : ℤ) = top at *
    linarith
  · have hlow := h.low
    have hhigh := h.high
    have heven := h.even
    rw [← le_div_iff₀ hpow]
    generalize v / (2 : ℚ) ^ (971 : ℤ) = u at *
    constructor
    · intro hle
      obtain rfl : m = 2 ^ 53 := by omega
      exact_mod_cast hlow
    · intro hle
      -- the last odd mantissa is rounded up from half way on
      have hm : 2 ^ 53 ≤ m + 1 := by
        have hm : (2 : ℚ) ^ 53 ≤ m + 1 := by linarith
        exact_mod_cast hm
      by_contra hover
      obtain rfl : m = 2 ^ 53 - 1 := by omega
      have hodd := (heven.resolve_left (by norm_num)).2
      rw [Nat.cast_sub (by norm_num)] at hodd
      push_cast at hodd
      linarith
  · have hq : (2 : ℚ) ^ ((971 : ℤ) + 1) ≤ 2 ^ q := zpow_le_zpow_right₀ one_le_two (by omega)
    rw [zpow_add_one₀ two_ne_zero] at hq
    have hv := (le_div_iff₀ hpow).1 (h.normal.resolve_left (by omega))
    refine iff_of_true (by omega) ?_
    generalize (2 : ℚ) ^ (971 : ℤ) = top at *
    linarith

section
variable {num den : ℕ} (hden : 0 < den)
include hden

theorem nearestBits_of_overflow (h : overflow ≤ num / den) :
    nearestBits num den = infinityBits := by
  have hnum : 0 < num := by
    refine Nat.pos_of_ne_zero ?_
    rintro rfl
    rw [Nat.cast_zero, zero_div] at h
    exact absurd h (not_le.2 overflow_pos)
  obtain ⟨m, q, hrounded⟩ := exists_rounded hnum hden
  rw [nearestBits_of_rounded hnum hden hrounded,
    Nat.min_eq_left (hrounded.infinityBits_le_iff.2 h)]

theorem nearestBits_of_underflow (h : (num / den : ℚ) ≤ 2 ^ leastExponent / 2) :
    nearestBits num den = 0 := by
  rcases Nat.eq_zero_or_pos num with rfl | hnum
  · exact if_pos rfl
  · have hpow : (0 : ℚ) < 2 ^ leastExponent := by positivity
    have hscaled : (num / den / 2 ^ leastExponent : ℚ) ≤ 1 / 2 := by
      rw [div_le_iff₀ hpow]
      linarith
    have hrounded : Rounded (num / den) 0 leastExponent := by
      refine ⟨le_rfl, by linarith, .inl rfl, ?_, ?_, .inl rfl⟩
      · rw [Nat.cast_zero]
        have : (0 : ℚ) ≤ num / den / 2 ^ leastExponent := by positivity
        linarith
      · rwa [Nat.cast_zero, zero_add]
    rw [nearestBits_of_rounded hnum hden hrounded]
    rfl

end

/-- Just below a power of two a ratio is rounded at the exponent below, and what carries is
    the power. -/
theorem nearestBits_of_carry {num den : ℕ} {q : ℤ} (hnum : 0 < num) (hden : 0 < den)
    (hleast : leastExponent < q) (h : Magnitude (2 ^ 52) q)
    (hlow : 2 ^ 52 - 1 / 4 ≤ (num / den / 2 ^ q : ℚ)) (hlt : (num / den / 2 ^ q : ℚ) < 2 ^ 52) :
    nearestBits num den = bitsOf (2 ^ 52) q := by
  have hscale : (num / den / 2 ^ (q - 1) : ℚ) = 2 * (num / den / 2 ^ q) := by
    rw [zpow_sub_one₀ two_ne_zero]
    field_simp
  have hrounded : Rounded (num / den) (2 ^ 53) (q - 1) := by
    refine ⟨Int.le_sub_one_of_lt hleast, ?_, .inr ?_, ?_, ?_, .inl (by norm_num)⟩ <;>
      rw [hscale] <;> push_cast <;> linarith
  rw [nearestBits_of_rounded hnum hden hrounded, bitsOf_carry hleast,
    Nat.min_eq_right h.bitsOf_lt.le]

/-- **A ratio in the interval around a double is read as that double.** -/
theorem nearestBits_of_contains {num den m : ℕ} {q : ℤ} (hden : 0 < den) (h : Magnitude m q)
    (hcontains : (Decimal.Interval.around m q).Contains (num / den)) :
    nearestBits num den = bitsOf m q := by
  obtain ⟨hlow, hhigh, hends⟩ := Decimal.Interval.bounds_of_contains h.pos hcontains
  obtain ⟨hbelow, hbelow'⟩ := Decimal.Interval.below_bounds m q
  have hm : (1 : ℚ) ≤ m := Nat.one_le_cast.2 h.pos
  have hm53 : (m : ℚ) + 1 ≤ 2 ^ 53 := by exact_mod_cast h.lt
  have hnum : 0 < num := by
    refine Nat.pos_of_ne_zero ?_
    rintro rfl
    rw [Nat.cast_zero, zero_div, zero_div] at hlow
    linarith
  by_cases hcarry : q = leastExponent ∨ (2 ^ 52 : ℚ) ≤ num / den / 2 ^ q
  · have hrounded : Rounded (num / den) m q :=
      ⟨h.least, by linarith, hcarry, by linarith, hhigh, hends⟩
    rw [nearestBits_of_rounded hnum hden hrounded, Nat.min_eq_right h.bitsOf_lt.le]
  · obtain ⟨hq, hlt⟩ := not_or.1 hcarry
    have hlt := not_le.1 hlt
    have hm52 : m = 2 ^ 52 := by
      have hge := h.normal.resolve_left hq
      have hle : (m : ℚ) < 2 ^ 52 + 1 := by linarith
      have hle : m < 2 ^ 52 + 1 := by exact_mod_cast hle
      omega
    subst hm52
    have hquarter : Decimal.Interval.below (2 ^ 52) q = 1 / 4 := if_pos ⟨rfl, hq⟩
    rw [hquarter] at hlow
    push_cast at hlow
    exact nearestBits_of_carry hnum hden (lt_of_le_of_ne h.least (Ne.symm hq)) h hlow hlt

end Binary64

end Notebook
