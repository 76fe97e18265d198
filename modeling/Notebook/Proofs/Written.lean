/-
  A double that is written is read back.

  The text of a finite double spells the shortest decimal in the interval around it, and
  every numeral in that interval is read as the double.

  * `Numeral.toRat`: the number that a numeral stands for, and
    `Numeral.exists_value_eq_nearest`: it is read as the double nearest to that;
  * `Numeral.value_of_contains`: a numeral in the interval around a double is read as
    that double;
  * `Decimal.Layout.exists_spelling`: a decimal is written as a numeral for the same
    number, in any layout;
  * `Decimal.Layout.exists_spelling_write`: a finite double without a sign is written as
    a numeral that is read as this double.
-/
import Notebook.Decimal.Layout
import Notebook.Proofs.Numeral
import Notebook.Proofs.Shortest

namespace Notebook

namespace Numeral

/-! ## Figures -/

theorem foldl_natural (t : Text) (n : ℕ) :
    t.foldl (fun n c => 10 * n + (c.toNat - '0'.toNat)) n = n * 10 ^ t.length + natural t := by
  unfold natural
  induction t generalizing n with
  | nil => simp
  | cons c t ih =>
    rw [List.foldl_cons, List.foldl_cons, ih, ih (10 * 0 + _), List.length_cons, pow_succ]
    ring

theorem natural_append (t u : Text) : natural (t ++ u) = natural t * 10 ^ u.length + natural u := by
  rw [natural, List.foldl_append, foldl_natural]
  rfl

theorem natural_cons (c : Char) (t : Text) :
    natural (c :: t) = (c.toNat - '0'.toNat) * 10 ^ t.length + natural t := by
  rw [natural, List.foldl_cons, foldl_natural, Nat.mul_zero, Nat.zero_add]

theorem natural_of_zeros {t : Text} (h : ∀ c ∈ t, c = '0') : natural t = 0 := by
  induction t with
  | nil => rfl
  | cons c t ih =>
    obtain ⟨rfl, ht⟩ := List.forall_mem_cons.1 h
    rw [natural_cons, ih ht, Nat.sub_self, Nat.zero_mul]

theorem figure_bounds {c : Char} (hc : Text.isFigure c) :
    c.toNat - '0'.toNat < 10 ∧ (c ≠ '0' → 0 < c.toNat - '0'.toNat) := by
  rw [Text.isFigure, Bool.and_eq_true, decide_eq_true_eq, decide_eq_true_eq] at hc
  have hlow : '0'.toNat ≤ c.toNat := hc.1
  have hhigh : c.toNat ≤ '9'.toNat := hc.2
  have hnine : '9'.toNat = '0'.toNat + 9 := rfl
  refine ⟨by omega, fun hne => ?_⟩
  have hne : c.toNat ≠ '0'.toNat := fun h => hne (Char.toNat_inj.1 h)
  omega

theorem natural_lt {t : Text} (h : ∀ c ∈ t, Text.isFigure c) : natural t < 10 ^ t.length := by
  induction t with
  | nil => exact Nat.one_pos
  | cons c t ih =>
    obtain ⟨hc, ht⟩ := List.forall_mem_cons.1 h
    rw [natural_cons]
    calc (c.toNat - '0'.toNat) * 10 ^ t.length + natural t
        < (c.toNat - '0'.toNat) * 10 ^ t.length + 10 ^ t.length := by
          have := ih ht
          omega
      _ = (c.toNat - '0'.toNat + 1) * 10 ^ t.length := by ring
      _ ≤ 10 * 10 ^ t.length := Nat.mul_le_mul_right _ (figure_bounds hc).1
      _ = 10 ^ (c :: t).length := by rw [List.length_cons, pow_succ, mul_comm]

theorem natural_dropWhile (t : Text) : natural (t.dropWhile (· == '0')) = natural t := by
  have hzeros : natural (t.takeWhile (· == '0')) = 0 :=
    natural_of_zeros fun c hc => by simpa using List.mem_takeWhile_imp hc
  conv_rhs => rw [← List.takeWhile_append_dropWhile (p := (· == '0')) (l := t)]
  rw [natural_append, hzeros, Nat.zero_mul, Nat.zero_add]

/-- Figures have a value of the length that they have without leading zeros. -/
theorem le_natural {t : Text} (h : ∀ c ∈ t, Text.isFigure c) (hne : natural t ≠ 0) :
    10 ^ (t.dropWhile (· == '0')).length ≤ 10 * natural t := by
  rw [← natural_dropWhile] at hne ⊢
  cases hsignificant : t.dropWhile (· == '0') with
  | nil =>
    rw [hsignificant] at hne
    exact absurd rfl hne
  | cons c u =>
    have hmem : c ∈ t.dropWhile (· == '0') := hsignificant ▸ List.mem_cons_self
    have hc : Text.isFigure c := h c ((List.dropWhile_suffix _).mem hmem)
    have hzero : c ≠ '0' := by
      have := List.head_dropWhile_not (· == '0') (l := t) (by simp [hsignificant])
      simpa [hsignificant] using this
    rw [List.length_cons, pow_succ, mul_comm, natural_cons]
    refine Nat.mul_le_mul_left 10 ?_
    calc 10 ^ u.length ≤ (c.toNat - '0'.toNat) * 10 ^ u.length :=
          Nat.le_mul_of_pos_left _ ((figure_bounds hc).2 hzero)
      _ ≤ (c.toNat - '0'.toNat) * 10 ^ u.length + natural u := Nat.le_add_right _ _

/-! ## Values -/

/-- The number that a numeral stands for. -/
def toRat (n : Numeral) : ℚ := natural n.figures * 10 ^ n.exponent

theorem toRat_bounds {n : Numeral} (h : ∀ c ∈ n.figures, Text.isFigure c)
    (hne : natural n.figures ≠ 0) :
    let magnitude : ℤ := (n.figures.dropWhile (· == '0')).length + n.exponent
    (10 : ℚ) ^ (magnitude - 1) ≤ n.toRat ∧ n.toRat < 10 ^ magnitude := by
  intro magnitude
  have hfigures : ∀ c ∈ n.figures.dropWhile (· == '0'), Text.isFigure c := fun c hc =>
    h c ((List.dropWhile_suffix _).mem hc)
  have hlt := natural_lt hfigures
  rw [natural_dropWhile] at hlt
  have hle := le_natural h hne
  have hlt : (natural n.figures : ℚ) < 10 ^ (n.figures.dropWhile (· == '0')).length := by
    exact_mod_cast hlt
  have hle : (10 : ℚ) ^ (n.figures.dropWhile (· == '0')).length ≤ 10 * natural n.figures := by
    exact_mod_cast hle
  have hpow : (10 : ℚ) ^ magnitude =
      10 ^ (n.figures.dropWhile (· == '0')).length * 10 ^ n.exponent := by
    rw [zpow_add₀ (by norm_num), zpow_natCast]
  have hexponent : (0 : ℚ) < 10 ^ n.exponent := by positivity
  rw [toRat]
  constructor
  · rw [zpow_sub_one₀ (by norm_num), hpow, mul_right_comm]
    gcongr
    linarith
  · rw [hpow]
    gcongr

theorem ten_zpow_le_underflow : (10 : ℚ) ^ (-324 : ℤ) ≤ 2 ^ Binary64.leastExponent / 2 := by
  have hten : (10 : ℚ) ^ (-324 : ℤ) ≤ 2 ^ (-1074 - 1 : ℤ) :=
    Decimal.ten_zpow_le_of_nonpos (by norm_num) (by norm_num)
  rwa [zpow_sub_one₀ two_ne_zero, ← div_eq_mul_inv] at hten

theorem overflow_le_ten_zpow : Binary64.overflow ≤ 10 ^ (309 : ℤ) := by
  have hten : ((10 : ℚ) ^ (309 : ℤ))⁻¹ ≤ (2 ^ (1024 : ℤ))⁻¹ := by
    rw [← zpow_neg, ← zpow_neg]
    exact Decimal.ten_zpow_le_of_nonpos (by norm_num) (by norm_num)
  calc Binary64.overflow ≤ 2 ^ (53 : ℤ) * 2 ^ (971 : ℤ) :=
        mul_le_mul_of_nonneg_right (by norm_num) (by positivity)
    _ = 2 ^ (53 + 971 : ℤ) := (zpow_add₀ two_ne_zero _ _).symm
    _ ≤ 10 ^ (309 : ℤ) := (inv_le_inv₀ (by positivity) (by positivity)).1 hten

/-- **A numeral is read as the double nearest to its number.**  What is told to be too
    large or too small by its magnitude alone is so for the doubles. -/
theorem exists_value_eq_nearest {n : Numeral} (hfigures : ∀ c ∈ n.figures, Text.isFigure c) :
    ∃ num den : ℕ, 0 < den ∧ (num / den : ℚ) = n.toRat ∧ n.value = Binary64.nearest num den := by
  obtain ⟨num, den, hden, hratio, hvalue⟩ : ∃ num den : ℕ, 0 < den ∧ (num / den : ℚ) = n.toRat ∧
      (if 0 ≤ n.exponent then
          Binary64.nearest (natural n.figures * tenTo n.exponent.toNat) 1
        else Binary64.nearest (natural n.figures) (tenTo (-n.exponent).toNat)) =
      Binary64.nearest num den := by
    split
    · next hexponent =>
      refine ⟨_, 1, one_pos, ?_, rfl⟩
      rw [Nat.cast_one, div_one, Nat.cast_mul, cast_tenTo, toRat, ← zpow_natCast,
        Int.toNat_of_nonneg hexponent]
    · next hexponent =>
      refine ⟨_, tenTo (-n.exponent).toNat, Nat.pow_pos (by norm_num), ?_, rfl⟩
      rw [cast_tenTo, toRat, ← zpow_natCast, Int.toNat_of_nonneg (by omega), zpow_neg,
        div_inv_eq_mul]
  refine ⟨num, den, hden, hratio, ?_⟩
  unfold value
  simp only [natural_dropWhile]
  split
  · next hzero =>
    have hsmall : n.toRat ≤ 2 ^ Binary64.leastExponent / 2 := by
      by_cases hne : natural n.figures = 0
      · rw [toRat, hne, Nat.cast_zero, zero_mul]
        positivity
      · calc n.toRat ≤ 10 ^ (_ : ℤ) := (toRat_bounds hfigures hne).2.le
          _ ≤ 10 ^ (-324 : ℤ) := zpow_le_zpow_right₀ (by norm_num) (by omega)
          _ ≤ 2 ^ Binary64.leastExponent / 2 := ten_zpow_le_underflow
    rw [Binary64.nearest, Binary64.nearestBits_of_underflow hden (hratio.trans_le hsmall)]
    rfl
  · next hne =>
    split
    · next hlarge =>
      have hlarge : Binary64.overflow ≤ n.toRat := by
        calc Binary64.overflow ≤ 10 ^ (309 : ℤ) := overflow_le_ten_zpow
          _ ≤ 10 ^ (_ : ℤ) := zpow_le_zpow_right₀ (by norm_num) (Int.le_sub_one_of_lt hlarge)
          _ ≤ n.toRat := (toRat_bounds hfigures (not_or.1 hne).1).1
      rw [Binary64.nearest, Binary64.nearestBits_of_overflow hden (hlarge.trans_eq hratio.symm)]
    · exact hvalue

/-- **A numeral in the interval around a double** is read as that double. -/
theorem value_of_contains {n : Numeral} (hfigures : ∀ c ∈ n.figures, Text.isFigure c) {m : ℕ}
    {q : ℤ} (h : Binary64.Magnitude m q)
    (hcontains : (Decimal.Interval.around m q).Contains n.toRat) :
    n.value = Float.ofBits (UInt64.ofNat (Binary64.bitsOf m q)) := by
  obtain ⟨num, den, hden, hratio, hvalue⟩ := exists_value_eq_nearest hfigures
  rw [hvalue, Binary64.nearest, Binary64.nearestBits_of_contains hden h (hratio ▸ hcontains)]

theorem value_of_toRat_eq_zero {n : Numeral} (h : n.toRat = 0) :
    n.value = Float.ofBits (UInt64.ofNat 0) := by
  have hpow : (10 : ℚ) ^ n.exponent ≠ 0 := by positivity
  have hzero : natural n.figures = 0 := by
    exact_mod_cast (mul_eq_zero_iff_right hpow).1 h
  unfold value
  simp only [natural_dropWhile]
  rw [if_pos (.inl hzero)]
  rfl

theorem isFigure_of_spelling {n : Numeral} {w : Text} (h : Spelling n w) :
    ∀ c ∈ n.figures, Text.isFigure c := by
  cases h with
  | whole hw => exact hw.2
  | point hw hf => exact List.forall_mem_append.2 ⟨hw.2, hf⟩
  | fraction hf => exact hf.2

end Numeral

/-! ## Written decimals -/

namespace Decimal

theorem natural_figures (n : ℕ) : Numeral.natural (figures n) = n :=
  Nat.ofDigitChars_toDigits (by norm_num) (by norm_num)

theorem isFigures_figures (n : ℕ) : Numeral.IsFigures (figures n) :=
  ⟨Nat.toDigits_ne_nil, fun _ hc => Nat.isDigit_of_mem_toDigits (by norm_num) (by norm_num) hc⟩

theorem isFigure_zeros (k : ℕ) : ∀ c ∈ zeros k, Text.isFigure c := fun c hc => by
  rw [List.eq_of_mem_replicate hc]
  rfl

theorem natural_zeros (k : ℕ) : Numeral.natural (zeros k) = 0 :=
  Numeral.natural_of_zeros fun _ hc => List.eq_of_mem_replicate hc

namespace Layout

theorem exists_spelling_point {w f : Text} (hw : Numeral.IsFigures w)
    (hf : ∀ c ∈ f, Text.isFigure c) {x : Text} {e : ℤ} (hx : Numeral.Exponent x e) :
    ∃ n, Numeral.Spelling n (w ++ '.' :: f ++ x) ∧
      n.toRat = Numeral.natural (w ++ f) * 10 ^ (e - f.length) :=
  ⟨_, .point hw hf hx, rfl⟩

theorem exists_spelling_whole (layout : Layout) {w : Text} (hw : Numeral.IsFigures w) :
    ∃ n, Numeral.Spelling n (w ++ layout.wholeEnd) ∧ n.toRat = Numeral.natural w := by
  unfold wholeEnd
  split
  · obtain ⟨n, hn, hvalue⟩ := exists_spelling_point hw (isFigure_zeros 1) .none
    rw [List.append_nil] at hn
    refine ⟨n, hn, ?_⟩
    rw [hvalue, Numeral.natural_append, natural_zeros]
    simp [zeros]
  · refine ⟨_, .whole hw .none, ?_⟩
    rw [Numeral.toRat, zpow_zero, mul_one]

theorem exists_spelling_among {c p : ℕ} (hp : p < (figures c).length) :
    ∃ n, Numeral.Spelling n ((figures c).take ((figures c).length - p) ++
        '.' :: (figures c).drop ((figures c).length - p)) ∧
      n.toRat = toRat ⟨c, -p⟩ := by
  obtain ⟨-, hfigures⟩ := isFigures_figures c
  have hwhole : (figures c).take ((figures c).length - p) ≠ [] := by
    refine List.ne_nil_of_length_pos ?_
    rw [List.length_take]
    omega
  obtain ⟨n, hn, hvalue⟩ := exists_spelling_point
    ⟨hwhole, fun d hd => hfigures d (List.mem_of_mem_take hd)⟩
    (fun d hd => hfigures d (List.mem_of_mem_drop hd)) .none
  have hlength : (figures c).length - ((figures c).length - p) = p := by omega
  rw [List.append_nil] at hn
  refine ⟨n, hn, ?_⟩
  rw [hvalue, List.take_append_drop, natural_figures, List.length_drop, hlength, zero_sub, toRat]

theorem exists_spelling_behind {c p : ℕ} (hp : (figures c).length ≤ p) :
    ∃ n, Numeral.Spelling n ('0' :: '.' :: zeros (p - (figures c).length) ++ figures c) ∧
      n.toRat = toRat ⟨c, -p⟩ := by
  obtain ⟨-, hfigures⟩ := isFigures_figures c
  obtain ⟨n, hn, hvalue⟩ := exists_spelling_point (w := zeros 1)
    ⟨List.cons_ne_nil _ _, isFigure_zeros 1⟩
    (List.forall_mem_append.2 ⟨isFigure_zeros (p - (figures c).length), hfigures⟩) .none
  have hlength : p - (figures c).length + (figures c).length = p := by omega
  rw [List.append_nil, ← List.cons_append, ← List.append_assoc] at hn
  refine ⟨n, hn, ?_⟩
  rw [hvalue, Numeral.natural_append, Numeral.natural_append, natural_zeros, natural_zeros,
    natural_figures, List.length_append, zeros, List.length_replicate, hlength, zero_sub, toRat]
  simp

theorem exists_spelling_writePositional (layout : Layout) (c : ℕ) (g : ℤ) :
    ∃ n, Numeral.Spelling n (layout.writePositional (figures c) g) ∧
      n.toRat = toRat ⟨c, g⟩ := by
  obtain ⟨hne, hfigures⟩ := isFigures_figures c
  unfold writePositional
  split
  · next hg =>
    obtain ⟨n, hn, hvalue⟩ := layout.exists_spelling_whole (w := figures c ++ zeros g.toNat)
      ⟨by simp [hne], List.forall_mem_append.2 ⟨hfigures, isFigure_zeros _⟩⟩
    refine ⟨n, hn, ?_⟩
    rw [hvalue, Numeral.natural_append, natural_figures, natural_zeros, zeros,
      List.length_replicate, toRat]
    lift g to ℕ using hg
    rw [Int.toNat_natCast, zpow_natCast]
    push_cast
    ring
  · next hg =>
    obtain ⟨p, rfl⟩ := Int.exists_eq_neg_ofNat (le_of_not_ge hg)
    rw [neg_neg, Int.toNat_natCast]
    dsimp only
    split
    · next hp => exact exists_spelling_among hp
    · next hp => exact exists_spelling_behind (not_lt.1 hp)

theorem exponent_figures (layout : Layout) (e : ℤ) :
    Numeral.Exponent
      ('e' :: ((if e < 0 then ['-'] else if layout.plusSign then ['+'] else []) ++
        figures e.natAbs)) e := by
  have hexponent {s : Text} {negative : Bool} (hs : Numeral.Sign s negative) :=
    Numeral.Exponent.some (c := 'e') (.inl rfl) hs (isFigures_figures e.natAbs)
  rw [natural_figures] at hexponent
  split
  · next he =>
    have h := hexponent .minus
    rwa [if_pos rfl, Int.ofNat_natAbs_of_nonpos he.le, neg_neg] at h
  · next he =>
    split
    · have h := hexponent .plus
      rwa [if_neg (by decide), Int.natAbs_of_nonneg (not_lt.1 he)] at h
    · have h := hexponent .none
      rwa [if_neg (by decide), Int.natAbs_of_nonneg (not_lt.1 he)] at h

theorem exists_spelling_writeScientific (layout : Layout) (c : ℕ) (g : ℤ) :
    ∃ n, Numeral.Spelling n (layout.writeScientific (figures c) (g + (figures c).length - 1)) ∧
      n.toRat = toRat ⟨c, g⟩ := by
  have hfigures := isFigures_figures c
  have hx := layout.exponent_figures (g + (figures c).length - 1)
  have hnatural := natural_figures c
  unfold writeScientific
  generalize figures c = ds at *
  dsimp only
  rw [List.append_assoc, List.cons_append]
  split
  · next d d' rest =>
    have hwhole : Numeral.IsFigures [d] :=
      ⟨List.cons_ne_nil _ _, List.forall_mem_singleton.2 (hfigures.2 d (by simp))⟩
    obtain ⟨n, hn, hvalue⟩ := exists_spelling_point (f := d' :: rest) hwhole
      (fun e he => hfigures.2 e (List.mem_cons_of_mem d he)) hx
    refine ⟨n, hn, ?_⟩
    rw [hvalue, List.singleton_append, hnatural, toRat, List.length_cons (a := d)]
    push_cast
    ring_nf
  · next hsingle =>
    have hlength : ds.length = 1 := by
      match ds, hfigures.1 with
      | [d], _ => rfl
      | d :: d' :: rest, _ => exact absurd rfl (hsingle d d' rest)
    refine ⟨_, .whole hfigures hx, ?_⟩
    rw [Numeral.toRat, hnatural, hlength, toRat]
    push_cast
    ring_nf

/-- **A decimal is written as a numeral** for the same number, in any layout. -/
theorem exists_spelling (layout : Layout) (d : Decimal) :
    ∃ n, Numeral.Spelling n (layout.writeDecimal d) ∧ n.toRat = d.toRat := by
  unfold writeDecimal
  split
  · next hzero =>
    obtain ⟨n, hn, hvalue⟩ := layout.exists_spelling_whole (w := zeros 1)
      ⟨List.cons_ne_nil _ _, isFigure_zeros 1⟩
    refine ⟨n, hn, ?_⟩
    rw [hvalue, natural_zeros, toRat, hzero, Nat.cast_zero, zero_mul]
  · dsimp only
    split
    · exact layout.exists_spelling_writePositional d.coefficient d.exponent
    · exact layout.exists_spelling_writeScientific d.coefficient d.exponent

/-- **A finite double without a sign is written as a numeral that is read as it**, in any
    layout. -/
theorem exists_spelling_write (layout : Layout) {x : Float}
    (hx : x.toBits.toNat < Binary64.infinityBits) :
    ∃ n, Numeral.Spelling n (layout.write x) ∧ n.value = x := by
  have hwrite {m : ℕ} {q : ℤ} (h : Binary64.ofFloat x = .finite false m q) :
      layout.write x = layout.writeDecimal (shortest layout.tie m q) := by
    rw [write, h]
    rfl
  have hself := Binary64.ofBits_toBits x
  rcases Binary64.ofFloat_cases hx with ⟨hzero, hfinite⟩ | ⟨m, q, h, hbits, hfinite⟩
  · obtain ⟨n, hn, hvalue⟩ := layout.exists_spelling (shortest layout.tie 0 Binary64.leastExponent)
    rw [hzero] at hself
    rw [hwrite hfinite, ← hself]
    refine ⟨n, hn, Numeral.value_of_toRat_eq_zero ?_⟩
    rw [hvalue]
    exact zero_mul _
  · obtain ⟨n, hn, hvalue⟩ := layout.exists_spelling (shortest layout.tie m q)
    rw [hbits] at hself
    rw [hwrite hfinite, ← hself]
    refine ⟨n, hn, Numeral.value_of_contains (Numeral.isFigure_of_spelling hn) h ?_⟩
    rw [hvalue]
    exact contains_shortest layout.tie h

end Layout

end Decimal

end Notebook
