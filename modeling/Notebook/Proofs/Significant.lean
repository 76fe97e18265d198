/-
  The figures of a numeral that count.

  The point says nothing, nor do the zeros before the first figure that is not zero.  The
  zeros after the last one count if there is a point, and otherwise they only show the size.

  * `Plain.hasOneFigure_iff`: when one figure of a plain numeral counts;
  * `hasOneFigure_of_not_finite`: what is not a number has no figures.
-/
import Notebook.Proofs.Display
import Notebook.Proofs.Product

namespace Notebook

namespace Decimal

/-- The figures of a numeral that count: without its point, without the zeros before the
    others, and without the zeros after the others if it has no point. -/
def significant (t : Text) : Text :=
  let figures := (t.filter (· != '.')).dropWhile (· == '0')
  if '.' ∈ t then figures else figures.rdropWhile (· == '0')

/-- Whether a text is a single figure that is not zero. -/
def isOneFigure : Text → Bool
  | [c] => '1' ≤ c && c ≤ '9'
  | _ => false

/-- Whether one figure of a numeral counts. -/
def hasOneFigure (t : Text) : Bool := isOneFigure (significant t)

theorem natural_singleton (c : Char) : Numeral.natural [c] = c.toNat - '0'.toNat := by
  rw [Numeral.natural_cons, List.length_nil, pow_zero, mul_one]
  rfl

theorem isOneFigure_singleton_iff (c : Char) :
    isOneFigure [c] ↔ 1 ≤ Numeral.natural [c] ∧ Numeral.natural [c] ≤ 9 := by
  have hlow : '1' ≤ c ↔ '0'.toNat + 1 ≤ c.toNat := Iff.rfl
  have hhigh : c ≤ '9' ↔ c.toNat ≤ '0'.toNat + 9 := Iff.rfl
  rw [isOneFigure, Bool.and_eq_true, decide_eq_true_eq, decide_eq_true_eq, natural_singleton,
    hlow, hhigh]
  omega

/-- A single figure is left of those that stand for a number from `1` to `9`. -/
theorem isOneFigure_dropWhile_iff {ds : Text} (h : ∀ c ∈ ds, Text.isFigure c) :
    isOneFigure (ds.dropWhile (· == '0')) ↔ 1 ≤ Numeral.natural ds ∧ Numeral.natural ds ≤ 9 := by
  have hlength := Numeral.le_natural h
  rw [← Numeral.natural_dropWhile ds]
  rw [← Numeral.natural_dropWhile ds] at hlength
  generalize ds.dropWhile (· == '0') = e at *
  match e with
  | [] => exact iff_of_false Bool.false_ne_true (by decide)
  | [c] => exact isOneFigure_singleton_iff c
  | c :: d :: u =>
    refine iff_of_false Bool.false_ne_true fun ⟨hone, hnine⟩ => ?_
    have hlarge := hlength (by omega)
    rw [List.length_cons, List.length_cons, pow_succ, pow_succ] at hlarge
    have := Nat.pow_pos (n := u.length) (by norm_num : 0 < 10)
    omega

theorem natural_mod_ten {ds : Text} (h : ∀ c ∈ ds, Text.isFigure c) (hne : ds ≠ [])
    (hlast : ds.getLast hne ≠ '0') : Numeral.natural ds % 10 ≠ 0 := by
  obtain ⟨hten, hpos⟩ := Numeral.figure_bounds (h _ (List.getLast_mem hne))
  have hpos := hpos hlast
  rw [← List.dropLast_append_getLast hne, Numeral.natural_append, natural_singleton,
    List.length_singleton, pow_one]
  omega

/-- A number that does not end in a zero is a figure, with zeros behind it, if it is any figure
    with zeros behind it. -/
theorem le_nine_iff {e zeros : ℕ} (he : 0 < e → e % 10 ≠ 0) :
    1 ≤ e ∧ e ≤ 9 ↔ ∃ d j, 1 ≤ d ∧ d ≤ 9 ∧ e * 10 ^ zeros = d * 10 ^ j := by
  constructor
  · exact fun ⟨hlow, hhigh⟩ => ⟨_, _, hlow, hhigh, rfl⟩
  · rintro ⟨d, j, hlow, hhigh, heq⟩
    have hpos : 0 < e := by
      refine Nat.pos_of_ne_zero fun hzero => ?_
      rw [hzero, Nat.zero_mul] at heq
      exact heq.not_lt (Nat.mul_pos hlow (Nat.pow_pos (by norm_num)))
    refine ⟨hpos, ?_⟩
    rcases le_total j zeros with hle | hle
    · obtain ⟨i, rfl⟩ := Nat.exists_eq_add_of_le' hle
      rw [pow_add, ← mul_assoc] at heq
      have heq := Nat.eq_of_mul_eq_mul_right (Nat.pow_pos (by norm_num)) heq
      exact (Nat.le_mul_of_pos_right _ (Nat.pow_pos (by norm_num))).trans (heq ▸ hhigh)
    · obtain ⟨i, rfl⟩ := Nat.exists_eq_add_of_le' hle
      rw [pow_add, ← mul_assoc] at heq
      have heq := Nat.eq_of_mul_eq_mul_right (Nat.pow_pos (by norm_num)) heq
      have hmod := he hpos
      cases i with
      | zero => rwa [heq, pow_zero, mul_one]
      | succ i =>
        rw [heq, pow_succ, ← mul_assoc] at hmod
        omega

/-- A single figure is left of those of a whole number, with the zeros at the end left out
    too, if the number is a figure times a power of ten. -/
theorem isOneFigure_rdropWhile_iff {ds : Text} (h : ∀ c ∈ ds, Text.isFigure c) :
    isOneFigure ((ds.dropWhile (· == '0')).rdropWhile (· == '0')) ↔
      ∃ d j, 1 ≤ d ∧ d ≤ 9 ∧ Numeral.natural ds = d * 10 ^ j := by
  have hnot := List.rdropWhile_last_not (· == '0') (ds.dropWhile (· == '0'))
  have hsplit := List.rdropWhile_append_rtakeWhile (p := (· == '0'))
    (l := ds.dropWhile (· == '0'))
  have hzeros : Numeral.natural ((ds.dropWhile (· == '0')).rtakeWhile (· == '0')) = 0 :=
    Numeral.natural_of_zeros fun c hc => by simpa using List.mem_rtakeWhile_imp hc
  have hhead := List.dropWhile_idempotent (p := (· == '0')) (l := ds)
  have hfigures : ∀ c ∈ ds.dropWhile (· == '0'), Text.isFigure c := fun c hc =>
    h c ((List.dropWhile_suffix _).mem hc)
  rw [← Numeral.natural_dropWhile ds]
  generalize ds.dropWhile (· == '0') = s at *
  generalize s.rdropWhile (· == '0') = e at *
  generalize s.rtakeWhile (· == '0') = zs at *
  subst hsplit
  -- what is left neither starts nor ends with a zero
  have hstart : e.dropWhile (· == '0') = e := by
    rw [List.dropWhile_eq_self_iff] at hhead ⊢
    intro hl
    have := hhead (by rw [List.length_append]; omega)
    rwa [List.getElem_append_left hl] at this
  have hfigures : ∀ c ∈ e, Text.isFigure c := fun c hc => hfigures c (List.mem_append_left _ hc)
  have hend (hpos : 0 < Numeral.natural e) : Numeral.natural e % 10 ≠ 0 := by
    have hne : e ≠ [] := by
      rintro rfl
      exact absurd hpos (by decide)
    exact natural_mod_ten hfigures hne (by simpa using hnot hne)
  have hone := isOneFigure_dropWhile_iff hfigures
  rw [hstart] at hone
  rw [hone, Numeral.natural_append, hzeros, Nat.add_zero, le_nine_iff hend]

theorem filter_figures {ds : Text} (h : ∀ c ∈ ds, Text.isFigure c) :
    ds.filter (· != '.') = ds := by
  refine List.filter_eq_self.2 fun c hc => ?_
  rw [bne_iff_ne]
  rintro rfl
  exact absurd (h _ hc) (by decide)

/-- **One figure of a plain numeral counts** if the number that its figures stand for is from
    `1` to `9`, or without places if it is such a figure times a power of ten. -/
theorem Plain.hasOneFigure_iff {places : ℕ} {v : ℚ} {t : Text} (h : Plain places v t) :
    ∃ n : ℕ, |(n : ℚ) / 10 ^ places - v| ≤ 1 / 2 / 10 ^ places ∧
      (hasOneFigure t ↔ if places = 0 then ∃ d j, 1 ≤ d ∧ d ≤ 9 ∧ n = d * 10 ^ j
        else 1 ≤ n ∧ n ≤ 9) := by
  obtain ⟨hwhole, hfraction, hlength, hvalue⟩ := h
  rename_i whole fraction
  refine ⟨_, hvalue, ?_⟩
  rw [hasOneFigure, significant]
  by_cases hnil : fraction = []
  · obtain rfl := hnil
    have hpoint : '.' ∉ whole := fun hmem => absurd (hwhole.2 _ hmem) (by decide)
    have hzero : places = 0 := hlength.symm
    rw [withPlaces, if_pos rfl, filter_figures hwhole.2, if_neg hpoint, if_pos hzero,
      List.append_nil, isOneFigure_rdropWhile_iff hwhole.2]
  · have hplaces : places ≠ 0 := fun hzero =>
      hnil (List.eq_nil_of_length_eq_zero (hlength.trans hzero))
    have hpoint : '.' ∈ whole ++ '.' :: fraction := List.mem_append_right _ List.mem_cons_self
    have hfigures := List.forall_mem_append.2 ⟨hwhole.2, hfraction⟩
    rw [withPlaces, if_neg hnil, if_pos hpoint, if_neg hplaces, List.filter_append,
      List.filter_cons_of_neg (by decide), ← List.filter_append, filter_figures hfigures,
      isOneFigure_dropWhile_iff hfigures]

theorem hasOneFigure_of_not_finite {places : ℕ} {x : Float}
    (h : ∀ v, ¬ Binary64.HasValue x v) : hasOneFigure (fixed places x) = false := by
  have hform := fixed_form places x
  cases hx : Binary64.ofFloat x with
  | nan =>
    rw [hx] at hform
    generalize fixed places x = t at hform
    cases hform
    decide
  | infinite negative =>
    rw [hx] at hform
    generalize fixed places x = t at hform
    cases hform
    cases negative <;> decide
  | finite negative m q => exact absurd ⟨negative, m, q, hx, rfl⟩ (h _)

theorem plain_fixed (places : ℕ) {x : Float} {v : ℚ} (h : Binary64.HasValue x v) (hv : 0 < v) :
    Plain places v (fixed places x) := by
  obtain ⟨m, q, -, hx, rfl⟩ := h.exists_magnitude hv
  have hform := fixed_form places x
  rw [hx] at hform
  generalize fixed places x = t at hform
  cases hform with
  | finite hplain => exact hplain

end Decimal

end Notebook
