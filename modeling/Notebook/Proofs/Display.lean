/-
  How a measurement is displayed.

  A display is a bare number without uncertainty, or a value and an uncertainty around
  ` ± ` that are written with the same number of places.  A measurement that was typed in
  keeps the places of its uncertainty.

  * `Decimal.Plain`: a numeral with so many places, for a number rounded to them;
  * `Decimal.fixed_form`: what a double is written as with so many places;
  * `Decimal.mem_write`, `Decimal.Fixed.mem`: the characters of a number;
  * `Measurement.display_of_isBare`, `Measurement.exists_fixed_of_not_isBare`: the two
    forms of a display;
  * `Evaluation.display_as_typed`: all of it, for the lines of a document.
-/
import Notebook.Measurement.Display
import Notebook.Proofs.Fallback
import Notebook.Proofs.Written

namespace Notebook

namespace Binary64

/-- The magnitude of a finite double. -/
def magnitude : Binary64 → ℚ
  | finite _ m q => m * 2 ^ q
  | nan | infinite _ => 0

end Binary64

/-! ## Fixed places -/

namespace Decimal

/-- Figures before and after a point, which is left out if none come after it. -/
def withPlaces (whole fraction : Text) : Text :=
  if fraction = [] then whole else whole ++ '.' :: fraction

/-- `Plain places v t`: the text `t` is a plain numeral, with a figure at least before the
    point and exactly so many places after it, and no point without places; and it stands
    for the number `v` rounded to so many places. -/
inductive Plain (places : ℕ) (v : ℚ) : Text → Prop
  | mk {whole fraction : Text} : Numeral.IsFigures whole → (∀ c ∈ fraction, Text.isFigure c) →
    fraction.length = places →
    |(Numeral.natural (whole ++ fraction) : ℚ) / 10 ^ places - v| ≤ 1 / 2 / 10 ^ places →
    Plain places v (withPlaces whole fraction)

/-- `Fixed places x t`: the text `t` is the double `x` with so many places. -/
inductive Fixed (places : ℕ) : Binary64 → Text → Prop
  | nan : Fixed places .nan "NaN"
  | infinite (negative : Bool) : Fixed places (.infinite negative) (signOf negative ++ "inf")
  | finite {negative : Bool} {m : ℕ} {q : ℤ} {t : Text} : Plain places (m * 2 ^ q) t →
    Fixed places (.finite negative m q) (signOf negative ++ t)

theorem exists_pointed (places n : ℕ) :
    ∃ whole fraction, Numeral.IsFigures whole ∧ (∀ c ∈ fraction, Text.isFigure c) ∧
      fraction.length = places ∧ Numeral.natural (whole ++ fraction) = n ∧
      pointed places n = withPlaces whole fraction := by
  obtain ⟨hne, hfigures⟩ := isFigures_figures n
  have hnatural : Numeral.natural (zeros (places + 1 - (figures n).length) ++ figures n) = n := by
    rw [Numeral.natural_append, natural_zeros, natural_figures, Nat.zero_mul, Nat.zero_add]
  have hall : ∀ c ∈ zeros (places + 1 - (figures n).length) ++ figures n, Text.isFigure c :=
    List.forall_mem_append.2 ⟨isFigure_zeros _, hfigures⟩
  have hlength : places < (zeros (places + 1 - (figures n).length) ++ figures n).length := by
    rw [List.length_append, zeros, List.length_replicate]
    omega
  unfold pointed
  dsimp only
  generalize zeros (places + 1 - (figures n).length) ++ figures n = ds at *
  have hfraction : (ds.drop (ds.length - places)).length = places := by
    rw [List.length_drop]
    omega
  refine ⟨ds.take (ds.length - places), ds.drop (ds.length - places), ⟨?_, ?_⟩, ?_, hfraction,
    ?_, ?_⟩
  · refine List.ne_nil_of_length_pos ?_
    rw [List.length_take]
    omega
  · exact fun c hc => hall c (List.mem_of_mem_take hc)
  · exact fun c hc => hall c (List.mem_of_mem_drop hc)
  · rw [List.take_append_drop, hnatural]
  · rw [withPlaces]
    refine if_congr ?_ rfl rfl
    rw [← List.length_eq_zero_iff, hfraction]

/-- **A double with fixed places** is not finite and written as a word, or it is a sign and
    a plain numeral for its magnitude. -/
theorem fixed_form (places : ℕ) (x : Float) :
    Fixed places (Binary64.ofFloat x) (fixed places x) := by
  unfold fixed
  split
  · next h =>
    rw [h]
    exact .nan
  · next negative h =>
    rw [h]
    exact .infinite negative
  · next negative m q h =>
    rw [h]
    dsimp only
    obtain ⟨hden, hratio⟩ := Binary64.unscale_spec (m * tenTo places) one_pos (-q)
    have hround := abs_roundDiv_sub_le (Binary64.unscale (m * tenTo places) 1 (-q)).1 hden
    obtain ⟨whole, fraction, hwhole, hfraction, hlength, hvalue, htext⟩ := exists_pointed places
      (roundDiv (Binary64.unscale (m * tenTo places) 1 (-q)).1
        (Binary64.unscale (m * tenTo places) 1 (-q)).2)
    rw [htext]
    refine .finite (.mk hwhole hfraction hlength ?_)
    have hten : (0 : ℚ) < 10 ^ places := by positivity
    have hscaled : ((m * tenTo places : ℕ) : ℚ) / (1 : ℕ) / 2 ^ (-q) = m * 2 ^ q * 10 ^ places := by
      rw [Nat.cast_mul, cast_tenTo, Nat.cast_one, div_one, zpow_neg, div_inv_eq_mul]
      ring
    rw [hratio, hscaled, ← hvalue] at hround
    rw [div_sub' hten.ne', abs_div, abs_of_pos hten]
    gcongr
    rwa [mul_comm]

/-! ## The characters of numbers -/

/-- What stands in a number: figures, letters, points and signs. -/
def isNumberChar (c : Char) : Bool := Text.isWordChar c || c == '+' || c == '-'

theorem isNumberChar_nan : ∀ c ∈ ("NaN" : Text), isNumberChar c :=
  List.all_eq_true.1 (by decide)

theorem isNumberChar_signOf (negative : Bool) : ∀ c ∈ signOf negative, isNumberChar c :=
  List.all_eq_true.1 (by cases negative <;> decide)

theorem isNumberChar_infinite (negative : Bool) :
    ∀ c ∈ signOf negative ++ ("inf" : Text), isNumberChar c :=
  List.all_eq_true.1 (by cases negative <;> decide)

theorem isNumberChar_of_isFigure {c : Char} (h : Text.isFigure c) : isNumberChar c := by
  simp [isNumberChar, Numeral.isWordChar_of_isFigure h]

theorem isNumberChar_of_mem_spelling {n : Numeral} {w : Text} (h : Numeral.Spelling n w) :
    ∀ c ∈ w, isNumberChar c := by
  intro c hc
  simp only [isNumberChar, Bool.or_eq_true, beq_iff_eq, or_assoc]
  exact Numeral.mem_spelling h c hc

theorem mem_write (layout : Layout) (x : Float) : ∀ c ∈ layout.write x, isNumberChar c := by
  unfold Layout.write
  split
  · exact isNumberChar_nan
  · exact isNumberChar_infinite _
  · next negative m q _ =>
    obtain ⟨n, hn, -⟩ := layout.exists_spelling (shortest layout.tie m q)
    exact List.forall_mem_append.2 ⟨isNumberChar_signOf _, isNumberChar_of_mem_spelling hn⟩

theorem Plain.mem {places : ℕ} {v : ℚ} {t : Text} (h : Plain places v t) :
    ∀ c ∈ t, Text.isFigure c ∨ c = '.' := by
  obtain ⟨hwhole, hfraction, -, -⟩ := h
  have hw := fun c hc => Or.inl (b := c = '.') (hwhole.2 c hc)
  have hf := fun c hc => Or.inl (b := c = '.') (hfraction c hc)
  unfold withPlaces
  split
  · exact hw
  · exact List.forall_mem_append.2 ⟨hw, List.forall_mem_cons.2 ⟨.inr rfl, hf⟩⟩

theorem Plain.ne_nil {places : ℕ} {v : ℚ} {t : Text} (h : Plain places v t) : t ≠ [] := by
  obtain ⟨hwhole, -, -, -⟩ := h
  unfold withPlaces
  split
  · exact hwhole.1
  · exact List.append_ne_nil_of_left_ne_nil hwhole.1 _

theorem Fixed.mem {places : ℕ} {x : Binary64} {t : Text} (h : Fixed places x t) :
    ∀ c ∈ t, isNumberChar c := by
  cases h with
  | nan => exact isNumberChar_nan
  | infinite negative => exact isNumberChar_infinite negative
  | finite h =>
    refine List.forall_mem_append.2 ⟨isNumberChar_signOf _, fun c hc => ?_⟩
    rcases h.mem c hc with hc | rfl
    · exact isNumberChar_of_isFigure hc
    · rfl

end Decimal

/-! ## Displays -/

namespace Measurement

/-- Whether a measurement is displayed as a bare number: it was not typed in with places,
    and has no uncertainty. -/
def IsBare (m : Measurement) : Prop := m.places = none ∧ m.uncertainty == 0

theorem display_of_isBare {m : Measurement} (h : m.IsBare) :
    m.display = bareLayout.write m.value := by
  rw [display, displayWith, h.1]
  exact if_pos h.2

/-- **Any other display** is two numbers with the same places around ` ± `; those of a
    measurement that was typed in are its own. -/
theorem exists_fixed_of_not_isBare {m : Measurement} (h : ¬ m.IsBare) :
    ∃ places x y, m.display = Decimal.fixed places x ++ plusMinus ++ Decimal.fixed places y ∧
      ∀ p, m.places = some p → places = p ∧ x = m.value ∧ y = m.uncertainty := by
  unfold display displayWith
  cases hp : m.places with
  | some p => exact ⟨p, m.value, m.uncertainty, rfl, fun _ h => ⟨Option.some.inj h, rfl, rfl⟩⟩
  | none =>
    have huncertain : ¬ (m.uncertainty == 0) = true := fun hzero => h ⟨hp, hzero⟩
    dsimp only
    rw [if_neg huncertain]
    exact ⟨_, _, _, rfl, fun _ h => nomatch h⟩

theorem not_suffix_display {m : Measurement} (h : m.uncertainty == 0) :
    ¬ plusMinus ++ ("NaN" : Text) <:+ m.display := by
  rintro ⟨t, ht⟩
  by_cases hbare : m.IsBare
  · rw [display_of_isBare hbare] at ht
    have hmem : '±' ∈ bareLayout.write m.value := by
      rw [← ht]
      simp [plusMinus]
    exact absurd (Decimal.mem_write _ _ _ hmem) (by decide)
  obtain ⟨places, x, y, hdisplay, hplaces⟩ := exists_fixed_of_not_isBare hbare
  obtain ⟨p, hp⟩ := Option.ne_none_iff_exists'.1 fun hp => hbare ⟨hp, h⟩
  obtain ⟨rfl, rfl, rfl⟩ := hplaces p hp
  obtain ⟨negative, c, q, hfinite⟩ := (Binary64.isFinite_iff _).1 (Binary64.isFinite_of_beq_zero h)
  have hform := Decimal.fixed_form places m.uncertainty
  rw [hfinite] at hform
  rw [hdisplay] at ht
  generalize Decimal.fixed places m.uncertainty = u at hform ht
  cases hform with
  | finite hplain =>
    -- the last character is one of the numeral
    have hlast := congrArg List.getLast? ht
    rw [← List.append_assoc, ← List.append_assoc, List.getLast?_append_of_ne_nil _ hplain.ne_nil,
      List.getLast?_append_of_ne_nil _ (by decide)] at hlast
    rcases hplain.mem 'N' (List.mem_of_getLast? hlast.symm) with hN | hN <;> revert hN <;> decide

end Measurement

/-! ## What was typed in -/

theorem Literal.toBits_value_le {l : Literal} (hl : Entry.IsLiteral l.text) :
    l.value.toBits.toNat ≤ Binary64.infinityBits := by
  have hread := readAs_value hl
  generalize l.value = x at hread
  cases hread with
  | zero => decide
  | number => exact Numeral.toBits_value_le _

theorem Literal.plain_fixed {l : Literal} (hl : Entry.IsLiteral l.text) (hfinite : l.value.isFinite)
    (places : ℕ) :
    Decimal.Plain places (Binary64.ofFloat l.value).magnitude (Decimal.fixed places l.value) := by
  have hform := Decimal.fixed_form places l.value
  obtain ⟨negative, m, q, h⟩ := (Binary64.isFinite_iff _).1 hfinite
  obtain rfl : negative = false := Binary64.negative_eq_false (toBits_value_le hl) h
  rw [h] at hform ⊢
  cases hform with
  | finite hplain => exact hplain

theorem Entry.display_measurement {value uncertainty : Literal} {whole fraction : Text}
    (h : uncertainty.text = whole ++ '.' :: fraction) (hwhole : '.' ∉ whole) :
    (measurement value uncertainty).display =
      Decimal.fixed fraction.length value.value ++ Measurement.plusMinus ++
        Decimal.fixed fraction.length uncertainty.value := by
  have hpoint : uncertainty.hasPoint := by
    rw [Literal.hasPoint, h]
    exact List.contains_iff_mem.2 (by simp)
  have hplaces : uncertainty.places = fraction.length :=
    uncertainty.places_eq.1 whole fraction h hwhole
  rw [measurement, if_pos hpoint, hplaces]
  rfl

namespace Evaluation

/-- **What is typed in is displayed as it was typed.**  A line that types a measurement in
    and has a point in its uncertainty binds a measurement that is displayed, if both of
    its numbers are finite, as two plain numerals around ` ± `, without signs, each rounded
    to as many places as there are characters after the first point of the uncertainty.

    Of all measurements, those without typed places and without uncertainty are displayed
    as one number, without `±`.  All others are displayed as two numbers around ` ± ` with
    no other `±`, written with the same number of places where they are finite; these are
    the value and the uncertainty, if places were typed. -/
theorem display_as_typed (settings : Settings) (document : Text) :
    (∀ o ∈ (evaluate settings document).outcomes.toList, ∀ name, ∀ value uncertainty : Literal,
      Entry.Defines o.line.text name value.text uncertainty.text →
      ∀ whole fraction, uncertainty.text = whole ++ '.' :: fraction → '.' ∉ whole →
        let m := Entry.measurement value uncertainty
        o.status = .defined name m ∧
          (m.value.isFinite → m.uncertainty.isFinite →
            ∃ v u, m.display = v ++ Measurement.plusMinus ++ u ∧
              Decimal.Plain fraction.length (Binary64.ofFloat m.value).magnitude v ∧
              Decimal.Plain fraction.length (Binary64.ofFloat m.uncertainty).magnitude u)) ∧
    ∀ m : Measurement,
      ('±' ∉ m.display ↔ m.IsBare) ∧
      (¬ m.IsBare → ∃ places x y v u, m.display = v ++ Measurement.plusMinus ++ u ∧
        '±' ∉ v ∧ '±' ∉ u ∧
        Decimal.Fixed places (Binary64.ofFloat x) v ∧
        Decimal.Fixed places (Binary64.ofFloat y) u ∧
        ∀ p, m.places = some p → places = p ∧ x = m.value ∧ y = m.uncertainty) := by
  have hplusMinus : ¬ Decimal.isNumberChar '±' := by decide
  have forms (m : Measurement) (h : ¬ m.IsBare) : ∃ places x y v u,
      m.display = v ++ Measurement.plusMinus ++ u ∧ '±' ∉ v ∧ '±' ∉ u ∧
        Decimal.Fixed places (Binary64.ofFloat x) v ∧
        Decimal.Fixed places (Binary64.ofFloat y) u ∧
        ∀ p, m.places = some p → places = p ∧ x = m.value ∧ y = m.uncertainty := by
    obtain ⟨places, x, y, hdisplay, hplaces⟩ := Measurement.exists_fixed_of_not_isBare h
    have hx := Decimal.fixed_form places x
    have hy := Decimal.fixed_form places y
    exact ⟨places, x, y, _, _, hdisplay, fun hmem => hplusMinus (hx.mem _ hmem),
      fun hmem => hplusMinus (hy.mem _ hmem), hx, hy, hplaces⟩
  refine ⟨fun o ho name value uncertainty hdefines whole fraction htext hwhole => ?_, fun m =>
    ⟨⟨fun hmem => ?_, fun hbare hmem => ?_⟩, forms m⟩⟩
  · obtain ⟨above, below, hsplit⟩ := List.append_of_mem ho
    have hstatus := status_of_outcomesOf ((outcomes_evaluate settings document).symm.trans hsplit)
    rw [Entry.ofText_eq_definition_iff.2 hdefines] at hstatus
    obtain ⟨body, -, hm⟩ := hdefines
    refine ⟨hstatus, fun hvalue huncertainty => ?_⟩
    exact ⟨_, _, Entry.display_measurement htext hwhole,
      Literal.plain_fixed hm.isLiteral_value hvalue _,
      Literal.plain_fixed hm.isLiteral_uncertainty huncertainty _⟩
  · by_contra hbare
    obtain ⟨places, x, y, v, u, hdisplay, -⟩ := forms m hbare
    refine hmem ?_
    rw [hdisplay]
    simp [Measurement.plusMinus]
  · rw [Measurement.display_of_isBare hbare] at hmem
    exact hplusMinus (Decimal.mem_write _ _ _ hmem)

/-- A value that is no number, and an uncertainty without a figure before its point. -/
theorem display_of_malformed_value :
    let e := evaluate {} "m = 1.2.3 +/- .05"
    ∃ o ∈ e.outcomes.toList, Entry.Defines o.line.text "m" "1.2.3" ".05" ∧
      ∃ m, o.status = .defined "m" m ∧ m.value.isFinite ∧ m.uncertainty.isFinite ∧
        m.display = "0.00 ± 0.05" ∧ ∃ v u, m.display = v ++ Measurement.plusMinus ++ u ∧
          Decimal.Plain 2 0 v ∧ Decimal.Plain 2 (Binary64.ofFloat m.uncertainty).magnitude u := by
  intro e
  let value : Literal := ⟨"1.2.3"⟩
  let uncertainty : Literal := ⟨".05"⟩
  have hlines : e.outcomes.toList.map Outcome.line = [⟨"m = 1.2.3 +/- .05", 1, 0, 17⟩] :=
    (map_line_evaluate _ _).trans (by decide)
  obtain ⟨o, ho, hline⟩ := List.mem_map.1 (hlines ▸ List.mem_singleton_self _)
  have hdefines : Entry.Defines o.line.text "m" value.text uncertainty.text := by
    rw [hline]
    exact Entry.ofText_eq_definition_iff.1 (by decide)
  have hvalue : (Entry.measurement value uncertainty).value.isFinite := by decide +kernel
  have huncertainty : (Entry.measurement value uncertainty).uncertainty.isFinite := by
    decide +kernel
  have hmagnitude :
      (Binary64.ofFloat (Entry.measurement value uncertainty).value).magnitude = 0 := by
    have hzero : Binary64.ofFloat (Entry.measurement value uncertainty).value =
        .finite false 0 Binary64.leastExponent := by decide +kernel
    rw [hzero]
    exact zero_mul _
  obtain ⟨htyped, -⟩ := display_as_typed {} "m = 1.2.3 +/- .05"
  obtain ⟨hstatus, hdisplay⟩ := htyped o ho _ _ _ hdefines [] "05" rfl (by decide)
  obtain ⟨v, u, htext, hv, hu⟩ := hdisplay hvalue huncertainty
  rw [hmagnitude] at hv
  exact ⟨o, ho, hdefines, _, hstatus, hvalue, huncertainty, by decide +kernel, v, u, htext, hv, hu⟩

end Evaluation

end Notebook
