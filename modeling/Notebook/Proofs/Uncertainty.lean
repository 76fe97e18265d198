/-
  No uncertainty is below zero.

  Whatever is typed in has no sign, since a literal is made of figures and points only.
  What is derived has the uncertainty of an operation, which is a root, a magnitude or
  a product of these, or one handed on by a name or a sign.  The uncertainty may be not
  a number, which is not below zero either.

  * `Literal.not_value_lt_zero`: a literal of a line is not below zero, also where it
    is no number and read as zero;
  * `Measurement.not_uncertainty_apply_lt_zero`: nor is the uncertainty of any
    operation, whatever its operands are;
  * `Bindings.Unsigned`: no uncertainty of a name is below zero; kept by one line
    (`Unsigned.status_bind`), it holds above every line (`unsigned_above`);
  * `Evaluation.uncertainty_never_below_zero`: all of it, for a document.
-/
import Notebook.Proofs.Binary64
import Notebook.Proofs.Fallback
import Notebook.Proofs.Value

namespace Notebook

/-! ## What is typed in -/

theorem Numeral.not_value_lt_zero (n : Numeral) : ¬ n.value < 0 :=
  Binary64.not_lt_zero_of_toBits_le n.toBits_value_le

theorem Literal.not_value_lt_zero {l : Literal} (hl : Entry.IsLiteral l.text) : ¬ l.value < 0 := by
  have hread := readAs_value hl
  generalize l.value = x at hread
  cases hread with
  | zero => exact Binary64.not_zero_lt_zero
  | number => exact Numeral.not_value_lt_zero _

theorem Entry.not_uncertainty_lt_zero {body : Text} {value uncertainty : Literal}
    (h : takeMeasurement? body = some (value, uncertainty)) :
    ¬ (measurement value uncertainty).uncertainty < 0 := by
  have hm := takeMeasurement?_eq_some_iff.1 h
  exact Literal.not_value_lt_zero hm.isLiteral_uncertainty

/-! ## What is derived -/

namespace Measurement

theorem not_uncertainty_exact_lt_zero (x : Float) : ¬ (exact x).uncertainty < 0 :=
  Binary64.not_zero_lt_zero

theorem not_uncertainty_ofRelative_lt_zero (value : Float) (a b : Measurement) :
    ¬ (ofRelative value a b).uncertainty < 0 :=
  Binary64.not_mul_lt_zero (Binary64.not_abs_lt_zero _) (Binary64.not_sqrt_lt_zero _)

/-- **No operation gives an uncertainty below zero**, not even on operands that have
    one. -/
theorem not_uncertainty_apply_lt_zero (op : Operator) (a b : Measurement) :
    ¬ (op.apply a b).uncertainty < 0 := by
  cases op with
  | add | subtract => exact Binary64.not_sqrt_lt_zero _
  | multiply | divide => exact not_uncertainty_ofRelative_lt_zero _ a b
  | power => exact Binary64.not_abs_lt_zero _

end Measurement

/-- No uncertainty of a name is below zero. -/
def Bindings.Unsigned (b : Bindings) : Prop := ∀ e ∈ b.entries, ¬ e.2.uncertainty < 0

section
variable {b : Bindings} (hb : b.Unsigned)
include hb

theorem Bindings.Unsigned.get? {name : Text} {m : Measurement} (h : b.get? name = some m) :
    ¬ m.uncertainty < 0 :=
  hb (name, m) (mem_entries_of_get? h)

theorem Cutting.not_uncertainty_lt_zero {limit : Nat} {t : Text} {m : Measurement}
    (h : evaluate b limit t = .ok m) : ¬ m.uncertainty < 0 := by
  rcases @value_eq_or b limit limit t with ht | ht
  · rw [evaluate, ht] at h
    cases h
  · rw [evaluate, ht] at h
    rcases meaning_eq_ok h with hget | ⟨x, -, rfl⟩ | ⟨left, op, right, x, y, -, -, -, rfl⟩
    · exact hb.get? hget
    · exact Measurement.not_uncertainty_exact_lt_zero x
    · exact Measurement.not_uncertainty_apply_lt_zero op x y

theorem Formula.not_uncertainty_value_lt_zero {e : Formula} {m : Measurement}
    (h : e.value b = .ok m) : ¬ m.uncertainty < 0 := by
  induction e generalizing m with
  | number x =>
    obtain rfl : Measurement.exact x = m := Except.ok.inj h
    exact Measurement.not_uncertainty_exact_lt_zero x
  | name n => exact hb.get? (value_name_eq_ok h)
  | negate inner ih =>
    -- a sign keeps the uncertainty
    obtain ⟨x, hx, rfl⟩ := value_negate_eq_ok h
    have hx : ¬ x.uncertainty < 0 := ih hx
    exact hx
  | binary left op right =>
    obtain ⟨x, y, -, -, rfl, -⟩ := value_binary_eq_ok h
    exact Measurement.not_uncertainty_apply_lt_zero op x y

theorem evaluateFormula_not_uncertainty_lt_zero {settings : Settings} {t : Text}
    {m : Measurement} (h : evaluateFormula settings b t = .ok m) : ¬ m.uncertainty < 0 := by
  unfold evaluateFormula at h
  split at h
  · exact Cutting.not_uncertainty_lt_zero hb h
  · obtain ⟨e, -, -, hvalue⟩ := Formula.evaluate_eq_ok h
    exact Formula.not_uncertainty_value_lt_zero hb hvalue

/-! ## Lines -/

theorem Bindings.Unsigned.of_binding? {settings : Settings} {line name : Text}
    {m : Measurement}
    (h : ((Entry.ofText line).status settings b).binding? = some (name, m)) :
    ¬ m.uncertainty < 0 := by
  rcases Entry.ofText_cases line with ⟨hentry, -⟩ | hentry |
    ⟨n, body, value, uncertainty, -, hbody, hentry⟩ | ⟨n, formula, -, -, -, hentry⟩
  · rw [hentry] at h
    cases h
  · rw [hentry] at h
    cases h
  · rw [hentry] at h
    obtain ⟨-, rfl⟩ := Prod.mk.inj (Option.some.inj h)
    exact Entry.not_uncertainty_lt_zero hbody
  · rw [hentry, Entry.status] at h
    split at h
    · next hvalue =>
      obtain ⟨-, rfl⟩ := Prod.mk.inj (Option.some.inj h)
      exact evaluateFormula_not_uncertainty_lt_zero hb hvalue
    · cases h

/-- **One line** keeps all uncertainties from being below zero. -/
theorem Bindings.Unsigned.status_bind (settings : Settings) (line : Text) :
    (((Entry.ofText line).status settings b).bind b).Unsigned := by
  rw [Status.bind]
  split
  · next name m hm =>
    intro e he
    rcases mem_entries_bind he with rfl | he
    · exact hb.of_binding? hm
    · exact hb e he
  · exact hb

end

namespace Evaluation

/-- **All lines**: no name above a line has an uncertainty below zero. -/
theorem unsigned_above {settings : Settings} {lines : List Line} {above below : List Outcome}
    (h : outcomesOf settings .empty lines = above ++ below) :
    (Bindings.empty.bindAll (history above)).Unsigned :=
  above_induction (P := fun _ b => b.Unsigned) (List.forall_mem_nil _)
    (fun _ _ line hb => hb.status_bind settings line.text) h

/-- **No document gives an uncertainty below zero**, neither in the names at the end nor
    in what any line binds. -/
theorem uncertainty_never_below_zero (settings : Settings) (document : Text) :
    let e := evaluate settings document
    (∀ entry ∈ e.bindings.entries, ¬ entry.2.uncertainty < 0) ∧
    ∀ o ∈ e.outcomes.toList, ∀ name m,
      o.status = .defined name m ∨ o.status = .derived name m → ¬ m.uncertainty < 0 := by
  intro e
  have houtcomes := outcomes_evaluate settings document
  refine ⟨?_, fun o ho name m hstatus => ?_⟩
  · show e.bindings.Unsigned
    rw [bindings_evaluate]
    exact unsigned_above (houtcomes.symm.trans (List.append_nil _).symm)
  · obtain ⟨above, below, hsplit⟩ := List.append_of_mem ho
    rw [houtcomes] at hsplit
    have hbinding : o.status.binding? = some (name, m) := by
      rcases hstatus with h | h <;> rw [h] <;> rfl
    rw [status_of_outcomesOf hsplit] at hbinding
    exact (unsigned_above hsplit).of_binding? hbinding

end Evaluation

end Notebook
