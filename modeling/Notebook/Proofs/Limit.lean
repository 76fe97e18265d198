/-
  The limit on how deep formulas nest.

  The limit refuses formulas and does nothing else.  What is not refused has the
  same value, or the same fault, under any higher limit; so raising the limit
  changes nothing in a notebook none of whose lines is dropped for its depth.

  * `evaluateFormula_eq_or`: one formula, in either grammar;
  * `Entry.status_eq_or`, `Evaluation.outcomesOf_of_le`: one line, and all lines;
  * `Evaluation.evaluate_raise_limit`: a formula and a whole notebook.
-/
import Notebook.Proofs.Cutting
import Notebook.Proofs.Evaluation

namespace Notebook

/-- Whether a formula was refused because it nests too deep. -/
def Fault.isTooDeep : Fault → Bool
  | tooDeep _ => true
  | unrecognized | unknownToken _ | malformed _ | inexactExponent _ => false

/-- Whether a line was dropped because its formula nests too deep. -/
def Outcome.isTooDeep (o : Outcome) : Bool := o.status.fault?.any Fault.isTooDeep

theorem Formula.evaluate_eq_or (b : Bindings) {limit limit' : Nat} (h : limit ≤ limit')
    (t : Text) :
    evaluate b limit t = .error (.tooDeep limit) ∨ evaluate b limit t = evaluate b limit' t := by
  rw [evaluate, evaluate]
  cases ofText t with
  | error fault => right; rfl
  | ok e =>
    dsimp only
    split
    · left; rfl
    · next hdepth =>
      right
      rw [if_neg (by omega)]

section
variable {settings settings' : Settings} (hgrammar : settings.grammar = settings'.grammar)
  (hlimit : settings.limits.maxDepth ≤ settings'.limits.maxDepth)
include hgrammar hlimit

/-- **A formula** that is not refused for its depth has the same value, or the same
    fault, under a higher limit. -/
theorem evaluateFormula_eq_or (b : Bindings) (t : Text) :
    evaluateFormula settings b t = .error (.tooDeep settings.limits.maxDepth) ∨
      evaluateFormula settings b t = evaluateFormula settings' b t := by
  unfold evaluateFormula
  rw [← hgrammar]
  cases settings.grammar with
  | legacy => exact Cutting.value_eq_or_of_le _ _ hlimit t
  | standard => exact Formula.evaluate_eq_or b hlimit t

/-- **One line** that is not dropped for its depth. -/
theorem Entry.status_eq_or (b : Bindings) (entry : Entry) :
    (entry.status settings b).fault? = some (.tooDeep settings.limits.maxDepth) ∨
      entry.status settings b = entry.status settings' b := by
  cases entry with
  | blank | definition | unrecognized => right; rfl
  | derivation name formula =>
    rcases evaluateFormula_eq_or hgrammar hlimit b formula with h | h
    · left
      rw [status, h]
      rfl
    · right
      rw [status, status, h]

namespace Evaluation

/-- **All lines**, if none is dropped for its depth: the names above each of them
    are the same. -/
theorem outcomesOf_of_le {b : Bindings} {lines : List Line}
    (h : ∀ o ∈ outcomesOf settings b lines, o.isTooDeep = false) :
    outcomesOf settings b lines = outcomesOf settings' b lines := by
  induction lines generalizing b with
  | nil => rfl
  | cons line lines ih =>
    obtain ⟨hline, hlines⟩ := List.forall_mem_cons.1 h
    rcases Entry.status_eq_or hgrammar hlimit b (Entry.ofText line.text) with hs | hs
    · simp [Outcome.isTooDeep, hs, Fault.isTooDeep] at hline
    · rw [outcomesOf, outcomesOf, ih hlines, hs]

end Evaluation

end

/-- **Raising the limit is conservative.**  A formula that is not refused for its
    depth has the same value, or the same fault, under every higher limit; and a
    document none of whose lines is dropped for its depth has the same evaluation. -/
theorem Evaluation.evaluate_raise_limit {settings settings' : Settings}
    (hgrammar : settings.grammar = settings'.grammar)
    (hlimit : settings.limits.maxDepth ≤ settings'.limits.maxDepth) :
    (∀ b t, (∀ n, evaluateFormula settings b t ≠ .error (.tooDeep n)) →
      evaluateFormula settings' b t = evaluateFormula settings b t) ∧
    ∀ document, (∀ o ∈ (evaluate settings document).outcomes.toList, o.isTooDeep = false) →
      evaluate settings' document = evaluate settings document := by
  refine ⟨fun b t h => ?_, fun document h => ?_⟩
  · rcases evaluateFormula_eq_or hgrammar hlimit b t with ht | ht
    · exact absurd ht (h _)
    · exact ht.symm
  · rw [outcomes_evaluate] at h
    rw [evaluate, evaluate, foldl_step, foldl_step]
    dsimp only
    rw [outcomesOf_of_le hgrammar hlimit h]

/-- Three levels do for a line that nests three deep, and a fault stays as it is. -/
theorem Evaluation.evaluate_three_levels :
    let settings : Settings := { limits := { maxDepth := 3 } }
    let document : Text := "a = 1 + 2 * 3\nb = a - c"
    settings.grammar = ({} : Settings).grammar ∧
      settings.limits.maxDepth ≤ ({} : Settings).limits.maxDepth ∧
      (∀ o ∈ (evaluate settings document).outcomes.toList, o.isTooDeep = false) ∧
      evaluate {} document = evaluate settings document := by
  intro settings document
  have hlimit : settings.limits.maxDepth ≤ ({} : Settings).limits.maxDepth := by decide
  have hshallow : ∀ o ∈ (evaluate settings document).outcomes.toList, o.isTooDeep = false := by
    decide +kernel
  have hgrammar : settings.grammar = ({} : Settings).grammar := rfl
  obtain ⟨-, hdocument⟩ := evaluate_raise_limit hgrammar hlimit
  exact ⟨hgrammar, hlimit, hshallow, hdocument document hshallow⟩

end Notebook
