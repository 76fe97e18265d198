/-
  How a formula comes by its value, or its fault.

  A formula with a value is a number, or refers to a bound name, or is an operation
  on formulas with values.  Only a name hands the places of a measurement on, with
  the measurement itself; arithmetic gives measurements without.

  * `Cutting.meaning_eq_ok`, `Formula.value_name_eq_ok`, `Formula.value_negate_eq_ok`,
    `Formula.value_binary_eq_ok`: where a value comes from, in either grammar;
  * `Cutting.meaning_eq_error`, `Formula.value_negate_eq_error`,
    `Formula.value_binary_eq_error`: where a fault comes from;
  * `Measurement.places_apply`: no operation gives places;
  * `Grammar.Refers`, `evaluateFormula_places`: a formula whose value has places refers
    to a name with this measurement.
-/
import Notebook.Evaluation
import Notebook.Proofs.Cutting

namespace Notebook

theorem exists_of_bind_eq_ok {ε α β : Type} {x : Except ε α} {f : α → Except ε β} {b : β}
    (h : x >>= f = .ok b) : ∃ a, x = .ok a ∧ f a = .ok b := by
  cases x with
  | error fault => cases h
  | ok a => exact ⟨a, rfl, h⟩

theorem exists_of_bind_eq_error {α β : Type} {x : Except Fault α} {f : α → Except Fault β}
    {fault : Fault} (h : x >>= f = .error fault) :
    x = .error fault ∨ ∃ a, x = .ok a ∧ f a = .error fault := by
  cases x with
  | error fault' => exact .inl (congrArg Except.error (Except.error.inj h))
  | ok a => exact .inr ⟨a, rfl, h⟩

/-! ## The parts of a formula with a value -/

namespace Cutting

/-- What a text with a meaning is: a bound name, a number, or two halves that have
    meanings. -/
theorem meaning_eq_ok {bindings : Bindings} {t : Text} {m : Measurement}
    (h : meaning bindings t = .ok m) :
    bindings.get? (Text.trim t) = some m ∨
      (∃ x, readExact? (Text.trim t) = some x ∧ m = .exact x) ∨
      ∃ left op right a b, halves? (Text.trim t) = some (left, op, right) ∧
        meaning bindings left = .ok a ∧ meaning bindings right = .ok b ∧ m = op.apply a b := by
  rw [meaning_eq, operand?] at h
  cases hget : bindings.get? (Text.trim t) with
  | some m' =>
    rw [hget] at h
    obtain rfl : m' = m := Except.ok.inj h
    exact .inl rfl
  | none =>
    cases hread : readExact? (Text.trim t) with
    | some x =>
      rw [hget, hread] at h
      exact .inr (.inl ⟨x, rfl, (Except.ok.inj h).symm⟩)
    | none =>
      rw [hget, hread] at h
      cases hhalves : halves? (Text.trim t) with
      | none =>
        rw [hhalves] at h
        cases h
      | some halves =>
        obtain ⟨left, op, right⟩ := halves
        rw [hhalves] at h
        obtain ⟨a, ha, h⟩ := exists_of_bind_eq_ok h
        obtain ⟨b, hb, h⟩ := exists_of_bind_eq_ok h
        exact .inr (.inr ⟨left, op, right, a, b, rfl, ha, hb, (Except.ok.inj h).symm⟩)

/-- Where the fault of a text comes from: the text is no operand, and it is not cut at all,
    or one of its halves has this fault. -/
theorem meaning_eq_error {bindings : Bindings} {t : Text} {fault : Fault}
    (h : meaning bindings t = .error fault) :
    operand? bindings (Text.trim t) = none ∧
      (halves? (Text.trim t) = none ∧ fault = .unknownToken (Text.trim t) ∨
        ∃ left op right, halves? (Text.trim t) = some (left, op, right) ∧
          (meaning bindings left = .error fault ∨ meaning bindings right = .error fault)) := by
  rw [meaning_eq] at h
  cases ho : operand? bindings (Text.trim t) with
  | some m =>
    rw [ho] at h
    cases h
  | none =>
    rw [ho] at h
    refine ⟨rfl, ?_⟩
    cases hhalves : halves? (Text.trim t) with
    | none =>
      rw [hhalves] at h
      exact .inl ⟨rfl, (Except.error.inj h).symm⟩
    | some halves =>
      obtain ⟨left, op, right⟩ := halves
      rw [hhalves] at h
      refine .inr ⟨left, op, right, rfl, ?_⟩
      rcases exists_of_bind_eq_error h with h | ⟨x, -, h⟩
      · exact .inl h
      rcases exists_of_bind_eq_error h with h | ⟨y, -, h⟩
      · exact .inr h
      · cases h

end Cutting

namespace Formula

theorem value_binary {op : Operator} (hop : op ≠ .power) (b : Bindings) (l r : Formula) :
    (binary l op r).value b = do
      let x ← l.value b
      let y ← r.value b
      return op.apply x y := by
  cases op with
  | power => contradiction
  | add | subtract | multiply | divide => rfl

theorem value_name_eq_ok {b : Bindings} {n : Text} {m : Measurement}
    (h : (name n).value b = .ok m) : b.get? n = some m := by
  rw [value] at h
  cases hget : b.get? n with
  | none =>
    rw [hget] at h
    cases h
  | some m' =>
    rw [hget] at h
    rw [Except.ok.inj h]

theorem value_negate_eq_ok {b : Bindings} {inner : Formula} {m : Measurement}
    (h : (negate inner).value b = .ok m) : ∃ x, inner.value b = .ok x ∧ m = -x := by
  obtain ⟨x, hx, h⟩ := exists_of_bind_eq_ok h
  exact ⟨x, hx, (Except.ok.inj h).symm⟩

/-- An operation that has a value is applied to the values of its operands; the
    exponent of a power is exact. -/
theorem value_binary_eq_ok {b : Bindings} {l r : Formula} {op : Operator} {m : Measurement}
    (h : (binary l op r).value b = .ok m) :
    ∃ x y, l.value b = .ok x ∧ r.value b = .ok y ∧ m = op.apply x y ∧
      (op = .power → (y.uncertainty != 0) = false) := by
  by_cases hop : op = .power
  · subst hop
    obtain ⟨x, hx, h⟩ := exists_of_bind_eq_ok h
    obtain ⟨y, hy, h⟩ := exists_of_bind_eq_ok h
    split at h
    · cases h
    · next hexact => exact ⟨x, y, hx, hy, (Except.ok.inj h).symm, fun _ => by simpa using hexact⟩
  · rw [value_binary hop] at h
    obtain ⟨x, hx, h⟩ := exists_of_bind_eq_ok h
    obtain ⟨y, hy, h⟩ := exists_of_bind_eq_ok h
    exact ⟨x, y, hx, hy, (Except.ok.inj h).symm, fun hpower => absurd hpower hop⟩

theorem value_negate_eq_error {b : Bindings} {inner : Formula} {fault : Fault}
    (h : (negate inner).value b = .error fault) : inner.value b = .error fault := by
  rcases exists_of_bind_eq_error h with h | ⟨x, -, h⟩
  · exact h
  · cases h

/-- An operation has the fault of an operand, or it is a power and its exponent is refused
    for its uncertainty. -/
theorem value_binary_eq_error {b : Bindings} {l r : Formula} {op : Operator} {fault : Fault}
    (h : (binary l op r).value b = .error fault) :
    l.value b = .error fault ∨ r.value b = .error fault ∨
      fault = .inexactExponent r ∧ op = .power ∧ ∃ y, r.value b = .ok y ∧ y.uncertainty != 0 := by
  by_cases hop : op = .power
  · subst hop
    rcases exists_of_bind_eq_error h with h | ⟨x, -, h⟩
    · exact .inl h
    rcases exists_of_bind_eq_error h with h | ⟨y, hy, h⟩
    · exact .inr (.inl h)
    split at h
    · next huncertain =>
      exact .inr (.inr ⟨(Except.error.inj h).symm, rfl, y, hy, huncertain⟩)
    · cases h
  · rw [value_binary hop] at h
    rcases exists_of_bind_eq_error h with h | ⟨x, -, h⟩
    · exact .inl h
    rcases exists_of_bind_eq_error h with h | ⟨y, -, h⟩
    · exact .inr (.inl h)
    · cases h

end Formula

/-! ## Values with places -/

namespace Measurement

theorem places_exact (x : Float) : (exact x).places = none := rfl

theorem places_neg (m : Measurement) : (-m).places = none := rfl

theorem places_apply (op : Operator) (a b : Measurement) : (op.apply a b).places = none := by
  cases op <;> rfl

end Measurement

/-- A formula refers to a name: it is that name and nothing else, in the standard
    grammar possibly in brackets and after plus signs. -/
def Grammar.Refers (grammar : Grammar) (t name : Text) : Prop :=
  match grammar with
  | .legacy => Text.trim t = name
  | .standard => Formula.ofText t = .ok (.name name)

theorem Cutting.evaluate_places {b : Bindings} {limit : Nat} {t : Text} {m : Measurement}
    {p : Nat} (h : evaluate b limit t = .ok m) (hp : m.places = some p) :
    b.get? (Text.trim t) = some m := by
  rcases @value_eq_or b limit limit t with ht | ht
  · rw [evaluate, ht] at h
    cases h
  · rw [evaluate, ht] at h
    rcases meaning_eq_ok h with hget | ⟨x, -, rfl⟩ | ⟨left, op, right, x, y, -, -, -, rfl⟩
    · exact hget
    · rw [Measurement.places_exact] at hp
      cases hp
    · rw [Measurement.places_apply] at hp
      cases hp

namespace Formula

theorem value_places {b : Bindings} {e : Formula} {m : Measurement} {p : Nat}
    (h : e.value b = .ok m) (hp : m.places = some p) :
    ∃ name, e = .name name ∧ b.get? name = some m := by
  cases e with
  | number x =>
    obtain rfl : Measurement.exact x = m := Except.ok.inj h
    rw [Measurement.places_exact] at hp
    cases hp
  | name n => exact ⟨n, rfl, value_name_eq_ok h⟩
  | negate inner =>
    obtain ⟨x, -, rfl⟩ := value_negate_eq_ok h
    rw [Measurement.places_neg] at hp
    cases hp
  | binary left op right =>
    obtain ⟨x, y, -, -, rfl, -⟩ := value_binary_eq_ok h
    rw [Measurement.places_apply] at hp
    cases hp

theorem evaluate_eq_ok {b : Bindings} {limit : Nat} {t : Text} {m : Measurement}
    (h : evaluate b limit t = .ok m) :
    ∃ e, ofText t = .ok e ∧ e.depth ≤ limit ∧ e.value b = .ok m := by
  rw [evaluate] at h
  cases ht : ofText t with
  | error fault =>
    rw [ht] at h
    cases h
  | ok e =>
    rw [ht] at h
    dsimp only at h
    split at h
    · cases h
    · next hdepth => exact ⟨e, rfl, Nat.le_of_not_lt hdepth, h⟩

end Formula

/-- **A formula whose value has places** refers to a name that is bound to this very
    measurement. -/
theorem evaluateFormula_places {settings : Settings} {b : Bindings} {t : Text} {m : Measurement}
    {p : Nat} (h : evaluateFormula settings b t = .ok m) (hp : m.places = some p) :
    ∃ name, settings.grammar.Refers t name ∧ b.get? name = some m := by
  unfold evaluateFormula at h
  unfold Grammar.Refers
  cases hgrammar : settings.grammar with
  | legacy =>
    rw [hgrammar] at h
    exact ⟨Text.trim t, rfl, Cutting.evaluate_places h hp⟩
  | standard =>
    rw [hgrammar] at h
    obtain ⟨e, he, -, hvalue⟩ := Formula.evaluate_eq_ok h
    obtain ⟨name, rfl, hget⟩ := Formula.value_places hvalue hp
    exact ⟨name, he, hget⟩

end Notebook
