/-
  Where places come from.

  The places that a measurement carries are those it was typed with.  A name hands
  them on with the measurement and arithmetic drops them, so whatever carries places
  in a notebook is a measurement that a line further up typed in, with these places
  in its uncertainty.

  * `Outcome.Types`: a line types a measurement in, with its places;
  * `Evaluation.Typed`: the places of all names were typed; kept by one line
    (`Typed.step`), it holds above every line (`typed_above`);
  * `Evaluation.places_typed`: all places in the evaluation of a document were typed.
-/
import Notebook.Proofs.Evaluation
import Notebook.Proofs.Value

namespace Notebook

/-- A line types the measurement `m` in, and after the first point of its uncertainty
    there are `p` characters. -/
def Outcome.Types (o : Outcome) (m : Measurement) (p : Nat) : Prop :=
  ∃ name value uncertainty whole fraction, o.status = .defined name m ∧
    Entry.ofText o.line.text = .definition name value uncertainty ∧
    uncertainty.text = whole ++ '.' :: fraction ∧ '.' ∉ whole ∧ fraction.length = p

/-- A line hands the measurement `m` on from a name bound to it in `b`. -/
def Outcome.HandsOn (o : Outcome) (grammar : Grammar) (b : Bindings) (m : Measurement) : Prop :=
  ∃ name formula source, o.status = .derived name m ∧
    Entry.ofText o.line.text = .derivation name formula ∧
    grammar.Refers formula source ∧ b.get? source = some m

theorem Entry.of_places_measurement {value uncertainty : Literal} {p : Nat}
    (h : (measurement value uncertainty).places = some p) :
    ∃ whole fraction, uncertainty.text = whole ++ '.' :: fraction ∧ '.' ∉ whole ∧
      fraction.length = p := by
  rw [measurement] at h
  dsimp only at h
  split at h
  · next hpoint =>
    have hmem : '.' ∈ uncertainty.text := List.contains_iff_mem.1 hpoint
    obtain ⟨whole, fraction, htext, hwhole⟩ := List.eq_append_cons_of_mem hmem
    refine ⟨whole, fraction, htext, hwhole, ?_⟩
    rw [Literal.places, Text.cutAt?_eq_some_iff.2 ⟨hwhole, htext⟩] at h
    exact Option.some.inj h
  · cases h

namespace Evaluation

section
variable {settings : Settings} {b : Bindings} {o : Outcome}
  (ho : o.status = (Entry.ofText o.line.text).status settings b) {name : Text} {m : Measurement}
  {p : Nat} (hp : m.places = some p)
include ho hp

/-- What carries places and is bound by a line is typed in by it, or handed on. -/
theorem types_or_handsOn (hm : o.status.binding? = some (name, m)) :
    o.Types m p ∨ o.HandsOn settings.grammar b m := by
  cases hentry : Entry.ofText o.line.text with
  | blank | unrecognized =>
    rw [ho, hentry] at hm
    cases hm
  | definition n value uncertainty =>
    rw [hentry] at ho
    rw [ho] at hm
    obtain ⟨rfl, rfl⟩ := Prod.mk.inj (Option.some.inj hm)
    obtain ⟨whole, fraction, h⟩ := Entry.of_places_measurement hp
    exact .inl ⟨n, value, uncertainty, whole, fraction, ho, hentry, h⟩
  | derivation n formula =>
    rw [hentry, Entry.status] at ho
    split at ho
    · next m' hvalue =>
      rw [ho] at hm
      obtain ⟨rfl, rfl⟩ := Prod.mk.inj (Option.some.inj hm)
      obtain ⟨source, hrefers, hget⟩ := evaluateFormula_places hvalue hp
      exact .inr ⟨n, formula, source, ho, hentry, hrefers, hget⟩
    · rw [ho] at hm
      cases hm

end

/-- The places of every name were typed by one of these lines. -/
def Typed (above : List Outcome) (b : Bindings) : Prop :=
  ∀ name m p, b.get? name = some m → m.places = some p → ∃ o ∈ above, o.Types m p

/-- What a line binds with places was typed by it, or above it. -/
theorem Typed.of_binding {settings : Settings} {above : List Outcome} {b : Bindings}
    (hb : Typed above b) {o : Outcome}
    (ho : o.status = (Entry.ofText o.line.text).status settings b) {name : Text}
    {m : Measurement} {p : Nat} (hm : o.status.binding? = some (name, m))
    (hp : m.places = some p) : ∃ o' ∈ above ++ [o], o'.Types m p := by
  rcases types_or_handsOn ho hp hm with h | ⟨n, formula, source, -, -, -, hget⟩
  · exact ⟨o, by simp, h⟩
  · obtain ⟨o', ho', h⟩ := hb source m p hget hp
    exact ⟨o', List.mem_append_left _ ho', h⟩

/-- **One line** types the places of what it binds, or hands them on. -/
theorem Typed.step {settings : Settings} {above : List Outcome} {b : Bindings}
    (hb : Typed above b) {o : Outcome}
    (ho : o.status = (Entry.ofText o.line.text).status settings b) :
    Typed (above ++ [o]) (o.status.bind b) := by
  intro name m p hget hp
  have hold : b.get? name = some m → ∃ o' ∈ above ++ [o], o'.Types m p := fun h => by
    obtain ⟨o', ho', ht⟩ := hb name m p h hp
    exact ⟨o', List.mem_append_left _ ho', ht⟩
  rw [Status.bind] at hget
  cases hbinding : o.status.binding? with
  | none =>
    rw [hbinding] at hget
    exact hold hget
  | some e =>
    rw [hbinding] at hget
    dsimp only at hget
    rw [Bindings.get?_bind] at hget
    split at hget
    · obtain rfl : e.2 = m := Option.some.inj hget
      exact hb.of_binding ho hbinding hp
    · exact hold hget

/-- **All lines**: the places of all names above a line were typed above it. -/
theorem typed_above {settings : Settings} {lines : List Line} {above below : List Outcome}
    (h : outcomesOf settings .empty lines = above ++ below) :
    Typed above (Bindings.empty.bindAll (history above)) :=
  above_induction (fun _ _ _ hget => nomatch hget) (fun _ _ _ hb => hb.step rfl) h

/-- **All places were typed.**  What a line binds with places was typed in with these
    places, by that line or one above it; if the line derives it, it is the
    measurement of a name above the line that the formula refers to.  So it is with
    all names at the end.  Operations, signs and bare numbers have no places, nor has
    any formula but one that refers to a name that has them. -/
theorem places_typed (settings : Settings) (document : Text) :
    let e := evaluate settings document
    (∀ above o below, e.outcomes.toList = above ++ o :: below →
      ∀ name m p, o.status.binding? = some (name, m) → m.places = some p →
        (∃ o' ∈ above ++ [o], o'.Types m p) ∧
        (o.status = .derived name m →
          o.HandsOn settings.grammar (Bindings.empty.bindAll (history above)) m)) ∧
    (∀ name m p, e.bindings.get? name = some m → m.places = some p →
      ∃ above o below, e.outcomes.toList = above ++ o :: below ∧
        o.status.binding? = some (name, m) ∧
        (∀ o' ∈ below, ∀ m', o'.status.binding? ≠ some (name, m')) ∧
        ∃ o' ∈ above ++ [o], o'.Types m p) ∧
    (∀ (op : Operator) a b, (op.apply a b).places = none) ∧
    (∀ a : Measurement, (-a).places = none) ∧
    (∀ x, (Measurement.exact x).places = none) ∧
    ∀ b t m, evaluateFormula settings b t = .ok m →
      (∀ name, settings.grammar.Refers t name → b.get? name ≠ some m) → m.places = none := by
  intro e
  have habove : ∀ above o below, e.outcomes.toList = above ++ o :: below →
      let b := Bindings.empty.bindAll (history above)
      Typed above b ∧ o.status = (Entry.ofText o.line.text).status settings b := by
    intro above o below hsplit
    rw [outcomes_evaluate] at hsplit
    exact ⟨typed_above hsplit, status_of_outcomesOf hsplit⟩
  refine ⟨fun above o below hsplit name m p hm hp => ?_, fun name m p hget hp => ?_,
    Measurement.places_apply, Measurement.places_neg, Measurement.places_exact, ?_⟩
  · obtain ⟨hb, ho⟩ := habove above o below hsplit
    refine ⟨hb.of_binding ho hm hp, fun hderived => ?_⟩
    rcases types_or_handsOn ho hp hm with ⟨n, _, _, _, _, hdefined, -⟩ | h
    · rw [hderived] at hdefined
      cases hdefined
    · exact h
  · -- the line that bound the name last
    rw [bindings_evaluate, Bindings.get?_bindAll, lookup_history_iff] at hget
    obtain ⟨above, o, below, hsplit, hm, hlast⟩ := hget
    obtain ⟨hb, ho⟩ := habove above o below hsplit
    exact ⟨above, o, below, hsplit, hm, hlast, hb.of_binding ho hm hp⟩
  · intro b t m hvalue hnone
    cases hp : m.places with
    | none => rfl
    | some p =>
      obtain ⟨name, hrefers, hget⟩ := evaluateFormula_places hvalue hp
      exact absurd hget (hnone name hrefers)

/-- The places of a name whose name is handed on, and not those of a product of it. -/
theorem places_of_alias :
    let e := evaluate {} "a = 1.0 +/- 0.50\nb = a\nc = b * 2"
    (∃ m, e.bindings.get? "b" = some m ∧ m.places = some 2 ∧
      ∃ o ∈ e.outcomes.toList, o.Types m 2) ∧
    ∃ m, e.bindings.get? "c" = some m ∧ m.places = none := by
  intro e
  have hb : (e.bindings.get? "b").map Measurement.places = some (some 2) := by decide +kernel
  have hc : (e.bindings.get? "c").map Measurement.places = some none := by decide +kernel
  obtain ⟨m, hget, hm⟩ := Option.map_eq_some_iff.1 hb
  refine ⟨⟨m, hget, hm, ?_⟩, Option.map_eq_some_iff.1 hc⟩
  obtain ⟨-, htable, -⟩ := places_typed {} "a = 1.0 +/- 0.50\nb = a\nc = b * 2"
  obtain ⟨above, o, below, hsplit, -, -, o', ho', htypes⟩ := htable "b" m 2 hget hm
  refine ⟨o', ?_, htypes⟩
  rw [hsplit, List.append_cons]
  exact List.mem_append_left _ ho'

end Evaluation

end Notebook
