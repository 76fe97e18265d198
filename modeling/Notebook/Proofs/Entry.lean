/-
  What a line enters, and the names that can be bound.

  * `Entry.Assigns`: a line that gives a name a body, `name = body`;
  * `Entry.ofText_cases`: a line is blank or a comment, or it assigns a measurement
    or a formula to a name, or it is none of these;
  * `Bindings.Named`: only names are bound.  It holds before the first line and
    after every line (`Bindings.named_above`).
-/
import Notebook.Proofs.Evaluation
import Notebook.Proofs.Word

namespace Notebook

/-! ## Lines -/

namespace Entry

/-- `Assigns line name body`: between its blanks, the line is a name, `=` and a
    body, with blanks allowed around `=`. -/
structure Assigns (line name body : Text) : Prop where
  isName : Text.isName name
  eq : ∃ g g', (∀ c ∈ g, Text.isBlank c) ∧ (∀ c ∈ g', Text.isBlank c) ∧
    Text.trim line = name ++ g ++ '=' :: g' ++ body

theorem of_takeName? {t name rest : Text} (h : takeName? t = some (name, rest)) :
    Text.isName name ∧ t = name ++ rest := by
  cases t with
  | nil => cases h
  | cons c t =>
    rw [takeName?] at h
    split at h
    · next hc =>
      obtain ⟨rfl, rfl⟩ := by simpa using h
      refine ⟨Text.isName_cons.2 ⟨hc, fun _ hd => List.mem_takeWhile_imp hd⟩, ?_⟩
      rw [List.cons_append, List.takeWhile_append_dropWhile]
    · cases h

theorem of_afterEquals? {t body : Text} (h : afterEquals? t = some body) :
    ∃ g g', (∀ c ∈ g, Text.isBlank c) ∧ (∀ c ∈ g', Text.isBlank c) ∧
      t = g ++ '=' :: g' ++ body := by
  obtain ⟨g, hg, ht⟩ := Text.exists_trimStart t
  unfold afterEquals? at h
  split at h
  · next rest hrest =>
    obtain ⟨g', hg', hbody⟩ := Text.exists_trimStart rest
    obtain rfl := Option.some.inj h
    refine ⟨g, g', hg, hg', ?_⟩
    rw [List.append_assoc, List.cons_append, ← hbody, ← hrest, ← ht]
  · cases h

/-- What a line between its blanks can be, if it does not start a comment. -/
theorem ofTrimmed_cases (line : Text) :
    ofTrimmed (Text.trim line) = .unrecognized ∨
      (∃ name body value uncertainty, Assigns line name body ∧
        takeMeasurement? body = some (value, uncertainty) ∧
        ofTrimmed (Text.trim line) = .definition name value uncertainty) ∨
      ∃ name body, Assigns line name body ∧ takeMeasurement? body = none ∧
        isFormula body ∧ ofTrimmed (Text.trim line) = .derivation name body := by
  rw [ofTrimmed]
  split
  · exact .inl rfl
  next name rest hname =>
  obtain ⟨hn, ht⟩ := of_takeName? hname
  split
  · exact .inl rfl
  next body hbody =>
  obtain ⟨g, g', hg, hg', rfl⟩ := of_afterEquals? hbody
  have hassigns : Assigns line name body := ⟨hn, g, g', hg, hg', by simp [ht]⟩
  split
  · next value uncertainty hm =>
    exact .inr (.inl ⟨name, body, value, uncertainty, hassigns, hm, rfl⟩)
  · next hm =>
    split
    · next hf => exact .inr (.inr ⟨name, body, hassigns, hm, hf, rfl⟩)
    · exact .inl rfl

/-- **What a line can be.** -/
theorem ofText_cases (line : Text) :
    (ofText line = .blank ∧ (Text.trim line = [] ∨ (Text.trim line).head? = some '#')) ∨
      ofText line = .unrecognized ∨
      (∃ name body value uncertainty, Assigns line name body ∧
        takeMeasurement? body = some (value, uncertainty) ∧
        ofText line = .definition name value uncertainty) ∨
      ∃ name body, Assigns line name body ∧ takeMeasurement? body = none ∧
        isFormula body ∧ ofText line = .derivation name body := by
  rw [ofText]
  split
  · next h => exact .inl ⟨rfl, .inl h⟩
  · next rest h => exact .inl ⟨rfl, .inr (by rw [h]; rfl)⟩
  · exact .inr (ofTrimmed_cases line)

theorem isName_of_name? {line name : Text} (h : (ofText line).name? = some name) :
    Text.isName name := by
  rcases ofText_cases line with ⟨hb, -⟩ | hu | ⟨n, body, value, uncertainty, ha, -, hd⟩ |
    ⟨n, body, ha, -, -, hd⟩
  · rw [hb] at h
    cases h
  · rw [hu] at h
    cases h
  · rw [hd] at h
    obtain rfl : n = name := Option.some.inj h
    exact ha.isName
  · rw [hd] at h
    obtain rfl : n = name := Option.some.inj h
    exact ha.isName

theorem name?_of_binding? {entry : Entry} {settings : Settings} {b : Bindings} {name : Text}
    {m : Measurement} (h : (entry.status settings b).binding? = some (name, m)) :
    entry.name? = some name := by
  cases entry with
  | blank | unrecognized => cases h
  | definition n value uncertainty =>
    obtain ⟨rfl, -⟩ := Prod.mk.inj (Option.some.inj h)
    rfl
  | derivation n formula =>
    rw [status] at h
    split at h
    · obtain ⟨rfl, -⟩ := Prod.mk.inj (Option.some.inj h)
      rfl
    · cases h

end Entry

/-! ## Names bound -/

namespace Bindings

/-- Only names are bound. -/
def Named (b : Bindings) : Prop := ∀ n ∈ b.names, Text.isName n

theorem named_empty : empty.Named := List.forall_mem_nil _

theorem Named.get?_eq_none {b : Bindings} (hb : b.Named) {t : Text} (ht : ¬ Text.isName t) :
    b.get? t = none :=
  (b.get?_eq_none_iff t).2 fun h => ht (hb t h)

theorem Named.operand?_eq {b : Bindings} (hb : b.Named) {t : Text} (ht : ¬ Text.isName t) :
    Cutting.operand? b t = (readExact? t).map .exact := by
  rw [Cutting.operand?, hb.get?_eq_none ht]
  rfl

theorem Named.bind {b : Bindings} (hb : b.Named) {n : Text} (hn : Text.isName n)
    (m : Measurement) : (b.bind n m).Named := by
  intro k hk
  rw [names_bind] at hk
  split at hk
  · exact hb k hk
  · rcases List.mem_append.1 hk with hk | hk
    · exact hb k hk
    · obtain rfl : k = n := by simpa using hk
      exact hn

theorem Named.bindAll {b : Bindings} (hb : b.Named) {history : List (Text × Measurement)}
    (hh : ∀ e ∈ history, Text.isName e.1) : (b.bindAll history).Named := by
  induction history generalizing b with
  | nil => exact hb
  | cons e history ih =>
    exact ih (hb.bind (hh e (by simp)) e.2) fun e' he' => hh e' (by simp [he'])

/-- **One line** binds a name or nothing. -/
theorem Named.status_bind {b : Bindings} (hb : b.Named) (settings : Settings) (line : Text) :
    (((Entry.ofText line).status settings b).bind b).Named := by
  rw [Evaluation.status_bind]
  refine hb.bindAll fun e he => ?_
  have he : ((Entry.ofText line).status settings b).binding? = some (e.1, e.2) := by simpa using he
  exact Entry.isName_of_name? (Entry.name?_of_binding? he)

theorem get?_status_bind {settings : Settings} {b : Bindings} {entry : Entry} {n : Text}
    (hn : n ∉ entry.name?.toList) : ((entry.status settings b).bind b).get? n = b.get? n := by
  rw [Status.bind]
  cases h : (entry.status settings b).binding? with
  | none => rfl
  | some e =>
    have hname : entry.name? = some e.1 := Entry.name?_of_binding? h
    have hne : n ≠ e.1 := by
      rintro rfl
      exact hn (by simp [hname])
    dsimp only
    rw [get?_bind, if_neg hne]

/-- **All lines** bind names only, so that only names are bound above any line. -/
theorem named_above {settings : Settings} {b : Bindings} (hb : b.Named) {lines : List Line}
    {above below : List Outcome}
    (h : Evaluation.outcomesOf settings b lines = above ++ below) :
    (b.bindAll (Evaluation.history above)).Named :=
  Evaluation.above_induction (P := fun _ b => b.Named) hb
    (fun _ _ line hb => hb.status_bind settings line.text) h

theorem Named.bindingsOf {b : Bindings} (hb : b.Named) (settings : Settings)
    (texts : List Text) : (Evaluation.bindingsOf settings b texts).Named := by
  induction texts generalizing b with
  | nil => exact hb
  | cons t texts ih =>
    rw [Evaluation.bindingsOf_cons]
    exact ih (hb.status_bind settings t)

end Bindings

end Notebook
