/-
  Registers and what they stand for.

  A register keeps its entries and its index side by side, and every binding has to keep
  them in step.  As long as it does, each position in the index is that of an entry, and
  looking a name up or binding it has a result.

  * `Register.Holds r b`: the register `r` stands for the bindings `b`;
  * `Register.Holds.bind`: binding a name has a result, and the register after it stands
    for the bindings after it; so it is after every history (`Register.exists_holds`);
  * `Register.Holds.get?_eq`: looking a name up has the result that the bindings give;
  * `Register.ofHistory_spec`: after any history of bindings a register is an ordered map,
    and no position in its index is astray.
-/
import Mathlib.Data.Finset.Card
import Notebook.Proofs.Bindings
import Notebook.Register

namespace Notebook

namespace Bindings

theorem position_unique {b : Bindings} {name : Text} {p q : Nat} (hp : b.names[p]? = some name)
    (hq : b.names[q]? = some name) : p = q := by
  obtain ⟨hlt, -⟩ := List.getElem?_eq_some_iff.1 hp
  exact (List.getElem?_inj hlt b.nodup).1 (hp.trans hq.symm)

theorem replace_eq_set {b : Bindings} {name : Text} {p : Nat} (m : Measurement)
    (hp : b.names[p]? = some name) : replace name m b.entries = b.entries.set p (name, m) := by
  refine List.ext_getElem? fun q => ?_
  rw [replace, List.getElem?_map, List.getElem?_set]
  cases he : b.entries[q]? with
  | none =>
    have hq : b.entries.length ≤ q := List.getElem?_eq_none_iff.1 he
    by_cases hpq : p = q
    · subst hpq
      simp [Nat.not_lt.2 hq]
    · simp [hpq]
  | some e =>
    have hlt : q < b.entries.length := (List.getElem?_eq_some_iff.1 he).1
    have hq : b.names[q]? = some e.1 := by simp [names, he]
    by_cases hpq : p = q
    · subst hpq
      obtain rfl : name = e.1 := Option.some.inj (hp.symm.trans hq)
      simp [hlt]
    · have hne : e.1 ≠ name := fun h => hpq (position_unique hp (h ▸ hq))
      simp [hne, hpq]

end Bindings

namespace Register

variable {r : Register} {b : Bindings}

/-- The register has the entries of the bindings, and its index gives each name its
    position among them, and nothing else. -/
structure Holds (r : Register) (b : Bindings) : Prop where
  toList_eq : r.toList = b.entries
  index_iff : ∀ name position, (name, position) ∈ r.index ↔ b.names[position]? = some name

theorem holds_empty : Holds {} .empty := ⟨rfl, by simp⟩

namespace Holds

theorem names_eq (h : r.Holds b) : r.names = b.names := by rw [names, h.toList_eq, Bindings.names]

theorem size_eq (h : r.Holds b) : r.size = b.names.length := by
  rw [size, ← Array.length_toList, ← toList, h.toList_eq, Bindings.names, List.length_map]

theorem lookup_eq_some_iff (h : r.Holds b) {name : Text} {position : Nat} :
    r.index.lookup name = some position ↔ b.names[position]? = some name := by
  constructor
  · intro hlookup
    obtain ⟨l₁, l₂, hindex, -⟩ := List.lookup_eq_some_iff.1 hlookup
    exact (h.index_iff name position).1 (by simp [hindex])
  · intro hposition
    cases hlookup : r.index.lookup name with
    | none =>
      have hmem := (h.index_iff name position).2 hposition
      simpa using List.lookup_eq_none_iff.1 hlookup _ hmem
    | some q =>
      obtain ⟨l₁, l₂, hindex, -⟩ := List.lookup_eq_some_iff.1 hlookup
      have hq := (h.index_iff name q).1 (by simp [hindex])
      rw [Bindings.position_unique hq hposition]

theorem lookup_eq_none_iff (h : r.Holds b) {name : Text} :
    r.index.lookup name = none ↔ name ∉ b.names := by
  rw [Option.eq_none_iff_forall_not_mem, List.mem_iff_getElem?]
  simp [h.lookup_eq_some_iff]

/-- **No position in the index is astray**: the entry of the name stands there. -/
theorem entryAt_eq (h : r.Holds b) {name : Text} {position : Nat}
    (hposition : b.names[position]? = some name) :
    ∃ m, b.entries[position]? = some (name, m) ∧ r.entryAt position = .ok (name, m) := by
  rw [Bindings.names, List.getElem?_map] at hposition
  obtain ⟨⟨_, m⟩, hentry, rfl⟩ := Option.map_eq_some_iff.1 hposition
  refine ⟨m, hentry, ?_⟩
  rw [entryAt, ← Array.getElem?_toList, ← toList, h.toList_eq, hentry]

/-- **Looking a name up** has a result, the measurement that it is bound to. -/
theorem get?_eq (h : r.Holds b) (name : Text) : r.get? name = .ok (b.get? name) := by
  unfold get?
  cases hlookup : r.index.lookup name with
  | none =>
    have hname := (b.get?_eq_none_iff name).2 (h.lookup_eq_none_iff.1 hlookup)
    rw [hname]
  | some position =>
    obtain ⟨m, hentry, hat⟩ := h.entryAt_eq (h.lookup_eq_some_iff.1 hlookup)
    have hget : b.get? name = some m :=
      Bindings.get?_of_mem_entries (List.mem_of_getElem? hentry)
    simp only [hat, hget]
    rfl

/-- **One binding** has a result, and keeps the entries and the index in step. -/
theorem bind (h : r.Holds b) (name : Text) (m : Measurement) :
    ∃ r', r.bind name m = .ok r' ∧ r'.Holds (b.bind name m) := by
  unfold Register.bind
  cases hlookup : r.index.lookup name with
  | some position =>
    have hposition := h.lookup_eq_some_iff.1 hlookup
    have hname : name ∈ b.names := List.mem_of_getElem? hposition
    obtain ⟨m', -, hat⟩ := h.entryAt_eq hposition
    refine ⟨{ r with entries := r.entries.setIfInBounds position (name, m) }, ?_, ?_, fun n p => ?_⟩
    · simp only [hat]
      rfl
    · rw [toList, Array.toList_setIfInBounds, ← toList, h.toList_eq, Bindings.bind,
        dif_pos ((b.contains_iff name).2 hname)]
      exact (Bindings.replace_eq_set m hposition).symm
    · rw [Bindings.names_bind, if_pos hname]
      exact h.index_iff n p
  | none =>
    have hname : name ∉ b.names := h.lookup_eq_none_iff.1 hlookup
    refine ⟨_, rfl, ?_, fun n p => ?_⟩
    · rw [toList, Array.toList_push, ← toList, h.toList_eq, Bindings.bind,
        dif_neg (mt (b.contains_iff name).1 hname)]
    · have hsize : r.entries.size = b.names.length := h.size_eq
      rw [Bindings.names_bind, if_neg hname, List.mem_cons, h.index_iff, hsize]
      rcases Nat.lt_trichotomy p b.names.length with hlt | rfl | hgt
      · simp [List.getElem?_append_left hlt, hlt.ne]
      · simp [eq_comm]
      · simp [List.getElem?_append, hgt.not_gt, hgt.ne', Nat.sub_ne_zero_of_lt hgt]

end Holds

/-- **Every history** of bindings leaves a register that stands for its bindings. -/
theorem exists_holds (history : List (Text × Measurement)) :
    ∃ r, ofHistory history = .ok r ∧ r.Holds (Bindings.empty.bindAll history) := by
  -- from any register that stands for some bindings
  suffices ∀ (r : Register) (b : Bindings), r.Holds b →
      ∃ r', history.foldlM (fun r e => r.bind e.1 e.2) r = Except.ok r' ∧
        r'.Holds (b.bindAll history) from this {} .empty holds_empty
  induction history with
  | nil => exact fun r b h => ⟨r, rfl, h⟩
  | cons e history ih =>
    intro r b h
    obtain ⟨r', hr', h'⟩ := h.bind e.1 e.2
    rw [List.foldlM_cons, hr']
    exact ih r' (b.bind e.1 e.2) h'

/-- **A register is a map in the order of insertion**, after every history of bindings of
    any names.  A name has the measurement that it was bound to last, and none if it was
    never bound; the names are those that were bound, each where it was bound first; and
    the entries pair them with their measurements.  No position in the index is astray, so
    binding a name and looking one up always have a result: what the bindings of an
    evaluation say. -/
theorem ofHistory_spec (history : List (Text × Measurement)) :
    ∃ r, ofHistory history = .ok r ∧
      (∀ name m, r.get? name = .ok (some m) ↔ ∃ before after,
        history = before ++ (name, m) :: after ∧ name ∉ after.map Prod.fst) ∧
      (∀ name, r.get? name = .ok none ↔ name ∉ history.map Prod.fst) ∧
      (∀ name, r.contains name ↔ name ∈ history.map Prod.fst) ∧
      r.names = (history.map Prod.fst).eraseDups ∧
      r.size = (history.map Prod.fst).toFinset.card ∧
      (r.toList.map Prod.fst = r.names ∧ ∀ e ∈ r.toList, r.get? e.1 = .ok (some e.2)) ∧
      (r.displayed.map Prod.fst = r.names ∧
        ∀ e ∈ r.displayed, ∃ m, r.get? e.1 = .ok (some m) ∧ e.2 = m.display) ∧
      (∀ e ∈ r.index, ∃ m, r.entryAt e.2 = .ok (e.1, m) ∧ e.2 < r.size) ∧
      (∀ name m, ∃ r', r.bind name m = .ok r') ∧
      (∀ name, r.get? name = .ok ((Bindings.empty.bindAll history).get? name)) ∧
      r.toList = (Bindings.empty.bindAll history).entries := by
  obtain ⟨r, hr, h⟩ := exists_holds history
  have hnames : r.names = (history.map Prod.fst).eraseDups := by
    rw [h.names_eq, Bindings.names_bindAll]
  have hmem : ∀ name, name ∈ (Bindings.empty.bindAll history).names ↔
      name ∈ history.map Prod.fst := fun name => by
    rw [Bindings.names_bindAll, List.mem_eraseDups]
  have hget := h.get?_eq
  have hentry : ∀ e ∈ r.toList, r.get? e.1 = .ok (some e.2) := fun e he => by
    rw [hget, Bindings.get?_of_mem_entries (h.toList_eq ▸ he)]
  refine ⟨r, hr, fun name m => ?_, fun name => ?_, fun name => ?_, hnames, ?_, ⟨rfl, hentry⟩,
    ⟨?_, fun e he => ?_⟩, fun e he => ?_, fun name m => ?_, hget, h.toList_eq⟩
  · rw [hget, Except.ok.injEq, Bindings.get?_bindAll, Bindings.lookup_reverse_eq_some_iff]
  · rw [hget, Except.ok.injEq, Bindings.get?_eq_none_iff, hmem]
  · rw [contains, Option.isSome_iff_ne_none, ne_eq, h.lookup_eq_none_iff, not_not, hmem]
  · have hcard := List.toFinset_card_of_nodup (Bindings.empty.bindAll history).nodup
    rw [h.size_eq, Bindings.names, ← hcard]
    congr 1
    ext name
    rw [List.mem_toFinset, List.mem_toFinset, ← Bindings.names, hmem]
  · simp [displayed, names, Function.comp_def]
  · obtain ⟨entry, hmem, rfl⟩ := List.mem_map.1 he
    exact ⟨entry.2, hentry entry hmem, rfl⟩
  · have hposition := (h.index_iff e.1 e.2).1 he
    obtain ⟨m, hentries, hat⟩ := h.entryAt_eq hposition
    exact ⟨m, hat, h.size_eq ▸ (List.getElem?_eq_some_iff.1 hposition).1⟩
  · obtain ⟨r', hr', -⟩ := h.bind name m
    exact ⟨r', hr'⟩

end Register

end Notebook
