/-
  The names of a notebook as a history of bindings.

  A notebook only ever binds names, one after another.  What it knows in the end
  is a function of that history alone: a name stands for the measurement it was
  bound to last, in the place where it was bound first.

  * `names_bind`, `get?_bind`, `mem_entries_bind`: what one binding does to the names,
    to the measurements and to the entries;
  * `get?_bindAll`: after a history, a name has its last measurement in it;
  * `names_bindAll_from`, `names_bindAll`: the names are those of the history, each
    where it came first;
  * `names_prefix_bindAll`: a name that has a place keeps it.
-/
import Notebook.Bindings

namespace Notebook.Bindings

/-! ## One binding -/

@[simp] theorem names_empty : empty.names = [] := rfl

@[simp] theorem get?_empty (name : Text) : empty.get? name = none := rfl

@[simp] theorem contains_iff (b : Bindings) (name : Text) : b.contains name ↔ name ∈ b.names :=
  List.contains_iff_mem

theorem lookup_replace (k name : Text) (m : Measurement) (entries : List (Text × Measurement)) :
    (replace name m entries).lookup k =
      if k = name ∧ name ∈ entries.map Prod.fst then some m else entries.lookup k := by
  induction entries with
  | nil => simp [replace]
  | cons e entries ih =>
    obtain ⟨n, m'⟩ := e
    have hcons : replace name m ((n, m') :: entries) =
        (n, if n = name then m else m') :: replace name m entries := by
      by_cases hn : n = name <;> simp [replace, hn]
    rw [hcons, List.lookup_cons, List.lookup_cons, ih]
    by_cases hk : k = n
    · subst hk
      by_cases hn : k = name <;> simp [hn]
    · have hk' : (k == n) = false := by simpa using hk
      by_cases hn : k = name
      · subst hn
        simp only [hk', List.map_cons, List.mem_cons, hk, false_or]
      · simp [hk', hn]

/-- The names after a binding: a name that is bound already keeps its place. -/
theorem names_bind (b : Bindings) (name : Text) (m : Measurement) :
    (b.bind name m).names = if name ∈ b.names then b.names else b.names ++ [name] := by
  unfold bind
  by_cases h : name ∈ b.names
  · rw [dif_pos ((b.contains_iff name).2 h), if_pos h]
    exact map_fst_replace name m b.entries
  · rw [dif_neg (mt (b.contains_iff name).1 h), if_neg h]
    simp [names]

theorem get?_eq_none_iff (b : Bindings) (name : Text) : b.get? name = none ↔ name ∉ b.names := by
  rw [get?, List.lookup_eq_none_iff, names]
  simp only [bne_iff_ne, ne_eq, List.mem_map, not_exists, not_and]
  exact ⟨fun h e he hn => h e he hn.symm, fun h e he hn => h e he hn.symm⟩

theorem get?_bind (b : Bindings) (name k : Text) (m : Measurement) :
    (b.bind name m).get? k = if k = name then some m else b.get? k := by
  unfold bind
  by_cases h : name ∈ b.names
  · rw [dif_pos ((b.contains_iff name).2 h)]
    show (replace name m b.entries).lookup k = _
    have h' : name ∈ b.entries.map Prod.fst := h
    simp only [lookup_replace, h', and_true, get?]
  · rw [dif_neg (mt (b.contains_iff name).1 h)]
    show (b.entries ++ [(name, m)]).lookup k = _
    rw [List.lookup_append, ← get?]
    by_cases hk : k = name
    · subst hk
      simp [(b.get?_eq_none_iff k).2 h]
    · have hk' : (k == name) = false := by simpa using hk
      simp [List.lookup_cons, hk, hk']

theorem mem_entries_of_get? {b : Bindings} {name : Text} {m : Measurement}
    (h : b.get? name = some m) : (name, m) ∈ b.entries := by
  obtain ⟨l₁, l₂, hentries, -⟩ := List.lookup_eq_some_iff.1 h
  simp [hentries]

theorem get?_of_mem_entries {b : Bindings} {name : Text} {m : Measurement}
    (h : (name, m) ∈ b.entries) : b.get? name = some m := by
  obtain ⟨l₁, l₂, hentries⟩ := List.append_of_mem h
  refine List.lookup_eq_some_iff.2 ⟨l₁, l₂, hentries, fun e he => bne_iff_ne.2 ?_⟩
  -- an entry before it has another name
  rintro rfl
  have hnodup := b.nodup
  rw [hentries, List.map_append, List.nodup_append] at hnodup
  exact hnodup.2.2 e.1 (List.mem_map_of_mem he) e.1 (by simp) rfl

theorem mem_entries_bind {b : Bindings} {name : Text} {m : Measurement}
    {e : Text × Measurement} (h : e ∈ (b.bind name m).entries) :
    e = (name, m) ∨ e ∈ b.entries := by
  unfold bind at h
  split at h
  · obtain ⟨e', he', rfl⟩ := List.mem_map.1 h
    split
    · exact .inl rfl
    · exact .inr he'
  · rcases List.mem_append.1 h with h | h
    · exact .inr h
    · exact .inl (List.mem_singleton.1 h)

/-! ## A history of bindings -/

/-- Makes the bindings of a history, the first one first. -/
def bindAll (b : Bindings) (history : List (Text × Measurement)) : Bindings :=
  history.foldl (fun b e => b.bind e.1 e.2) b

@[simp] theorem bindAll_nil (b : Bindings) : b.bindAll [] = b := rfl

@[simp] theorem bindAll_cons (b : Bindings) (e : Text × Measurement)
    (history : List (Text × Measurement)) :
    b.bindAll (e :: history) = (b.bind e.1 e.2).bindAll history := rfl

theorem bindAll_append (b : Bindings) (h₁ h₂ : List (Text × Measurement)) :
    b.bindAll (h₁ ++ h₂) = (b.bindAll h₁).bindAll h₂ := List.foldl_append

theorem get?_bindAll_from (b : Bindings) (history : List (Text × Measurement)) (name : Text) :
    (b.bindAll history).get? name = (history.reverse.lookup name).or (b.get? name) := by
  induction history generalizing b with
  | nil => simp
  | cons e history ih =>
    obtain ⟨n, m⟩ := e
    rw [bindAll_cons, ih, get?_bind, List.reverse_cons, List.lookup_append]
    by_cases h : name = n
    · subst h
      cases history.reverse.lookup name <;> simp
    · have h' : (name == n) = false := by simpa using h
      cases history.reverse.lookup name <;> simp [List.lookup_cons, h, h']

/-- **The last binding of a name is the one in force.** -/
theorem get?_bindAll (history : List (Text × Measurement)) (name : Text) :
    (empty.bindAll history).get? name = history.reverse.lookup name := by
  simp [get?_bindAll_from]

theorem lookup_reverse_eq_some_iff {history : List (Text × Measurement)} {name : Text}
    {m : Measurement} : history.reverse.lookup name = some m ↔
      ∃ before after, history = before ++ (name, m) :: after ∧ name ∉ after.map Prod.fst := by
  rw [List.lookup_eq_some_iff]
  constructor
  · rintro ⟨l₁, l₂, h, hne⟩
    refine ⟨l₂.reverse, l₁.reverse, ?_, fun hmem => ?_⟩
    · rw [← List.reverse_reverse history, h]
      simp
    · obtain ⟨e, he, rfl⟩ := List.mem_map.1 hmem
      simpa using hne e (List.mem_reverse.1 he)
  · rintro ⟨before, after, rfl, hafter⟩
    refine ⟨after.reverse, before.reverse, by simp, fun e he => bne_iff_ne.2 ?_⟩
    rintro rfl
    exact hafter (List.mem_map_of_mem (List.mem_reverse.1 he))

/-- The names that a history adds to those bound before it stand after them, each
    where it comes first. -/
theorem names_bindAll_from (b : Bindings) (history : List (Text × Measurement)) :
    (b.bindAll history).names =
      b.names ++ ((history.map Prod.fst).filter (· ∉ b.names)).eraseDups := by
  induction history generalizing b with
  | nil => simp
  | cons e history ih =>
    rw [bindAll_cons, ih, names_bind, List.map_cons, List.filter_cons]
    by_cases h : e.1 ∈ b.names
    · simp [h]
    · have hlater : (history.map Prod.fst).filter (· ∉ b.names ++ [e.1]) =
          ((history.map Prod.fst).filter (· ∉ b.names)).filter fun n => !n == e.1 := by
        rw [List.filter_filter]
        refine List.filter_congr fun n _ => ?_
        by_cases hn : n = e.1 <;> simp [hn]
      simp only [h, not_false_eq_true, decide_true, if_true, if_false, List.eraseDups_cons, hlater]
      simp

/-- **The first binding of a name gives it its place.** -/
theorem names_bindAll (history : List (Text × Measurement)) :
    (empty.bindAll history).names = (history.map Prod.fst).eraseDups := by
  rw [names_bindAll_from, List.filter_eq_self.2 (by simp)]
  rfl

/-- A name that has a place keeps it, whatever is bound later. -/
theorem names_prefix_bindAll (b : Bindings) (history : List (Text × Measurement)) :
    b.names <+: (b.bindAll history).names := by
  induction history generalizing b with
  | nil => exact List.prefix_rfl
  | cons e history ih =>
    have hb : b.names <+: (b.bind e.1 e.2).names := by
      rw [names_bind]
      split
      · exact List.prefix_rfl
      · exact List.prefix_append _ _
    exact hb.trans (ih _)

end Notebook.Bindings
