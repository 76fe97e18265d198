/-
  One line of a notebook is edited.

  A line that types a measurement in is given other numbers, and the notebook is
  evaluated again.  Which results can change is found from the top: the name that
  the line binds is affected; a formula that mentions an affected name affects the
  name it is bound to; and a name that is bound to anything else is free again.

  * `affectedAfter`, `affectedAbove`: the names affected, line by line;
  * `Bindings.AgreeOutside`: two notebooks agree on all other names, kept by one
    line (`AgreeOutside.step`) and by all lines (`alike_outcomesOf`);
  * `Alike`: what becomes of lines in two runs that agree on all names but the
    affected ones;
  * `evaluate_edit_local`: what does not mention an affected name stays as it is.
-/
import Notebook.Proofs.Reading

namespace Notebook

/-! ## Names affected -/

/-- Whether a formula has one of these names among its words. -/
def Entry.mentions (names : List Text) (entry : Entry) : Bool :=
  entry.reads.any fun w => names.contains w

namespace Evaluation

/-- The names affected below a line, given those affected above it. -/
def affectedAfter (affected : List Text) (o : Outcome) : List Text :=
  let entry := Entry.ofText o.line.text
  if entry.mentions affected then entry.name?.toList ++ affected
  else
    match o.status.binding? with
    | some (name, _) => affected.filter (· ≠ name)
    | none => affected

/-- The names affected above the line `i`, if the line `k`, which binds `n`, is
    edited; lines are counted from zero. -/
def affectedAbove (n : Text) (k : Nat) (outcomes : List Outcome) (i : Nat) : List Text :=
  if i ≤ k then [] else ((outcomes.take i).drop (k + 1)).foldl affectedAfter [n]

theorem getElem?_of_lt {k : Nat} {top low : List Outcome} {o : Outcome} (hk : top.length = k)
    (j : Nat) : (top ++ o :: low)[k + 1 + j]? = low[j]? := by
  have hsub : k + 1 + j - top.length = j + 1 := by omega
  rw [List.getElem?_append_right (by omega), hsub, List.getElem?_cons_succ]

theorem affectedAbove_of_lt {n : Text} {k : Nat} {top low : List Outcome} {o : Outcome}
    (hk : top.length = k) (j : Nat) :
    affectedAbove n k (top ++ o :: low) (k + 1 + j) =
      (low.take j).foldl affectedAfter [n] := by
  have htake : (top ++ o :: low).take (k + 1 + j) = (top ++ [o]) ++ low.take j := by
    rw [List.append_cons, List.take_append, List.take_of_length_le (by simp; omega)]
    congr 2
    simp
    omega
  rw [affectedAbove, if_neg (by omega), htake, List.drop_left' (by simp [hk])]

end Evaluation

/-! ## Two notebooks that agree on some names -/

namespace Bindings

/-- The same names outside of `affected` are bound, and to the same measurements. -/
def AgreeOutside (affected : List Text) (b b' : Bindings) : Prop :=
  ∀ n, n ∉ affected → b.get? n = b'.get? n

theorem AgreeOutside.bind_left {n : Text} (b : Bindings) (m m' : Measurement) :
    AgreeOutside [n] (b.bind n m) (b.bind n m') := by
  intro k hk
  have hne : k ≠ n := fun h => hk (by simp [h])
  rw [get?_bind, get?_bind, if_neg hne, if_neg hne]

section
variable {affected : List Text} {b b' : Bindings} (hb : b.Named) (hb' : b'.Named)
  (h : AgreeOutside affected b b')
include hb hb' h

theorem AgreeOutside.status_eq (settings : Settings) {entry : Entry}
    (hm : entry.mentions affected = false) :
    entry.status settings b = entry.status settings b' := by
  refine Entry.status_congr hb hb' settings entry fun w hw => h w fun ha => ?_
  have : entry.mentions affected := List.any_eq_true.2 ⟨w, hw, by simpa using ha⟩
  simp [hm] at this

/-- **One line** keeps the agreement, outside of the names affected below it. -/
theorem AgreeOutside.step (settings : Settings) (line : Line) :
    let entry := Entry.ofText line.text
    AgreeOutside (Evaluation.affectedAfter affected ⟨line, entry.status settings b⟩)
      ((entry.status settings b).bind b) ((entry.status settings b').bind b') := by
  intro entry n hn
  rw [Evaluation.affectedAfter] at hn
  cases hm : entry.mentions affected with
  | true =>
    rw [if_pos hm] at hn
    rw [get?_status_bind (fun h => hn (List.mem_append_left _ h)),
      get?_status_bind (fun h => hn (List.mem_append_left _ h))]
    exact h n fun ha => hn (List.mem_append_right _ ha)
  | false =>
    rw [if_neg (by simpa using hm)] at hn
    rw [← h.status_eq hb hb' settings hm, Status.bind, Status.bind]
    cases hbinds : (entry.status settings b).binding? with
    | none =>
      simp only [hbinds] at hn
      exact h n hn
    | some e =>
      simp only [hbinds] at hn
      dsimp only
      rw [get?_bind, get?_bind]
      split
      · rfl
      · next hne => exact h n fun ha => hn (by simp [ha, hne])

end

end Bindings

/-! ## Two runs -/

namespace Evaluation

/-- `Alike affected outcomes outcomes'`: the same lines have been evaluated twice,
    and have the same outcomes unless they mention an affected name. -/
inductive Alike : List Text → List Outcome → List Outcome → Prop
  | nil {affected} : Alike affected [] []
  | cons {affected o o' os os'} : o.line.text = o'.line.text →
      ((Entry.ofText o.line.text).mentions affected = false → o.status = o'.status) →
      Alike (affectedAfter affected o) os os' → Alike affected (o :: os) (o' :: os')

theorem affectedAfter_congr {affected : List Text} {o o' : Outcome}
    (ht : o.line.text = o'.line.text)
    (hs : (Entry.ofText o.line.text).mentions affected = false → o.status = o'.status) :
    affectedAfter affected o = affectedAfter affected o' := by
  rw [affectedAfter, affectedAfter, ← ht]
  split
  · rfl
  · next hm => rw [hs (by simpa using hm)]

theorem Alike.length_eq {affected : List Text} {os os' : List Outcome}
    (h : Alike affected os os') : os.length = os'.length := by
  induction h with
  | nil => rfl
  | cons _ _ _ ih => rw [List.length_cons, List.length_cons, ih]

theorem Alike.foldl_take {affected : List Text} {os os' : List Outcome}
    (h : Alike affected os os') (i : Nat) :
    (os.take i).foldl affectedAfter affected = (os'.take i).foldl affectedAfter affected := by
  induction h generalizing i with
  | nil => rfl
  | cons ht hs _ ih =>
    cases i with
    | zero => rfl
    | succ i =>
      rw [List.take_succ_cons, List.take_succ_cons, List.foldl_cons, List.foldl_cons, ih,
        affectedAfter_congr ht hs]

theorem Alike.status_eq {affected : List Text} {os os' : List Outcome}
    (h : Alike affected os os') {i : Nat} {o o' : Outcome} (ho : os[i]? = some o)
    (ho' : os'[i]? = some o')
    (hm : (Entry.ofText o.line.text).mentions ((os.take i).foldl affectedAfter affected) =
      false) : o.status = o'.status := by
  induction h generalizing i with
  | nil => cases ho
  | cons ht hs _ ih =>
    cases i with
    | zero =>
      cases ho
      cases ho'
      exact hs hm
    | succ i => exact ih ho ho' hm

/-- **All lines** keep the agreement, and so does the end. -/
theorem alike_outcomesOf (settings : Settings) {affected : List Text} {b b' : Bindings}
    (hb : b.Named) (hb' : b'.Named) (h : b.AgreeOutside affected b') {lines lines' : List Line}
    (ht : lines.map Line.text = lines'.map Line.text) :
    let os := outcomesOf settings b lines
    let os' := outcomesOf settings b' lines'
    Alike affected os os' ∧
      (b.bindAll (history os)).AgreeOutside (os.foldl affectedAfter affected)
        (b'.bindAll (history os')) := by
  induction lines generalizing affected b b' lines' with
  | nil =>
    obtain rfl : lines' = [] := by simpa using ht.symm
    exact ⟨.nil, h⟩
  | cons line lines ih =>
    obtain ⟨line', lines', rfl, hline, ht⟩ := List.map_eq_cons_iff.1 ht.symm
    have hstep := h.step hb hb' settings line
    rw [← hline] at hstep
    have hnamed := hb.status_bind settings line.text
    have hnamed' := hb'.status_bind settings line'.text
    rw [hline] at hnamed'
    obtain ⟨halike, hagree⟩ := ih hnamed hnamed' (hline ▸ hstep) ht.symm
    simp only [outcomesOf, history_cons, Bindings.bindAll_append, ← status_bind, hline]
    exact ⟨.cons hline.symm (h.status_eq hb hb' settings) halike, hagree⟩

/-- A document around one of its lines: what is below the line sees the names bound
    above it and by it. -/
theorem outcomes_around (settings : Settings) {document x : Text} {above below : List Text}
    (h : (Text.lines document).map Line.text = above ++ x :: below) :
    let b := bindingsOf settings .empty above
    let status := (Entry.ofText x).status settings b
    b.Named ∧ ∃ top line lines,
      (evaluate settings document).outcomes.toList =
        top ++ ⟨line, status⟩ :: outcomesOf settings (status.bind b) lines ∧
      (evaluate settings document).bindings =
        (status.bind b).bindAll (history (outcomesOf settings (status.bind b) lines)) ∧
      top.map Outcome.status = statusesOf settings .empty above ∧
      lines.map Line.text = below := by
  intro b status
  obtain ⟨upper, rest, hlines, hupper, hrest⟩ := List.map_eq_append_iff.1 h
  obtain ⟨line, lower, rfl, rfl, hlower⟩ := List.map_eq_cons_iff.1 hrest
  have htop : (outcomesOf settings .empty upper).map Outcome.status =
      statusesOf settings .empty above := by rw [map_status_outcomesOf, hupper]
  have hb : Bindings.empty.bindAll (history (outcomesOf settings .empty upper)) = b := by
    rw [history_eq_filterMap, htop]
    rfl
  have houtcomes : (evaluate settings document).outcomes.toList =
      outcomesOf settings .empty upper ++
        ⟨line, status⟩ :: outcomesOf settings (status.bind b) lower := by
    rw [outcomes_evaluate, hlines, outcomesOf_append, hb]
    rfl
  refine ⟨Bindings.named_empty.bindingsOf settings above, _, line, lower, houtcomes, ?_, htop,
    hlower⟩
  rw [bindings_evaluate, houtcomes, history_append, Bindings.bindAll_append, hb, history_cons,
    Bindings.bindAll_append, ← status_bind]

/-- Two documents that differ in a line that types a measurement in: the outcomes
    above the line are the same, those below it are alike. -/
theorem exists_alike (settings : Settings) {d d' x x' n : Text} {above below : List Text}
    {v u v' u' : Literal}
    (hd : (Text.lines d).map Line.text = above ++ x :: below)
    (hd' : (Text.lines d').map Line.text = above ++ x' :: below)
    (hx : Entry.ofText x = .definition n v u) (hx' : Entry.ofText x' = .definition n v' u') :
    ∃ top o low top' o' low',
      (evaluate settings d).outcomes.toList = top ++ o :: low ∧
      (evaluate settings d').outcomes.toList = top' ++ o' :: low' ∧
      top.length = above.length ∧
      top.map Outcome.status = top'.map Outcome.status ∧ Alike [n] low low' ∧
      (evaluate settings d).bindings.AgreeOutside (low.foldl affectedAfter [n])
        (evaluate settings d').bindings := by
  obtain ⟨hb, top, line, lines, ho, hbind, htop, hlines⟩ := outcomes_around settings hd
  obtain ⟨-, top', line', lines', ho', hbind', htop', hlines'⟩ := outcomes_around settings hd'
  generalize bindingsOf settings .empty above = b at *
  have hnamed := hb.status_bind settings x
  have hnamed' := hb.status_bind settings x'
  rw [hx] at ho hbind hnamed
  rw [hx'] at ho' hbind' hnamed'
  have hedit : (((Entry.definition n v u).status settings b).bind b).AgreeOutside [n]
      (((Entry.definition n v' u').status settings b).bind b) :=
    Bindings.AgreeOutside.bind_left b _ _
  obtain ⟨halike, hend⟩ :=
    alike_outcomesOf settings hnamed hnamed' hedit (hlines.trans hlines'.symm)
  refine ⟨top, _, _, top', _, _, ho, ho', ?_, by rw [htop, htop'], halike, ?_⟩
  · rw [← List.length_map Outcome.status, htop, length_statusesOf]
  · rw [hbind, hbind']
    exact hend

section
variable {n : Text} {k : Nat} {top low top' low' : List Outcome} {o o' : Outcome}

theorem affectedAbove_length (hk : top.length = k) :
    affectedAbove n k (top ++ o :: low) (top ++ o :: low).length =
      low.foldl affectedAfter [n] := by
  have hlength : (top ++ o :: low).length = k + 1 + low.length := by
    rw [List.length_append, List.length_cons, hk]
    omega
  rw [hlength, affectedAbove_of_lt hk, List.take_length]

variable (htop : top.map Outcome.status = top'.map Outcome.status) (h : Alike [n] low low')
include htop

theorem length_top_eq : top'.length = top.length := by
  rw [← List.length_map Outcome.status, ← htop, List.length_map]

include h

theorem length_eq_of_alike : (top ++ o :: low).length = (top' ++ o' :: low').length := by
  rw [List.length_append, List.length_append, List.length_cons, List.length_cons, h.length_eq,
    length_top_eq htop]

variable (hk : top.length = k)
include hk

theorem affectedAbove_of_alike (i : Nat) :
    affectedAbove n k (top ++ o :: low) i = affectedAbove n k (top' ++ o' :: low') i := by
  rcases Nat.lt_or_ge k i with hgt | hle
  · obtain ⟨j, rfl⟩ := Nat.exists_eq_add_of_le hgt
    rw [affectedAbove_of_lt hk, affectedAbove_of_lt ((length_top_eq htop).trans hk), h.foldl_take]
  · rw [affectedAbove, affectedAbove, if_pos hle, if_pos hle]

theorem status_eq_of_alike {i : Nat} {p p' : Outcome} (hi : i ≠ k)
    (hp : (top ++ o :: low)[i]? = some p) (hp' : (top' ++ o' :: low')[i]? = some p')
    (hm : (Entry.ofText p.line.text).mentions (affectedAbove n k (top ++ o :: low) i) = false) :
    p.status = p'.status := by
  have hk' : top'.length = k := (length_top_eq htop).trans hk
  rcases Nat.lt_or_gt_of_ne hi with hlt | hgt
  · rw [List.getElem?_append_left (by omega)] at hp hp'
    have hstatus := congrArg (fun l => l[i]?) htop
    simpa [hp, hp'] using hstatus
  · obtain ⟨j, rfl⟩ := Nat.exists_eq_add_of_le hgt
    rw [affectedAbove_of_lt hk] at hm
    rw [getElem?_of_lt hk] at hp
    rw [getElem?_of_lt hk'] at hp'
    exact h.status_eq hp hp' hm

end

/-- **Edits are local.**  Two documents differ in one line only, which types a
    measurement of the name `n` in, in both of them.  Every other line that mentions
    no name affected above it has the same outcome in both: it binds the same name
    to the same measurement, or is dropped for the same reason.  A name that is not
    affected at the end stands for the same measurement, if for any.  Both documents
    affect the same names. -/
theorem evaluate_edit_local (settings : Settings) {d d' x x' n : Text} {above below : List Text}
    {v u v' u' : Literal}
    (hd : (Text.lines d).map Line.text = above ++ x :: below)
    (hd' : (Text.lines d').map Line.text = above ++ x' :: below)
    (hx : Entry.ofText x = .definition n v u) (hx' : Entry.ofText x' = .definition n v' u') :
    let k := above.length
    let e := evaluate settings d
    let e' := evaluate settings d'
    let affected := affectedAbove n k e.outcomes.toList
    e.outcomes.size = e'.outcomes.size ∧
    (∀ i o o', i ≠ k → e.outcomes[i]? = some o → e'.outcomes[i]? = some o' →
      (Entry.ofText o.line.text).mentions (affected i) = false → o.status = o'.status) ∧
    (∀ name, name ∉ affected e.outcomes.size → e.bindings.get? name = e'.bindings.get? name) ∧
    ∀ i, affected i = affectedAbove n k e'.outcomes.toList i := by
  intro k e e' affected
  obtain ⟨top, o, low, top', o', low', ho, ho', hk, htop, halike, hend⟩ :=
    exists_alike settings hd hd' hx hx'
  have haffected : ∀ i, affected i = affectedAbove n k (top ++ o :: low) i := fun i => by
    show affectedAbove n k e.outcomes.toList i = _
    rw [ho]
  refine ⟨?_, fun i p p' hi hp hp' hm => ?_, fun name hname => ?_, fun i => ?_⟩
  · rw [← Array.length_toList, ← Array.length_toList, ho, ho']
    exact length_eq_of_alike htop halike
  · rw [← Array.getElem?_toList, ho] at hp
    rw [← Array.getElem?_toList, ho'] at hp'
    rw [haffected] at hm
    exact status_eq_of_alike htop halike hk hi hp hp' hm
  · rw [haffected, ← Array.length_toList, ho, affectedAbove_length hk] at hname
    exact hend name hname
  · rw [haffected, ho']
    exact affectedAbove_of_alike htop halike hk i

/-- An edit of `a` affects what is computed with it, but not what is bound between. -/
theorem get?_of_unmentioned :
    (Text.lines "a = 1 +/- 0.5\nb = 2\nc = a * b").map Line.text =
      ["a = 1 +/- 0.5", "b = 2", "c = a * b"] ∧
    (Text.lines "a = 3 +/- 0.1\nb = 2\nc = a * b").map Line.text =
      ["a = 3 +/- 0.1", "b = 2", "c = a * b"] ∧
    Entry.ofText "a = 1 +/- 0.5" = .definition "a" ⟨"1"⟩ ⟨"0.5"⟩ ∧
    Entry.ofText "a = 3 +/- 0.1" = .definition "a" ⟨"3"⟩ ⟨"0.1"⟩ ∧
    affectedAbove "a" 0 (evaluate {} "a = 1 +/- 0.5\nb = 2\nc = a * b").outcomes.toList 3 =
      ["c", "a"] ∧
    (evaluate {} "a = 1 +/- 0.5\nb = 2\nc = a * b").bindings.get? "b" =
      (evaluate {} "a = 3 +/- 0.1\nb = 2\nc = a * b").bindings.get? "b" := by
  have hd : (Text.lines "a = 1 +/- 0.5\nb = 2\nc = a * b").map Line.text =
      ["a = 1 +/- 0.5", "b = 2", "c = a * b"] := by decide
  have hd' : (Text.lines "a = 3 +/- 0.1\nb = 2\nc = a * b").map Line.text =
      ["a = 3 +/- 0.1", "b = 2", "c = a * b"] := by decide
  have hx : Entry.ofText "a = 1 +/- 0.5" = .definition "a" ⟨"1"⟩ ⟨"0.5"⟩ := by decide
  have hx' : Entry.ofText "a = 3 +/- 0.1" = .definition "a" ⟨"3"⟩ ⟨"0.1"⟩ := by decide
  have haffected : affectedAbove "a" 0
      (evaluate {} "a = 1 +/- 0.5\nb = 2\nc = a * b").outcomes.toList 3 = ["c", "a"] := by
    decide +kernel
  have hsize : (evaluate {} "a = 1 +/- 0.5\nb = 2\nc = a * b").outcomes.size = 3 := by
    decide +kernel
  have hb : "b".toList ∉ affectedAbove "a" 0
      (evaluate {} "a = 1 +/- 0.5\nb = 2\nc = a * b").outcomes.toList
      (evaluate {} "a = 1 +/- 0.5\nb = 2\nc = a * b").outcomes.size := by
    rw [hsize, haffected]
    decide
  have hlocal := @evaluate_edit_local {} _ _ _ _ _ [] ["b = 2", "c = a * b"] _ _ _ _ hd hd' hx hx'
  exact ⟨hd, hd', hx, hx', haffected, hlocal.2.2.1 _ hb⟩

end Evaluation

end Notebook
