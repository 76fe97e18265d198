/-
  Lines that bind nothing.

  A comment, a blank line, a line of no known shape, a formula without a value:
  none of these leaves a trace.  A notebook may be freed of them, or of some of
  them, or be strewn with new ones, and nothing else in it changes.

  * `Evaluation.statusesOf_filter`, `Evaluation.misread_filter`: lines that bind
    nothing may be left out of a list of lines;
  * `Evaluation.evaluate_of_kept`: the same for a document, whatever ends its lines;
  * `Evaluation.map_text_lines_kept`: the lines that are kept make such a document;
  * `Evaluation.evaluate_without_idle_lines`: both.
-/
import Notebook.Proofs.Ending

namespace Notebook

/-- Whether a line bound a name. -/
def Outcome.binds (o : Outcome) : Bool := o.status.binding?.isSome

namespace Evaluation

theorem binding?_eq_none {keep : Outcome → Bool} {o : Outcome} (h : o.binds → keep o)
    (ho : ¬ keep o) : o.status.binding? = none := by
  simpa [Outcome.binds] using mt h ho

section
variable {settings : Settings} {b : Bindings} {keep : Outcome → Bool} {lines : List Line}
  (h : ∀ o ∈ outcomesOf settings b lines, o.binds → keep o)
include h

/-- **Lines that bind nothing may be left out**: the names above each of the other
    lines are the same without them. -/
theorem statusesOf_filter :
    statusesOf settings b (((outcomesOf settings b lines).filter keep).map fun o => o.line.text) =
      ((outcomesOf settings b lines).filter keep).map Outcome.status := by
  induction lines generalizing b with
  | nil => rfl
  | cons line lines ih =>
    obtain ⟨hline, hlines⟩ := List.forall_mem_cons.1 h
    rw [outcomesOf, List.filter_cons]
    split
    · rw [List.map_cons, List.map_cons, statusesOf, ih hlines]
    · next hdropped =>
      have hidle : ((Entry.ofText line.text).status settings b).binding? = none :=
        binding?_eq_none hline hdropped
      rw [Status.bind, hidle] at hlines ⊢
      exact ih hlines

theorem misread_filter :
    (((outcomesOf settings b lines).filter keep).map fun o => o.line.text).flatMap
        (fun t => (Entry.ofText t).misread) =
      (lines.map Line.text).flatMap fun t => (Entry.ofText t).misread := by
  induction lines generalizing b with
  | nil => rfl
  | cons line lines ih =>
    obtain ⟨hline, hlines⟩ := List.forall_mem_cons.1 h
    rw [outcomesOf, List.filter_cons]
    split
    · rw [List.map_cons, List.map_cons, List.flatMap_cons, List.flatMap_cons, ih hlines]
    · next hdropped =>
      have hidle : ((Entry.ofText line.text).status settings b).binding? = none :=
        binding?_eq_none hline hdropped
      rw [List.map_cons, List.flatMap_cons, Entry.misread_eq_nil hidle, List.nil_append]
      exact ih hlines

end

/-- The lines of a document that are kept, all that bind a name among them, have
    the same outcomes in a document of these lines only. -/
theorem evaluate_of_kept {settings : Settings} {document shorter : Text} {keep : Outcome → Bool}
    (hkeep : ∀ o ∈ (evaluate settings document).outcomes.toList, o.binds → keep o)
    (hlines : (Text.lines shorter).map Line.text =
      ((evaluate settings document).outcomes.toList.filter keep).map fun o => o.line.text) :
    (evaluate settings shorter).outcomes.toList.map Outcome.status =
        ((evaluate settings document).outcomes.toList.filter keep).map Outcome.status ∧
      (evaluate settings shorter).bindings = (evaluate settings document).bindings ∧
      (evaluate settings shorter).fallbacks.toList.map Fallback.subject =
        (evaluate settings document).fallbacks.toList.map Fallback.subject := by
  have hsubjects := (evaluate_of_texts settings (rfl : (Text.lines document).map Line.text = _)).2.2
  rw [bindings_evaluate settings document, hsubjects]
  rw [outcomes_evaluate settings document] at hkeep hlines ⊢
  obtain ⟨hstatus', hbindings', hsubjects'⟩ := evaluate_of_texts settings hlines
  rw [hstatus', hbindings', hsubjects', statusesOf_filter hkeep, misread_filter hkeep,
    ← history_eq_filterMap, history_filter hkeep]
  exact ⟨rfl, rfl, rfl⟩

theorem map_text_lines_kept (settings : Settings) (document : Text) (keep : Outcome → Bool) :
    let kept := (evaluate settings document).outcomes.toList.filter keep
    (Text.lines (kept.flatMap fun o => o.line.text ++ ['\n'])).map Line.text =
      kept.map fun o => o.line.text := by
  intro kept
  have hwhole : ∀ t ∈ kept.map fun o => o.line.text, ∀ c ∈ t, ¬ Line.isEnding c := by
    intro t ht
    obtain ⟨o, ho, rfl⟩ := List.mem_map.1 ht
    have hmem : o.line ∈ Text.lines document := by
      rw [← map_line_evaluate settings document]
      exact List.mem_map_of_mem (List.mem_filter.1 ho).1
    exact Text.not_isEnding_of_mem_lines hmem
  have := Text.map_text_lines hwhole
  rwa [List.flatMap_map] at this

theorem map_text_status {os os' : List Outcome}
    (ht : os.map (fun o => o.line.text) = os'.map fun o => o.line.text)
    (hs : os.map Outcome.status = os'.map Outcome.status) :
    os.map (fun o => (o.line.text, o.status)) = os'.map fun o => (o.line.text, o.status) := by
  rw [← List.zip_map', ← List.zip_map', ht]
  exact congrArg _ hs

theorem forall_binds_of_map_status {os os' : List Outcome}
    (hs : os.map Outcome.status = os'.map Outcome.status) (h : ∀ o ∈ os', o.binds) :
    ∀ o ∈ os, o.binds := by
  intro o ho
  have hmem : o.status ∈ os'.map Outcome.status := hs ▸ List.mem_map_of_mem ho
  obtain ⟨o', ho', heq⟩ := List.mem_map.1 hmem
  rw [Outcome.binds, ← heq]
  exact h o' ho'

/-- **Lines that bind nothing leave no trace.**  Let some lines of a document be
    kept, all that bound a name among them.  In any document of the lines that are
    kept, each has the outcome it had; the names bound are the same, in the same
    order and with the same measurements; and so are the warnings.  In particular
    all lines bind in the document of the lines that do, each ended by a line
    feed. -/
theorem evaluate_without_idle_lines (settings : Settings) (document : Text) :
    let e := evaluate settings document
    (∀ (keep : Outcome → Bool) (shorter : Text),
      (∀ o ∈ e.outcomes.toList, o.binds → keep o) →
      (Text.lines shorter).map Line.text =
        (e.outcomes.toList.filter keep).map (fun o => o.line.text) →
      let e' := evaluate settings shorter
      e'.outcomes.toList.map Outcome.status =
          (e.outcomes.toList.filter keep).map Outcome.status ∧
        e'.bindings = e.bindings ∧
        e'.fallbacks.toList.map Fallback.subject = e.fallbacks.toList.map Fallback.subject) ∧
    let kept := e.outcomes.toList.filter Outcome.binds
    let e' := evaluate settings (kept.flatMap fun o => o.line.text ++ ['\n'])
    e'.outcomes.toList.map (fun o => (o.line.text, o.status)) =
        kept.map (fun o => (o.line.text, o.status)) ∧
      (∀ o ∈ e'.outcomes.toList, o.binds) ∧
      e'.bindings = e.bindings ∧
      e'.fallbacks.toList.map Fallback.subject = e.fallbacks.toList.map Fallback.subject := by
  intro e
  refine ⟨fun keep shorter hkeep hlines => evaluate_of_kept hkeep hlines, ?_⟩
  intro kept e'
  have htexts := map_text_lines_kept settings document Outcome.binds
  obtain ⟨hstatus, hbindings, hsubjects⟩ :=
    evaluate_of_kept (fun _ _ (h : Outcome.binds _) => h) htexts
  have hlines : e'.outcomes.toList.map (fun o => o.line.text) = kept.map fun o => o.line.text := by
    rw [← htexts, ← map_line_evaluate settings, List.map_map]
    rfl
  have hbinds : ∀ o ∈ kept, o.binds := fun o ho => (List.mem_filter.1 ho).2
  exact ⟨map_text_status hlines hstatus, forall_binds_of_map_status hstatus hbinds, hbindings,
    hsubjects⟩

/-- A note and a faulty line between two others may be left out, and the lines may
    end otherwise. -/
theorem evaluate_without_note_and_fault :
    (∀ o ∈ (evaluate {} "a = 1 +/- 0.5\n# note\nb = c\nb = a").outcomes.toList,
      o.binds → o.binds) ∧
    (Text.lines "a = 1 +/- 0.5\rb = a").map Line.text =
      ((evaluate {} "a = 1 +/- 0.5\n# note\nb = c\nb = a").outcomes.toList.filter
        Outcome.binds).map (fun o => o.line.text) ∧
    (evaluate {} "a = 1 +/- 0.5\rb = a").bindings =
      (evaluate {} "a = 1 +/- 0.5\n# note\nb = c\nb = a").bindings := by
  have hlines : (Text.lines "a = 1 +/- 0.5\rb = a").map Line.text =
      ((evaluate {} "a = 1 +/- 0.5\n# note\nb = c\nb = a").outcomes.toList.filter
        Outcome.binds).map (fun o => o.line.text) := by decide +kernel
  obtain ⟨hkept, -⟩ := evaluate_without_idle_lines {} "a = 1 +/- 0.5\n# note\nb = c\nb = a"
  exact ⟨fun _ _ h => h, hlines, (hkept Outcome.binds _ (fun _ _ h => h) hlines).2.1⟩

end Evaluation

end Notebook
