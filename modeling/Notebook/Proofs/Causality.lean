/-
  A notebook that is still being typed.

  What follows a text never changes what became of the lines above it: neither a
  name bound further down nor the rest of a line ending that has been cut in two
  reaches back.  So a name that is bound below a line only is not bound for it.

  * `fallbacksOf_filter_le`, `fallbacksOf_filter_lt`: the warnings about lines
    stand under the numbers of these lines;
  * `evaluate_append_causal`: the outcomes and the warnings of the lines that a
    text closes, and the names it binds, are there after every continuation.
-/
import Notebook.Proofs.Evaluation
import Notebook.Proofs.Line

namespace Notebook

namespace Evaluation

theorem mem_fallbacksOf {lines : List Line} {f : Fallback} (h : f ∈ fallbacksOf lines) :
    ∃ line ∈ lines, f.span = line.span := by
  obtain ⟨line, hline, hf⟩ := List.mem_flatMap.1 h
  exact ⟨line, hline, Entry.span_of_mem_fallbacks hf⟩

theorem fallbacksOf_filter_le {k : Nat} {lines : List Line}
    (h : ∀ l ∈ lines, l.span.line ≤ k) :
    (fallbacksOf lines).filter (fun f => f.span.line ≤ k) = fallbacksOf lines := by
  rw [List.filter_eq_self]
  intro f hf
  obtain ⟨line, hline, hspan⟩ := mem_fallbacksOf hf
  simpa [hspan] using h line hline

theorem fallbacksOf_filter_lt {k : Nat} {lines : List Line}
    (h : ∀ l ∈ lines, k < l.span.line) :
    (fallbacksOf lines).filter (fun f => f.span.line ≤ k) = [] := by
  rw [List.filter_eq_nil_iff]
  intro f hf
  obtain ⟨line, hline, hspan⟩ := mem_fallbacksOf hf
  simpa [hspan] using h line hline

section
variable {settings : Settings} {t : Text} {above below : List Line}

/-- The evaluation of the first lines of a document is a part of its evaluation. -/
theorem take_outcomes_evaluate (h : Text.lines t = above ++ below) :
    (evaluate settings t).outcomes.toList.take above.length =
      outcomesOf settings .empty above := by
  rw [outcomes_evaluate, h, outcomesOf_append]
  exact List.take_left' (by simp)

theorem filter_fallbacks_evaluate (h : Text.lines t = above ++ below) :
    (evaluate settings t).fallbacks.toList.filter (fun f => f.span.line ≤ above.length) =
      fallbacksOf above := by
  obtain ⟨habove, hbelow⟩ := Text.line_of_lines_eq_append h
  rw [fallbacks_evaluate, h, fallbacksOf_append, List.filter_append,
    fallbacksOf_filter_le habove, fallbacksOf_filter_lt hbelow, List.append_nil]

theorem length_le_outcomes_evaluate (h : Text.lines t = above ++ below) :
    above.length ≤ (evaluate settings t).outcomes.size := by
  rw [← Array.length_toList, outcomes_evaluate, length_outcomesOf, h]
  simp

theorem names_prefix_evaluate (h : Text.lines t = above ++ below) :
    (Bindings.empty.bindAll (history (outcomesOf settings .empty above))).names <+:
      (evaluate settings t).bindings.names := by
  rw [bindings_evaluate, outcomes_evaluate, h, outcomesOf_append, history_append,
    Bindings.bindAll_append]
  exact Bindings.names_prefix_bindAll _ _

end

/-- **The pass is causal.**  Let a text close `k` lines.  Whatever follows it, be it
    the line feed of a line ending that is cut in two, the first `k` outcomes stay
    as they are, and so do the warnings about these lines.  If the text ends in a
    line ending, the names it binds are the first names of every continuation.  And
    what becomes of a line follows from its own text and the bindings made above it,
    among which no name is found that is bound further down only. -/
theorem evaluate_append_causal (settings : Settings) (p s : Text) :
    let k := Text.endings p
    let e := evaluate settings p
    let e' := evaluate settings (p ++ s)
    k ≤ e.outcomes.size ∧ k ≤ e'.outcomes.size ∧
    e.outcomes.toList.take k = e'.outcomes.toList.take k ∧
    e.fallbacks.toList.filter (fun f => f.span.line ≤ k) =
      e'.fallbacks.toList.filter (fun f => f.span.line ≤ k) ∧
    (∀ c, p.getLast? = some c → Line.isEnding c → e.bindings.names <+: e'.bindings.names) ∧
    ∀ above o below, e'.outcomes.toList = above ++ o :: below →
      let b := Bindings.empty.bindAll (history above)
      o.status = (Entry.ofText o.line.text).status settings b ∧
        ∀ name, (∀ o' ∈ above, ∀ m, o'.status.binding? ≠ some (name, m)) →
          b.get? name = none := by
  intro k e e'
  obtain ⟨closed, rest, more, hk, hp, hps, hrest⟩ := Scan.lines_append p s
  have hk' : k = closed.length := hk.symm
  rw [hk']
  refine ⟨length_le_outcomes_evaluate hp, length_le_outcomes_evaluate hps, ?_, ?_, ?_, ?_⟩
  · rw [take_outcomes_evaluate hp, take_outcomes_evaluate hps]
  · rw [filter_fallbacks_evaluate hp, filter_fallbacks_evaluate hps]
  · intro c hc hending
    have hclosed : Text.lines p = closed := by rw [hp, hrest c hc hending, List.append_nil]
    have hbindings : e.bindings =
        Bindings.empty.bindAll (history (outcomesOf settings .empty closed)) := by
      rw [← hclosed, ← outcomes_evaluate]
      exact bindings_evaluate settings p
    rw [hbindings]
    exact names_prefix_evaluate hps
  · intro above o below h
    have hstatus := status_of_outcomesOf ((outcomes_evaluate settings (p ++ s)).symm.trans h)
    exact ⟨hstatus, fun name => (get?_history_eq_none_iff above name).2⟩

end Evaluation

end Notebook
