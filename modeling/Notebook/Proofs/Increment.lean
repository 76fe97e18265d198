/-
  Adding a line to a notebook.

  A session evaluates the whole document again after each line that is typed.  That comes
  to one step of the evaluation: the lines that were there keep their places, whatever
  ends the last of them, and nothing else becomes of them.

  * `Line.Partition.ended`: ending the last line of a document does not change its lines;
  * `Document.lines_append`: the lines after adding one are those before it and that one;
  * `Document.evaluate_append`: adding a line is one step of the evaluation, and adding
    lines one after another are as many (`Session.evaluate_run_lines`);
  * `Session.evaluate_added_line`: what that means for the outcomes, the warnings, the
    names and what is noted of the line.
-/
import Notebook.Proofs.Partition
import Notebook.Session

namespace Notebook

/-- **Ending the last line** of a document does not change its lines.  If it ends in a
    carriage return, the line feed becomes a part of that ending. -/
theorem Line.Partition.ended {number start : Nat} {t : Text} {lines : List Line}
    (h : Partition number start t lines) (hne : t ≠ []) (hlast : t.getLast? ≠ some '\n') :
    Partition number start (t ++ ['\n']) lines := by
  induction h with
  | nil => exact absurd rfl hne
  | last number start ht => exact .cons .feed ht (fun h => nomatch h) (.nil _ _)
  | @cons number start t rest lines ending ht hrest h ih =>
    rw [List.append_assoc, List.append_assoc]
    by_cases hnil : rest = []
    · subst hnil
      obtain rfl : lines = [] := h.eq_nil
      cases ending with
      | carriage => exact .cons .both ht (fun h => nomatch h) (.nil _ _)
      | feed | both => simp [Ending.text] at hlast
    · rw [← List.append_assoc, List.getLast?_append_of_ne_nil _ hnil] at hlast
      refine .cons ending ht (fun hcarriage => ?_) (ih hnil hlast)
      rw [List.head?_append_of_ne_nil _ hnil]
      exact hrest hcarriage

namespace Document

/-! ## The lines -/

/-- A document whose last line is ended. -/
def ended (document : Text) : Text :=
  if document.isEmpty ∨ document.getLast? = some '\n' then document else document ++ ['\n']

/-- The place of a line that is added to a document. -/
def nextLine (document t : Text) : Line :=
  Line.place ((Text.lines document).length + 1) (Text.byteSize (ended document)) t

theorem append_eq_ended (document t : Text) : append document t = ended document ++ (t ++ ['\n']) :=
  List.append_assoc _ _ _

theorem partition_ended (document : Text) :
    Line.Partition 1 0 (ended document) (Text.lines document) := by
  have h := Line.partition_lines document
  unfold ended
  split
  · exact h
  · next hopen =>
    rw [not_or, List.isEmpty_iff] at hopen
    exact h.ended hopen.1 hopen.2

theorem getLast?_ended {document : Text} : ∀ c ∈ (ended document).getLast?, c = '\n' := by
  intro c hc
  unfold ended at hc
  split at hc
  · next hclosed =>
    rcases hclosed with hnil | hfeed
    · simp [List.isEmpty_iff.1 hnil] at hc
    · simpa [hfeed, eq_comm] using hc
  · simpa [eq_comm] using hc

/-- **The lines after adding one** are those before it, with their places, and that one. -/
theorem lines_append (document : Text) {t : Text} (ht : ∀ c ∈ t, ¬ Line.isEnding c) :
    Text.lines (append document t) = Text.lines document ++ [nextLine document t] := by
  have hend : ∀ c ∈ (ended document).getLast?, Line.isEnding c := fun c hc =>
    getLast?_ended c hc ▸ rfl
  have hreturn : (ended document).getLast? = some '\r' → (t ++ ['\n']).head? ≠ some '\n' :=
    fun hc => absurd (getLast?_ended _ hc) (by decide)
  have hline : Line.Partition (1 + (Text.lines document).length)
      (0 + Text.byteSize (ended document)) (t ++ ['\n']) [nextLine document t] := by
    rw [Nat.add_comm, Nat.zero_add]
    exact .cons .feed ht (fun h => nomatch h) (.nil _ _)
  rw [append_eq_ended]
  exact ((partition_ended document).append hend hreturn hline).eq_lines.symm

/-! ## The evaluation -/

/-- **Adding a line** is one step of the evaluation. -/
theorem evaluate_append (settings : Settings) (document : Text) {t : Text}
    (ht : ∀ c ∈ t, ¬ Line.isEnding c) :
    evaluate settings (append document t) =
      Evaluation.step settings (evaluate settings document) (nextLine document t) := by
  rw [evaluate, lines_append document ht, List.foldl_concat, evaluate]

end Document

namespace Session

/-- **Adding lines**, one after another, are as many steps of the evaluation. -/
theorem evaluate_run_lines (settings : Settings) (document : Text) {texts : List Text}
    (h : ∀ t ∈ texts, ∀ c ∈ t, ¬ Line.isEnding c) :
    ∃ added : List Line, added.map Line.text = texts ∧
      Text.lines (run document (texts.map .line)) = Text.lines document ++ added ∧
      evaluate settings (run document (texts.map .line)) =
        added.foldl (Evaluation.step settings) (evaluate settings document) := by
  induction texts generalizing document with
  | nil => exact ⟨[], rfl, (List.append_nil _).symm, rfl⟩
  | cons t texts ih =>
    obtain ⟨ht, htexts⟩ := List.forall_mem_cons.1 h
    obtain ⟨added, rfl, hlines, hevaluate⟩ := ih (Document.append document t) htexts
    refine ⟨Document.nextLine document t :: added, rfl, ?_, ?_⟩
    · exact hlines.trans (by rw [Document.lines_append document ht]; simp)
    · exact hevaluate.trans (by rw [Document.evaluate_append settings document ht]; rfl)

theorem lastFault?_step (settings : Settings) (e : Evaluation) (line : Line) :
    lastFault? (Evaluation.step settings e line) =
      ((Entry.ofText line.text).status settings e.bindings).fault?.map fun fault =>
        (line, fault) := by
  simp [lastFault?, Evaluation.step]

/-- What is noted after a change of the document is the fault of its last line. -/
theorem noted_changed_of_lastFault? {settings : Settings} {document : Text} {line : Line}
    {fault : Fault} (h : lastFault? (evaluate settings document) = some (line, fault)) :
    (changed settings document).noted =
      "line " ++ Decimal.figures line.span.line ++ " not bound: " ++ fault.message ++ "\n" := by
  simp [changed, h]

theorem noted_changed_eq_nil {settings : Settings} {document : Text}
    (h : lastFault? (evaluate settings document) = none) :
    (changed settings document).noted = [] := by
  simp [changed, h]

/-- **A line that is added extends the evaluation by its own outcome.**  The lines that
    were there stay as they are, with their places; the line stands below them, and what
    becomes of it follows from the names bound so far.  The outcomes and the warnings of
    the others stay, and the names change by what the line binds, if it binds anything.
    So what is noted is always the fault of the line just typed. -/
theorem evaluate_added_line (settings : Settings) (document : Text) {t : Text}
    (ht : ∀ c ∈ t, ¬ Line.isEnding c) :
    let document' := Document.append document t
    let line := Document.nextLine document t
    let e := evaluate settings document
    let e' := evaluate settings document'
    let status := (Entry.ofText t).status settings e.bindings
    (line.text = t ∧ line.span.line = (Text.lines document).length + 1) ∧
      Text.lines document' = Text.lines document ++ [line] ∧
      e'.outcomes.toList = e.outcomes.toList ++ [⟨line, status⟩] ∧
      e'.fallbacks.toList = e.fallbacks.toList ++ (Entry.ofText t).fallbacks line.span ∧
      e'.bindings = status.bind e.bindings ∧
      lastFault? e' = (status.fault?.map fun fault => (line, fault)) ∧
      (status.fault? = none → (turn settings document (.line t)).noted = []) ∧
      ∀ fault, status.fault? = some fault → (turn settings document (.line t)).noted =
        "line " ++ Decimal.figures line.span.line ++ " not bound: " ++ fault.message ++ "\n" := by
  intro document' line e e' status
  have he' : e' = Evaluation.step settings e line := Document.evaluate_append settings document ht
  have hlast : lastFault? e' = status.fault?.map fun fault => (line, fault) := by
    rw [he', lastFault?_step]
    rfl
  refine ⟨⟨rfl, rfl⟩, Document.lines_append document ht, ?_, ?_, ?_, hlast, fun hnone => ?_,
    fun fault hfault => ?_⟩
  · rw [he']
    exact Array.toList_push
  · rw [he']
    simp [Evaluation.step, line, Document.nextLine, Line.place]
  · rw [he']
    rfl
  · rw [hnone] at hlast
    exact noted_changed_eq_nil hlast
  · rw [hfault] at hlast
    exact noted_changed_of_lastFault? hlast

/-- The line feed that is put before the line goes to the carriage return at the end of
    the document, and no empty line comes of it. -/
theorem evaluate_line_after_return :
    let document : Text := "a = 1 +/- .\r"
    let t : Text := "b = q * a"
    let e' := evaluate {} (Document.append document t)
    (∀ c ∈ t, ¬ Line.isEnding c) ∧
      Document.append document t = "a = 1 +/- .\r\nb = q * a\n".toList ∧
      Text.lines (Document.append document t) =
        [⟨"a = 1 +/- .", 1, 0, 11⟩, ⟨"b = q * a", 2, 13, 22⟩] ∧
      e'.fallbacks.toList = [⟨⟨1, 0, 11⟩, "a", "."⟩] ∧ e'.bindings.names = ["a".toList] ∧
      (turn {} document (.line t)).noted = "line 2 not bound: unknown token 'q'\n".toList := by
  intro document t e'
  have ht : ∀ c ∈ t, ¬ Line.isEnding c := by simp [t, Line.isEnding]
  obtain ⟨-, hlines, -, hfallbacks, hbindings, -, -, hnoted⟩ := evaluate_added_line {} document ht
  have hmessage : ((Entry.ofText t).status {} (evaluate {} document).bindings).fault?.map
      Fault.message = some "unknown token 'q'".toList := by decide +kernel
  obtain ⟨fault, hfault, hmessage⟩ := Option.map_eq_some_iff.1 hmessage
  refine ⟨ht, by decide, hlines.trans (by decide), hfallbacks.trans (by decide +kernel), ?_, ?_⟩
  · rw [hbindings]
    decide +kernel
  · rw [hnoted fault hfault, hmessage]
    decide

end Session

end Notebook
