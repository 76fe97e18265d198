/-
  The pass over the lines, as a function of the lines.

  The evaluation keeps three records side by side: the names bound, what became
  of each line, and the warnings.  Only the first is ever read again.  Here each
  record is given by itself, as a function of the lines (`foldl_step`), and the
  names are shown to follow from what became of the lines.

  * `outcomesOf`: what becomes of lines, given the names bound above them;
  * `history`: the bindings that lines made;
  * `outcomesOf_append`, `status_of_outcomesOf`: lines see the lines above them
    through the names only;
  * `bindings_evaluate`, `lookup_history_iff`: the names at the end, read off what
    became of each line;
  * `bindings_determined_by_outcomes`: all of it, for a document;
  * `evaluate_of_texts`: the texts of the lines decide everything but the places.
-/
import Notebook.Evaluation
import Notebook.Proofs.Bindings

namespace Notebook

namespace Evaluation

/-! ## The three records -/

/-- The bindings that lines made, the first one first. -/
def history (outcomes : List Outcome) : List (Text × Measurement) :=
  outcomes.filterMap fun o => o.status.binding?

/-- What becomes of lines, given the names bound above the first of them. -/
def outcomesOf (settings : Settings) (b : Bindings) : List Line → List Outcome
  | [] => []
  | line :: lines =>
    let status := (Entry.ofText line.text).status settings b
    ⟨line, status⟩ :: outcomesOf settings (status.bind b) lines

/-- The warnings about lines. -/
def fallbacksOf (lines : List Line) : List Fallback :=
  lines.flatMap fun line => (Entry.ofText line.text).fallbacks line.span

theorem status_bind (b : Bindings) (status : Status) :
    status.bind b = b.bindAll status.binding?.toList := by
  unfold Status.bind
  cases status.binding? <;> rfl

theorem history_cons (o : Outcome) (outcomes : List Outcome) :
    history (o :: outcomes) = o.status.binding?.toList ++ history outcomes := by
  unfold history
  cases h : o.status.binding? <;> simp [h]

theorem history_append (outcomes later : List Outcome) :
    history (outcomes ++ later) = history outcomes ++ history later :=
  List.filterMap_append

/-- **The pass over lines** puts their outcomes and their warnings at the end of
    the records, and their bindings on top of the names. -/
theorem foldl_step (settings : Settings) (e : Evaluation) (lines : List Line) :
    lines.foldl (step settings) e =
      { bindings := e.bindings.bindAll (history (outcomesOf settings e.bindings lines))
        outcomes := e.outcomes ++ outcomesOf settings e.bindings lines
        fallbacks := e.fallbacks ++ fallbacksOf lines } := by
  induction lines generalizing e with
  | nil => simp [outcomesOf, history, fallbacksOf]
  | cons line lines ih =>
    rw [List.foldl_cons, ih]
    simp only [step, outcomesOf, history_cons, Bindings.bindAll_append, ← status_bind,
      Array.appendList_cons, mk.injEq, true_and]
    exact Array.ext' (by simp [fallbacksOf])

/-- Lines see the lines above them through the names these have bound, and
    through nothing else. -/
theorem outcomesOf_append (settings : Settings) (b : Bindings) (lines later : List Line) :
    outcomesOf settings b (lines ++ later) =
      outcomesOf settings b lines ++
        outcomesOf settings (b.bindAll (history (outcomesOf settings b lines))) later := by
  induction lines generalizing b with
  | nil => rfl
  | cons line lines ih =>
    simp only [List.cons_append, outcomesOf, ih, history_cons, Bindings.bindAll_append,
      ← status_bind]

/-- What becomes of a line is a matter of its text and of the bindings that the
    lines above it made. -/
theorem status_of_outcomesOf {settings : Settings} {b : Bindings} {lines : List Line}
    {above below : List Outcome} {o : Outcome}
    (h : outcomesOf settings b lines = above ++ o :: below) :
    o.status = (Entry.ofText o.line.text).status settings (b.bindAll (history above)) := by
  induction above generalizing b lines with
  | nil =>
    cases lines with
    | nil => cases h
    | cons line lines =>
      obtain ⟨rfl, -⟩ := List.cons.inj h
      rfl
  | cons o' above ih =>
    cases lines with
    | nil => cases h
    | cons line lines =>
      obtain ⟨rfl, hlines⟩ := List.cons.inj h
      rw [ih hlines, history_cons, Bindings.bindAll_append, ← status_bind]

/-- What holds before the first line, and after each line if it holds before it,
    holds above any line. -/
theorem above_induction {settings : Settings} {P : List Outcome → Bindings → Prop}
    {b : Bindings} {lines : List Line} {above below : List Outcome} (nil : P [] b)
    (line : ∀ above b line, P above b →
      let status := (Entry.ofText line.text).status settings b
      P (above ++ [⟨line, status⟩]) (status.bind b))
    (h : outcomesOf settings b lines = above ++ below) :
    P above (b.bindAll (history above)) := by
  -- the lines before those of `lines` are `past`
  suffices ∀ past, P past b → P (past ++ above) (b.bindAll (history above)) from this [] nil
  clear nil
  induction above generalizing b lines with
  | nil => exact fun past hpast => by simpa [history] using hpast
  | cons o above ih =>
    intro past hpast
    cases lines with
    | nil => cases h
    | cons first lines =>
      obtain ⟨rfl, hlines⟩ := List.cons.inj h
      rw [history_cons, Bindings.bindAll_append, ← status_bind, List.append_cons]
      exact ih hlines _ (line past b first hpast)

theorem map_line_outcomesOf (settings : Settings) (b : Bindings) (lines : List Line) :
    (outcomesOf settings b lines).map Outcome.line = lines := by
  induction lines generalizing b with
  | nil => rfl
  | cons line lines ih => simp [outcomesOf, ih]

@[simp] theorem length_outcomesOf (settings : Settings) (b : Bindings) (lines : List Line) :
    (outcomesOf settings b lines).length = lines.length := by
  rw [← List.length_map Outcome.line, map_line_outcomesOf]

theorem fallbacksOf_append (lines later : List Line) :
    fallbacksOf (lines ++ later) = fallbacksOf lines ++ fallbacksOf later :=
  List.flatMap_append

/-! ## The evaluation of a document -/

section
variable (settings : Settings) (document : Text)

theorem outcomes_evaluate :
    (evaluate settings document).outcomes.toList =
      outcomesOf settings .empty (Text.lines document) := by
  simp [evaluate, foldl_step]

theorem map_line_evaluate :
    (evaluate settings document).outcomes.toList.map Outcome.line = Text.lines document := by
  rw [outcomes_evaluate, map_line_outcomesOf]

theorem fallbacks_evaluate :
    (evaluate settings document).fallbacks.toList = fallbacksOf (Text.lines document) := by
  simp [evaluate, foldl_step]

theorem bindings_evaluate :
    (evaluate settings document).bindings =
      Bindings.empty.bindAll (history (evaluate settings document).outcomes.toList) := by
  rw [outcomes_evaluate, evaluate, foldl_step]

end

/-! ## Reading the names off the outcomes -/

/-- The last binding of a name is made by a line after which no line binds it. -/
theorem lookup_history_iff (outcomes : List Outcome) (name : Text) (m : Measurement) :
    (history outcomes).reverse.lookup name = some m ↔
      ∃ before o after, outcomes = before ++ o :: after ∧ o.status.binding? = some (name, m) ∧
        ∀ o' ∈ after, ∀ m', o'.status.binding? ≠ some (name, m') := by
  rw [Bindings.lookup_reverse_eq_some_iff]
  constructor
  · rintro ⟨l₁, l₂, h, hne⟩
    obtain ⟨o₁, o₂, rfl, -, h₂⟩ := List.filterMap_eq_append_iff.1 h
    obtain ⟨quiet, o, after, rfl, -, ho, rfl⟩ := List.filterMap_eq_cons_iff.1 h₂
    refine ⟨o₁ ++ quiet, o, after, by simp, ho, fun o' ho' m' hm' => hne ?_⟩
    exact List.mem_map.2 ⟨_, List.mem_filterMap.2 ⟨o', ho', hm'⟩, rfl⟩
  · rintro ⟨before, o, after, rfl, ho, hafter⟩
    refine ⟨history before, history after, by simp [history_append, history_cons, ho], ?_⟩
    intro hmem
    obtain ⟨e, he, rfl⟩ := List.mem_map.1 hmem
    obtain ⟨o', ho', he'⟩ := List.mem_filterMap.1 he
    exact hafter o' ho' e.2 he'

theorem map_fst_history (outcomes : List Outcome) :
    (history outcomes).map Prod.fst =
      outcomes.filterMap fun o => o.status.binding?.map Prod.fst := by
  simp only [history, List.map_filterMap]

theorem get?_history_eq_none_iff (outcomes : List Outcome) (name : Text) :
    (Bindings.empty.bindAll (history outcomes)).get? name = none ↔
      ∀ o ∈ outcomes, ∀ m, o.status.binding? ≠ some (name, m) := by
  rw [Bindings.get?_eq_none_iff, Bindings.names_bindAll, map_fst_history, List.mem_eraseDups]
  simp [List.mem_filterMap, Option.map_eq_some_iff]

theorem history_filter {keep : Outcome → Bool} {outcomes : List Outcome}
    (h : ∀ o ∈ outcomes, o.status.binding?.isSome → keep o) :
    history (outcomes.filter keep) = history outcomes := by
  induction outcomes with
  | nil => rfl
  | cons o outcomes ih =>
    obtain ⟨ho, hs⟩ := List.forall_mem_cons.1 h
    rw [List.filter_cons, history_cons]
    split
    · rw [history_cons, ih hs]
    · next hdropped =>
      have hidle : o.status.binding? = none := by simpa using mt ho hdropped
      rw [hidle, ih hs]
      rfl

theorem foldl_bind_eq_bindAll (b : Bindings) (outcomes : List Outcome) :
    outcomes.foldl (fun b o => o.status.bind b) b = b.bindAll (history outcomes) := by
  induction outcomes generalizing b with
  | nil => rfl
  | cons o outcomes ih =>
    rw [List.foldl_cons, ih, status_bind, history_cons, Bindings.bindAll_append]

/-- **The names of an evaluation are determined by what became of its lines.**  A
    name has the measurement of the last line that bound it, and none if no line
    did; the names are those that lines bound, each once, in the order of the
    first such line; and the lines that bound nothing may as well not be there. -/
theorem bindings_determined_by_outcomes (settings : Settings) (document : Text) :
    let e := evaluate settings document
    (∀ name m, e.bindings.get? name = some m ↔
      ∃ before o after, e.outcomes.toList = before ++ o :: after ∧
        o.status.binding? = some (name, m) ∧
        ∀ o' ∈ after, ∀ m', o'.status.binding? ≠ some (name, m')) ∧
    (∀ name, e.bindings.get? name = none ↔
      ∀ o ∈ e.outcomes.toList, ∀ m, o.status.binding? ≠ some (name, m)) ∧
    e.bindings.names =
      (e.outcomes.toList.filterMap fun o => o.status.binding?.map Prod.fst).eraseDups ∧
    e.bindings =
      (e.outcomes.toList.filter fun o => o.status.binding?.isSome).foldl
        (fun b o => o.status.bind b) .empty := by
  intro e
  have hb : e.bindings = Bindings.empty.bindAll (history e.outcomes.toList) :=
    bindings_evaluate settings document
  refine ⟨fun name m => ?_, fun name => ?_, ?_, ?_⟩
  · rw [hb, Bindings.get?_bindAll, lookup_history_iff]
  · rw [hb, get?_history_eq_none_iff]
  · rw [hb, Bindings.names_bindAll, map_fst_history]
  · rw [foldl_bind_eq_bindAll, history_filter fun _ _ h => h, hb]

end Evaluation

/-! ## Lines without their places -/

/-- What a warning is about, wherever its line stands: a name and the text of a
    literal. -/
def Fallback.subject (f : Fallback) : Text × Text := (f.name, f.literal)

/-- The literals of an entry that are not numbers, with the name it binds. -/
def Entry.misread : Entry → List (Text × Text)
  | definition name value uncertainty =>
    ([value, uncertainty].filter Literal.isFallback).map fun l => (name, l.text)
  | blank | derivation .. | unrecognized => []

theorem Entry.map_subject_fallbacks (span : Span) (entry : Entry) :
    (entry.fallbacks span).map Fallback.subject = entry.misread := by
  cases entry with
  | definition name value uncertainty =>
    rw [fallbacks, misread, List.map_map]
    rfl
  | blank | derivation | unrecognized => rfl

theorem Entry.span_of_mem_fallbacks {span : Span} {entry : Entry} {f : Fallback}
    (h : f ∈ entry.fallbacks span) : f.span = span := by
  cases entry with
  | definition name value uncertainty =>
    obtain ⟨l, -, rfl⟩ := List.mem_map.1 h
    rfl
  | blank => cases h
  | derivation name formula => cases h
  | unrecognized => cases h

theorem Entry.misread_eq_nil {entry : Entry} {settings : Settings} {b : Bindings}
    (h : (entry.status settings b).binding? = none) : entry.misread = [] := by
  cases entry with
  | definition => cases h
  | blank | derivation | unrecognized => rfl

namespace Evaluation

/-- What becomes of lines with these texts, given the names bound above the first
    of them. -/
def statusesOf (settings : Settings) (b : Bindings) : List Text → List Status
  | [] => []
  | t :: ts =>
    let status := (Entry.ofText t).status settings b
    status :: statusesOf settings (status.bind b) ts

theorem map_status_outcomesOf (settings : Settings) (b : Bindings) (lines : List Line) :
    (outcomesOf settings b lines).map Outcome.status =
      statusesOf settings b (lines.map Line.text) := by
  induction lines generalizing b with
  | nil => rfl
  | cons line lines ih => simp [outcomesOf, statusesOf, ih]

@[simp] theorem length_statusesOf (settings : Settings) (b : Bindings) (texts : List Text) :
    (statusesOf settings b texts).length = texts.length := by
  induction texts generalizing b with
  | nil => rfl
  | cons t texts ih => rw [statusesOf, List.length_cons, List.length_cons, ih]

/-- The names bound below lines with these texts, given those bound above them. -/
def bindingsOf (settings : Settings) (b : Bindings) (texts : List Text) : Bindings :=
  b.bindAll ((statusesOf settings b texts).filterMap Status.binding?)

@[simp] theorem bindingsOf_nil (settings : Settings) (b : Bindings) :
    bindingsOf settings b [] = b := rfl

theorem bindingsOf_cons (settings : Settings) (b : Bindings) (t : Text) (texts : List Text) :
    bindingsOf settings b (t :: texts) =
      bindingsOf settings (((Entry.ofText t).status settings b).bind b) texts := by
  rw [bindingsOf, bindingsOf, statusesOf, status_bind, ← Bindings.bindAll_append,
    List.filterMap_cons]
  cases ((Entry.ofText t).status settings b).binding? <;> rfl

theorem bindingsOf_append (settings : Settings) (b : Bindings) (texts later : List Text) :
    bindingsOf settings b (texts ++ later) =
      bindingsOf settings (bindingsOf settings b texts) later := by
  induction texts generalizing b with
  | nil => rfl
  | cons t texts ih => rw [List.cons_append, bindingsOf_cons, ih, bindingsOf_cons]

theorem statusesOf_append (settings : Settings) (b : Bindings) (texts later : List Text) :
    statusesOf settings b (texts ++ later) =
      statusesOf settings b texts ++
        statusesOf settings (bindingsOf settings b texts) later := by
  induction texts generalizing b with
  | nil => rfl
  | cons t texts ih => rw [List.cons_append, statusesOf, ih, bindingsOf_cons]; rfl

theorem history_eq_filterMap (outcomes : List Outcome) :
    history outcomes = (outcomes.map Outcome.status).filterMap Status.binding? := by
  rw [List.filterMap_map]
  rfl

theorem map_subject_fallbacksOf (lines : List Line) :
    (fallbacksOf lines).map Fallback.subject =
      (lines.map Line.text).flatMap fun t => (Entry.ofText t).misread := by
  rw [fallbacksOf, List.map_flatMap, List.flatMap_map]
  congr 1
  funext line
  exact Entry.map_subject_fallbacks line.span (Entry.ofText line.text)

theorem bindings_evaluate_of_texts (settings : Settings) {document : Text} {texts : List Text}
    (h : (Text.lines document).map Line.text = texts) :
    (evaluate settings document).bindings = bindingsOf settings .empty texts := by
  rw [bindings_evaluate, outcomes_evaluate, history_eq_filterMap, map_status_outcomesOf, h]
  rfl

theorem map_text_status_evaluate (settings : Settings) {document : Text} {texts : List Text}
    (h : (Text.lines document).map Line.text = texts) :
    (evaluate settings document).outcomes.toList.map (fun o => (o.line.text, o.status)) =
      texts.zip (statusesOf settings .empty texts) := by
  rw [← h, ← map_status_outcomesOf, ← outcomes_evaluate, ← map_line_evaluate settings,
    List.map_map, List.zip_map']
  rfl

/-- **The texts of the lines decide everything but the places**: what becomes of
    the lines, the names bound, and what the warnings are about. -/
theorem evaluate_of_texts (settings : Settings) {document : Text} {texts : List Text}
    (h : (Text.lines document).map Line.text = texts) :
    let e := evaluate settings document
    e.outcomes.toList.map Outcome.status = statusesOf settings .empty texts ∧
    e.bindings =
      Bindings.empty.bindAll ((statusesOf settings .empty texts).filterMap Status.binding?) ∧
    e.fallbacks.toList.map Fallback.subject =
      texts.flatMap fun t => (Entry.ofText t).misread := by
  intro e
  have hstatus : e.outcomes.toList.map Outcome.status = statusesOf settings .empty texts := by
    rw [← h, ← map_status_outcomesOf, ← outcomes_evaluate]
  refine ⟨hstatus, ?_, ?_⟩
  · rw [← hstatus, ← history_eq_filterMap]
    exact bindings_evaluate settings document
  · rw [← h, ← map_subject_fallbacksOf, ← fallbacks_evaluate]

end Evaluation

end Notebook
