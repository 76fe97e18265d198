/-
  Documents as lines with their endings.

  A document is given by the texts of its lines and by what ends each of them.
  Three endings are known, and they may be mixed; only a line feed after a lone
  carriage return would be read as a part of that ending.  Whatever the endings
  are, the same lines are read, and what becomes of them is the same.

  * `Ending`, `Ending.join`, `Ending.Apart`: endings, the document of lines with
    endings, and that no ending runs into the next one;
  * `Ending.map_text_lines_join`, `Text.map_text_lines`: the lines of such a document;
  * `Evaluation.evaluate_of_numbered`: the numbers and the texts of the lines decide
    all of an evaluation but the byte offsets;
  * `Evaluation.evaluate_endings`: the endings do not matter.
-/
import Mathlib.Data.List.Chain
import Notebook.Proofs.Evaluation
import Notebook.Proofs.Line

namespace Notebook

/-- What can end a line. -/
inductive Ending where
  | feed
  | carriage
  | both
  deriving DecidableEq, Repr

namespace Ending

/-- The characters of an ending. -/
def text : Ending → Text
  | feed => ['\n']
  | carriage => ['\r']
  | both => ['\r', '\n']

/-- The document of lines, each with its ending. -/
def join (lines : List (Text × Ending)) : Text := lines.flatMap fun l => l.1 ++ l.2.text

/-- A carriage return that ends a line is not followed by a line feed, which would
    be a part of the same ending. -/
def Apart (lines : List (Text × Ending)) : Prop :=
  lines.IsChain fun l next => l.2 = .carriage → (next.1 ++ next.2.text).head? ≠ some '\n'

instance (lines : List (Text × Ending)) : Decidable (Apart lines) :=
  inferInstanceAs (Decidable (List.IsChain _ lines))

theorem join_cons (l : Text × Ending) (lines : List (Text × Ending)) :
    join (l :: lines) = l.1 ++ (l.2.text ++ join lines) := by
  simp [join]

theorem head?_join_of_apart {l : Text × Ending} {lines : List (Text × Ending)}
    (h : Apart (l :: lines)) (hl : l.2 = .carriage) : (join lines).head? ≠ some '\n' := by
  cases lines with
  | nil => simp [join]
  | cons next lines =>
    have hne : next.1 ++ next.2.text ≠ [] := by cases next.2 <;> simp [text]
    rw [join_cons, ← List.append_assoc, List.head?_append_of_ne_nil _ hne]
    exact (List.isChain_cons_cons.1 h).1 hl

end Ending

/-! ## Reading -/

namespace Line

theorem collect_of_not_isEnding (done : Array Line) (start : Nat) (taken : Text) {c : Char}
    (hc : ¬ isEnding c) (rest : Text) :
    collect done start taken (c :: rest) = collect done start (c :: taken) rest := by
  rw [collect, if_neg hc]
  rintro rest rfl -
  exact hc rfl

theorem collect_append (done : Array Line) (start : Nat) (taken : Text) {t : Text}
    (ht : ∀ c ∈ t, ¬ isEnding c) (rest : Text) :
    collect done start taken (t ++ rest) = collect done start (t.reverse ++ taken) rest := by
  induction t generalizing taken with
  | nil => rfl
  | cons c t ih =>
    obtain ⟨hc, ht⟩ := List.forall_mem_cons.1 ht
    rw [List.cons_append, collect_of_not_isEnding _ _ _ hc, ih _ ht]
    simp

theorem collect_of_isEnding (done : Array Line) (start : Nat) (taken : Text) {c : Char}
    (hc : isEnding c) {rest : Text} (hrest : c = '\r' → rest.head? ≠ some '\n') :
    collect done start taken (c :: rest) =
      collect (done.push (close done start taken)) ((close done start taken).span.stop + 1) []
        rest := by
  -- the look ahead after a carriage return finds no line feed
  rw [collect, if_pos hc]
  rintro rest' rfl rfl
  exact hrest rfl rfl

theorem collect_ending (done : Array Line) (start : Nat) (taken : Text) (ending : Ending)
    {rest : Text} (hrest : ending = .carriage → rest.head? ≠ some '\n') :
    collect done start taken (ending.text ++ rest) =
      let line := close done start taken
      collect (done.push line) (line.span.stop + ending.text.length) [] rest := by
  cases ending with
  | both => rfl
  | feed => exact collect_of_isEnding _ _ _ rfl fun h => absurd h (by decide)
  | carriage => exact collect_of_isEnding _ _ _ rfl fun _ => hrest rfl

theorem map_text_collect_join (done : Array Line) (start : Nat) {lines : List (Text × Ending)}
    (hwhole : ∀ t ∈ lines.map Prod.fst, ∀ c ∈ t, ¬ isEnding c) (hapart : Ending.Apart lines) :
    (collect done start [] (Ending.join lines)).toList.map text =
      done.toList.map text ++ lines.map Prod.fst := by
  induction lines generalizing done start with
  | nil => simp [Ending.join, collect]
  | cons l lines ih =>
    obtain ⟨hl, hwhole⟩ := List.forall_mem_cons.1 hwhole
    rw [Ending.join_cons, collect_append _ _ _ hl,
      collect_ending _ _ _ _ (Ending.head?_join_of_apart hapart), ih _ _ hwhole hapart.tail]
    simp [close]

end Line

/-- **The lines of a document** are the texts that it was made of, whatever ends
    each of them. -/
theorem Ending.map_text_lines_join {lines : List (Text × Ending)} {texts : List Text}
    (htexts : lines.map Prod.fst = texts) (hwhole : ∀ t ∈ texts, ∀ c ∈ t, ¬ Line.isEnding c)
    (hapart : Apart lines) : (Text.lines (join lines)).map Line.text = texts := by
  subst htexts
  rw [Text.lines, Line.map_text_collect_join _ _ hwhole hapart]
  rfl

theorem Ending.apart_of_ne_carriage {lines : List (Text × Ending)}
    (h : ∀ l ∈ lines, l.2 ≠ .carriage) : Apart lines :=
  (List.pairwise_of_forall_mem_list fun l hl _ _ hc => absurd hc (h l hl)).isChain

theorem Text.map_text_lines {texts : List Text}
    (h : ∀ t ∈ texts, ∀ c ∈ t, ¬ Line.isEnding c) :
    (Text.lines (texts.flatMap fun t => t ++ ['\n'])).map Line.text = texts := by
  have hjoin : (texts.flatMap fun t => t ++ ['\n']) =
      Ending.join (texts.map fun t => (t, .feed)) := by
    rw [Ending.join, List.flatMap_map]
    rfl
  have hapart : Ending.Apart (texts.map fun t => (t, .feed)) :=
    Ending.apart_of_ne_carriage (by simp)
  rw [hjoin]
  exact Ending.map_text_lines_join (by simp [List.map_map, Function.comp_def]) h hapart

/-! ## Evaluation -/

/-- A line by its number and its text, without its place in the document. -/
def Line.numbered (l : Line) : Nat × Text := (l.span.line, l.text)

/-- What became of a line, by its number and its text. -/
def Outcome.numbered (o : Outcome) : (Nat × Text) × Status := (o.line.numbered, o.status)

/-- A warning, by the number of its line. -/
def Fallback.numbered (f : Fallback) : Nat × Text × Text := (f.span.line, f.subject)

theorem Text.map_numbered_lines {document : Text} {texts : List Text}
    (h : (Text.lines document).map Line.text = texts) :
    (Text.lines document).map Line.numbered = (List.range' 1 texts.length).zip texts := by
  rw [← h, List.length_map, ← Text.map_line_lines, List.zip_map']
  rfl

namespace Evaluation

theorem map_numbered_fallbacksOf (lines : List Line) :
    (fallbacksOf lines).map Fallback.numbered =
      (lines.map Line.numbered).flatMap fun l =>
        (Entry.ofText l.2).misread.map fun subject => (l.1, subject) := by
  rw [fallbacksOf, List.map_flatMap, List.flatMap_map]
  congr 1
  funext line
  dsimp only [Line.numbered]
  rw [← Entry.map_subject_fallbacks line.span, List.map_map]
  refine List.map_congr_left fun f hf => ?_
  rw [Fallback.numbered, Entry.span_of_mem_fallbacks hf]
  rfl

/-- **The numbers and the texts of the lines decide everything but the byte
    offsets.** -/
theorem evaluate_of_numbered (settings : Settings) {document : Text} {texts : List Text}
    (h : (Text.lines document).map Line.text = texts) :
    let e := evaluate settings document
    let numbered := (List.range' 1 texts.length).zip texts
    e.outcomes.toList.map Outcome.numbered =
        numbered.zip (statusesOf settings .empty texts) ∧
      e.fallbacks.toList.map Fallback.numbered = numbered.flatMap fun l =>
        (Entry.ofText l.2).misread.map fun subject => (l.1, subject) := by
  intro e numbered
  have hnumbered : (Text.lines document).map Line.numbered = numbered := Text.map_numbered_lines h
  constructor
  · rw [← hnumbered, ← (evaluate_of_texts settings h).1, ← map_line_evaluate settings,
      List.map_map, List.zip_map']
    rfl
  · rw [← hnumbered, ← map_numbered_fallbacksOf, fallbacks_evaluate]

/-- **Line endings do not matter.**  Two documents with the same lines, ended in any
    two ways, are read as these lines; the same names are bound, to the same
    measurements and in the same order; each line has the same number and outcome, and
    the same warnings are given. -/
theorem evaluate_endings (settings : Settings) {texts : List Text}
    (hwhole : ∀ t ∈ texts, ∀ c ∈ t, ¬ Line.isEnding c) {lines lines' : List (Text × Ending)}
    (htexts : lines.map Prod.fst = texts) (htexts' : lines'.map Prod.fst = texts)
    (hapart : Ending.Apart lines) (hapart' : Ending.Apart lines') :
    let document := Ending.join lines
    let document' := Ending.join lines'
    let e := evaluate settings document
    let e' := evaluate settings document'
    (Text.lines document).map Line.text = texts ∧
      (Text.lines document').map Line.text = texts ∧
      e.bindings = e'.bindings ∧
      e.outcomes.toList.map Outcome.numbered = e'.outcomes.toList.map Outcome.numbered ∧
      e.fallbacks.toList.map Fallback.numbered = e'.fallbacks.toList.map Fallback.numbered := by
  intro document document' e e'
  have hlines : (Text.lines document).map Line.text = texts :=
    Ending.map_text_lines_join htexts hwhole hapart
  have hlines' : (Text.lines document').map Line.text = texts :=
    Ending.map_text_lines_join htexts' hwhole hapart'
  obtain ⟨-, hbindings, -⟩ := evaluate_of_texts settings hlines
  obtain ⟨-, hbindings', -⟩ := evaluate_of_texts settings hlines'
  obtain ⟨houtcomes, hfallbacks⟩ := evaluate_of_numbered settings hlines
  obtain ⟨houtcomes', hfallbacks'⟩ := evaluate_of_numbered settings hlines'
  exact ⟨hlines, hlines', hbindings.trans hbindings'.symm, houtcomes.trans houtcomes'.symm,
    hfallbacks.trans hfallbacks'.symm⟩

/-- The endings of three lines, one of them empty, and each of them another. -/
theorem evaluate_mixed_endings :
    let lines : List (Text × Ending) := [("a = 1 +/- .", .carriage), ("", .both), ("b = a", .feed)]
    let lines' : List (Text × Ending) := [("a = 1 +/- .", .feed), ("", .feed), ("b = a", .carriage)]
    (∀ t ∈ lines.map Prod.fst, ∀ c ∈ t, ¬ Line.isEnding c) ∧
      lines'.map Prod.fst = lines.map Prod.fst ∧ Ending.Apart lines ∧ Ending.Apart lines' ∧
      Ending.join lines = "a = 1 +/- .\r\r\nb = a\n".toList ∧
      (evaluate {} (Ending.join lines)).bindings = (evaluate {} (Ending.join lines')).bindings ∧
      (evaluate {} (Ending.join lines)).fallbacks.toList.map Fallback.numbered =
        (evaluate {} (Ending.join lines')).fallbacks.toList.map Fallback.numbered := by
  intro lines lines'
  have hwhole : ∀ t ∈ lines.map Prod.fst, ∀ c ∈ t, ¬ Line.isEnding c := by
    simp [lines, Line.isEnding]
  have hapart : Ending.Apart lines := by decide
  have hapart' : Ending.Apart lines' := by decide
  have htexts : lines'.map Prod.fst = lines.map Prod.fst := rfl
  obtain ⟨-, -, hbindings, -, hfallbacks⟩ := evaluate_endings {} hwhole rfl htexts hapart hapart'
  exact ⟨hwhole, htexts, hapart, hapart', rfl, hbindings, hfallbacks⟩

end Evaluation

end Notebook
