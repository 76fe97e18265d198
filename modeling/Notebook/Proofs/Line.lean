/-
  The lines of a document, read one character after another.

  The lines are defined with a look at the character after a carriage return.  A
  document that is being typed has no such character yet.  Here the same lines
  are read without looking ahead: a carriage return ends its line at once, and a
  line feed right after it ends nothing, it only moves the next line by a byte.

  * `Scan`, `Scan.step`: the reader and what one character does to it;
  * `collect_eq_finish`, `lines_eq_finish`: it reads the lines of the document;
  * `Scan.Ok`: the closed lines are numbered from one, kept by every step;
  * `Text.endings`, `size_done_ofText`: each ending closes one line;
  * `Text.map_line_lines`: the lines are numbered from one;
  * `lines_append`: the lines that a text closes are the first lines of every
    text that it starts;
  * `Text.not_isEnding_of_mem_lines`: no line holds a line ending.
-/
import Notebook.Line

namespace Notebook

/-- The number of line endings in a text; a carriage return and a line feed
    after it are one. -/
def Text.endings : Text → Nat
  | [] => 0
  | '\r' :: '\n' :: rest => endings rest + 1
  | c :: rest => if Line.isEnding c then endings rest + 1 else endings rest

/-- A document of which some characters have been read. -/
structure Scan where
  /-- The lines that have been closed. -/
  done : Array Line := #[]
  /-- The byte at which the open line starts. -/
  start : Nat := 0
  /-- The characters of the open line, in reverse. -/
  taken : Text := []
  /-- Whether the last character was a carriage return. -/
  afterReturn : Bool := false

namespace Scan

/-- Reads one more character. -/
def step (s : Scan) (c : Char) : Scan :=
  if c = '\n' ∧ s.afterReturn then
    { s with start := s.start + 1, afterReturn := false }
  else if Line.isEnding c then
    let line := Line.close s.done s.start s.taken
    { done := s.done.push line, start := line.span.stop + 1, afterReturn := c == '\r' }
  else { s with taken := c :: s.taken, afterReturn := false }

/-- Reads a text from its first character. -/
def ofText (t : Text) : Scan := t.foldl step {}

/-- The lines if nothing follows: the open line is one of them unless it is empty. -/
def finish (s : Scan) : Array Line :=
  if s.taken.isEmpty then s.done else s.done.push (Line.close s.done s.start s.taken)

theorem ofText_append (p s : Text) : ofText (p ++ s) = s.foldl step (ofText p) :=
  List.foldl_append

/-! ## The reader and the lines -/

/-- The reader after a line that has been closed. -/
def close (s : Scan) : Scan where
  done := s.done.push (Line.close s.done s.start s.taken)
  start := (Line.close s.done s.start s.taken).span.stop + 1

theorem step_of_isEnding {s : Scan} {c : Char} (hs : s.afterReturn = false)
    (hc : Line.isEnding c) : s.step c = { s.close with afterReturn := c == '\r' } := by
  simp [step, hs, hc, close]

theorem step_of_not_isEnding {s : Scan} {c : Char} (hs : s.afterReturn = false)
    (hc : ¬ Line.isEnding c) : s.step c = { s with taken := c :: s.taken } := by
  obtain ⟨done, start, taken, afterReturn⟩ := s
  obtain rfl : afterReturn = false := hs
  simp [step, hc]

/-- A carriage return matters to a line feed only: `f` may be any view of the
    reader that does not show its last character. -/
theorem foldl_step_isEnding {α : Type} (f : Scan → α)
    (hf : ∀ s b, f { s with afterReturn := b } = f s) {s : Scan} {c : Char} {rest : Text}
    (hs : s.afterReturn = false) (hc : Line.isEnding c)
    (hrest : ∀ rest', c = '\r' → rest = '\n' :: rest' → False) :
    f ((c :: rest).foldl step s) = f (rest.foldl step s.close) := by
  rw [List.foldl_cons, step_of_isEnding hs hc]
  cases rest with
  | nil => exact hf _ _
  | cons d rest =>
    have hstep : step { s.close with afterReturn := c == '\r' } d = step s.close d := by
      by_cases hd : d = '\n'
      · have hc' : (c == '\r') = false := by
          simpa using fun h => hrest rest h (by rw [hd])
        rw [hc']
        rfl
      · simp [step, hd, close]
    rw [List.foldl_cons, hstep, List.foldl_cons]

/-- **The reader reads the lines**, from wherever it starts. -/
theorem collect_eq_finish (done : Array Line) (start : Nat) (taken t : Text) :
    Line.collect done start taken t =
      (t.foldl step { done := done, start := start, taken := taken }).finish := by
  fun_induction Line.collect done start taken t with
  | case1 done start taken h => simp [finish, h]
  | case2 done start taken h => simp [finish, h]
  | case3 done start taken rest line ih =>
    rw [ih]
    rfl
  | case4 done start taken c rest hrest hc line ih =>
    rw [ih, foldl_step_isEnding finish (fun _ _ => rfl) rfl hc hrest]
    rfl
  | case5 done start taken c rest hrest hc ih =>
    rw [ih, List.foldl_cons, step_of_not_isEnding rfl hc]

theorem lines_eq_finish (t : Text) : Text.lines t = (ofText t).finish.toList := by
  rw [Text.lines, collect_eq_finish, ofText]

/-! ## What every step keeps -/

/-- The closed lines are numbered from one, and nothing stands after a carriage
    return yet. -/
structure Ok (s : Scan) : Prop where
  numbers : s.done.toList.map (fun l => l.span.line) = List.range' 1 s.done.size
  fresh : s.afterReturn → s.taken = []

theorem Ok.step {s : Scan} (hs : s.Ok) (c : Char) : (s.step c).Ok := by
  unfold Scan.step
  split
  · exact ⟨hs.numbers, fun h => absurd h (by simp)⟩
  · split
    · refine ⟨?_, fun _ => rfl⟩
      simp [hs.numbers, List.range'_1_concat, Line.close, Nat.add_comm]
    · exact ⟨hs.numbers, fun h => absurd h (by simp)⟩

theorem Ok.foldl {s : Scan} (hs : s.Ok) (t : Text) : (t.foldl Scan.step s).Ok := by
  induction t generalizing s with
  | nil => exact hs
  | cons c t ih => exact ih (hs.step c)

theorem ok_ofText (t : Text) : (ofText t).Ok :=
  Ok.foldl ⟨rfl, fun _ => rfl⟩ t

theorem done_prefix_step (s : Scan) (c : Char) : s.done.toList <+: (s.step c).done.toList := by
  unfold step
  split
  · exact List.prefix_rfl
  · split
    · simp
    · exact List.prefix_rfl

theorem done_prefix_foldl (s : Scan) (t : Text) :
    s.done.toList <+: (t.foldl step s).done.toList := by
  induction t generalizing s with
  | nil => exact List.prefix_rfl
  | cons c t ih => exact (s.done_prefix_step c).trans (ih _)

theorem done_prefix_finish (s : Scan) : s.done.toList <+: s.finish.toList := by
  unfold finish
  split
  · exact List.prefix_rfl
  · simp

/-- **Each ending closes one line.** -/
theorem size_done_foldl (s : Scan) (t : Text) (hs : s.afterReturn = false) :
    (t.foldl step s).done.size = s.done.size + Text.endings t := by
  fun_induction Text.endings t generalizing s with
  | case1 => rfl
  | case2 rest ih =>
    have hr : s.step '\r' = { s.close with afterReturn := true } := step_of_isEnding hs rfl
    have hn : (s.step '\r').step '\n' =
        { s.close with start := s.close.start + 1, afterReturn := false } := by
      rw [hr]
      rfl
    rw [List.foldl_cons, List.foldl_cons, hn, ih _ rfl]
    simp only [close, Array.size_push]
    omega
  | case3 c rest hrest hc ih =>
    rw [foldl_step_isEnding (fun s => s.done.size) (fun _ _ => rfl) hs hc hrest, ih _ rfl]
    simp only [close, Array.size_push]
    omega
  | case4 c rest hrest hc ih =>
    rw [List.foldl_cons, step_of_not_isEnding hs hc]
    exact ih _ hs

theorem size_done_ofText (t : Text) : (ofText t).done.size = Text.endings t := by
  rw [ofText, size_done_foldl _ _ rfl]
  exact Nat.zero_add _

theorem taken_ofText {t : Text} {c : Char} (ht : t.getLast? = some c) (hc : Line.isEnding c) :
    (ofText t).taken = [] := by
  obtain ⟨front, rfl⟩ := List.getLast?_eq_some_iff.1 ht
  rw [ofText_append]
  show ((ofText front).step c).taken = []
  unfold step
  split
  · next h => exact (ok_ofText front).fresh h.2
  · rfl

/-! ## A text and what follows it -/

/-- **The lines that a text closes are the first lines of every text that it
    starts.**  The line it leaves open, if there is one, is not among them: what
    follows may still be part of it. -/
theorem lines_append (p s : Text) :
    ∃ closed rest more : List Line, closed.length = Text.endings p ∧
      Text.lines p = closed ++ rest ∧ Text.lines (p ++ s) = closed ++ more ∧
      (∀ c, p.getLast? = some c → Line.isEnding c → rest = []) := by
  obtain ⟨rest, hrest⟩ := (ofText p).done_prefix_finish
  obtain ⟨more, hmore⟩ :=
    (done_prefix_foldl (ofText p) s).trans (done_prefix_finish (s.foldl step (ofText p)))
  refine ⟨(ofText p).done.toList, rest, more, ?_, ?_, ?_, fun c hp hc => ?_⟩
  · rw [Array.length_toList, size_done_ofText]
  · rw [lines_eq_finish, hrest]
  · rw [lines_eq_finish, ofText_append, hmore]
  · have hfinish : (ofText p).finish = (ofText p).done := by simp [finish, taken_ofText hp hc]
    rw [hfinish] at hrest
    simpa using hrest

end Scan

theorem Line.not_isEnding_of_mem_collect {done : Array Line} {start : Nat} {taken t : Text}
    (hdone : ∀ l ∈ done.toList, ∀ c ∈ l.text, ¬ Line.isEnding c)
    (htaken : ∀ c ∈ taken, ¬ Line.isEnding c) :
    ∀ l ∈ (Line.collect done start taken t).toList, ∀ c ∈ l.text, ¬ Line.isEnding c := by
  have hpush : ∀ {done : Array Line} {start : Nat} {taken : Text},
      (∀ l ∈ done.toList, ∀ c ∈ l.text, ¬ Line.isEnding c) → (∀ c ∈ taken, ¬ Line.isEnding c) →
      ∀ l ∈ (done.push (Line.close done start taken)).toList, ∀ c ∈ l.text,
        ¬ Line.isEnding c := by
    intro done start taken hdone htaken l hl
    rw [Array.toList_push] at hl
    rcases List.mem_append.1 hl with hl | hl
    · exact hdone l hl
    · obtain rfl : l = _ := List.mem_singleton.1 hl
      exact fun c hc => htaken c (List.mem_reverse.1 hc)
  fun_induction Line.collect done start taken t with
  | case1 => exact hdone
  | case2 => exact hpush hdone htaken
  | case3 done start taken rest line ih => exact ih (hpush hdone htaken) (List.forall_mem_nil _)
  | case4 done start taken c rest _ _ line ih =>
    exact ih (hpush hdone htaken) (List.forall_mem_nil _)
  | case5 done start taken c rest _ hc ih =>
    exact ih hdone (List.forall_mem_cons.2 ⟨hc, htaken⟩)

/-- **No line holds a line ending.** -/
theorem Text.not_isEnding_of_mem_lines {t : Text} {l : Line} (h : l ∈ Text.lines t) :
    ∀ c ∈ l.text, ¬ Line.isEnding c :=
  Line.not_isEnding_of_mem_collect (List.forall_mem_nil _) (List.forall_mem_nil _) l h

/-- **The lines are numbered from one.** -/
theorem Text.map_line_lines (t : Text) :
    (Text.lines t).map (fun l => l.span.line) = List.range' 1 (Text.lines t).length := by
  have h := (Scan.ok_ofText t).numbers
  rw [Scan.lines_eq_finish]
  unfold Scan.finish
  split
  · simpa using h
  · rw [Array.toList_push, List.map_append, h, List.length_append, Array.length_toList,
      List.length_singleton, List.range'_1_concat]
    simp [Line.close, Nat.add_comm]

theorem Text.line_of_lines_eq_append {t : Text} {above below : List Line}
    (h : Text.lines t = above ++ below) :
    (∀ l ∈ above, l.span.line ≤ above.length) ∧ ∀ l ∈ below, above.length < l.span.line := by
  have hnumbers := Text.map_line_lines t
  rw [h, List.map_append, List.length_append, ← List.range'_append_1] at hnumbers
  obtain ⟨habove, hbelow⟩ := List.append_inj hnumbers (by simp)
  constructor
  · intro l hl
    have := List.mem_map_of_mem (f := fun l => l.span.line) hl
    rw [habove, List.mem_range'_1] at this
    omega
  · intro l hl
    have := List.mem_map_of_mem (f := fun l => l.span.line) hl
    rw [hbelow, List.mem_range'_1] at this
    omega

end Notebook
