/-
  Sessions as stacks of lines.

  A session keeps one flat document.  What it does to the document is what lines
  and undoing do to a stack of lines, each of which has its line feed in the
  document.  There is one exception: an empty line that is the only one cannot be
  undone, since its lone line feed is taken for a document without lines.

  * `Document.ofLines`: the document of a stack; adding a line pushes it
    (`Document.append_ofLines`), taking the last line off pops it
    (`Document.removeLast?_ofLines`);
  * `Session.linesAfter`: the lines of a session, kept by each command
    (`Session.step_ofLines`) and so by all of them (`Session.run_ofLines`);
  * `Session.IsStack`, `Session.isStack_iff`: a session is a stack of lines exactly
    if it never undoes a lone empty line.
-/
import Mathlib.Data.List.Induction
import Notebook.Proofs.Ending
import Notebook.Proofs.Text
import Notebook.Session

namespace Notebook

/-! ## The last line of a document -/

namespace Document

/-- The last line stands after the last line feed, the one at the end of the
    document apart. -/
theorem removeLast?_of_body {document front t : Text} (hbody : body document = front ++ t)
    (ht : '\n' ∉ t) (hfront : ∀ c ∈ front.getLast?, c = '\n') :
    removeLast? document = if front ++ t = [] then none else some (t, front) := by
  have hrun : ∀ c ∈ t.reverse, (c != '\n') = true := fun c hc =>
    bne_iff_ne.2 fun h => ht (h ▸ List.mem_reverse.1 hc)
  have hrest : ∀ c ∈ front.reverse.head?, (c != '\n') = false := fun c hc => by
    simp [hfront c (List.head?_reverse ▸ hc)]
  rw [removeLast?, hbody]
  split
  · next h => rw [if_pos (List.reverse_eq_nil_iff.1 h)]
  · next reversed h =>
    rw [if_neg (mt List.reverse_eq_nil_iff.2 h), List.reverse_append,
      Text.takeWhile_append hrun hrest, Text.dropWhile_append hrun hrest, List.reverse_reverse,
      List.reverse_reverse]

/-! ## The document of a stack -/

/-- The document of a stack of lines, the top of the stack last. -/
def ofLines (stack : List Text) : Text := stack.flatMap fun t => t ++ ['\n']

theorem ofLines_concat (stack : List Text) (t : Text) :
    ofLines (stack ++ [t]) = ofLines stack ++ t ++ ['\n'] := by
  simp [ofLines]

theorem ofLines_eq_nil_or (stack : List Text) :
    ofLines stack = [] ∨ (ofLines stack).getLast? = some '\n' := by
  rcases List.eq_nil_or_concat' stack with rfl | ⟨below, top, rfl⟩
  · exact .inl rfl
  · exact .inr (by rw [ofLines_concat, List.getLast?_concat])

theorem append_ofLines (stack : List Text) (t : Text) :
    append (ofLines stack) t = ofLines (stack ++ [t]) := by
  rw [append, if_pos ((ofLines_eq_nil_or stack).imp_left List.isEmpty_iff.2), ofLines_concat]

theorem body_ofLines_concat (stack : List Text) (t : Text) :
    body (ofLines (stack ++ [t])) = ofLines stack ++ t := by
  rw [body, ofLines_concat, if_pos List.getLast?_concat, List.dropLast_concat]

theorem ofLines_append_eq_nil_iff {stack : List Text} {t : Text} :
    ofLines stack ++ t = [] ↔ stack ++ [t] = [[]] := by
  cases stack with
  | nil => simp [ofLines]
  | cons below stack => simp [ofLines]

/-- The line that is taken off is the top of the stack, unless that is an empty line
    and the only one. -/
theorem removeLast?_ofLines {stack : List Text} {t : Text} (ht : '\n' ∉ t) :
    removeLast? (ofLines (stack ++ [t])) =
      if stack ++ [t] = [[]] then none else some (t, ofLines stack) := by
  have hfront : ∀ c ∈ (ofLines stack).getLast?, c = '\n' := fun c hc => by
    rcases ofLines_eq_nil_or stack with h | h
    · simp [h] at hc
    · simpa [h, eq_comm] using hc
  rw [removeLast?_of_body (body_ofLines_concat stack t) ht hfront]
  simp only [ofLines_append_eq_nil_iff]

end Document

/-! ## Commands and the stack -/

theorem Command.eq_of_ofText {input t : Text} (h : ofText input = .line t) : t = input := by
  unfold ofText at h
  split at h
  · -- what starts with a colon is no line
    dsimp only at h
    split_ifs at h
  · exact (Command.line.inj h).symm

namespace Session

/-- A stack after a command: a line is pushed, and undoing leaves what `pop` leaves. -/
def stackStep (pop : List Text → List Text) (stack : List Text) : Command → List Text
  | .line t => stack ++ [t]
  | .undo => pop stack
  | .list | .save _ | .quit | .unknown _ => stack

/-- The stack after commands, where undoing takes off whatever line is on top. -/
def stackAfter (commands : List Command) : List Text :=
  commands.foldl (stackStep List.dropLast) []

/-- What is left of the lines of a session when the last one is undone. -/
def undone (lines : List Text) : List Text := if lines = [[]] then lines else lines.dropLast

/-- The lines of a session after commands. -/
def linesAfter (commands : List Command) : List Text :=
  commands.foldl (stackStep undone) []

/-- What undoing takes off the lines of a session. -/
def undoes? (lines : List Text) : Option Text := if lines = [[]] then none else lines.getLast?

/-- No text holds a line ending. -/
def Whole (texts : List Text) : Prop := ∀ t ∈ texts, ∀ c ∈ t, ¬ Line.isEnding c

theorem Whole.stackStep {lines : List Text} (hl : Whole lines) {command : Command}
    (hc : ∀ t, command = .line t → Whole [t]) : Whole (stackStep undone lines command) := by
  cases command with
  | line t => exact List.forall_mem_append.2 ⟨hl, hc t rfl⟩
  | undo =>
    rw [Session.stackStep, undone]
    split
    · exact hl
    · exact fun t ht => hl t (List.dropLast_subset lines ht)
  | list | save | quit | unknown => exact hl

/-- Undoing takes the last line off the document. -/
theorem removeLast?_of_whole {lines : List Text} (hl : Whole lines) :
    (Document.removeLast? (Document.ofLines lines)).map Prod.fst = undoes? lines ∧
      step (Document.ofLines lines) .undo = Document.ofLines (undone lines) := by
  rcases List.eq_nil_or_concat' lines with rfl | ⟨below, top, rfl⟩
  · exact ⟨rfl, rfl⟩
  · have htop : '\n' ∉ top := fun h => hl top (by simp) '\n' h rfl
    rw [step, Document.removeLast?_ofLines htop, undoes?, undone]
    split
    · exact ⟨rfl, rfl⟩
    · rw [List.dropLast_concat, List.getLast?_concat]
      exact ⟨rfl, rfl⟩

/-- **One command** does to the document what it does to the lines. -/
theorem step_ofLines {lines : List Text} (hl : Whole lines) (command : Command) :
    step (Document.ofLines lines) command =
      Document.ofLines (stackStep undone lines command) := by
  cases command with
  | line t => exact Document.append_ofLines lines t
  | undo => exact (removeLast?_of_whole hl).2
  | list | save | quit | unknown => rfl

/-- **All commands** of a session do to the document what they do to the lines. -/
theorem run_ofLines {commands : List Command}
    (hc : ∀ command ∈ commands, ∀ t, command = .line t → Whole [t]) {lines : List Text}
    (hl : Whole lines) :
    run (Document.ofLines lines) commands =
        Document.ofLines (commands.foldl (stackStep undone) lines) ∧
      Whole (commands.foldl (stackStep undone) lines) := by
  induction commands generalizing lines with
  | nil => exact ⟨rfl, hl⟩
  | cons command commands ih =>
    obtain ⟨hfirst, hc⟩ := List.forall_mem_cons.1 hc
    rw [run, List.foldl_cons, List.foldl_cons, step_ofLines hl]
    exact ih hc (hl.stackStep hfirst)

/-- As long as no lone empty line is undone, the lines of a session are the stack. -/
theorem linesAfter_eq_stackAfter {commands : List Command}
    (h : ∀ before later, commands = before ++ .undo :: later → stackAfter before ≠ [[]]) :
    linesAfter commands = stackAfter commands := by
  -- whether the last command undoes a lone empty line depends on the commands before it
  induction commands using List.reverseRecOn with
  | nil => rfl
  | append_singleton before command ih =>
    have hbefore : linesAfter before = stackAfter before :=
      ih fun b later hb => h b (later ++ [command]) (by simp [hb])
    rw [linesAfter, stackAfter, List.foldl_concat, List.foldl_concat, ← linesAfter, ← stackAfter,
      hbefore]
    cases command with
    | undo => exact if_neg (h before [] rfl)
    | line | list | save | quit | unknown => rfl

/-- A session is a stack: after each of its commands the lines of the document are
    those on the stack, and undoing takes the top line off, or leaves the document
    as it is if there is none. -/
def IsStack (commands : List Command) : Prop :=
  ∀ before after, commands = before ++ after →
    let document := run [] before
    let stack := stackAfter before
    (Text.lines document).map Line.text = stack ∧
      ∀ later, after = .undo :: later →
        (Document.removeLast? document).map Prod.fst = stack.getLast? ∧
          (stack = [] → step document .undo = document)

/-- **A session is a stack of lines, a lone empty line apart.**  Typed are texts
    without line endings.  After each command the document has the lines of the
    session, and undoing takes the last one off, unless it is empty and the only one.
    So the session is a stack exactly if it never comes to undo such a line. -/
theorem isStack_iff {inputs : List Text} (h : ∀ t ∈ inputs, ∀ c ∈ t, ¬ Line.isEnding c) :
    let commands := inputs.map Command.ofText
    (IsStack commands ↔
      ∀ before later, commands = before ++ .undo :: later → stackAfter before ≠ [[]]) ∧
    ∀ before after, commands = before ++ after →
      (Text.lines (run [] before)).map Line.text = linesAfter before ∧
        (Document.removeLast? (run [] before)).map Prod.fst = undoes? (linesAfter before) := by
  intro commands
  have hlines : ∀ before after, commands = before ++ after →
      run [] before = Document.ofLines (linesAfter before) ∧ Whole (linesAfter before) := by
    intro before after hsplit
    have hnil : Whole [] := List.forall_mem_nil _
    refine run_ofLines (fun command hmem t ht => ?_) hnil
    have hcommand : command ∈ commands := by simp [hsplit, hmem]
    obtain ⟨input, hinput, rfl⟩ := List.mem_map.1 hcommand
    obtain rfl : t = input := Command.eq_of_ofText ht
    exact List.forall_mem_singleton.2 (h t hinput)
  have htexts : ∀ before after, commands = before ++ after →
      (Text.lines (run [] before)).map Line.text = linesAfter before ∧
        (Document.removeLast? (run [] before)).map Prod.fst = undoes? (linesAfter before) := by
    intro before after hsplit
    obtain ⟨hrun, hwhole⟩ := hlines before after hsplit
    rw [hrun]
    exact ⟨Text.map_text_lines hwhole, (removeLast?_of_whole hwhole).1⟩
  refine ⟨⟨?_, ?_⟩, htexts⟩
  · -- where a lone empty line is undone, nothing is taken off
    intro hstack before later hsplit hlone
    obtain ⟨hsame, hundo⟩ := hstack before _ hsplit
    obtain ⟨htext, hremove⟩ := htexts before _ hsplit
    have hkept : linesAfter before = [[]] := htext.symm.trans (hsame.trans hlone)
    have htaken := hremove.symm.trans (hundo later rfl).1
    rw [hkept, hlone] at htaken
    cases htaken
  · intro hnever before after hsplit
    have hkept : linesAfter before = stackAfter before :=
      linesAfter_eq_stackAfter fun b later hb => hnever b (later ++ after) (by simp [hsplit, hb])
    obtain ⟨htext, hremove⟩ := htexts before after hsplit
    rw [← hkept]
    refine ⟨htext, fun later hlater => ⟨?_, fun hempty => ?_⟩⟩
    · rw [hremove, undoes?, if_neg]
      rw [hkept]
      exact hnever before later (by rw [hsplit, hlater])
    · rw [(hlines before after hsplit).1, hempty]
      rfl

/-- A line above an empty one can be undone, and the session is a stack. -/
theorem isStack_of_line_above_blank :
    let inputs : List Text := ["", "b = 2", ":undo"]
    (∀ t ∈ inputs, ∀ c ∈ t, ¬ Line.isEnding c) ∧
      IsStack (inputs.map Command.ofText) ∧
      (Text.lines (run [] (inputs.map Command.ofText))).map Line.text = [[]] ∧
      (Document.removeLast? (run [] (inputs.map Command.ofText))).map Prod.fst = none := by
  intro inputs
  have hwhole : ∀ t ∈ inputs, ∀ c ∈ t, ¬ Line.isEnding c := by simp [inputs, Line.isEnding]
  have hcommands : inputs.map Command.ofText = [.line [], .line "b = 2", .undo] := by decide
  obtain ⟨hstack, hlines⟩ := isStack_iff hwhole
  refine ⟨hwhole, hstack.2 fun before later hsplit => ?_, hlines _ [] (List.append_nil _).symm⟩
  rw [hcommands] at hsplit
  rcases before with _ | ⟨first, _ | ⟨second, _ | ⟨third, before⟩⟩⟩
  · cases hsplit
  · cases hsplit
  · cases hsplit
    decide
  · simp at hsplit

/-- A lone empty line cannot be undone: nothing is taken off, and the line stays. -/
theorem not_isStack_lone_blank :
    let inputs : List Text := ["", ":undo"]
    inputs.map Command.ofText = [.line [], .undo] ∧
      (Text.lines (run [] [.line []])).map Line.text = [[]] ∧
      Document.removeLast? (run [] [.line []]) = none ∧
      (Text.lines (run [] [.line [], .undo])).map Line.text = [[]] ∧
      ¬ IsStack (inputs.map Command.ofText) := by
  intro inputs
  have hcommands : inputs.map Command.ofText = [.line [], .undo] := by decide
  refine ⟨hcommands, by decide, by decide, by decide, fun hstack => ?_⟩
  obtain ⟨-, hundo⟩ := hstack [.line []] [.undo] hcommands
  exact absurd (hundo [] rfl).1 (by decide)

end Session

end Notebook
