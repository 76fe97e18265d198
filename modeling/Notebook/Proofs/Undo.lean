/-
  Undoing, and the lines of an evaluation.

  Undoing looks for line feeds only, an evaluation also ends lines at carriage returns.
  So what is taken off a document is all that stands after its last line feed, the one
  at its end apart, however many lines that is.  What is left keeps its lines as they
  are.

  * `Document.of_removeLast?`, `Document.removeLast?_eq_none_iff`: what is taken off, and
    when nothing is;
  * `Document.lines_of_removeLast?`: the lines of a document are those that are left, and
    at least one more;
  * `Document.UndoesLast`, `Document.undoesLast_iff`: undoing takes off the last line
    exactly if no carriage return stands after the last line feed, and the document is
    not a lone line feed.
-/
import Mathlib.Data.List.Infix
import Notebook.Proofs.Partition
import Notebook.Proofs.Session

namespace Notebook

namespace Document

/-! ## What is taken off -/

/-- A document is its body, and possibly a line feed; without it, the body does not end
    in one. -/
theorem eq_body_append (document : Text) :
    ∃ e : Text, document = body document ++ e ∧
      (e = ['\n'] ∨ e = [] ∧ (body document).getLast? ≠ some '\n') := by
  unfold body
  split
  · next h =>
    obtain ⟨front, rfl⟩ := List.getLast?_eq_some_iff.1 h
    exact ⟨['\n'], by simp, .inl rfl⟩
  · next h => exact ⟨[], (List.append_nil _).symm, .inr ⟨rfl, h⟩⟩

theorem exists_after_last_feed (t : Text) :
    ∃ front last : Text, t = front ++ last ∧ '\n' ∉ last ∧ ∀ c ∈ front.getLast?, c = '\n' := by
  refine ⟨(t.reverse.dropWhile (· != '\n')).reverse, (t.reverse.takeWhile (· != '\n')).reverse,
    ?_, fun hc => ?_, fun c hc => ?_⟩
  · rw [← List.reverse_append, List.takeWhile_append_dropWhile, List.reverse_reverse]
  · simpa using List.mem_takeWhile_imp (List.mem_reverse.1 hc)
  · rw [List.getLast?_reverse] at hc
    simpa using Text.head?_dropWhile (· != '\n') t.reverse c hc

theorem removeLast?_eq_none_iff {document : Text} :
    removeLast? document = none ↔ document = [] ∨ document = ['\n'] := by
  have hbody : removeLast? document = none ↔ body document = [] := by
    rw [removeLast?]
    split
    · next h => exact iff_of_true rfl (List.reverse_eq_nil_iff.1 h)
    · next h => exact iff_of_false (by simp) (mt List.reverse_eq_nil_iff.2 h)
  rw [hbody]
  constructor
  · intro hnil
    obtain ⟨e, hdocument, rfl | ⟨rfl, -⟩⟩ := eq_body_append document
    · exact .inr (by rwa [hnil] at hdocument)
    · exact .inl (by rwa [hnil] at hdocument)
  · rintro (rfl | rfl) <;> rfl

/-- **What is taken off** is what stands after the last line feed of the body. -/
theorem of_removeLast? {document t rest : Text} (h : removeLast? document = some (t, rest)) :
    body document = rest ++ t ∧ '\n' ∉ t ∧ (∀ c ∈ rest.getLast?, c = '\n') ∧
      ∃ e : Text, document = rest ++ (t ++ e) ∧ (e = ['\n'] ∨ e = [] ∧ t ≠ []) := by
  obtain ⟨front, last, hbody, hlast, hfront⟩ := exists_after_last_feed (body document)
  rw [removeLast?_of_body hbody hlast hfront] at h
  split at h
  · cases h
  next hne =>
  obtain ⟨rfl, rfl⟩ := Prod.mk.inj (Option.some.inj h)
  refine ⟨hbody, hlast, hfront, ?_⟩
  obtain ⟨e, hdocument, he⟩ := eq_body_append document
  rw [hbody] at hdocument he
  refine ⟨e, by rw [hdocument, List.append_assoc], he.imp_right fun ⟨hnil, hend⟩ => ⟨hnil, ?_⟩⟩
  -- what stands before the last line feed ends in one
  rintro rfl
  rw [List.append_nil] at hne hend
  exact hend ((List.getLast?_eq_some_getLast hne).trans
    (congrArg some (hfront _ (List.getLast?_eq_some_getLast hne))))

/-! ## The lines that are left -/

/-- A text without line endings is one line, with a line feed after it or without. -/
theorem partition_singleton {t e : Text} (ht : ∀ c ∈ t, ¬ Line.isEnding c)
    (he : e = ['\n'] ∨ e = [] ∧ t ≠ []) (number start : Nat) :
    Line.Partition number start (t ++ e) [Line.place number start t] := by
  rcases he with rfl | ⟨rfl, hne⟩
  · exact .cons .feed ht (fun h => nomatch h) (.nil _ _)
  · rw [List.append_nil]
    exact .last number start ht hne

/-- **The lines that are left** are the first lines of the document, and they are not all
    of them.  What is taken off is one line if it holds no carriage return. -/
theorem lines_of_removeLast? {document t rest : Text}
    (h : removeLast? document = some (t, rest)) :
    ∃ below, Text.lines document = Text.lines rest ++ below ∧ below ≠ [] ∧
      ('\r' ∉ t → ∃ l, below = [l] ∧ l.text = t) := by
  obtain ⟨-, hfeed, hrest, e, rfl, he⟩ := of_removeLast? h
  have hend : ∀ c ∈ rest.getLast?, Line.isEnding c := fun c hc => hrest c hc ▸ rfl
  have hreturn : rest.getLast? = some '\r' → (t ++ e).head? ≠ some '\n' := fun hc =>
    absurd (hrest _ hc) (by decide)
  have hlines : ∀ below, Line.Partition _ _ (t ++ e) below →
      Text.lines (rest ++ (t ++ e)) = Text.lines rest ++ below := fun below hbelow =>
    ((Line.partition_lines rest).append hend hreturn hbelow).eq_lines.symm
  by_cases hr : '\r' ∈ t
  · obtain ⟨below, hbelow⟩ := Line.exists_partition _ _ (t ++ e)
    have hne : t ++ e ≠ [] := fun hnil => by simp [(List.append_eq_nil_iff.1 hnil).1] at hr
    exact ⟨below, hlines below hbelow, hbelow.ne_nil hne, fun h => absurd hr h⟩
  · have ht : ∀ c ∈ t, ¬ Line.isEnding c := fun c hc hending => by
      simp only [Line.isEnding, Bool.or_eq_true, beq_iff_eq] at hending
      rcases hending with rfl | rfl
      · exact hfeed hc
      · exact hr hc
    refine ⟨_, hlines _ (partition_singleton ht he _ _), List.cons_ne_nil _ _, fun _ => ?_⟩
    exact ⟨_, rfl, rfl⟩

theorem outcomes_of_lines_append (settings : Settings) {document rest : Text}
    {below : List Line} (h : Text.lines document = Text.lines rest ++ below) :
    (evaluate settings rest).outcomes.toList =
      (evaluate settings document).outcomes.toList.take (Text.lines rest).length := by
  rw [Evaluation.outcomes_evaluate, Evaluation.outcomes_evaluate, h,
    Evaluation.outcomesOf_append, List.take_left' (Evaluation.length_outcomesOf _ _ _)]

/-! ## Undoing the last line -/

/-- Undoing takes the last line off a document, as an evaluation reads its lines.  A
    document without lines is left as it is.  Of any other the text of the last line is
    given back; the lines above it stay as they are, with their places, and so does what
    becomes of them. -/
def UndoesLast (document : Text) : Prop :=
  let left := Session.step document .undo
  (Text.lines document = [] → removeLast? document = none ∧ left = document) ∧
  ∀ above last, Text.lines document = above ++ [last] →
    (removeLast? document).map Prod.fst = some last.text ∧ Text.lines left = above ∧
      ∀ settings, (evaluate settings left).outcomes.toList =
        (evaluate settings document).outcomes.toList.dropLast

theorem mem_of_body_eq {document t rest front later : Text}
    (h : removeLast? document = some (t, rest))
    (hbody : body document = front ++ '\r' :: later) (hlater : '\n' ∉ later) : '\r' ∈ t := by
  obtain ⟨heq, -, hrest, -⟩ := of_removeLast? h
  rw [heq] at hbody
  rcases List.append_eq_append_iff.1 hbody with ⟨between, -, rfl⟩ | ⟨more, rfl, hmore⟩
  · simp
  · rcases more with _ | ⟨c, more⟩
    · obtain rfl : _ = t := hmore
      exact List.mem_cons_self
    · -- the last line feed would follow the carriage return
      exfalso
      obtain ⟨rfl, rfl⟩ := List.cons.inj hmore
      rcases List.eq_nil_or_concat' more with rfl | ⟨more, d, rfl⟩
      · exact absurd (hrest '\r' (by simp)) (by decide)
      · rw [← List.cons_append, ← List.append_assoc, List.getLast?_concat] at hrest
        obtain rfl : d = '\n' := hrest d rfl
        simp at hlater

theorem UndoesLast.feed_mem {document front later : Text} (hundoes : UndoesLast document)
    (hbody : body document = front ++ '\r' :: later) : '\n' ∈ later := by
  by_contra hlater
  have hsome : removeLast? document ≠ none := fun hnone => by
    rcases removeLast?_eq_none_iff.1 hnone with rfl | rfl <;> simp [body] at hbody
  obtain ⟨⟨t, rest⟩, h⟩ := Option.ne_none_iff_exists'.1 hsome
  obtain ⟨below, hlines, hbelow, -⟩ := lines_of_removeLast? h
  obtain ⟨above, last, rfl⟩ := (List.eq_nil_or_concat' below).resolve_left hbelow
  rw [← List.append_assoc] at hlines
  obtain ⟨hremoved, -⟩ := hundoes.2 _ last hlines
  obtain rfl : t = last.text := by simpa [h] using hremoved
  -- the text of a line holds no carriage return
  have hlast : last ∈ Text.lines document := by simp [hlines]
  exact Text.not_isEnding_of_mem_lines hlast _ (mem_of_body_eq h hbody hlater) rfl

theorem undoesLast_of_removeLast? {document t rest : Text}
    (h : removeLast? document = some (t, rest)) (hr : '\r' ∉ t) : UndoesLast document := by
  obtain ⟨below, hlines, -, hsingle⟩ := lines_of_removeLast? h
  obtain ⟨l, rfl, rfl⟩ := hsingle hr
  have hleft : Session.step document .undo = rest := by simp [Session.step, h]
  refine ⟨fun hnil => by simp [hnil] at hlines, fun above last habove => ?_⟩
  obtain ⟨hrest, hlast⟩ := List.append_inj' (hlines.symm.trans habove) rfl
  obtain rfl : l = last := List.singleton_inj.1 hlast
  refine ⟨by rw [h]; rfl, by rw [hleft, hrest], fun settings => ?_⟩
  rw [hleft, outcomes_of_lines_append settings hlines, List.dropLast_eq_take]
  congr 1
  simp [Evaluation.outcomes_evaluate, hlines]

/-- **Undoing takes off the last line** exactly if in the body of the document a line feed
    follows after every carriage return, and the document is not a lone line feed.
    Whatever is taken off, the lines that are left are the first lines of the document,
    with the same places and outcomes, and not all of its lines. -/
theorem undoesLast_iff (document : Text) :
    (UndoesLast document ↔ document ≠ ['\n'] ∧
      ∀ front later, body document = front ++ '\r' :: later → '\n' ∈ later) ∧
    ∀ t rest, removeLast? document = some (t, rest) →
      ∃ below, Text.lines document = Text.lines rest ++ below ∧ below ≠ [] ∧
        ∀ settings, (evaluate settings rest).outcomes.toList =
          (evaluate settings document).outcomes.toList.take (Text.lines rest).length := by
  refine ⟨⟨fun hundoes => ⟨?_, fun _ _ => hundoes.feed_mem⟩, ?_⟩, fun t rest h => ?_⟩
  · rintro rfl
    obtain ⟨hremoved, -⟩ := hundoes.2 [] ⟨[], 1, 0, 0⟩ rfl
    cases hremoved
  · rintro ⟨hne, hreturn⟩
    cases h : removeLast? document with
    | none =>
      obtain rfl : document = [] := (removeLast?_eq_none_iff.1 h).resolve_right hne
      refine ⟨fun _ => ⟨rfl, rfl⟩, fun above last hlines => ?_⟩
      have hnil : Text.lines [] = [] := rfl
      simp [hnil] at hlines
    | some removed =>
      obtain ⟨hbody, hfeed, -⟩ := of_removeLast? h
      refine undoesLast_of_removeLast? h fun hmem => ?_
      obtain ⟨front, later, hremoved⟩ := List.append_of_mem hmem
      rw [hremoved] at hbody hfeed
      exact hfeed (by simp [hreturn (removed.2 ++ front) later (by simp [hbody])])
  · obtain ⟨below, hlines, hne, -⟩ := lines_of_removeLast? h
    exact ⟨below, hlines, hne, fun settings => outcomes_of_lines_append settings hlines⟩

/-- The carriage returns of lines that stay do no harm. -/
theorem undoesLast_below_returns :
    let document : Text := "a = 1 +/- 0.1\rb = a\r\nc = b\n"
    let rest : Text := "a = 1 +/- 0.1\rb = a\r\n"
    UndoesLast document ∧ removeLast? document = some ("c = b".toList, rest) ∧
      ∃ below, Text.lines document = Text.lines rest ++ below ∧ below ≠ [] := by
  intro document rest
  have hremoved : removeLast? document = some ("c = b".toList, rest) := by decide
  have hreturn : ∀ t ∈ (body document).tails, t.head? = some '\r' → '\n' ∈ t.tail := by decide
  obtain ⟨hundoes, hleft⟩ := undoesLast_iff document
  refine ⟨hundoes.2 ⟨by decide, fun front later hbody => ?_⟩, hremoved, ?_⟩
  · exact hreturn _ ((List.mem_tails _ _).2 ⟨front, hbody.symm⟩) rfl
  · obtain ⟨below, hlines, hne, -⟩ := hleft _ _ hremoved
    exact ⟨below, hlines, hne⟩

/-- Lines that end in carriage returns are all taken off at once, and a carriage return
    before the last line feed is given back as a part of the line. -/
theorem not_undoesLast_return :
    let document : Text := "a = 1 +/- 0.1\rb = a\r"
    let document' : Text := "a = 1 +/- 0.1\r\n"
    (Text.lines document).map Line.text = ["a = 1 +/- 0.1".toList, "b = a".toList] ∧
      removeLast? document = some (document, []) ∧ ¬ UndoesLast document ∧
      (Text.lines document').map Line.text = ["a = 1 +/- 0.1".toList] ∧
      removeLast? document' = some ("a = 1 +/- 0.1\r".toList, []) ∧ ¬ UndoesLast document' := by
  intro document document'
  refine ⟨by decide, by decide, fun hundoes => ?_, by decide, by decide, fun hundoes => ?_⟩
  · obtain ⟨hremoved, -⟩ := hundoes.2 [⟨"a = 1 +/- 0.1", 1, 0, 13⟩] ⟨"b = a", 2, 14, 19⟩ (by decide)
    exact absurd hremoved (by decide)
  · obtain ⟨hremoved, -⟩ := hundoes.2 [] ⟨"a = 1 +/- 0.1", 1, 0, 13⟩ (by decide)
    exact absurd hremoved (by decide)

end Document

end Notebook
