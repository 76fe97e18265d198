/-
  What a diagnostic underlines.

  A line has its place in bytes and is underlined by characters.  As no place cuts a
  character in two, the characters between the two places of a line are the line and
  nothing else, whatever stands before it and however wide its characters are.

  * `Text.charOffset?_append`: the place of a byte in characters, from what stands before it;
  * `Text.charOffset_lt`: of two places, the later one is later in characters too;
  * `Line.Partition.pairwise_lt`: each line stops before the next one starts;
  * `Span.Marks`: the characters that a place in bytes stands for;
  * `Evaluation.underlines_exactly`: every line and every diagnostic marks the text of a line.
-/
import Notebook.Proofs.Evaluation
import Notebook.Proofs.Partition
import Notebook.Report.Diagnostic

namespace Notebook

namespace Text

/-! ## Bytes and characters -/

theorem countChars?_append (count : Nat) (before after : Text) :
    countChars? count (byteSize before) (before ++ after) = some (count + before.length) := by
  induction before generalizing count with
  | nil => cases after <;> rfl
  | cons c before ih =>
    -- a character has a first byte, so that the count is not at its end
    obtain ⟨k, hk⟩ := Nat.exists_eq_add_one.2 c.utf8Size_pos
    have hbytes : byteSize (c :: before) = k + byteSize before + 1 := by
      rw [byteSize_cons, hk]
      omega
    have hleft : k + byteSize before + 1 - c.utf8Size = byteSize before := by omega
    rw [hbytes, List.cons_append, countChars?, if_pos (by omega), hleft, ih, List.length_cons]
    · congr 1
      omega
    · exact fun h => absurd h (Nat.succ_ne_zero _)

/-- **As many characters as stand before a byte** are its place in characters. -/
theorem charOffset?_append (before after : Text) :
    charOffset? (before ++ after) (byteSize before) = some before.length := by
  rw [charOffset?, countChars?_append, Nat.zero_add]

theorem charOffset_append (before after : Text) :
    charOffset (before ++ after) (byteSize before) = before.length := by
  rw [charOffset, charOffset?_append, Option.getD_some]

theorem charOffset_lt {document : Text} {i j : Nat} (hi : IsBoundary document i)
    (hj : IsBoundary document j) (hlt : i < j) : charOffset document i < charOffset document j := by
  obtain ⟨before, after, rfl, rfl⟩ := hi
  obtain ⟨before', after', hdocument, rfl⟩ := hj
  rw [charOffset_append, hdocument, charOffset_append]
  rcases List.append_eq_append_iff.1 hdocument with ⟨between, rfl, -⟩ | ⟨between, rfl, -⟩
  · -- what stands between the two places has bytes, and so characters
    have hne : between ≠ [] := by
      rintro rfl
      simp at hlt
    rw [List.length_append]
    exact Nat.lt_add_of_pos_right (List.length_pos_iff.2 hne)
  · rw [byteSize_append] at hlt
    omega

end Text

/-! ## Lines -/

namespace Line.Partition

variable {number start : Nat} {t : Text} {lines : List Line}

theorem start_le (h : Partition number start t lines) : ∀ l ∈ lines, start ≤ l.span.start := by
  induction h with
  | nil => exact List.forall_mem_nil _
  | last number start ht hne => exact List.forall_mem_singleton.2 (Nat.le_refl start)
  | @cons number start t rest lines ending ht hrest _ ih =>
    refine List.forall_mem_cons.2 ⟨Nat.le_refl start, fun l hl => ?_⟩
    have hle := ih l hl
    omega

/-- **Each line stops before the next one starts**: an ending stands between them. -/
theorem pairwise_lt (h : Partition number start t lines) :
    lines.Pairwise fun l l' => l.span.stop < l'.span.start := by
  induction h with
  | nil => exact List.Pairwise.nil
  | last => exact List.pairwise_singleton _ _
  | @cons number start t rest lines ending ht hrest h ih =>
    refine List.pairwise_cons.2 ⟨fun l hl => ?_, ih⟩
    have hle := h.start_le l hl
    have hpos : 0 < ending.text.length := by cases ending <;> decide
    show start + Text.byteSize t < l.span.start
    omega

end Line.Partition

/-! ## Ranges -/

/-- The range of characters of a document from one place to the other. -/
def Span.range (document : Text) (s : Span) : Nat × Nat :=
  (Text.charOffset document s.start, Text.charOffset document s.stop)

theorem Diagnostic.range_eq (document : Text) (d : Diagnostic) :
    d.range document = d.span.range document := rfl

/-- `s.Marks document t`: both places of `s` are places in characters, neither of which is
    made up for want of one, and from the first to the second stand the characters `t`. -/
structure Span.Marks (document : Text) (s : Span) (t : Text) : Prop where
  start : Text.charOffset? document s.start = some (s.range document).1
  stop : Text.charOffset? document s.stop = some (s.range document).2
  le : (s.range document).1 ≤ (s.range document).2
  text : (document.take (s.range document).2).drop (s.range document).1 = t

theorem Span.marks_append {document before t after : Text} {s : Span}
    (hdocument : document = before ++ (t ++ after)) (hstart : s.start = Text.byteSize before)
    (hstop : s.stop = Text.byteSize before + Text.byteSize t) : s.Marks document t := by
  have hfirst : Text.charOffset? document s.start = some before.length := by
    rw [hdocument, hstart, Text.charOffset?_append]
  have hlast : Text.charOffset? document s.stop = some (before ++ t).length := by
    rw [hdocument, hstop, ← List.append_assoc, ← Text.byteSize_append, Text.charOffset?_append]
  have hrange : s.range document = (before.length, (before ++ t).length) := by
    rw [range, Text.charOffset, Text.charOffset, hfirst, hlast, Option.getD_some,
      Option.getD_some]
  refine ⟨hrange ▸ hfirst, hrange ▸ hlast, ?_, ?_⟩
  · rw [hrange, List.length_append]
    exact Nat.le_add_right _ _
  · rw [hrange, hdocument, ← List.append_assoc, List.take_left, List.drop_left]

section
variable {document : Text} {l : Line} (h : l ∈ Text.lines document)
include h

/-- A line is a part of the document, and has the place of that part. -/
theorem Line.exists_around_of_mem_lines :
    ∃ before after, document = before ++ (l.text ++ after) ∧
      l.span.start = Text.byteSize before ∧
      l.span.stop = Text.byteSize before + Text.byteSize l.text := by
  obtain ⟨-, haround⟩ :=
    (partition_lines document).exists_of_mem (List.nil_append document).symm Text.byteSize_nil h
  exact haround

theorem Line.marks_of_mem_lines : l.span.Marks document l.text := by
  obtain ⟨before, after, hdocument, hstart, hstop⟩ := exists_around_of_mem_lines h
  exact Span.marks_append hdocument hstart hstop

theorem Line.isBoundary_of_mem_lines :
    Text.IsBoundary document l.span.start ∧ Text.IsBoundary document l.span.stop := by
  obtain ⟨before, after, hdocument, hstart, hstop⟩ := exists_around_of_mem_lines h
  refine ⟨⟨before, _, hdocument, hstart.symm⟩, before ++ l.text, after, ?_, ?_⟩
  · rw [hdocument, List.append_assoc]
  · rw [Text.byteSize_append, hstop]

end

/-- **The ranges of the lines** of a document are in order, and no two have a place in
    common. -/
theorem Text.pairwise_range_lines (document : Text) :
    (lines document).Pairwise fun l l' =>
      (l.span.range document).2 < (l'.span.range document).1 := by
  refine (Line.partition_lines document).pairwise_lt.imp_of_mem fun {l l'} hl hl' hlt => ?_
  exact charOffset_lt (Line.isBoundary_of_mem_lines hl).2 (Line.isBoundary_of_mem_lines hl').1 hlt

/-! ## Diagnostics -/

/-- What is said about a line: that it was dropped, or that one of its literals is no
    number. -/
inductive Outcome.Reports (o : Outcome) : Diagnostic → Prop
  | dropped {d} : Diagnostic.ofOutcome? o = some d → Reports o d
  | fallback {f} : f ∈ (Entry.ofText o.line.text).fallbacks o.line.span →
    Reports o (.ofFallback f)

theorem Outcome.Reports.span_eq {o : Outcome} {d : Diagnostic} (h : o.Reports d) :
    d.span = o.line.span := by
  cases h with
  | dropped h =>
    unfold Diagnostic.ofOutcome? at h
    split at h
    · obtain rfl := Option.some.inj h
      rfl
    · cases h
    · cases h
    · cases h
  | fallback h => exact Entry.span_of_mem_fallbacks h

namespace Evaluation

theorem exists_outcome_of_mem_fallbacks {settings : Settings} {document : Text} {f : Fallback}
    (h : f ∈ (evaluate settings document).fallbacks.toList) :
    ∃ o ∈ (evaluate settings document).outcomes.toList,
      f ∈ (Entry.ofText o.line.text).fallbacks o.line.span := by
  rw [fallbacks_evaluate] at h
  obtain ⟨l, hl, hf⟩ := List.mem_flatMap.1 h
  rw [← map_line_evaluate settings document] at hl
  obtain ⟨o, ho, rfl⟩ := List.mem_map.1 hl
  exact ⟨o, ho, hf⟩

theorem exists_reports_of_mem_diagnostics {settings : Settings} {document : Text}
    {d : Diagnostic} (h : d ∈ (evaluate settings document).diagnostics) :
    ∃ o ∈ (evaluate settings document).outcomes.toList, o.Reports d := by
  rcases List.mem_append.1 h with h | h
  · obtain ⟨o, ho, hd⟩ := List.mem_filterMap.1 h
    exact ⟨o, ho, .dropped hd⟩
  · obtain ⟨f, hf, rfl⟩ := List.mem_map.1 h
    obtain ⟨o, ho, hf⟩ := exists_outcome_of_mem_fallbacks hf
    exact ⟨o, ho, .fallback hf⟩

/-- **Diagnostics underline exactly the line they are about.**  In every document, the
    place of every line marks the characters of that line; a warning has the place of the
    line that its literal stands in, and a diagnostic that of the line it is about, so that
    they mark this line; and the ranges of the lines are in order, each before the next. -/
theorem underlines_exactly (settings : Settings) (document : Text) :
    let e := evaluate settings document
    (∀ o ∈ e.outcomes.toList, o.line.span.Marks document o.line.text) ∧
    (∀ f ∈ e.fallbacks.toList, ∃ o ∈ e.outcomes.toList,
      f ∈ (Entry.ofText o.line.text).fallbacks o.line.span ∧
        f.span.Marks document o.line.text) ∧
    (∀ d ∈ e.diagnostics, ∃ o ∈ e.outcomes.toList, o.Reports d ∧
      d.range document = o.line.span.range document ∧ d.span.Marks document o.line.text) ∧
    e.outcomes.toList.Pairwise fun o o' =>
      (o.line.span.range document).2 < (o'.line.span.range document).1 := by
  intro e
  have hlines : e.outcomes.toList.map Outcome.line = Text.lines document :=
    map_line_evaluate settings document
  have hmarks : ∀ o ∈ e.outcomes.toList, o.line.span.Marks document o.line.text :=
    fun o ho => Line.marks_of_mem_lines (hlines ▸ List.mem_map_of_mem ho)
  refine ⟨hmarks, fun f hf => ?_, fun d hd => ?_, ?_⟩
  · obtain ⟨o, ho, hfallback⟩ := exists_outcome_of_mem_fallbacks hf
    have hspan : f.span = o.line.span := Entry.span_of_mem_fallbacks hfallback
    exact ⟨o, ho, hfallback, hspan ▸ hmarks o ho⟩
  · obtain ⟨o, ho, hreports⟩ := exists_reports_of_mem_diagnostics hd
    refine ⟨o, ho, hreports, ?_, hreports.span_eq ▸ hmarks o ho⟩
    rw [Diagnostic.range_eq, hreports.span_eq]
  · have hpairwise := Text.pairwise_range_lines document
    rwa [← hlines, List.pairwise_map] at hpairwise

/-- A dropped line below a comment with characters of two bytes. -/
theorem underlines_below_wide_characters :
    let document : Text := "# Größe\r\nx = q\n"
    let e := evaluate {} document
    ∃ d ∈ e.diagnostics, d.span = ⟨2, 11, 16⟩ ∧ d.range document = (9, 14) ∧
      d.span.Marks document "x = q" := by
  intro document e
  have hspans : e.diagnostics.map Diagnostic.span = [⟨2, 11, 16⟩] := by decide +kernel
  obtain ⟨d, hd, hspan⟩ := List.mem_map.1 (hspans ▸ List.mem_singleton_self _)
  obtain ⟨-, -, hmarks, -⟩ := underlines_exactly {} document
  obtain ⟨o, -, -, -, h⟩ := hmarks d hd
  have hrange : d.span.range document = (9, 14) := by
    rw [hspan]
    decide
  have htext : o.line.text = ("x = q" : String).toList := by
    rw [← h.text, hrange]
    decide
  exact ⟨d, hd, hspan, hrange, htext ▸ h⟩

end Evaluation

end Notebook
