/-
  The lines of a document as a partition of its bytes.

  A document is its lines with an ending between any two of them and possibly one more
  at the end.  Nothing of it is lost and nothing is read twice: the texts of the lines
  and the endings between them are all bytes of the document, in order.

  * `Line.Partition`: texts and endings, one after the other, with the lines they make;
  * `Line.partition_lines`, `Line.Partition.eq_lines`: the lines of a document make it up,
    and no other lines do;
  * `Line.Partition.append`: the lines of a document whose last line is ended are not
    changed by what follows;
  * `Text.lines_partition`: the same in bytes.
-/
import Notebook.Proofs.Ending
import Notebook.Proofs.Text
import Notebook.Proofs.Utf8

namespace Notebook

theorem Ending.byteSize_text (ending : Ending) :
    Text.byteSize ending.text = ending.text.length := by
  cases ending <;> rfl

namespace Line

/-- The line with a text, given its number and the byte at which it starts. -/
def place (number start : Nat) (t : Text) : Line := ⟨t, number, start, start + Text.byteSize t⟩

/-- `Partition number start t lines`: the text `t` is made of `lines` and their endings.
    The first line has the number `number` and starts at the byte `start`. -/
inductive Partition : (number start : Nat) → Text → List Line → Prop
  | nil (number start : Nat) : Partition number start [] []
  /-- The last line need not be ended, unless it is empty. -/
  | last (number start : Nat) {t : Text} (ht : ∀ c ∈ t, ¬ isEnding c) (hne : t ≠ []) :
    Partition number start t [place number start t]
  | cons {number start : Nat} {t rest : Text} {lines : List Line} (ending : Ending)
    (ht : ∀ c ∈ t, ¬ isEnding c) (hrest : ending = .carriage → rest.head? ≠ some '\n')
    (h : Partition (number + 1) (start + Text.byteSize t + ending.text.length) rest lines) :
    Partition number start (t ++ (ending.text ++ rest)) (place number start t :: lines)

theorem close_eq_place (done : Array Line) (start : Nat) (taken : Text) :
    close done start taken = place (done.size + 1) start taken.reverse := rfl

theorem Partition.collect_eq {done : Array Line} {start : Nat} {t : Text} {lines : List Line}
    (h : Partition (done.size + 1) start t lines) :
    (collect done start [] t).toList = done.toList ++ lines := by
  generalize hnumber : done.size + 1 = number at h
  induction h generalizing done with
  | nil => simp [collect]
  | last number start ht hne =>
    subst hnumber
    have hcollect := collect_append done start [] ht []
    rw [List.append_nil, List.append_nil] at hcollect
    rw [hcollect, collect, if_neg (by simpa using hne), Array.toList_push, close_eq_place,
      List.reverse_reverse]
  | @cons number start t rest lines ending ht hrest _ ih =>
    subst hnumber
    rw [collect_append _ _ _ ht, List.append_nil, collect_ending _ _ _ _ hrest, close_eq_place,
      List.reverse_reverse]
    have hih := @ih (done.push (place (done.size + 1) start t)) (by simp)
    exact hih.trans (by simp)

theorem exists_first_line (t : Text) :
    ∃ line, (∀ c ∈ line, ¬ isEnding c) ∧
      (t = line ∨ ∃ (ending : Ending) (rest : Text), t = line ++ (ending.text ++ rest) ∧
        (ending = .carriage → rest.head? ≠ some '\n')) := by
  rcases Text.exists_first isEnding t with ht | ⟨line, c, rest, rfl, hline, hc⟩
  · exact ⟨t, by simpa using ht, .inl rfl⟩
  refine ⟨line, by simpa using hline, .inr ?_⟩
  simp only [isEnding, Bool.or_eq_true, beq_iff_eq] at hc
  rcases hc with rfl | rfl
  · exact ⟨.feed, rest, rfl, by simp⟩
  · -- a line feed after a carriage return is a part of the same ending
    by_cases hfeed : rest.head? = some '\n'
    · obtain ⟨rest, rfl⟩ : ∃ rest', rest = '\n' :: rest' := List.head?_eq_some_iff.1 hfeed
      exact ⟨.both, rest, rfl, by simp⟩
    · exact ⟨.carriage, rest, rfl, fun _ => hfeed⟩

theorem exists_partition (number start : Nat) (t : Text) :
    ∃ lines, Partition number start t lines := by
  induction hn : t.length using Nat.strong_induction_on generalizing number start t with
  | h n ih =>
    subst hn
    obtain ⟨line, hline, rfl | ⟨ending, rest, rfl, hrest⟩⟩ := exists_first_line t
    · by_cases hne : t = []
      · exact ⟨[], hne ▸ .nil number start⟩
      · exact ⟨_, .last number start hline hne⟩
    · have hlt : rest.length < (line ++ (ending.text ++ rest)).length := by
        cases ending <;> simp [Ending.text] <;> omega
      obtain ⟨lines, h⟩ := ih _ hlt _ _ rest rfl
      exact ⟨_, .cons ending hline hrest h⟩

/-- **The lines of a document make it up**, with their endings. -/
theorem partition_lines (document : Text) : Partition 1 0 document (Text.lines document) := by
  obtain ⟨lines, h⟩ := exists_partition 1 0 document
  have hlines : Text.lines document = [] ++ lines := Partition.collect_eq h
  rwa [hlines]

namespace Partition

theorem eq_lines {document : Text} {lines : List Line} (h : Partition 1 0 document lines) :
    lines = Text.lines document :=
  (@collect_eq #[] _ _ _ h).symm

theorem ne_nil {number start : Nat} {t : Text} {lines : List Line}
    (h : Partition number start t lines) (ht : t ≠ []) : lines ≠ [] := by
  cases h with
  | nil => exact absurd rfl ht
  | last | cons => exact List.cons_ne_nil _ _

theorem eq_nil {number start : Nat} {lines : List Line} (h : Partition number start [] lines) :
    lines = [] := by
  generalize hnil : ([] : Text) = t at h
  cases h with
  | nil => rfl
  | last _ _ _ hne => exact absurd hnil.symm hne
  | cons ending => cases ending <;> simp [Ending.text] at hnil

/-- **What follows the end of a line** does not change it, nor the lines above it; the
    line feed of a carriage return must not be torn off. -/
theorem append {number start : Nat} {front rest : Text} {lines more : List Line}
    (h : Partition number start front lines) (hend : ∀ c ∈ front.getLast?, isEnding c)
    (hfeed : front.getLast? = some '\r' → rest.head? ≠ some '\n')
    (hmore : Partition (number + lines.length) (start + Text.byteSize front) rest more) :
    Partition number start (front ++ rest) (lines ++ more) := by
  induction h with
  | nil => exact hmore
  | last number start ht hne =>
    have hlast := List.getLast?_eq_some_getLast hne
    exact absurd (hend _ hlast) (ht _ (List.getLast_mem hne))
  | @cons number start t tail lines ending ht htail _ ih =>
    rw [← List.append_assoc t] at hend hfeed
    have hnumber : number + (place number start t :: lines).length =
        number + 1 + lines.length := by
      rw [List.length_cons]
      omega
    have hstart : start + Text.byteSize (t ++ (ending.text ++ tail)) =
        start + Text.byteSize t + ending.text.length + Text.byteSize tail := by
      rw [Text.byteSize_append, Text.byteSize_append, ending.byteSize_text]
      omega
    rw [hnumber, hstart] at hmore
    rw [List.append_assoc, List.append_assoc, List.cons_append]
    by_cases hnil : tail = []
    · subst hnil
      refine .cons ending ht (fun hcarriage => hfeed ?_) (ih (by simp) (by simp) hmore)
      simp [hcarriage, Ending.text]
    · rw [List.getLast?_append_of_ne_nil _ hnil] at hend hfeed
      refine .cons ending ht (fun hcarriage => ?_) (ih hend hfeed hmore)
      rw [List.head?_append_of_ne_nil _ hnil]
      exact htail hcarriage

end Partition

end Line

/-! ## Bytes -/

/-- Between two byte offsets of a document stands this ending and nothing else; if it is
    a carriage return, no line feed follows. -/
def Ending.Between (ending : Ending) (document : Text) (start stop : Nat) : Prop :=
  Text.slice document start stop = Text.utf8 ending.text ∧
    (ending = .carriage → (Text.utf8 document)[stop]? ≠ some 10)

theorem Ending.between_append (ending : Ending) (before : Text) {rest : Text}
    (hrest : ending = .carriage → rest.head? ≠ some '\n') :
    ending.Between (before ++ (ending.text ++ rest)) (Text.byteSize before)
      (Text.byteSize before + ending.text.length) := by
  rw [← ending.byteSize_text]
  refine ⟨Text.slice_append before ending.text rest, fun hcarriage => ?_⟩
  rw [← Text.byteSize_append, ← List.append_assoc, Text.utf8_append, ← Text.length_utf8,
    List.getElem?_append_right le_rfl, Nat.sub_self, ← List.head?_eq_getElem?]
  exact Text.head?_utf8_ne (d := '\n') (by decide) (hrest hcarriage)

namespace Text

/-- The byte at which the first of some lines starts; the end of the document if there
    are none. -/
def startOf (document : Text) : List Line → Nat
  | [] => byteSize document
  | l :: _ => l.span.start

/-- The texts of lines, each with what stands between it and the next line, or the end of
    the document. -/
def rejoin (document : Text) : List Line → List UInt8
  | [] => []
  | l :: lines =>
    utf8 l.text ++ (slice document l.span.stop (startOf document lines) ++ rejoin document lines)

end Text

namespace Line.Partition

theorem byteSize_through {before : Text} {start : Nat} (h : Text.byteSize before = start)
    (t : Text) (ending : Ending) :
    Text.byteSize (before ++ (t ++ ending.text)) =
      start + Text.byteSize t + ending.text.length := by
  rw [Text.byteSize_append, Text.byteSize_append, ending.byteSize_text, h, Nat.add_assoc]

section
variable {document before t : Text} {number start : Nat} {lines : List Line}
  (h : Partition number start t lines) (hdocument : document = before ++ t)
  (hstart : Text.byteSize before = start)
include h hdocument hstart

theorem startOf_eq : Text.startOf document lines = start := by
  cases h with
  | nil => rw [Text.startOf, hdocument, List.append_nil, hstart]
  | last | cons => rfl

/-- The text of each line stands in the document at its place. -/
theorem exists_of_mem {l : Line} (hl : l ∈ lines) :
    (∀ c ∈ l.text, ¬ isEnding c) ∧ ∃ above below, document = above ++ (l.text ++ below) ∧
      l.span.start = Text.byteSize above ∧
      l.span.stop = Text.byteSize above + Text.byteSize l.text := by
  induction h generalizing before with
  | nil => cases hl
  | @last number start t ht hne =>
    obtain rfl : l = place number start t := List.mem_singleton.1 hl
    refine ⟨ht, before, [], ?_, hstart.symm, ?_⟩
    · rw [hdocument, List.append_nil]
      rfl
    · rw [hstart]
      rfl
  | @cons number start t rest lines ending ht hrest _ ih =>
    rcases List.mem_cons.1 hl with rfl | hl
    · refine ⟨ht, before, ending.text ++ rest, hdocument, hstart.symm, ?_⟩
      rw [hstart]
      rfl
    · exact ih (by simp [hdocument]) (byteSize_through hstart t ending) hl

/-- **After each line** stands an ending, up to the next line or the end of the document.
    Only the last line may go without, and then it is not empty. -/
theorem ending_or_last {above below : List Line} {l : Line} (hl : lines = above ++ l :: below) :
    (∃ ending : Ending, ending.Between document l.span.stop (Text.startOf document below)) ∨
      below = [] ∧ l.span.stop = Text.byteSize document ∧ l.text ≠ [] := by
  induction h generalizing before above with
  | nil => simp at hl
  | @last number start t ht hne =>
    obtain ⟨rfl, hl⟩ : above = [] ∧ _ := by simpa using List.append_eq_singleton_iff.1 hl.symm
    obtain ⟨rfl, rfl⟩ := hl
    refine .inr ⟨rfl, ?_, hne⟩
    rw [hdocument, Text.byteSize_append, hstart]
    rfl
  | @cons number start t rest lines ending ht hrest h ih =>
    have hdocument' : document = before ++ (t ++ ending.text) ++ rest := by simp [hdocument]
    have hstart' := byteSize_through hstart t ending
    cases above with
    | nil =>
      obtain ⟨rfl, rfl⟩ := List.cons.inj hl
      left
      refine ⟨ending, ?_⟩
      rw [h.startOf_eq hdocument' hstart']
      have hbetween := ending.between_append (before ++ t) hrest
      rw [Text.byteSize_append, hstart] at hbetween
      rw [hdocument, ← List.append_assoc]
      exact hbetween
    | cons first above =>
      obtain ⟨-, hl⟩ := List.cons.inj hl
      exact ih hdocument' hstart' hl

/-- **Nothing is lost**: the lines and what stands between them are the document. -/
theorem rejoin_eq : Text.rejoin document lines = Text.utf8 t := by
  induction h generalizing before with
  | nil => rfl
  | @last number start t ht hne =>
    have hstop : start + Text.byteSize t = Text.byteSize document := by
      rw [hdocument, Text.byteSize_append, hstart]
    have hnone : Text.slice document (start + Text.byteSize t) (Text.byteSize document) = [] := by
      rw [hstop, ← Text.length_utf8, Text.slice, List.take_length, List.drop_length]
    rw [Text.rejoin, Text.rejoin, List.append_nil]
    exact (congrArg (Text.utf8 t ++ ·) hnone).trans (List.append_nil _)
  | @cons number start t rest lines ending ht hrest h ih =>
    have hdocument' : document = before ++ (t ++ ending.text) ++ rest := by simp [hdocument]
    have hstart' := byteSize_through hstart t ending
    have hending : Text.slice document (start + Text.byteSize t)
        (Text.startOf document lines) = Text.utf8 ending.text := by
      rw [h.startOf_eq hdocument' hstart', hdocument, ← List.append_assoc, ← hstart,
        ← Text.byteSize_append, ← ending.byteSize_text]
      exact Text.slice_append (before ++ t) ending.text rest
    rw [Text.rejoin, ih hdocument' hstart', Text.utf8_append, Text.utf8_append, ← hending]
    rfl

end

end Line.Partition

/-- **The lines partition the document.**  The text of each line is what the bytes at its
    place say, it holds no byte of a line ending, and no character is cut in two by its
    place.  The lines are numbered from one, and the first one starts with the document.
    After each line stands exactly one ending, up to the next line or the end of the
    document; only the last line may go without, and then it is not empty.  So the texts
    and what stands between them are the document, byte for byte, and only the empty
    document has no lines. -/
theorem Text.lines_partition (document : Text) :
    let lines := Text.lines document
    (∀ l ∈ lines,
      l.span.start ≤ l.span.stop ∧
      slice document l.span.start l.span.stop = utf8 l.text ∧
      (10 ∉ utf8 l.text ∧ 13 ∉ utf8 l.text) ∧
      IsBoundary document l.span.start ∧ IsBoundary document l.span.stop) ∧
    lines.map (fun l => l.span.line) = List.range' 1 lines.length ∧
    (∀ l ∈ lines.head?, l.span.start = 0) ∧
    (∀ above l below, lines = above ++ l :: below →
      (∃ ending : Ending, ending.Between document l.span.stop (startOf document below)) ∨
        below = [] ∧ l.span.stop = byteSize document ∧ l.text ≠ []) ∧
    rejoin document lines = utf8 document ∧
    (lines = [] ↔ document = []) := by
  intro lines
  have h : Line.Partition 1 0 document lines := Line.partition_lines document
  have hall : document = [] ++ document := (List.nil_append document).symm
  refine ⟨fun l hl => ?_, Text.map_line_lines document, ?_, fun above l below hl => ?_, ?_, ?_⟩
  · obtain ⟨hwhole, above, below, hdocument, hstart, hstop⟩ := h.exists_of_mem hall byteSize_nil hl
    have hnone : ∀ c : Char, c.toNat < 128 → Line.isEnding c → UInt8.ofNat c.toNat ∉ utf8 l.text :=
      fun c hascii hc hmem => hwhole c ((mem_utf8_iff hascii).1 hmem) hc
    refine ⟨by omega, ?_, ⟨hnone '\n' (by decide) rfl, hnone '\r' (by decide) rfl⟩, ?_, ?_⟩
    · rw [hstart, hstop, hdocument]
      exact slice_append above l.text below
    · exact ⟨above, _, hdocument, hstart.symm⟩
    · refine ⟨above ++ l.text, below, ?_, ?_⟩
      · rw [hdocument, List.append_assoc]
      · rw [byteSize_append, hstop]
  · cases hlines : lines with
    | nil => simp
    | cons first rest =>
      have hfirst := h.startOf_eq hall byteSize_nil
      rw [hlines] at hfirst
      rintro _ ⟨⟩
      exact hfirst
  · exact h.ending_or_last hall byteSize_nil hl
  · exact h.rejoin_eq hall byteSize_nil
  · refine ⟨fun hlines => ?_, ?_⟩
    · have hrejoin := h.rejoin_eq hall byteSize_nil
      rw [hlines] at hrejoin
      exact utf8_eq_nil_iff.1 hrejoin.symm
    · rintro rfl
      rfl

end Notebook
