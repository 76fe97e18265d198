/-
  The lines of a document, found by a scan over its bytes.

  The scan keeps two offsets, of the byte it looks at and of the byte that the line starts
  with, and gives the places of the lines; their texts are the slices at these places.  The
  bytes of the endings stand for nothing else in UTF-8, so the scan stops where the lines
  end that are read character by character.

  * `Line.endingAt?`, `Line.scan`: the scan;
  * `Line.scan_skip`, `Line.endingAt?_ending`: it runs over the bytes of a line, and stops
    at its ending;
  * `Text.lines_eq_scan`: the lines are those of the scan.
-/
import Notebook.Proofs.Partition

namespace Notebook

namespace Line

/-! ## The scan -/

/-- How many bytes the ending has that stands at an offset, if one does. -/
def endingAt? (bytes : List UInt8) (index : ℕ) : Option ℕ :=
  if bytes[index]? = some 13 ∧ bytes[index + 1]? = some 10 then some 2
  else if bytes[index]? = some 13 ∨ bytes[index]? = some 10 then some 1
  else none

theorem pos_of_endingAt? {bytes : List UInt8} {index n : ℕ} (h : endingAt? bytes index = some n) :
    0 < n := by
  unfold endingAt? at h
  split_ifs at h <;> cases h <;> decide

/-- The places `done`, then those of the lines from the byte `start` on, which is at the
    byte `index` and has found no ending since. -/
def scan (bytes : List UInt8) (start index : ℕ) (done : List Span) : List Span :=
  if index < bytes.length then
    match h : endingAt? bytes index with
    | some n => scan bytes (index + n) (index + n) (done ++ [⟨done.length + 1, start, index⟩])
    | none => scan bytes start (index + 1) done
  else if start < bytes.length then done ++ [⟨done.length + 1, start, bytes.length⟩]
  else done
termination_by bytes.length - index
decreasing_by
  · have := pos_of_endingAt? h
    omega
  · omega

theorem scan_of_some {bytes : List UInt8} {index n : ℕ} (hn : endingAt? bytes index = some n)
    (start : ℕ) (done : List Span) :
    scan bytes start index done =
      scan bytes (index + n) (index + n) (done ++ [⟨done.length + 1, start, index⟩]) := by
  have hlt : index < bytes.length := by
    by_contra hge
    have hnone : bytes[index]? = none := List.getElem?_eq_none (not_lt.1 hge)
    simp [endingAt?, hnone] at hn
  rw [scan, if_pos hlt]
  split
  · next n' h =>
    obtain rfl : n' = n := by simpa [hn] using h.symm
    rfl
  · next h => simp [hn] at h

theorem scan_of_none {bytes : List UInt8} {index : ℕ} (hlt : index < bytes.length)
    (hnone : endingAt? bytes index = none) (start : ℕ) (done : List Span) :
    scan bytes start index done = scan bytes start (index + 1) done := by
  rw [scan, if_pos hlt]
  split
  · next h => simp [hnone] at h
  · rfl

theorem scan_of_end {bytes : List UInt8} {index : ℕ} (hle : bytes.length ≤ index)
    (start : ℕ) (done : List Span) :
    scan bytes start index done =
      if start < bytes.length then done ++ [⟨done.length + 1, start, bytes.length⟩] else done := by
  rw [scan, if_neg (not_lt.2 hle)]

/-- Bytes that are in no ending are run over. -/
theorem scan_skip {part : List UInt8} (hpart : 10 ∉ part ∧ 13 ∉ part) (front rest : List UInt8)
    (start : ℕ) (done : List Span) :
    scan (front ++ (part ++ rest)) start front.length done =
      scan (front ++ (part ++ rest)) start (front.length + part.length) done := by
  induction part generalizing front with
  | nil => rfl
  | cons b part ih =>
    obtain ⟨hfeed, hcarriage⟩ := hpart
    obtain ⟨hb, hfeed⟩ := not_or.1 (mt List.mem_cons.2 hfeed)
    obtain ⟨hb', hcarriage⟩ := not_or.1 (mt List.mem_cons.2 hcarriage)
    have hnone : endingAt? (front ++ (b :: part ++ rest)) front.length = none := by
      simp [endingAt?, Ne.symm hb, Ne.symm hb']
    have hshift : front ++ (b :: part ++ rest) = front ++ [b] ++ (part ++ rest) := by simp
    have hlength : front.length + (b :: part).length = (front ++ [b]).length + part.length := by
      simp only [List.length_append, List.length_cons, List.length_nil]
      omega
    rw [scan_of_none (by simp) hnone, hshift, hlength, ← ih ⟨hfeed, hcarriage⟩,
      List.length_append, List.length_singleton]

theorem endingAt?_ending (ending : Ending) (front : List UInt8) {rest : Text}
    (hrest : ending = .carriage → rest.head? ≠ some '\n') :
    endingAt? (front ++ (Text.utf8 ending.text ++ Text.utf8 rest)) front.length =
      some ending.text.length := by
  have hbytes : ∀ k, (front ++ (Text.utf8 ending.text ++ Text.utf8 rest))[front.length + k]? =
      (Text.utf8 ending.text ++ Text.utf8 rest)[k]? := fun k => by
    rw [List.getElem?_append_right (Nat.le_add_right _ _), Nat.add_sub_cancel_left]
  rw [endingAt?, ← Nat.add_zero front.length, Nat.add_assoc, hbytes, hbytes]
  cases ending with
  | feed => rfl
  | both => rfl
  | carriage =>
    have hfeed : (Text.utf8 rest)[0]? ≠ some 10 := by
      rw [← List.head?_eq_getElem?]
      exact Text.head?_utf8_ne (d := '\n') (by decide) (hrest rfl)
    have hfirst : (Text.utf8 (Ending.text .carriage) ++ Text.utf8 rest)[0]? = some 13 := rfl
    have hsecond : (Text.utf8 (Ending.text .carriage) ++ Text.utf8 rest)[0 + 1]? =
        (Text.utf8 rest)[0]? := rfl
    rw [hfirst, hsecond, if_neg fun h => hfeed h.2, if_pos (.inl rfl)]
    rfl

/-! ## The lines -/

theorem utf8_of_not_isEnding {t : Text} (ht : ∀ c ∈ t, ¬ isEnding c) :
    10 ∉ Text.utf8 t ∧ 13 ∉ Text.utf8 t :=
  ⟨fun h => ht '\n' ((Text.mem_utf8_iff (d := '\n') (by decide)).1 h) rfl,
    fun h => ht '\r' ((Text.mem_utf8_iff (d := '\r') (by decide)).1 h) rfl⟩

/-- **The scan finds the places of the lines** of a partition. -/
theorem Partition.scan_eq {front : List UInt8} {done : List Span} {number start : ℕ} {t : Text}
    {lines : List Line} (h : Partition number start t lines) (hnumber : done.length + 1 = number)
    (hstart : front.length = start) :
    scan (front ++ Text.utf8 t) start start done = done ++ lines.map Line.span := by
  induction h generalizing front done with
  | nil number start =>
    have hend : (front ++ Text.utf8 []).length = start := by simpa using hstart
    rw [scan_of_end hend.le, if_neg hend.not_gt, List.map_nil, List.append_nil]
  | @last number start t ht hne =>
    subst hnumber hstart
    have hpos : 0 < (Text.utf8 t).length := List.length_pos_iff.2 (mt Text.utf8_eq_nil_iff.1 hne)
    have hskip := scan_skip (utf8_of_not_isEnding ht) front [] front.length done
    rw [List.append_nil] at hskip
    rw [hskip, ← List.length_append, scan_of_end le_rfl,
      if_pos (by rw [List.length_append]; omega), List.length_append, Text.length_utf8]
    rfl
  | @cons number start t rest lines ending ht hrest _ ih =>
    subst hnumber hstart
    have hbytes : front ++ Text.utf8 (t ++ (ending.text ++ rest)) =
        front ++ (Text.utf8 t ++ (Text.utf8 ending.text ++ Text.utf8 rest)) := by
      rw [Text.utf8_append, Text.utf8_append]
    have hfront : front ++ (Text.utf8 t ++ (Text.utf8 ending.text ++ Text.utf8 rest)) =
        front ++ Text.utf8 t ++ Text.utf8 ending.text ++ Text.utf8 rest := by
      simp only [List.append_assoc]
    have hending := endingAt?_ending ending (front ++ Text.utf8 t) hrest
    rw [List.append_assoc, List.length_append, Text.length_utf8] at hending
    have hrun := @ih (front ++ Text.utf8 t ++ Text.utf8 ending.text)
      (done ++ [⟨done.length + 1, front.length, front.length + Text.byteSize t⟩])
      (by simp) (by simp [ending.byteSize_text, Nat.add_assoc])
    rw [hbytes, scan_skip (utf8_of_not_isEnding ht), Text.length_utf8, scan_of_some hending,
      hfront, hrun, List.append_assoc]
    rfl

end Line

/-- **The lines are those of a scan over the bytes**: the places are the ones that it finds,
    and the bytes of a text are the slice at its place. -/
theorem Text.lines_eq_scan (document : Text) :
    (lines document).map (fun l => (utf8 l.text, l.span)) =
      (Line.scan (utf8 document) 0 0 []).map fun span =>
        (slice document span.start span.stop, span) := by
  have h : Line.Partition 1 0 document (lines document) := Line.partition_lines document
  have hspans : Line.scan (utf8 document) 0 0 [] = (lines document).map Line.span :=
    @Line.Partition.scan_eq [] [] 1 0 document _ h rfl rfl
  rw [hspans, List.map_map]
  refine List.map_congr_left fun l hl => ?_
  obtain ⟨-, above, below, hdocument, hstart, hstop⟩ :=
    h.exists_of_mem (List.nil_append document).symm byteSize_nil hl
  have hslice : slice document l.span.start l.span.stop = utf8 l.text := by
    rw [hdocument, hstart, hstop]
    exact slice_append above l.text below
  exact Prod.ext hslice.symm rfl

end Notebook
