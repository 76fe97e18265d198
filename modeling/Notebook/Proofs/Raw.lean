/-
  The plain list of bindings can be read back.

  One line is printed for each binding, `name = display`.  No name holds a blank and no
  display a line feed, so that the lines and the two parts of each are found again, and
  what is printed determines the names and what is displayed for them.

  * `Text.cutOn?`: a text cut at the first occurrence of another;
    `Text.cutOn?_eq_some_iff` says that it is the first;
  * `Measurement.feed_notMem_display`: a display is one line;
  * `Bindings.readRaw`, `Bindings.readRaw_raw`: the list read, and that it is read as what
    is displayed;
  * `Evaluation.raw_determines_displayed`: all of it, for the bindings of a document.
-/
import Notebook.Proofs.Display
import Notebook.Proofs.Entry
import Notebook.Report.Variables

namespace Notebook

namespace Text

/-! ## Cuts at a text -/

/-- Cuts a text at the first `mark`: what stands before it and what follows it, or nothing
    if it does not occur. -/
def cutOn? (mark : Text) : Text → Option (Text × Text)
  | [] => if mark = [] then some ([], []) else none
  | c :: t =>
    if mark.isPrefixOf (c :: t) then some ([], (c :: t).drop mark.length)
    else (cutOn? mark t).map fun cut => (c :: cut.1, cut.2)

/-- A cut decomposes a text around the first occurrence of the mark: no other is further to
    the left. -/
theorem cutOn?_eq_some_iff {mark t l r : Text} :
    cutOn? mark t = some (l, r) ↔
      t = l ++ mark ++ r ∧ ∀ l' r', t = l' ++ mark ++ r' → l.length ≤ l'.length := by
  induction t generalizing l with
  | nil =>
    rw [cutOn?]
    split
    · next hmark =>
      subst hmark
      constructor
      · rintro ⟨⟩
        exact ⟨rfl, fun _ _ _ => Nat.zero_le _⟩
      · rintro ⟨h, -⟩
        obtain ⟨rfl, rfl⟩ : l = [] ∧ r = [] := by simpa using h.symm
        rfl
    · next hmark =>
      refine iff_of_false nofun fun ⟨h, _⟩ => hmark ?_
      obtain ⟨hfront, -⟩ := List.append_eq_nil_iff.1 h.symm
      exact (List.append_eq_nil_iff.1 hfront).2
  | cons c t ih =>
    rw [cutOn?]
    split
    · next hfront =>
      obtain ⟨after, hafter⟩ := List.isPrefixOf_iff_prefix.1 hfront
      rw [← hafter, List.drop_left]
      constructor
      · rintro ⟨⟩
        exact ⟨rfl, fun _ _ _ => Nat.zero_le _⟩
      · rintro ⟨h, hfirst⟩
        obtain rfl : l = [] := List.length_eq_zero_iff.1 (Nat.le_zero.1 (hfirst [] after rfl))
        rw [List.nil_append] at h
        rw [List.append_cancel_left h]
    · next hfront =>
      -- the mark does not stand at the front, so that `c` stands before every occurrence
      have hcons {l' r' : Text} (h : c :: t = l' ++ mark ++ r') :
          ∃ l'', l' = c :: l'' ∧ t = l'' ++ mark ++ r' := by
        cases l' with
        | nil => exact absurd (List.isPrefixOf_iff_prefix.2 ⟨r', h.symm⟩) hfront
        | cons d l'' =>
          obtain ⟨rfl, ht⟩ := List.cons.inj h
          exact ⟨l'', rfl, ht⟩
      rw [Option.map_eq_some_iff]
      constructor
      · rintro ⟨⟨l₀, r₀⟩, hcut, heq⟩
        obtain ⟨rfl, rfl⟩ := Prod.mk.inj heq
        obtain ⟨rfl, hfirst⟩ := ih.1 hcut
        refine ⟨rfl, fun l' r' h => ?_⟩
        obtain ⟨l'', rfl, ht⟩ := hcons h
        exact Nat.succ_le_succ (hfirst l'' r' ht)
      · rintro ⟨h, hfirst⟩
        obtain ⟨l₀, rfl, ht⟩ := hcons h
        refine ⟨(l₀, r), ih.2 ⟨ht, fun l' r' h' => ?_⟩, rfl⟩
        exact Nat.le_of_succ_le_succ (hfirst (c :: l') r' (by rw [h']; rfl))

/-- Where the first character of the mark does not stand, the mark does not start. -/
theorem cutOn?_append {c : Char} {l : Text} (hl : c ∉ l) (mark r : Text) :
    cutOn? (c :: mark) (l ++ (c :: mark) ++ r) = some (l, r) := by
  refine cutOn?_eq_some_iff.2 ⟨rfl, fun l' r' h => Nat.le_of_not_lt fun hlt => hl ?_⟩
  have hget := congrArg (·[l'.length]?) h
  rw [List.append_assoc, List.append_assoc, List.getElem?_append_left hlt,
    List.getElem?_append_right (Nat.le_refl _), Nat.sub_self] at hget
  exact List.mem_of_getElem? hget

/-! ## Lines that are printed -/

/-- Lines that are printed one after the other are found again, and nothing is left. -/
theorem splitOn_printed {lines : List Text} (h : ∀ line ∈ lines, '\n' ∉ line) :
    (lines.flatMap fun line => line ++ ['\n']).splitOn '\n' = lines ++ [[]] := by
  induction lines with
  | nil => rfl
  | cons line lines ih =>
    obtain ⟨hline, hlines⟩ := List.forall_mem_cons.1 h
    have hother : ∀ c ∈ line, (c == '\n') = false := fun c hc =>
      beq_eq_false_iff_ne.2 fun heq => hline (heq ▸ hc)
    rw [List.flatMap_cons, List.append_assoc, List.singleton_append, List.splitOn,
      List.splitOnP_append_cons_of_forall_mem hother _ rfl, List.cons_append]
    exact congrArg (line :: ·) (ih hlines)

end Text

/-! ## Displays -/

namespace Measurement

theorem mem_display (m : Measurement) :
    ∀ c ∈ m.display, Decimal.isNumberChar c ∨ c = ' ' ∨ c = '±' := by
  have hnumber {t : Text} (h : ∀ c ∈ t, Decimal.isNumberChar c) :
      ∀ c ∈ t, Decimal.isNumberChar c ∨ c = ' ' ∨ c = '±' := fun c hc => .inl (h c hc)
  by_cases hbare : m.IsBare
  · rw [display_of_isBare hbare]
    exact hnumber (Decimal.mem_write _ _)
  · obtain ⟨places, x, y, hdisplay, -⟩ := exists_fixed_of_not_isBare hbare
    have hx := hnumber (Decimal.fixed_form places x).mem
    have hy := hnumber (Decimal.fixed_form places y).mem
    rw [hdisplay]
    refine List.forall_mem_append.2 ⟨List.forall_mem_append.2 ⟨hx, fun c hc => .inr ?_⟩, hy⟩
    have hc : c = ' ' ∨ c = '±' ∨ c = ' ' := by simpa [plusMinus] using hc
    tauto

theorem feed_notMem_display (m : Measurement) : '\n' ∉ m.display := fun h => by
  rcases m.mem_display _ h with h | h | h <;> exact absurd h (by decide)

end Measurement

/-! ## Bindings -/

namespace Bindings

/-- What stands between a name and what is displayed for it. -/
def equals : Text := " = "

/-- The line of a name and what is displayed for it. -/
def row (e : Text × Text) : Text := e.1 ++ equals ++ e.2

theorem raw_eq (b : Bindings) :
    b.raw = (b.displayed.map row).flatMap fun line => line ++ ['\n'] := by
  rw [raw, List.flatMap_map]
  rfl

/-- Reads the names, and what is displayed for each, from the lines of a text. -/
def readRaw (t : Text) : List (Text × Text) := (t.splitOn '\n').filterMap (Text.cutOn? equals)

section
variable {b : Bindings} (hb : b.Named)
include hb

theorem Named.of_mem_displayed {e : Text × Text} (he : e ∈ b.displayed) :
    Text.isName e.1 ∧ '\n' ∉ e.2 := by
  obtain ⟨entry, hentry, rfl⟩ := List.mem_map.1 he
  exact ⟨hb _ (List.mem_map_of_mem hentry), entry.2.feed_notMem_display⟩

theorem Named.feed_notMem_row {e : Text × Text} (he : e ∈ b.displayed) : '\n' ∉ row e := by
  obtain ⟨hname, hdisplay⟩ := hb.of_mem_displayed he
  intro h
  rcases List.mem_append.1 h with h | h
  · rcases List.mem_append.1 h with h | h
    · exact absurd (Text.isNameChar_of_isName hname _ h) (by decide)
    · exact absurd h (by decide)
  · exact hdisplay h

/-- The line of a binding is cut after its name: no name holds a blank. -/
theorem Named.cutOn?_row {e : Text × Text} (he : e ∈ b.displayed) :
    Text.cutOn? equals (row e) = some e := by
  obtain ⟨hname, -⟩ := hb.of_mem_displayed he
  refine Text.cutOn?_append (fun h => ?_) ['=', ' '] e.2
  exact absurd (Text.isNameChar_of_isName hname _ h) (by decide)

theorem Named.splitOn_raw : b.raw.splitOn '\n' = b.displayed.map row ++ [[]] := by
  rw [raw_eq]
  refine Text.splitOn_printed fun line hline => ?_
  obtain ⟨e, he, rfl⟩ := List.mem_map.1 hline
  exact hb.feed_notMem_row he

/-- **What is printed is read back** as what is displayed. -/
theorem readRaw_raw : readRaw b.raw = b.displayed := by
  have hnone : Text.cutOn? equals [] = none := rfl
  rw [readRaw, hb.splitOn_raw, List.filterMap_append, List.filterMap_map, List.filterMap_cons,
    hnone, List.filterMap_nil, List.append_nil]
  refine (List.filterMap_congr fun e he => ?_).trans List.filterMap_some
  exact hb.cutOn?_row he

end

end Bindings

namespace Evaluation

theorem named_evaluate (settings : Settings) (document : Text) :
    (evaluate settings document).bindings.Named := by
  rw [bindings_evaluate]
  exact Bindings.named_above Bindings.named_empty
    ((outcomes_evaluate settings document).symm.trans (List.append_nil _).symm)

/-- **The plain list of bindings can be read back.**  All that is bound by a document are
    identifiers; its plain list, split at the line feeds, is one line for each binding in
    the order of the bindings, and nothing after the last line feed; each line, cut at its
    first ` = `, is the name and what is displayed for it; so the whole is read back as
    what is displayed, and two documents have the same plain list only if the same is
    displayed for the same names in the same order. -/
theorem raw_determines_displayed (settings : Settings) (document : Text) :
    let b := (evaluate settings document).bindings
    (∀ name ∈ b.names, Text.isName name) ∧
    b.displayed.map Prod.fst = b.names ∧
    b.raw.splitOn '\n' = b.displayed.map Bindings.row ++ [[]] ∧
    (∀ e ∈ b.displayed, Text.cutOn? " = " (Bindings.row e) = some e) ∧
    Bindings.readRaw b.raw = b.displayed ∧
    ∀ settings' document', let b' := (evaluate settings' document').bindings
      b.raw = b'.raw ↔ b.displayed = b'.displayed := by
  intro b
  have hb : b.Named := named_evaluate settings document
  refine ⟨hb, ?_, hb.splitOn_raw, fun e he => hb.cutOn?_row he, Bindings.readRaw_raw hb,
    fun settings' document' => ?_⟩
  · rw [Bindings.displayed, List.map_map]
    rfl
  · have hb' := named_evaluate settings' document'
    dsimp only
    constructor
    · intro h
      rw [← Bindings.readRaw_raw hb, h, Bindings.readRaw_raw hb']
    · intro h
      rw [Bindings.raw_eq, h, ← Bindings.raw_eq]

end Evaluation

end Notebook
