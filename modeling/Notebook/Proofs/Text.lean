/-
  Trimming and cutting.

  * `Text.trim_append`: blanks at the ends of a text do not change what trimming
    leaves; so trimming twice is trimming once (`Text.trim_trim`);
  * `Text.cutAt?_eq_some_iff`: a cut is the decomposition of a text around the
    first occurrence of a character; trimming a text trims the outer ends of the
    two pieces and nothing else (`Text.cutAt?_trim`);
  * `Text.takeWhile_append` and `Text.dropWhile_append`: a run of characters of
    one class ends where the class does; `Text.run_iff`: it is the only such part;
  * `Text.mem_splitOnP_iff`: what a text is split into at the characters of a class;
  * `Text.infix_or_of_cut`, `Text.infix_after_cut`: where a part of a text is
    found once the text is cut.
-/
import Mathlib.Data.List.DropRight
import Notebook.Text

namespace Notebook.Text

/-! ## Trimming -/

theorem trimStart_append {g : Text} (hg : ∀ c ∈ g, isBlank c) (t : Text) :
    trimStart (g ++ t) = trimStart t :=
  List.dropWhile_append_of_pos hg

theorem trimEnd_append {g : Text} (hg : ∀ c ∈ g, isBlank c) (t : Text) :
    trimEnd (t ++ g) = trimEnd t := by
  have hg' : ∀ c ∈ g.reverse, isBlank c := fun c hc => hg c (List.mem_reverse.1 hc)
  rw [trimEnd, trimEnd, List.reverse_append, List.dropWhile_append_of_pos hg']

theorem trim_append {g g' : Text} (hg : ∀ c ∈ g, isBlank c) (hg' : ∀ c ∈ g', isBlank c)
    (t : Text) : trim (g ++ t ++ g') = trim t := by
  rw [List.append_assoc, trim, trimStart_append hg, trim, trimStart, List.dropWhile_append]
  split
  · next h =>
    have ht : trimStart t = [] := List.isEmpty_iff.1 h
    rw [ht, List.dropWhile_eq_nil_iff.2 hg']
  · exact trimEnd_append hg' _

theorem trim_cons {c : Char} (hc : isBlank c = false) (t : Text) :
    trim (c :: t) = c :: trimEnd t := by
  rw [trim, trimStart, List.dropWhile_cons_of_neg (by simp [hc]), trimEnd, trimEnd,
    List.reverse_cons, List.dropWhile_append]
  split
  · next h => simp [List.isEmpty_iff.1 h, hc]
  · simp

theorem trim_eq_self {t : Text} (hhead : ∀ c ∈ t.head?, isBlank c = false)
    (hlast : ∀ c ∈ t.getLast?, isBlank c = false) : trim t = t := by
  have hstart : trimStart t = t := by
    cases t with
    | nil => rfl
    | cons c t => exact List.dropWhile_cons_of_neg (by simp [hhead c rfl])
  rw [trim, hstart]
  refine List.rdropWhile_eq_self_iff.2 fun hne => ?_
  simp [hlast _ (List.getLast?_eq_some_getLast hne)]

theorem exists_trimStart (t : Text) : ∃ g, (∀ c ∈ g, isBlank c) ∧ t = g ++ trimStart t :=
  ⟨t.takeWhile isBlank, fun _ hc => List.mem_takeWhile_imp hc,
    List.takeWhile_append_dropWhile.symm⟩

theorem exists_trimEnd (t : Text) : ∃ g, (∀ c ∈ g, isBlank c) ∧ t = trimEnd t ++ g := by
  obtain ⟨g, hg, ht⟩ := exists_trimStart t.reverse
  refine ⟨g.reverse, fun c hc => hg c (List.mem_reverse.1 hc), ?_⟩
  rw [← List.reverse_inj, ht, trimEnd, trimStart]
  simp

theorem exists_trim (t : Text) :
    ∃ g g', (∀ c ∈ g, isBlank c) ∧ (∀ c ∈ g', isBlank c) ∧ t = g ++ trim t ++ g' := by
  obtain ⟨g, hg, ht⟩ := exists_trimStart t
  obtain ⟨g', hg', ht'⟩ := exists_trimEnd (trimStart t)
  refine ⟨g, g', hg, hg', ?_⟩
  rw [List.append_assoc, trim, ← ht', ← ht]

theorem trim_isInfix (t : Text) : trim t <:+: t := by
  obtain ⟨g, g', -, -, ht⟩ := exists_trim t
  exact ⟨g, g', ht.symm⟩

theorem trim_trimStart (t : Text) : trim (trimStart t) = trim t := by
  obtain ⟨g, hg, ht⟩ := exists_trimStart t
  conv_rhs => rw [ht]
  simpa using (trim_append hg (List.forall_mem_nil _) (trimStart t)).symm

@[simp] theorem trim_trim (t : Text) : trim (trim t) = trim t := by
  obtain ⟨g, g', hg, hg', ht⟩ := exists_trim t
  conv_rhs => rw [ht]
  exact (trim_append hg hg' _).symm

theorem mem_trim {c : Char} (hc : isBlank c = false) {t : Text} : c ∈ trim t ↔ c ∈ t := by
  obtain ⟨g, g', hg, hg', ht⟩ := exists_trim t
  have h : c ∉ g := fun h => by simp [hg c h] at hc
  have h' : c ∉ g' := fun h => by simp [hg' c h] at hc
  conv_rhs => rw [ht]
  simp [h, h']

theorem mem_of_mem_trim {c : Char} {t : Text} (hc : c ∈ trim t) : c ∈ t := by
  obtain ⟨g, g', -, -, ht⟩ := exists_trim t
  rw [ht]
  simp [hc]

theorem trimEnd_of_append {l r : Text} (h : trimEnd (l ++ r) = l ++ r) : trimEnd r = r := by
  refine List.rdropWhile_eq_self_iff.2 fun hr => ?_
  have := List.rdropWhile_eq_self_iff.1 h (by simp [hr])
  rwa [List.getLast_append_of_ne_nil _ hr] at this

theorem trimEnd_trim (t : Text) : trimEnd (trim t) = trim t :=
  List.rdropWhile_idempotent isBlank (trimStart t)

theorem trimStart_eq_trim {t : Text} (h : trimEnd t = t) : trimStart t = trim t := by
  obtain ⟨g, -, ht⟩ := exists_trimStart t
  exact (trimEnd_of_append (l := g) (ht ▸ h)).symm

/-! ## Cutting -/

theorem cutAt?_append {c : Char} {l : Text} (hl : c ∉ l) (r : Text) :
    cutAt? c (l ++ c :: r) = some (l, r) := by
  have h : ∀ d ∈ l, (d != c) = true := fun d hd => bne_iff_ne.2 fun e => hl (e ▸ hd)
  rw [cutAt?, List.dropWhile_append_of_pos h, List.takeWhile_append_of_pos h]
  simp

/-- A cut decomposes a text around the first occurrence of a character. -/
theorem cutAt?_eq_some_iff {c : Char} {t l r : Text} :
    cutAt? c t = some (l, r) ↔ c ∉ l ∧ t = l ++ c :: r := by
  constructor
  · intro h
    refine ⟨fun hc => ?_, (append_of_cutAt? h).symm⟩
    unfold cutAt? at h
    split at h
    · simp at h
    · obtain ⟨rfl, -⟩ := by simpa using h
      simpa using List.mem_takeWhile_imp hc
  · rintro ⟨hl, rfl⟩
    exact cutAt?_append hl r

theorem cutAt?_eq_none_iff {c : Char} {t : Text} : cutAt? c t = none ↔ c ∉ t := by
  rw [Option.eq_none_iff_forall_not_mem]
  constructor
  · intro h hc
    obtain ⟨l, r, rfl, hl⟩ := List.eq_append_cons_of_mem hc
    exact h (l, r) (cutAt?_append hl r)
  · rintro h ⟨l, r⟩ hcut
    obtain ⟨-, rfl⟩ := cutAt?_eq_some_iff.1 hcut
    exact h (by simp)

theorem trimEnd_of_cutAt? {c : Char} {t l r : Text} (ht : trimEnd t = t)
    (h : cutAt? c t = some (l, r)) : trimEnd r = r := by
  obtain ⟨-, rfl⟩ := cutAt?_eq_some_iff.1 h
  exact trimEnd_of_append (l := l ++ [c]) (by simpa using ht)

/-- Trimming a text trims the outer ends of the pieces of a cut. -/
theorem cutAt?_trim {c : Char} (hc : isBlank c = false) {t l r : Text}
    (h : cutAt? c t = some (l, r)) : cutAt? c (trim t) = some (trimStart l, trimEnd r) := by
  obtain ⟨hl, rfl⟩ := cutAt?_eq_some_iff.1 h
  have hmem : c ∉ trimStart l := fun hm => hl ((List.dropWhile_suffix isBlank).mem hm)
  have hs : trimStart (l ++ c :: r) = trimStart l ++ c :: r := by
    rw [trimStart, List.dropWhile_append]
    split
    · next he => simp [trimStart, List.isEmpty_iff.1 he, hc]
    · rfl
  have he : trimEnd (trimStart l ++ c :: r) = trimStart l ++ c :: trimEnd r := by
    rw [trimEnd, trimEnd, List.reverse_append, List.reverse_cons, List.append_assoc,
      List.dropWhile_append]
    split
    · next he => simp [List.isEmpty_iff.1 he, hc]
    · simp
  rw [trim, hs, he]
  exact cutAt?_append hmem _

/-! ## Parts -/

theorem infix_of_append_left {w g t : Text} (hg : ∀ c ∈ w, c ∉ g) (h : w <:+: g ++ t) :
    w <:+: t := by
  rcases List.infix_append_iff.1 h with h | h | ⟨w₁, w₂, rfl, h₁, h₂⟩
  · cases w with
    | nil => exact List.nil_infix
    | cons c w => exact absurd (h.subset (by simp)) (hg c (by simp))
  · exact h
  · cases w₁ with
    | nil => exact h₂.isInfix
    | cons c w => exact absurd (h₁.subset (by simp)) (hg c (by simp))

theorem infix_of_append_right {w t g : Text} (hg : ∀ c ∈ w, c ∉ g) (h : w <:+: t ++ g) :
    w <:+: t := by
  rw [← List.reverse_infix, List.reverse_append] at h
  have hg' : ∀ c ∈ w.reverse, c ∉ g.reverse := fun c hc => by simpa using hg c (by simpa using hc)
  exact List.reverse_infix.1 (infix_of_append_left hg' h)

theorem infix_of_cons {c : Char} {w t : Text} (hc : c ∉ w) (h : w <:+: c :: t) : w <:+: t :=
  infix_of_append_left (g := [c]) (fun _ hd he => hc (List.mem_singleton.1 he ▸ hd)) h

theorem notMem_run {p : Char → Bool} {w g : Text} (hw : w.any p = false)
    (hg : ∀ c ∈ g, p c) : ∀ c ∈ w, c ∉ g := fun c hc hm =>
  List.any_eq_false.1 hw c hc (hg c hm)

theorem infix_of_append_run {p : Char → Bool} {w g t : Text} (hw : w.any p = false)
    (hg : ∀ c ∈ g, p c) (h : w <:+: g ++ t) : w <:+: t :=
  infix_of_append_left (notMem_run hw hg) h

theorem infix_trim {w t : Text} (hw : w.any isBlank = false) (h : w <:+: t) :
    w <:+: trim t := by
  obtain ⟨g, g', hg, hg', ht⟩ := exists_trim t
  rw [ht, List.append_assoc] at h
  exact infix_of_append_right (notMem_run hw hg') (infix_of_append_run hw hg h)

/-- A part that does not hold the character a text is cut at is found on one side
    of the cut. -/
theorem infix_or_of_cut {c : Char} {w l r : Text} (hc : c ∉ w) (h : w <:+: l ++ c :: r) :
    w <:+: l ∨ w <:+: r := by
  have hempty : ∀ {v : Text}, c ∉ v → v <+: c :: r → v = [] := fun {v} hv h => by
    cases v with
    | nil => rfl
    | cons d v => exact absurd (List.cons_prefix_cons.1 h).1 fun e => hv (by simp [e])
  rcases List.infix_append_iff.1 h with h | h | ⟨w₁, w₂, rfl, h₁, h₂⟩
  · exact .inl h
  · rcases List.infix_cons_iff.1 h with h | h
    · exact .inl (hempty hc h ▸ List.nil_infix)
    · exact .inr h
  · rw [hempty (fun hm => hc (by simp [hm])) h₂, List.append_nil]
    exact .inl h₁.isInfix

/-- A part that starts with the character a text is cut at starts at the first
    cut, or is found after it. -/
theorem infix_after_cut {c : Char} {w l r : Text} (hl : c ∉ l) (h : c :: w <:+: l ++ c :: r) :
    w <+: r ∨ c :: w <:+: r := by
  rcases List.infix_append_iff.1 h with h | h | ⟨w₁, w₂, hw, h₁, h₂⟩
  · exact absurd (h.subset (by simp)) hl
  · exact (List.infix_cons_iff.1 h).imp_left fun h => (List.cons_prefix_cons.1 h).2
  · cases w₁ with
    | nil =>
      obtain rfl : c :: w = w₂ := hw
      exact .inl (List.cons_prefix_cons.1 h₂).2
    | cons d w₁ =>
      obtain ⟨rfl, -⟩ := List.cons.inj hw
      exact absurd (h₁.subset (by simp)) hl

/-! ## Runs -/

section
variable {p : Char → Bool} {run rest : Text} (hrun : ∀ c ∈ run, p c)
  (hrest : ∀ c ∈ rest.head?, p c = false)
include hrun hrest

theorem takeWhile_append : (run ++ rest).takeWhile p = run := by
  rw [List.takeWhile_append_of_pos hrun]
  cases rest with
  | nil => simp
  | cons c rest => simp [hrest c rfl]

theorem dropWhile_append : (run ++ rest).dropWhile p = rest := by
  rw [List.dropWhile_append_of_pos hrun]
  cases rest with
  | nil => simp
  | cons c rest => simp [hrest c rfl]

end

theorem head?_dropWhile (p : Char → Bool) (t : Text) :
    ∀ c ∈ (t.dropWhile p).head?, p c = false := by
  intro c hc
  have h := List.head?_dropWhile_not p t
  rwa [Option.mem_def.1 hc] at h

/-- The longest run of a class that a text starts with, and what follows it. -/
theorem run_iff {p : Char → Bool} {t run rest : Text} :
    (t.takeWhile p = run ∧ t.dropWhile p = rest) ↔
      t = run ++ rest ∧ (∀ c ∈ run, p c) ∧ ∀ c ∈ rest.head?, p c = false := by
  constructor
  · rintro ⟨rfl, rfl⟩
    exact ⟨List.takeWhile_append_dropWhile.symm, fun _ hc => List.mem_takeWhile_imp hc,
      head?_dropWhile p t⟩
  · rintro ⟨rfl, hrun, hrest⟩
    exact ⟨takeWhile_append hrun hrest, dropWhile_append hrun hrest⟩

/-- A text up to the first character of a class, if there is one in it. -/
theorem exists_first (p : Char → Bool) (t : Text) :
    (∀ c ∈ t, p c = false) ∨
      ∃ run d rest, t = run ++ d :: rest ∧ (∀ c ∈ run, p c = false) ∧ p d := by
  cases h : t.find? p with
  | none => exact .inl (by simpa using List.find?_eq_none.1 h)
  | some d =>
    obtain ⟨hd, run, rest, ht, hrun⟩ := List.find?_eq_some_iff_append.1 h
    exact .inr ⟨run, d, rest, ht, by simpa using hrun, hd⟩

theorem exists_last_of_mem {c : Char} {t : Text} (h : c ∈ t) :
    ∃ l r, t = l ++ c :: r ∧ c ∉ r := by
  obtain ⟨r, l, ht, hr⟩ := List.eq_append_cons_of_mem (List.mem_reverse.2 h)
  exact ⟨l.reverse, r.reverse, by simpa using congrArg List.reverse ht, by simpa using hr⟩

/-! ## Splits -/

theorem exists_of_mem_splitOnP {p : Char → Bool} {w t : Text} (h : w ∈ t.splitOnP p) :
    (∀ c ∈ w, p c = false) ∧ ∃ l r, t = l ++ w ++ r ∧
      (∀ c ∈ l.getLast?, p c) ∧ ∀ c ∈ r.head?, p c := by
  induction hn : t.length using Nat.strong_induction_on generalizing t with
  | h n ih =>
    subst hn
    rcases exists_first p t with ht | ⟨run, d, rest, rfl, hrun, hd⟩
    · obtain rfl : w = t := by simpa [List.splitOnP_eq_singleton ht] using h
      exact ⟨ht, [], [], by simp, by simp, by simp⟩
    rw [List.splitOnP_append_cons_of_forall_mem hrun d hd] at h
    rcases List.mem_cons.1 h with rfl | h
    · exact ⟨hrun, [], d :: rest, by simp, by simp, by simpa using hd⟩
    · have hlt : rest.length < (run ++ d :: rest).length := by
        rw [List.length_append, List.length_cons]
        omega
      obtain ⟨hw, l, r, rfl, hl, hr⟩ := ih _ hlt h rfl
      refine ⟨hw, run ++ d :: l, r, by simp, ?_, hr⟩
      intro c hc
      rcases List.eq_nil_or_concat' l with rfl | ⟨l, e, rfl⟩
      · obtain rfl : d = c := by simpa using hc
        exact hd
      · rw [← List.cons_append, ← List.append_assoc, List.getLast?_concat] at hc
        exact hl c (by rwa [List.getLast?_concat])

/-- The parts of a text that is split at every character of a class: those without
    such a character that cannot be made longer on either side. -/
theorem mem_splitOnP_iff {p : Char → Bool} {w t : Text} :
    w ∈ t.splitOnP p ↔ (∀ c ∈ w, p c = false) ∧ ∃ l r, t = l ++ w ++ r ∧
      (∀ c ∈ l.getLast?, p c) ∧ ∀ c ∈ r.head?, p c := by
  refine ⟨exists_of_mem_splitOnP, ?_⟩
  rintro ⟨hw, l, r, rfl, hl, hr⟩
  have hright : w ∈ (w ++ r).splitOnP p := by
    cases r with
    | nil => simp [List.splitOnP_eq_singleton hw]
    | cons d r => simp [List.splitOnP_append_cons_of_forall_mem hw d (hr d rfl)]
  rcases List.eq_nil_or_concat' l with rfl | ⟨l, c, rfl⟩
  · simpa using hright
  · have hc : p c := hl c (by simp)
    have ht : l ++ [c] ++ w ++ r = l ++ c :: (w ++ r) := by simp
    rw [ht, List.splitOnP_append_cons l (w ++ r) hc]
    exact List.mem_append_right _ hright

end Notebook.Text
