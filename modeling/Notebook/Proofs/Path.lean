/-
  File names and extensions.

  What a path says is said between its slashes.  The file name is found from the end:
  slashes and `.` after it say nothing.  To append an extension is to append it to what
  follows the last slash, and if nothing follows it, there is no name to extend.

  * `Path.HasFileName`, `Path.fileName?_eq_some_iff`: where the file name of a path
    stands in it;
  * `Path.extension?_eq_some_iff`: the extension of a path is what follows the last point
    of its file name, which is not its first character;
  * `Path.extension?_append_iff`: an extension that is appended to a path is that of the
    path unless the path is empty or ends in a slash;
  * `Path.isNotebook_ofNotebook_iff`, `Path.ofNotebook_idempotent_iff`: so it is for the
    extension of notebooks.
-/
import Notebook.Path
import Notebook.Proofs.Text

namespace Notebook

namespace Path

/-! ## Pieces

The pieces of a path are what it is cut into at its slashes.  Those of a class that the
empty piece is not in are found part by part. -/

section Pieces
variable (p : Text → Bool)

theorem filter_pieces_append_slash (l r : Text) :
    ((l ++ '/' :: r).splitOn '/').filter p =
      (l.splitOn '/').filter p ++ (r.splitOn '/').filter p := by
  rw [List.splitOn_append_cons_self, List.filter_append]

variable {p} (hp : p [] = false)
include hp

theorem filter_pieces_nil : (List.splitOn '/' []).filter p = [] := by simp [hp]

/-- No piece goes on after the end of a folder. -/
theorem filter_pieces_append_of_front {front : Text} (h : front = [] ∨ endsAsFolder front)
    (r : Text) : ((front ++ r).splitOn '/').filter p =
      (front.splitOn '/').filter p ++ (r.splitOn '/').filter p := by
  rcases h with rfl | h
  · rw [filter_pieces_nil hp, List.nil_append, List.nil_append]
  · obtain ⟨l, rfl⟩ := List.getLast?_eq_some_iff.1 (beq_iff_eq.1 h)
    rw [List.append_assoc, List.singleton_append, filter_pieces_append_slash,
      filter_pieces_append_slash, filter_pieces_nil hp, List.append_nil]

/-- No piece goes on before a slash. -/
theorem filter_pieces_append_of_tail {tail : Text} (h : tail = [] ∨ tail.head? = some '/')
    (l : Text) : ((l ++ tail).splitOn '/').filter p =
      (l.splitOn '/').filter p ++ (tail.splitOn '/').filter p := by
  cases tail with
  | nil => rw [filter_pieces_nil hp, List.append_nil, List.append_nil]
  | cons c tail =>
    obtain rfl : c = '/' := by simpa using h
    have hcons := filter_pieces_append_slash p [] tail
    rw [filter_pieces_nil hp, List.nil_append, List.nil_append] at hcons
    rw [filter_pieces_append_slash, hcons]

end Pieces

/-! ## File names -/

/-- The pieces that say nothing. -/
def IsSilent (piece : Text) : Prop := piece = [] ∨ piece = ['.']

/-- `HasFileName path name`: the name stands in the path where it ends, except for pieces
    after it that say nothing. -/
inductive HasFileName : Text → Text → Prop
  | intro {front name tail : Text} : front = [] ∨ endsAsFolder front → '/' ∉ name →
    ¬ IsSilent name → name ≠ ['.', '.'] → tail = [] ∨ tail.head? = some '/' →
    (∀ piece ∈ tail.splitOn '/', IsSilent piece) → HasFileName (front ++ name ++ tail) name

theorem components_append_slash (l r : Text) :
    components (l ++ '/' :: r) = components l ++ components r :=
  filter_pieces_append_slash _ l r

theorem components_eq_nil_iff {t : Text} :
    components t = [] ↔ ∀ piece ∈ t.splitOn '/', IsSilent piece := by
  simp [components, List.filter_eq_nil_iff, IsSilent, or_iff_not_imp_left]

theorem components_of_isSilent {t : Text} (h : IsSilent t) : components t = [] := by
  rcases h with rfl | rfl <;> rfl

theorem components_of_notMem {t : Text} (ht : '/' ∉ t) (h : ¬ IsSilent t) : components t = [t] := by
  rw [components, List.splitOn_eq_singleton ht]
  simpa [IsSilent] using h

theorem HasFileName.getLast?_components {path name : Text} (h : HasFileName path name) :
    (components path).getLast? = some name := by
  obtain @⟨front, _, tail, hfront, hslash, hsilent, -, htail, hidle⟩ := h
  have happend : components (front ++ name ++ tail) =
      components front ++ components name ++ components tail := by
    rw [components, filter_pieces_append_of_tail rfl htail,
      filter_pieces_append_of_front rfl hfront]
    rfl
  rw [happend, components_of_notMem hslash hsilent, components_eq_nil_iff.2 hidle]
  simp

/-- A piece that says nothing, at the end of a path, is no part of its file name. -/
theorem HasFileName.append_slash {path name last : Text} (h : HasFileName path name)
    (hslash : '/' ∉ last) (hlast : IsSilent last) : HasFileName (path ++ '/' :: last) name := by
  obtain @⟨front, _, tail, hfront, hname, hsilent, hdots, htail, hidle⟩ := h
  rw [List.append_assoc]
  refine .intro hfront hname hsilent hdots (.inr ?_) fun piece hpiece => ?_
  · rcases htail with rfl | htail
    · rfl
    · simp [List.head?_append, htail]
  · rw [List.splitOn_append_cons_self, List.splitOn_eq_singleton hslash, List.mem_append,
      List.mem_singleton] at hpiece
    rcases hpiece with hpiece | rfl
    · exact hidle piece hpiece
    · exact hlast

/-- A last piece that says something is the file name. -/
theorem HasFileName.of_last {front last : Text} (hfront : front = [] ∨ endsAsFolder front)
    (hslash : '/' ∉ last) (hsilent : ¬ IsSilent last) (hdots : last ≠ ['.', '.']) :
    HasFileName (front ++ last) last := by
  have h := intro hfront hslash hsilent hdots (.inl rfl) (by simp [IsSilent])
  rwa [List.append_nil] at h

theorem exists_last_piece (path : Text) : ∃ front last, path = front ++ last ∧
    (front = [] ∨ endsAsFolder front) ∧ '/' ∉ last := by
  by_cases hmem : '/' ∈ path
  · obtain ⟨above, last, hpath, hlast⟩ := Text.exists_last_of_mem hmem
    exact ⟨above ++ ['/'], last, by simpa using hpath, .inr (by simp [endsAsFolder]), hlast⟩
  · exact ⟨[], path, rfl, .inl rfl, hmem⟩

/-- Induction on the pieces of a path, from the first one on. -/
@[elab_as_elim]
theorem pieces_induction {motive : Text → Prop} (single : ∀ last, '/' ∉ last → motive last)
    (slash : ∀ above last, '/' ∉ last → motive above → motive (above ++ '/' :: last))
    (path : Text) : motive path := by
  by_cases hmem : '/' ∈ path
  · obtain ⟨above, last, hpath, hlast⟩ := Text.exists_last_of_mem hmem
    rw [hpath]
    exact slash above last hlast (pieces_induction single slash above)
  · exact single path hmem
termination_by path.length
decreasing_by simp [hpath]

/-- **The file name of a path** is its last piece that says something, unless that is
    `..`. -/
theorem fileName?_eq_some_iff {path name : Text} :
    fileName? path = some name ↔ HasFileName path name := by
  constructor
  · intro h
    obtain ⟨hlast, hdots⟩ : (components path).getLast? = some name ∧ name ≠ ['.', '.'] := by
      unfold fileName? at h
      split at h <;> grind
    clear h
    -- piece by piece from the end: one that says nothing joins the tail of the name above it
    induction path using pieces_induction with
    | single last hslash =>
      by_cases hsilent : IsSilent last
      · simp [components_of_isSilent hsilent] at hlast
      · obtain rfl : last = name := by simpa [components_of_notMem hslash hsilent] using hlast
        exact .of_last (.inl rfl) hslash hsilent hdots
    | slash above last hslash ih =>
      rw [components_append_slash] at hlast
      by_cases hsilent : IsSilent last
      · rw [components_of_isSilent hsilent, List.append_nil] at hlast
        exact (ih hlast).append_slash hslash hsilent
      · obtain rfl : last = name := by simpa [components_of_notMem hslash hsilent] using hlast
        have hfront : endsAsFolder (above ++ ['/']) := by simp [endsAsFolder]
        simpa using HasFileName.of_last (.inr hfront) hslash hsilent hdots
  · intro h
    have hlast := h.getLast?_components
    obtain @⟨front, _, tail, -, -, -, hdots, -, -⟩ := h
    rw [fileName?, hlast]
    exact if_neg hdots

/-! ## Extensions -/

theorem extensionOf?_append {stem e : Text} (he : '.' ∉ e) :
    extensionOf? (stem ++ '.' :: e) = if stem = [] then none else some e := by
  have hdrop : (stem ++ '.' :: e).reverse.dropWhile (· != '.') = '.' :: stem.reverse := by
    rw [List.reverse_append, List.reverse_cons, List.append_assoc, List.singleton_append]
    exact Text.dropWhile_append (fun c hc => by grind) (by simp)
  rw [extensionOf?, hdrop]
  by_cases hstem : stem = [] <;> simp [hstem]

/-- **The extension of a file name** is what follows its last point, unless that is its
    first character. -/
theorem extensionOf?_eq_some_iff {name e : Text} :
    extensionOf? name = some e ↔ '.' ∉ e ∧ ∃ stem, stem ≠ [] ∧ name = stem ++ '.' :: e := by
  constructor
  · intro h
    by_cases hmem : '.' ∈ name
    · obtain ⟨stem, e', rfl, he'⟩ := Text.exists_last_of_mem hmem
      rw [extensionOf?_append he'] at h
      by_cases hstem : stem = []
      · simp [hstem] at h
      · obtain rfl : e' = e := by simpa [hstem] using h
        exact ⟨he', stem, hstem, rfl⟩
    · have hdrop : name.reverse.dropWhile (· != '.') = [] := by
        rw [List.dropWhile_eq_nil_iff]
        grind
      simp [extensionOf?, hdrop] at h
  · rintro ⟨he, stem, hstem, rfl⟩
    rw [extensionOf?_append he, if_neg hstem]

theorem extension?_of_hasFileName {path name : Text} (h : HasFileName path name) :
    extension? path = extensionOf? name := by
  rw [extension?, fileName?_eq_some_iff.2 h, Option.bind_some]

/-- **The extension of a path** is that of its file name. -/
theorem extension?_eq_some_iff {path e : Text} :
    extension? path = some e ↔
      '.' ∉ e ∧ ∃ stem, stem ≠ [] ∧ HasFileName path (stem ++ '.' :: e) := by
  rw [extension?, Option.bind_eq_some_iff]
  simp only [fileName?_eq_some_iff, extensionOf?_eq_some_iff]
  constructor
  · rintro ⟨_, h, he, stem, hstem, rfl⟩
    exact ⟨he, stem, hstem, h⟩
  · rintro ⟨he, stem, hstem, h⟩
    exact ⟨_, h, he, stem, hstem, rfl⟩

section Append
variable {e : Text} (hne : e ≠ []) (hpoint : '.' ∉ e) (hslash : '/' ∉ e)
include hne hpoint hslash

/-- With an extension after it, whatever follows the last slash is a part of a file
    name. -/
theorem hasFileName_append {front last : Text} (hfront : front = [] ∨ endsAsFolder front)
    (hlast : '/' ∉ last) : HasFileName (front ++ last ++ '.' :: e) (last ++ '.' :: e) := by
  have hend : (last ++ '.' :: e).getLast? ≠ some '.' := by
    rw [List.getLast?_append, List.getLast?_cons_of_ne_nil hne]
    rw [List.getLast?_eq_some_getLast hne]
    exact fun h => hpoint (List.mem_of_getLast? ((List.getLast?_eq_some_getLast hne).trans h))
  rw [List.append_assoc]
  refine .of_last hfront (by simp [hlast, hslash]) ?_ fun hdots => hend (by simp [hdots])
  rintro (hnil | hdot)
  · simp at hnil
  · exact hend (by simp [hdot])

/-- **An extension that is appended** to a path is that of the path, unless there is no
    name to append it to: the path is empty or ends in a slash. -/
theorem extension?_append_iff (path : Text) :
    extension? (path ++ '.' :: e) = some e ↔ path ≠ [] ∧ ¬ endsAsFolder path := by
  obtain ⟨front, last, rfl, hfront, hlast⟩ := exists_last_piece path
  -- the file name is `last` with the extension, whose only point may be its first character
  have hname := hasFileName_append hne hpoint hslash hfront hlast
  rw [extension?_of_hasFileName hname, extensionOf?_append hpoint]
  rcases List.eq_nil_or_concat' last with rfl | ⟨l, c, rfl⟩
  · rw [List.append_nil]
    rcases hfront with rfl | hfront <;> simp [*]
  · have hc : c ≠ '/' := by
      rintro rfl
      simp at hlast
    simp [endsAsFolder, ← List.append_assoc, hc]

end Append

/-! ## Notebooks -/

/-- Whether a path takes the extension of notebooks: it has it, or it ends in something to
    put it after. -/
def TakesExtension (path : Text) : Prop := isNotebook path ∨ path ≠ [] ∧ ¬ endsAsFolder path

theorem isNotebook_iff_extension {path : Text} :
    isNotebook path ↔ extension? path = some notebookExtension := beq_iff_eq

/-- **The path of a notebook**, with the extension, is the path of a notebook file exactly
    if it takes it. -/
theorem isNotebook_ofNotebook_iff {path : Text} :
    isNotebook (ofNotebook path) ↔ TakesExtension path := by
  unfold ofNotebook
  split
  case isTrue h => simp [TakesExtension, h]
  case isFalse h =>
    rw [isNotebook_iff_extension, extension?_append_iff (by decide) (by decide) (by decide),
      TakesExtension, or_iff_right h]

theorem ofNotebook_eq_self_iff {path : Text} : ofNotebook path = path ↔ isNotebook path := by
  unfold ofNotebook
  split
  case isTrue h => simp [h]
  case isFalse h => simp [h]

theorem ofNotebook_idempotent_iff {path : Text} :
    ofNotebook (ofNotebook path) = ofNotebook path ↔ TakesExtension path := by
  rw [ofNotebook_eq_self_iff, isNotebook_ofNotebook_iff]

theorem exists_hasFileName_ofNotebook (path : Text) :
    ∃ name, HasFileName (ofNotebook path) name := by
  unfold ofNotebook
  split
  case isTrue h =>
    obtain ⟨-, stem, -, hname⟩ := extension?_eq_some_iff.1 (isNotebook_iff_extension.1 h)
    exact ⟨_, hname⟩
  case isFalse =>
    obtain ⟨front, last, rfl, hfront, hlast⟩ := exists_last_piece path
    exact ⟨_, hasFileName_append (by decide) (by decide) (by decide) hfront hlast⟩

/-! ## Inside of folders -/

theorem endsAsFolder_append {t : Text} (h : endsAsFolder t) (l : Text) : endsAsFolder (l ++ t) := by
  rw [endsAsFolder, beq_iff_eq] at h ⊢
  rw [List.getLast?_append, h, Option.some_or]

theorem exists_inside (folder t : Text) :
    ∃ front, endsAsFolder front ∧ inside folder t = front ++ t := by
  by_cases h : endsAsFolder folder
  · exact ⟨folder, h, if_pos h⟩
  · exact ⟨folder ++ ['/'], by simp [endsAsFolder], by simp [inside, h]⟩

theorem exists_intercalate {names : List Text} {name : Text} (h : names.getLast? = some name) :
    ∃ front, (front = [] ∨ endsAsFolder front) ∧ List.intercalate ['/'] names = front ++ name := by
  induction names with
  | nil => cases h
  | cons first names ih =>
    cases names with
    | nil =>
      obtain rfl : first = name := Option.some.inj h
      exact ⟨[], .inl rfl, List.intercalate_singleton⟩
    | cons second names =>
      rw [List.getLast?_cons_cons] at h
      obtain ⟨front, hfront, hnames⟩ := ih h
      refine ⟨first ++ ['/'] ++ front, .inr ?_, ?_⟩
      · rcases hfront with rfl | hfront
        · simp [endsAsFolder]
        · exact endsAsFolder_append hfront _
      · rw [List.intercalate_cons_cons, hnames]
        simp only [List.append_assoc]

theorem HasFileName.of_front {path name front : Text} (h : HasFileName path name)
    (hfront : endsAsFolder front) : HasFileName (front ++ name) name := by
  obtain ⟨-, hslash, hsilent, hdots, -, -⟩ := h
  exact .of_last (.inr hfront) hslash hsilent hdots

theorem HasFileName.inside_intercalate {path name : Text} (h : HasFileName path name)
    (root : Text) {names : List Text} (hnames : names.getLast? = some name) :
    HasFileName (inside root (List.intercalate ['/'] names)) name := by
  obtain ⟨front, hfront, hinside⟩ := exists_inside root (List.intercalate ['/'] names)
  obtain ⟨front', hfront', hintercalate⟩ := exists_intercalate hnames
  have hfolder : endsAsFolder (front ++ front') := by
    rcases hfront' with rfl | hfront'
    · rwa [List.append_nil]
    · exact endsAsFolder_append hfront' front
  rw [hinside, hintercalate, ← List.append_assoc]
  exact h.of_front hfolder

end Path

end Notebook
