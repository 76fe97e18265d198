/-
  Creating notebooks and listing them.

  A notebook is created and saved under its path with the extension, and a folder is
  listed by it.  A file that was written is there; whether it is listed, from any folder
  above it, is for its extension to say.

  * `Surroundings.Keeps`: what is relied on of surroundings that keep files;
  * `Surroundings.Keeps.create_cases`: creating a notebook writes a file, or fails;
  * `Surroundings.Keeps.mem_notebooks_iff`: a file that is met on a walk is listed exactly if
    its path is that of a notebook;
  * `Directory.locate_of_write`, `Directory.getLast?_of_locate`, `Directory.mem_walk_of_met?`:
    in a directory what was written is where its path leads, under its file name, and is met
    from the folders above it, so that a workplace keeps files (`Workplace.keeps_filing`);
  * `Path.ofNotebook_takes_iff`: a path gets the extension, and the notebook at it is
    listed, exactly if the path takes it.
-/
import Notebook.Files.Directory
import Notebook.Program
import Notebook.Proofs.Path
import Notebook.Proofs.Value
import Notebook.Session

namespace Notebook

namespace Directory

variable {d d' : Directory} {path : Text} {names : List Text} {content : ByteArray}

/-! ## What was written -/

/-- **Writing** succeeds where the path leads to no folder, and puts the file there. -/
theorem write_eq_ok (h : d.write path content = .ok d') :
    ∃ names, d.locate path = .ok (some names) ∧ ¬ Path.endsAsFolder path ∧
      d.find? (some names) ≠ some .folder ∧ d' = d.put names content := by
  obtain ⟨place, hplace, h⟩ := exists_of_bind_eq_ok h
  by_cases hfolder : Path.endsAsFolder path
  · rw [if_pos hfolder] at h
    cases h
  · rw [if_neg hfolder] at h
    cases place with
    | none => cases h
    | some names =>
      refine ⟨names, hplace, hfolder, fun hfound => ?_, ?_⟩
      · rw [hfound] at h
        cases h
      · rcases hfound : d.find? (some names) with _ | _ | _
        all_goals
          rw [hfound] at h
          cases h
        · rfl
        · rfl

theorem find?_eq_file_iff :
    d.find? (some names) = some (.file content) ↔ d.files.lookup names = some content := by
  rw [find?]
  cases d.files.lookup names with
  | some content' => simp
  | none => simp

theorem find?_put_self : (d.put names content).find? (some names) = some (.file content) := by
  simp [find?, put]

variable (hnames : d.find? (some names) ≠ some .folder)
include hnames

theorem find?_put_of_folder {place : Location} (h : d.find? place = some .folder) :
    (d.put names content).find? place = some .folder := by
  cases place with
  | none => rfl
  | some above =>
    have hne : above ≠ names := fun heq => hnames (heq ▸ h)
    have hfiles : d.files.lookup above = none := by
      cases hlookup : d.files.lookup above with
      | none => rfl
      | some content => simp [find?, hlookup] at h
    have hlookup : (d.put names content).files.lookup above = none := by
      rw [List.lookup_eq_none_iff] at hfiles ⊢
      simp only [put, List.forall_mem_cons]
      exact ⟨by simpa using hne, fun f hf => hfiles f (List.mem_filter.1 hf).1⟩
    have hfolder : isFolder d above := by simpa [find?, hfiles] using h
    have hput : isFolder (d.put names content) above := by
      simp only [isFolder, put, Bool.or_eq_true, List.any_cons, List.any_eq_true] at hfolder ⊢
      rcases hfolder with hfolder | ⟨f, hf, hbelow⟩
      · exact .inl hfolder
      -- the file below the folder may be the one that is replaced: then the new one is below it
      · by_cases hf' : f.1 = names
        · exact .inr (.inl (hf' ▸ hbelow))
        · exact .inr (.inr ⟨f, List.mem_filter.2 ⟨hf, by simpa using hf'⟩, hbelow⟩)
    simp [find?, hlookup, hput]

theorem enter_put {place place' : Location} {name : Text} (h : d.enter place name = .ok place') :
    (d.put names content).enter place name = .ok place' := by
  unfold enter at h ⊢
  cases hfound : d.find? place with
  | none => simp [hfound] at h
  | some found =>
    cases found with
    | file => simp [hfound] at h
    | folder =>
      rw [find?_put_of_folder hnames hfound]
      rwa [hfound] at h

theorem locate_put {place : Location} (h : d.locate path = .ok place) :
    (d.put names content).locate path = .ok place := by
  have hwalk (pieces : List Text) : ∀ {start}, pieces.foldlM d.enter start = .ok place →
      pieces.foldlM (d.put names content).enter start = .ok place := by
    induction pieces with
    | nil => exact id
    | cons name pieces ih =>
      intro start h
      rw [List.foldlM_cons] at h ⊢
      obtain ⟨next, henter, h⟩ := exists_of_bind_eq_ok h
      rw [enter_put hnames henter]
      exact ih h
  unfold locate at h ⊢
  split
  case isTrue hempty => simp [hempty] at h
  case isFalse hempty =>
    rw [if_neg hempty] at h
    exact hwalk _ h

omit hnames

/-- **What was written** is where its path leads. -/
theorem locate_of_write (h : d.write path content = .ok d') :
    ∃ names, d'.locate path = .ok (some names) ∧ d'.find? (some names) = some (.file content) ∧
      d'.visit path = .ok (.file content) := by
  obtain ⟨names, hplace, hfolder, hnot, rfl⟩ := write_eq_ok h
  have hplace' : (d.put names content).locate path = .ok (some names) := locate_put hnot hplace
  refine ⟨names, hplace', find?_put_self, ?_⟩
  simp [visit, hplace', bind, Except.bind, find?_put_self, hfolder]

/-! ## Where a path leads -/

theorem enter_dot {place place' : Location} (h : d.enter place ['.'] = .ok place') :
    place' = place := by
  unfold enter at h
  split at h
  · cases h
  · cases h
  · exact (Except.ok.inj h).symm

theorem foldlM_enter_dots {pieces : List Text} (hdots : ∀ piece ∈ pieces, piece = ['.'])
    {place place' : Location} (h : pieces.foldlM d.enter place = .ok place') : place' = place := by
  induction pieces generalizing place with
  | nil => exact (Except.ok.inj h).symm
  | cons piece pieces ih =>
    obtain ⟨rfl, hrest⟩ := List.forall_mem_cons.1 hdots
    rw [List.foldlM_cons] at h
    obtain ⟨next, henter, h⟩ := exists_of_bind_eq_ok h
    rw [ih hrest h, enter_dot henter]

theorem enter_name {place place' : Location} {name : Text} (hname : ¬ Path.IsSilent name)
    (hdots : name ≠ ['.', '.']) (h : d.enter place name = .ok place') :
    ∃ above, place' = some (above ++ [name]) := by
  unfold enter at h
  split at h
  · cases h
  · cases h
  · rw [if_neg fun hdot => hname (.inr hdot), if_neg hdots] at h
    split at h
    · cases h
    · split at h
      · exact ⟨_, (Except.ok.inj h).symm⟩
      · cases h

/-- **A path leads to something under its file name**: what comes after the name does not
    lead on. -/
theorem getLast?_of_locate {name : Text} (hname : Path.HasFileName path name)
    (h : d.locate path = .ok (some names)) : names.getLast? = some name := by
  obtain @⟨front, _, tail, hfront, hslash, hsilent, hdots, htail, hidle⟩ := hname
  have hne : name ≠ [] := fun hnil => hsilent (.inl hnil)
  have hpieces : ((front ++ name ++ tail).splitOn '/').filter (!·.isEmpty) =
      (front.splitOn '/').filter (!·.isEmpty) ++
        name :: (tail.splitOn '/').filter (!·.isEmpty) := by
    rw [Path.filter_pieces_append_of_tail rfl htail, Path.filter_pieces_append_of_front rfl hfront,
      List.splitOn_eq_singleton hslash]
    simp [hne]
  unfold locate at h
  rw [if_neg (by simp [hne]), hpieces, List.foldlM_append] at h
  obtain ⟨place, -, h⟩ := exists_of_bind_eq_ok h
  rw [List.foldlM_cons] at h
  obtain ⟨next, henter, h⟩ := exists_of_bind_eq_ok h
  obtain ⟨above, rfl⟩ := enter_name hsilent hdots henter
  have hrest := foldlM_enter_dots (fun piece hpiece => ?_) h
  · obtain rfl : names = above ++ [name] := by simpa using hrest
    simp
  · obtain ⟨hpiece, hempty⟩ := List.mem_filter.1 hpiece
    exact (hidle piece hpiece).resolve_left (by simpa using hempty)

/-! ## What is met -/

theorem walk_of_folder {root : Text} {above : List Text} (hroot : d.visit root = .ok .folder)
    (habove : d.locate root = .ok (some above)) : d.walk root = .ok (d.below root above) := by
  simp [walk, hroot, habove, bind, Except.bind, pure, Except.pure]

theorem find?_of_visit_folder {root : Text} {above : List Text}
    (hroot : d.visit root = .ok .folder) (habove : d.locate root = .ok (some above)) :
    d.find? (some above) = some .folder := by
  rw [visit, habove] at hroot
  cases hfound : d.find? (some above) with
  | none => simp [bind, Except.bind, hfound] at hroot
  | some found =>
    cases found with
    | file content =>
      simp only [bind, Except.bind, hfound] at hroot
      split at hroot <;> cases hroot
    | folder => rfl

theorem mem_below {root : Text} {above rest : List Text} (hne : rest ≠ [])
    (hfile : d.find? (some (above ++ rest)) = some (.file content)) :
    Path.inside root (List.intercalate ['/'] rest) ∈ d.below root above := by
  have hmem : (above ++ rest, content) ∈ d.files := by
    obtain ⟨l₁, l₂, hfiles, -⟩ := List.lookup_eq_some_iff.1 (find?_eq_file_iff.1 hfile)
    simp [hfiles]
  rw [below, List.mem_map]
  refine ⟨rest, List.mem_mergeSort.2 (List.mem_filterMap.2 ⟨_, hmem, ?_⟩), rfl⟩
  simp [hne]

/-- The file that a path leads to, by its names. -/
def file? (d : Directory) (path : Text) : Option (List Text) :=
  match d.visit path, d.locate path with
  | .ok (.file _), .ok place => place
  | _, _ => none

/-- The path under which a file is met on the walk from a folder above it. -/
def met? (d : Directory) (root : Text) (names : List Text) : Option Text :=
  match d.visit root, d.locate root with
  | .ok .folder, .ok (some above) =>
    if above.isPrefixOf names && (d.files.lookup names).isSome then
      some (Path.inside root (List.intercalate ['/'] (names.drop above.length)))
    else none
  | _, _ => none

theorem locate_of_file? (h : d.file? path = some names) : d.locate path = .ok (some names) := by
  unfold file? at h
  split at h
  · next hplace => rw [hplace, h]
  · cases h

theorem of_met? {root met : Text} (h : d.met? root names = some met) :
    ∃ above rest content, d.visit root = .ok .folder ∧ d.locate root = .ok (some above) ∧
      names = above ++ rest ∧ rest ≠ [] ∧ d.find? (some names) = some (.file content) ∧
      met = Path.inside root (List.intercalate ['/'] rest) := by
  unfold met? at h
  split at h
  · next above hroot habove =>
    split at h
    · next hmet =>
      obtain ⟨hbelow, hfile⟩ := Bool.and_eq_true_iff.1 hmet
      obtain ⟨rest, rfl⟩ := List.isPrefixOf_iff_prefix.1 hbelow
      obtain ⟨content, hcontent⟩ := Option.isSome_iff_exists.1 hfile
      have hfound := find?_eq_file_iff.2 hcontent
      refine ⟨above, rest, content, hroot, habove, rfl, ?_, hfound, ?_⟩
      · rintro rfl
        rw [List.append_nil, find?_of_visit_folder hroot habove] at hfound
        cases hfound
      · rw [List.drop_left] at h
        exact (Option.some.inj h).symm
    · cases h
  · cases h

/-- **A file that is met** is on the walk. -/
theorem mem_walk_of_met? {root met : Text} (h : d.met? root names = some met) :
    ∃ paths, d.walk root = .ok paths ∧ met ∈ paths := by
  obtain ⟨above, rest, content, hroot, habove, rfl, hne, hfile, rfl⟩ := of_met? h
  exact ⟨_, walk_of_folder hroot habove, mem_below hne hfile⟩

theorem hasFileName_of_met? {root met name : Text} (hname : Path.HasFileName path name)
    (hfile : d.file? path = some names) (h : d.met? root names = some met) :
    Path.HasFileName met name := by
  obtain ⟨above, rest, content, -, -, rfl, hne, -, rfl⟩ := of_met? h
  have hlast := getLast?_of_locate hname (locate_of_file? hfile)
  rw [List.getLast?_append_of_ne_nil above hne] at hlast
  exact hname.inside_intercalate root hlast

end Directory

/-! ## Surroundings that keep files -/

/-- Files, as surroundings with the states `σ` may keep them. -/
structure Filing (σ : Type) where
  /-- What there is of files. -/
  State : Type
  File : Type
  state : σ → State
  /-- The file that a path leads to. -/
  file? : State → Text → Option File
  content : State → File → Option ByteArray
  /-- The path under which a file is met on the walk from a path. -/
  met? : State → Text → File → Option Text

section
variable {σ α β ε : Type} {w w' : σ}

open Program (Action attempt)

theorem run_bind_ok {x : Action (StateM σ) α} {f : α → Action (StateM σ) β} {a : α}
    (h : x.run.run w = (.ok a, w')) : (x >>= f).run.run w = (f a).run.run w' := by
  rw [ExceptT.run_bind, StateT.run_bind, h]
  rfl

theorem run_bind_error {x : Action (StateM σ) α} {f : α → Action (StateM σ) β} {message : Text}
    (h : x.run.run w = (.error message, w')) : (x >>= f).run.run w = (.error message, w') := by
  rw [ExceptT.run_bind, StateT.run_bind, h]
  rfl

theorem run_lift {x : StateM σ α} {a : α} (h : x.run w = (a, w')) :
    (liftM x : Action (StateM σ) α).run.run w = (.ok a, w') := by
  have hlift : (liftM x : Action (StateM σ) α).run = Except.ok <$> x := rfl
  rw [hlift, StateT.run_map, h]
  rfl

theorem run_attempt {x : StateM σ (Except ε α)} {message : ε → Text} {r : Except ε α}
    (h : x.run w = (r, w')) : (attempt x message).run.run w = (r.mapError message, w') := by
  simp only [attempt, ExceptT.run_adapt, ExceptT.run_mk, StateT.run_map, h]
  rfl

end

namespace Surroundings

variable {σ : Type}

/-- What is relied on of surroundings that keep files: printing and looking for a file leave
    the files as they are, what was written is there, and a walk comes to the files that can
    be met, each under its name. -/
structure Keeps (s : Surroundings (StateM σ)) (f : Filing σ) : Prop where
  print : ∀ t w, f.state ((s.print t).run w).2 = f.state w
  holds : ∀ path w, f.state ((s.holds path).run w).2 = f.state w
  write : ∀ {path t w w'}, (s.write path t).run w = (.ok (), w') →
    ∃ file, f.file? (f.state w') path = some file ∧
      f.content (f.state w') file = some (encode t)
  walk : ∀ {root w file met}, f.met? (f.state w) root file = some met →
    ∃ paths w', (s.walk root).run w = (.ok paths, w') ∧ met ∈ paths
  name : ∀ {d path name root file met}, Path.HasFileName path name →
    f.file? d path = some file → f.met? d root file = some met → Path.HasFileName met name

variable {s : Surroundings (StateM σ)} {f : Filing σ} (h : s.Keeps f) {w w' : σ}
include h

/-- **Creating a notebook** writes a file, or fails: there is something at the path, or the
    file cannot be written. -/
theorem Keeps.create_cases {path : Text} {overwrite : Bool} {r : Except Text UInt32}
    (hcreate : (Program.create s path overwrite).run.run w = (r, w')) :
    (∃ message, r = .error message ∧ (f.state w' = f.state w ∨
      ∃ w₀ fault, f.state w₀ = f.state w ∧
        (s.write (Path.ofNotebook path) starter).run w₀ = (.error fault, w'))) ∨
    r = .ok 0 ∧ ∃ file, f.file? (f.state w') (Path.ofNotebook path) = some file ∧
      f.content (f.state w') file = some (encode starter) := by
  obtain ⟨held, w₀, hheld⟩ : ∃ held w₀, (s.holds (Path.ofNotebook path)).run w = (held, w₀) :=
    ⟨_, _, rfl⟩
  have hstate : f.state w₀ = f.state w := by rw [← h.holds (Path.ofNotebook path) w, hheld]
  unfold Program.create at hcreate
  rw [run_bind_ok (run_lift hheld)] at hcreate
  split at hcreate
  case isTrue =>
    obtain ⟨rfl, rfl⟩ := Prod.mk.inj ((run_bind_error rfl).symm.trans hcreate)
    exact .inl ⟨_, rfl, .inl hstate⟩
  case isFalse =>
    obtain ⟨written, w₁, hwritten⟩ :
        ∃ written w₁, (s.write (Path.ofNotebook path) starter).run w₀ = (written, w₁) :=
      ⟨_, _, rfl⟩
    cases written with
    | error fault =>
      obtain ⟨rfl, rfl⟩ :=
        Prod.mk.inj ((run_bind_error (run_attempt hwritten)).symm.trans hcreate)
      exact .inl ⟨_, rfl, .inr ⟨w₀, fault, hstate, hwritten⟩⟩
    | ok =>
      obtain ⟨w₂, hprinted⟩ :
          ∃ w₂, (s.print ("Created " ++ Path.ofNotebook path ++ "\n")).run w₁ = ((), w₂) :=
        ⟨_, rfl⟩
      obtain ⟨file, hfile, hcontent⟩ := h.write hwritten
      have hstate : f.state w₂ = f.state w₁ := by rw [← h.print _ w₁, hprinted]
      obtain ⟨rfl, rfl⟩ := Prod.mk.inj (((run_bind_ok (run_attempt hwritten)).trans
        (run_bind_ok (run_lift hprinted))).symm.trans hcreate)
      rw [hstate]
      exact .inr ⟨rfl, file, hfile, hcontent⟩

/-- **A file that is met is listed** exactly if its path is that of a notebook. -/
theorem Keeps.mem_notebooks_iff {path name root met : Text} {file : f.File}
    (hname : Path.HasFileName path name) (hfile : f.file? (f.state w) path = some file)
    (hmet : f.met? (f.state w) root file = some met) :
    ∃ listed w', (Program.notebooks s root).run.run w = (.ok listed, w') ∧
      (met ∈ listed ↔ Path.isNotebook path) := by
  obtain ⟨paths, w', hwalk, hmem⟩ := h.walk hmet
  refine ⟨paths.filter Path.isNotebook, w', ?_, ?_⟩
  · unfold Program.notebooks
    rw [run_bind_ok (run_attempt hwalk)]
    rfl
  · rw [List.mem_filter, and_iff_right hmem, Path.isNotebook_iff_extension,
      Path.extension?_of_hasFileName (h.name hname hfile hmet), Path.isNotebook_iff_extension,
      Path.extension?_of_hasFileName hname]

end Surroundings

namespace Workplace

/-- The files of a workplace. -/
def filing : Filing Workplace where
  State := Directory
  File := List Text
  state := directory
  file? := Directory.file?
  content d names := d.files.lookup names
  met? := Directory.met?

theorem run_write_ok {path t : Text} {w w' : Workplace}
    (h : (surroundings.write path t).run w = (.ok (), w')) :
    w.directory.write path (encode t) = .ok w'.directory := by
  simp only [surroundings, StateT.run_bind, StateT.run_get, pure_bind] at h
  split at h
  · next d hd =>
    obtain ⟨-, rfl⟩ := Prod.mk.inj h
    exact hd
  · cases h

theorem run_walk {root : Text} {paths : List Text} {w : Workplace}
    (h : w.directory.walk root = .ok paths) : (surroundings.walk root).run w = (.ok paths, w) := by
  simp only [surroundings, StateT.run_bind, StateT.run_get, pure_bind, h]
  rfl

/-- **A workplace keeps files.** -/
theorem keeps_filing : surroundings.Keeps filing where
  print _ _ := rfl
  holds _ _ := rfl
  write {path t w w'} h := by
    obtain ⟨names, hplace, hfile, hvisit⟩ := Directory.locate_of_write (run_write_ok h)
    refine ⟨names, ?_, Directory.find?_eq_file_iff.1 hfile⟩
    show w'.directory.file? path = some names
    rw [Directory.file?, hvisit, hplace]
  walk {root w names met} h := by
    obtain ⟨paths, hwalk, hmem⟩ := Directory.mem_walk_of_met? h
    exact ⟨paths, w, run_walk hwalk, hmem⟩
  name := Directory.hasFileName_of_met?

/-- In a workplace, to fail to create a notebook is to leave the directory as it was. -/
theorem directory_of_create_error {path message : Text} {overwrite : Bool} {w w' : Workplace}
    (h : (Program.create surroundings path overwrite).run.run w = (.error message, w')) :
    w'.directory = w.directory := by
  rcases keeps_filing.create_cases h with ⟨-, -, hstate | ⟨w₀, fault, hstate, hwrite⟩⟩ | ⟨hr, -⟩
  · exact hstate
  · simp only [surroundings, StateT.run_bind, StateT.run_get, pure_bind] at hwrite
    split at hwrite
    · cases hwrite
    · obtain ⟨-, rfl⟩ := Prod.mk.inj hwrite
      exact hstate
  · cases hr

end Workplace

namespace Path

/-- **The extension of notebooks.**  A path that has it stays as it is, and it is appended
    to any other.  The path then has it, once and for all, exactly if it had it before or
    is not empty and does not end in a slash.  This is the path that a session saves to
    and that a new notebook is created at; and wherever the new notebook is met on a walk,
    it is listed exactly if its path has the extension. -/
theorem ofNotebook_takes_iff (path : Text) :
    (isNotebook path → ofNotebook path = path) ∧
      (¬ isNotebook path → ofNotebook path = path ++ ".lab") ∧
      (extension? (ofNotebook path) = some ("lab" : Text) ↔ TakesExtension path) ∧
      (ofNotebook (ofNotebook path) = ofNotebook path ↔ TakesExtension path) ∧
      (∀ settings document,
        (Session.turn settings document (.save path)).saves = some (ofNotebook path)) ∧
      ∀ {σ : Type} (s : Surroundings (StateM σ)) (f : Filing σ), s.Keeps f →
        ∀ overwrite w w' r, (Program.create s path overwrite).run.run w = (r, w') →
          (∃ message, r = .error message ∧ (f.state w' = f.state w ∨
            ∃ w₀ fault, f.state w₀ = f.state w ∧
              (s.write (ofNotebook path) starter).run w₀ = (.error fault, w'))) ∨
          r = .ok 0 ∧ ∃ file, f.file? (f.state w') (ofNotebook path) = some file ∧
            f.content (f.state w') file = some (encode starter) ∧
            ∀ root met, f.met? (f.state w') root file = some met →
              ∃ listed w'', (Program.notebooks s root).run.run w' = (.ok listed, w'') ∧
                (met ∈ listed ↔ TakesExtension path) := by
  refine ⟨fun h => if_pos h, fun h => if_neg h, ?_, ofNotebook_idempotent_iff,
    fun settings document => rfl, fun s f hkeeps overwrite w w' r hcreate => ?_⟩
  · rw [← isNotebook_ofNotebook_iff, isNotebook_iff_extension]
    rfl
  · refine (hkeeps.create_cases hcreate).imp_right fun ⟨hr, file, hfile, hcontent⟩ => ?_
    refine ⟨hr, file, hfile, hcontent, fun root met hmet => ?_⟩
    obtain ⟨name, hname⟩ := exists_hasFileName_ofNotebook path
    rw [← isNotebook_ofNotebook_iff]
    exact hkeeps.mem_notebooks_iff hname hfile hmet

/-- The name of a hidden file takes the extension, even if it ends in a point. -/
theorem takesExtension_hidden_name :
    let path : Text := "week2/.hidden."
    let w : Workplace := { directory := { folders := [["week2"]] } }
    let w' := ((Program.create Workplace.surroundings path false).run.run w).2
    TakesExtension path ∧ ofNotebook path = "week2/.hidden..lab".toList ∧
      extension? (ofNotebook path) = some ("lab" : Text) ∧
      ∃ listed w'', (Program.notebooks Workplace.surroundings "week2").run.run w' =
        (.ok listed, w'') ∧ ("week2/.hidden..lab" : Text) ∈ listed := by
  intro path w w'
  have htakes : TakesExtension path := .inr (by decide)
  obtain ⟨-, happend, hextension, -, -, hcreate⟩ := ofNotebook_takes_iff path
  refine ⟨htakes, happend (by decide), hextension.2 htakes, ?_⟩
  rcases hcreate _ _ Workplace.keeps_filing false w w' _ rfl with
    ⟨message, herror, -⟩ | ⟨-, file, hfile, -, hlisted⟩
  · cases herror
  · have hfile' : w'.directory.file? (ofNotebook path) =
        some ["week2".toList, ".hidden..lab".toList] := by decide +kernel
    obtain rfl := Option.some.inj (hfile.symm.trans hfile')
    have hmet : w'.directory.met? "week2" ["week2".toList, ".hidden..lab".toList] =
        some ("week2/.hidden..lab" : Text) := by decide +kernel
    obtain ⟨listed, w'', hok, hmem⟩ := hlisted "week2" "week2/.hidden..lab" hmet
    exact ⟨listed, w'', hok, hmem.2 htakes⟩

/-- The path of a folder takes no extension.  What is put after its slash is the name of a
    hidden file, which no folder is listed with, and to which the extension is put again. -/
theorem not_takesExtension_folder :
    let path : Text := "week2/"
    let w : Workplace := { directory := { folders := [["week2"]] } }
    let w' := ((Program.create Workplace.surroundings path false).run.run w).2
    ofNotebook path = "week2/.lab".toList ∧ extension? (ofNotebook path) = none ∧
      ofNotebook (ofNotebook path) = "week2/.lab.lab".toList ∧
      w'.directory.holds "week2/.lab" ∧
      (Program.notebooks Workplace.surroundings ".").run.run w' = (.ok [], w') := by
  intro path w w'
  have hholds : w'.directory.holds "week2/.lab" := rfl
  have hwalk : w'.directory.walk "." = .ok ["./week2/.lab".toList] := by decide +kernel
  have hlisted : (Program.notebooks Workplace.surroundings ".").run.run w' = (.ok [], w') := by
    unfold Program.notebooks
    rw [run_bind_ok (run_attempt (Workplace.run_walk hwalk))]
    exact congrArg (fun listed => (Except.ok listed, w')) (by decide)
  exact ⟨by decide, by decide, by decide, hholds, hlisted⟩

end Path

end Notebook
