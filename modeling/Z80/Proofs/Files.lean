import Z80.CommandLine.Files
import Z80.Proofs.Host
import Z80.Proofs.Resolution

/-!
# Files that are written

A file that is written is where its name leads to, before and after, and no other file changes.  So
a host that has files and nothing else is sound.
-/

namespace Z80.CommandLine.Files

variable {files : Files} {l d : Location} {path : Text} {content : List UInt8}

theorem any_key_insert {p : Text → Bool} (key : Text) (content : List UInt8)
    (h : files.entries.any (fun e => p e.1) = true) :
    (files.insert key content).entries.any (fun e => p e.1) = true := by
  obtain ⟨e, he, hp⟩ := List.any_eq_true.mp h
  have hkey : ∃ value, (files.insert key content).get? e.1 = some value := by
    rw [Dictionary.get?_insert]
    split
    · exact ⟨content, rfl⟩
    · exact ⟨e.2, Dictionary.mem_entries.mp he⟩
  obtain ⟨value, hvalue⟩ := hkey
  exact List.any_eq_true.mpr ⟨(e.1, value), Dictionary.mem_entries.mpr hvalue, hp⟩

/-- The files with one at a place, instead of what was there. -/
def put (files : Files) (l : Location) (content : List UInt8) : Files := files.insert l.path content

@[simp] theorem get?_put (files : Files) (l : Location) (content : List UInt8) (path : Text) :
    (files.put l content).get? path = if path = l.path then some content else files.get? path :=
  Dictionary.get?_insert files l.path path content

/-- A file that is put where no directory is leaves the directories as they are. -/
theorem node?_put_of_directory (hl : files.node? l ≠ some .directory)
    (hd : files.node? d = some .directory) : (files.put l content).node? d = some .directory := by
  rw [node?] at hd ⊢
  split
  · rfl
  · next hnames =>
    rw [if_neg hnames] at hd
    -- what is at a place goes by its path, so the directory has another one than the file
    have hne : d.path ≠ l.path := by
      intro hpath
      apply hl
      rw [node?, ← hpath]
      split
      · rfl
      · exact hd
    rw [get?_put, if_neg hne]
    cases hfile : files.get? d.path with
    | some content' =>
      rw [hfile] at hd
      cases hd
    | none =>
      rw [hfile] at hd
      dsimp only at hd ⊢
      split
      · rfl
      · next hnone =>
        split at hd
        · next hsome => exact absurd (any_key_insert _ _ hsome) hnone
        · exact hd

theorem enter_put (hl : files.node? l ≠ some .directory) {names : List Text}
    {first directory : Location} (h : files.enter first names = .ok directory) :
    (files.put l content).enter first names = .ok directory := by
  induction names generalizing first with
  | nil => exact h
  | cons name rest ih =>
    rw [enter] at h ⊢
    cases hfollow : first.follow? name with
    | error fault =>
      rw [hfollow] at h
      cases h
    | ok next =>
      rw [hfollow] at h
      dsimp only at h ⊢
      split at h
      · cases h
      · cases h
      · next hnext =>
        rw [node?_put_of_directory hl hnext]
        exact ih h

/-- A file is written into a directory that is there, and not in the place of one. -/
theorem destination_eq_ok (h : files.destination path = .ok l) :
    ∃ (p : Path) (directory : Location) (name : Text), Path.ofText? path = .ok p ∧
      files.enter p.start p.names.dropLast = .ok directory ∧ p.names.getLast? = some name ∧
      p.isClosed = false ∧ directory.follow? name = .ok l ∧ files.node? l ≠ some .directory := by
  obtain ⟨p, hp, h⟩ := bind_eq_ok.mp h
  obtain ⟨directory, hdirectory, h⟩ := bind_eq_ok.mp h
  split at h
  · cases h
  · next name hname =>
    split at h
    · cases h
    · next hclosed =>
      obtain ⟨l', hl', h⟩ := bind_eq_ok.mp h
      split at h
      · cases h
      · next hnode =>
        cases h
        exact ⟨p, directory, name, hp, hdirectory, hname, by simpa using hclosed, hl', hnode⟩

theorem node?_put (hl : files.node? l ≠ some .directory) (content : List UInt8) :
    (files.put l content).node? l = some (.file content) := by
  have hnames : ¬ l.names.isEmpty = true := by
    intro hnames
    exact hl (by rw [node?, if_pos hnames])
  rw [node?, if_neg hnames, get?_put, if_pos rfl]

/-- A name leads to the same place after it has been written to. -/
theorem destination_put (h : files.destination path = .ok l) (content : List UInt8) :
    (files.put l content).destination path = .ok l := by
  obtain ⟨p, directory, name, hp, hdirectory, hname, hclosed, hl, hnode⟩ := destination_eq_ok h
  refine bind_eq_ok.mpr ⟨p, hp, bind_eq_ok.mpr ⟨directory, enter_put hnode hdirectory, ?_⟩⟩
  rw [hname]
  dsimp only
  rw [if_neg (by rw [hclosed]; exact nofun)]
  refine bind_eq_ok.mpr ⟨l, hl, if_neg ?_⟩
  rw [node?_put hnode]
  exact nofun

/-! ## What is seen of files -/

/-- What the file at a path holds. -/
def stored? (files : Files) (path : Text) : Option (List UInt8) :=
  (files.get? path).or
    (match systemNode? path with
      | some (.file content) => some content
      | _ => none)

theorem stored?_of_node? (h : files.node? l = some (.file content)) :
    files.stored? l.path = some content := by
  rw [node?] at h
  split at h
  · cases h
  rw [stored?]
  split at h
  · next hfile =>
    cases h
    rw [hfile, Option.some_or]
  · next hnone =>
    split at h
    · cases h
    · rw [hnone, h, Option.none_or]

@[simp] theorem stored?_put (files : Files) (l : Location) (content : List UInt8) (path : Text) :
    (files.put l content).stored? path =
      if path = l.path then some content else files.stored? path := by
  rw [stored?, get?_put]
  split
  · rw [Option.some_or]
  · rfl

/-- A file that is read is where it would be written. -/
theorem content_eq_ok (h : files.content path = .ok content) :
    ∃ l, files.destination path = .ok l ∧ files.stored? l.path = some content := by
  obtain ⟨p, hp, h⟩ := bind_eq_ok.mp h
  obtain ⟨directory, hdirectory, h⟩ := bind_eq_ok.mp h
  split at h
  · cases h
  · next name hname =>
    obtain ⟨l, hl, h⟩ := bind_eq_ok.mp h
    split at h
    · cases h
    · cases h
    · next hnode =>
      split at h
      · cases h
      · next hclosed =>
        cases h
        refine ⟨l, ?_, stored?_of_node? hnode⟩
        refine bind_eq_ok.mpr ⟨p, hp, bind_eq_ok.mpr ⟨directory, hdirectory, ?_⟩⟩
        rw [hname]
        dsimp only
        rw [if_neg hclosed]
        refine bind_eq_ok.mpr ⟨l, hl, if_neg ?_⟩
        rw [hnode]
        exact nofun

/-- Files are seen by the paths to them. -/
def see (w : World) : Sight Text where
  place? name := (w.files.destination name).toOption.map Location.path
  content? := w.files.stored?
  printed := w.stdout

variable {w w' : World} {name cause : Text}

theorem file?_of_readFile (h : (host.readFile name).run w = (.ok content, w')) :
    (see w).file? name = some content := by
  have hread : (w.files.content name).mapError FileFault.message = .ok content :=
    congrArg Prod.fst h
  cases hcontent : w.files.content name with
  | error fault =>
    rw [hcontent] at hread
    cases hread
  | ok content' =>
    rw [hcontent] at hread
    cases hread
    obtain ⟨l, hl, hstored⟩ := content_eq_ok hcontent
    have hplace : (see w).place? name = some l.path := by
      simp only [see, hl, Except.toOption, Option.map_some]
    rw [Sight.file?, hplace]
    exact hstored

theorem run_writeFile_of_ok (h : w.files.destination name = .ok l) (content : List UInt8) :
    (host.writeFile name content).run w = (.ok (), { w with files := w.files.put l content }) := by
  simp only [host, write, h, Except.map, put, modifyGet, MonadStateOf.modifyGet,
    StateT.modifyGet, StateT.run]
  rfl

theorem run_writeFile_of_error {fault : FileFault} (h : w.files.destination name = .error fault)
    (content : List UInt8) :
    (host.writeFile name content).run w = (.error fault.message, w) := by
  simp only [host, write, h, Except.map, modifyGet, MonadStateOf.modifyGet, StateT.modifyGet,
    StateT.run]
  rfl

theorem stored_put (h : w.files.destination name = .ok l) (content : List UInt8) :
    (see w).Stored name content (see { w with files := w.files.put l content }) := by
  refine ⟨l.path, ?_, ?_, fun other hother => ?_, rfl⟩
  · simp only [see, destination_put h, Except.toOption, Option.map_some]
  · exact (stored?_put _ _ _ _).trans (if_pos rfl)
  · exact (stored?_put _ _ _ _).trans (if_neg hother)

/-- Files are written as a whole, or not at all. -/
theorem sound_host : host.Sound see where
  see_readFile _ _ := rfl
  readFile_ok h := file?_of_readFile h
  writeFile_ok {name content w w'} h := by
    cases hl : w.files.destination name with
    | error fault =>
      rw [run_writeFile_of_error hl] at h
      cases h
    | ok l =>
      rw [run_writeFile_of_ok hl] at h
      cases h
      exact stored_put hl content
  writeFile_error {name cause content w w'} h := by
    cases hl : w.files.destination name with
    | error fault =>
      rw [run_writeFile_of_error hl] at h
      cases h
      rfl
    | ok l =>
      rw [run_writeFile_of_ok hl] at h
      cases h
  print_ok h := by
    cases h
    rfl
  print_error h := by cases h
  see_complain _ _ := rfl

end Z80.CommandLine.Files
