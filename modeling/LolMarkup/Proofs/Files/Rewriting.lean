import LolMarkup.Proofs.Files.Effects

/-!
# Writing files again and in another order

Writing files neither makes nor removes a directory, so that the error of writing depends only on
the directories that stand in the way (`FileSystem.error_writeAll`), and every other file is there
afterwards (`FileSystem.get?_writeAll`). Writing the same files again therefore changes nothing
(`FileSystem.same_writeAll_again`), and files that agree where they have the same path can be
written in either order (`FileSystem.same_writeAll_swap`). File systems are compared by what stands
at each path (`FileSystem.Same`), since their tables may list it in different orders.
-/

namespace LolMarkup.FileSystem

variable {files other : FileSystem} {path : Path} {bytes : List UInt8}
  {outputs first second : List (Path × List UInt8)}

/-- The same stands at every path of two file systems. -/
def Same (files other : FileSystem) : Prop :=
  ∀ path, files.get? path = other.get? path

/-- The error of writing a file where a directory stands. -/
def obstacle? (files : FileSystem) (path : Path) : Option SystemError :=
  if files.get? path = some .directory then some ⟨.isDirectory, .openFile path⟩ else none

/-! ## Writing one of several files -/

/-- A file that is to be written over a directory is left out, and the error is told. -/
theorem writeAll_of_directory (h : files.get? path = some .directory) :
    files.writeAll ((path, bytes) :: outputs) =
      ((files.writeAll outputs).1, some ⟨.isDirectory, .openFile path⟩) := by
  have hwrite : files.write path bytes = .error ⟨.isDirectory, .openFile path⟩ := by
    rw [write, h]
  rw [writeAll, hwrite]

/-- A file that is not to be written over a directory is inserted. -/
theorem writeAll_of_not_directory (h : files.get? path ≠ some .directory) :
    files.writeAll ((path, bytes) :: outputs) =
      (files.insert path (.file bytes)).writeAll outputs := by
  have hwrite : files.write path bytes = .ok (files.insert path (.file bytes)) := by
    unfold write
    split
    next hget => exact absurd hget h
    · rfl
  rw [writeAll, hwrite]

/-- A file that is written makes no directory and removes none. -/
theorem directory_insert_iff (h : files.get? path ≠ some .directory) (place : Path) :
    (files.insert path (.file bytes)).get? place = some .directory ↔
      files.get? place = some .directory := by
  by_cases hplace : place = path
  · have hnames : path.names ≠ [] := fun hroot => h (get?_of_root files hroot)
    rw [hplace, get?_insert_self files _ hnames]
    simp [h]
  · rw [get?_insert_of_ne files _ hplace]

/-! ## Writing several files -/

/-- The error of writing files is that of the first directory in their way. -/
theorem error_writeAll (files : FileSystem) (outputs : List (Path × List UInt8)) :
    (files.writeAll outputs).2 = outputs.findSome? fun output => files.obstacle? output.1 := by
  induction outputs generalizing files with
  | nil => rfl
  | cons output outputs ih =>
      obtain ⟨target, content⟩ := output
      rw [List.findSome?_cons]
      by_cases h : files.get? target = some .directory
      · rw [writeAll_of_directory h, obstacle?, if_pos h]
      · have hobstacle (place : Path) :
            (files.insert target (.file content)).obstacle? place = files.obstacle? place := by
          unfold obstacle?
          rw [if_congr (directory_insert_iff h place) rfl rfl]
        rw [writeAll_of_not_directory h, ih, obstacle?, if_neg h]
        simp only [hobstacle]

/-- After files are written, directories stand where they stood, each file stands at its path, and
nothing else is changed. -/
theorem get?_writeAll (files : FileSystem) (hdistinct : (outputs.map Prod.fst).Nodup)
    (path : Path) :
    (files.writeAll outputs).1.get? path =
      if files.get? path = some .directory then some .directory
      else ((outputs.lookup path).map .file).or (files.get? path) := by
  induction outputs generalizing files with
  | nil =>
      show files.get? path = _
      split
      next h => exact h
      · rfl
  | cons output outputs ih =>
      obtain ⟨target, content⟩ := output
      obtain ⟨hfresh, hdistinct⟩ := List.nodup_cons.mp hdistinct
      rw [List.lookup_cons]
      by_cases h : files.get? target = some .directory
      · rw [writeAll_of_directory h, ih files hdistinct]
        by_cases hpath : path = target
        · rw [hpath, if_pos h, if_pos h]
        · rw [beq_eq_false_iff_ne.mpr hpath]
      · rw [writeAll_of_not_directory h, ih _ hdistinct,
          if_congr (directory_insert_iff h path) rfl rfl]
        by_cases hpath : path = target
        · -- no later file has this path
          have hnone : outputs.lookup path = none := by
            rw [List.lookup_eq_none_iff]
            intro output houtput
            rw [bne_iff_ne, hpath]
            intro hsame
            exact hfresh (List.mem_map.mpr ⟨output, houtput, hsame.symm⟩)
          have hnames : path.names ≠ [] := by
            intro hroot
            exact h (get?_of_root files (hpath ▸ hroot))
          rw [hnone, ← hpath, get?_insert_self files _ hnames, beq_self_eq_true]
          rfl
        · rw [get?_insert_of_ne files _ hpath, beq_eq_false_iff_ne.mpr hpath]

/-- Writing files makes no directories and removes none. -/
theorem directory_writeAll_iff (files : FileSystem) (hdistinct : (outputs.map Prod.fst).Nodup)
    (path : Path) :
    (files.writeAll outputs).1.get? path = some .directory ↔
      files.get? path = some .directory := by
  rw [get?_writeAll files hdistinct]
  by_cases h : files.get? path = some .directory
  · simp [h]
  · cases hlookup : outputs.lookup path <;> simp [h]

/-! ## Writing twice -/

/-- After files are written one after another, the later ones stand before the earlier ones. -/
theorem get?_writeAll_writeAll (files : FileSystem) (hfirst : (first.map Prod.fst).Nodup)
    (hsecond : (second.map Prod.fst).Nodup) (path : Path) :
    ((files.writeAll first).1.writeAll second).1.get? path =
      if files.get? path = some .directory then some .directory
      else ((second.lookup path).map .file).or
        (((first.lookup path).map .file).or (files.get? path)) := by
  rw [get?_writeAll _ hsecond, if_congr (directory_writeAll_iff files hfirst path) rfl rfl]
  by_cases h : files.get? path = some .directory
  · rw [if_pos h, if_pos h]
  · rw [if_neg h, if_neg h, get?_writeAll files hfirst, if_neg h]

/-- Writing the same files again meets the same error and changes nothing. -/
theorem same_writeAll_again (files : FileSystem) (hdistinct : (outputs.map Prod.fst).Nodup) :
    ((files.writeAll outputs).1.writeAll outputs).2 = (files.writeAll outputs).2 ∧
      ((files.writeAll outputs).1.writeAll outputs).1.Same (files.writeAll outputs).1 := by
  constructor
  · rw [error_writeAll, error_writeAll]
    simp only [obstacle?, directory_writeAll_iff files hdistinct]
  · intro path
    rw [get?_writeAll_writeAll files hdistinct hdistinct, get?_writeAll files hdistinct]
    cases outputs.lookup path <;> rfl

/-- Files that agree where they have the same path are written in either order. -/
theorem same_writeAll_swap (files : FileSystem) (hfirst : (first.map Prod.fst).Nodup)
    (hsecond : (second.map Prod.fst).Nodup)
    (hagree : ∀ path content other, (path, content) ∈ first → (path, other) ∈ second →
      content = other) :
    ((files.writeAll first).1.writeAll second).1.Same
      ((files.writeAll second).1.writeAll first).1 := by
  intro path
  have hmem {outputs : List (Path × List UInt8)} {content : List UInt8}
      (hlookup : outputs.lookup path = some content) : (path, content) ∈ outputs := by
    obtain ⟨before, after, rfl, -⟩ := List.lookup_eq_some_iff.mp hlookup
    simp
  rw [get?_writeAll_writeAll files hfirst hsecond, get?_writeAll_writeAll files hsecond hfirst]
  cases hone : first.lookup path with
  | none => cases second.lookup path <;> rfl
  | some content =>
      cases htwo : second.lookup path with
      | none => rfl
      | some other => rw [hagree path content other (hmem hone) (hmem htwo)]

end LolMarkup.FileSystem
