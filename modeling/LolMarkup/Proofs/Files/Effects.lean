import LolMarkup.FileSystem
import LolMarkup.Proofs.Files.Naming

/-!
# What operations do to a file system

Each operation is described by what stands at every path afterwards. Making directories puts them
only where nothing stands (`FileSystem.get?_makeDirectories`), and writing files changes the paths
of these files alone, also when some of them cannot be written (`FileSystem.writeAll_changed`). If
there is no error, every file that was to be written is there (`FileSystem.writeAll_written`).
-/

namespace LolMarkup.FileSystem

variable {files made written : FileSystem} {path other : Path}

/-! ## One entry -/

/-- The root is a directory of every file system. -/
theorem get?_of_root (files : FileSystem) (h : path.names = []) :
    files.get? path = some .directory :=
  if_pos h

/-- A path at which nothing stands is not the root. -/
theorem names_ne_nil_of_missing (h : files.get? path = none) : path.names ≠ [] := by
  intro hroot
  rw [get?_of_root files hroot] at h
  cases h

/-- Removing the entries of one path leaves those of the others. -/
theorem lookup_filter_of_ne (entries : List (Path × Entry)) (h : other ≠ path) :
    (entries.filter (·.1 ≠ path)).lookup other = entries.lookup other := by
  induction entries with
  | nil => rfl
  | cons first entries ih =>
      obtain ⟨key, entry⟩ := first
      by_cases hkey : key = path
      · have hother : (other == key) = false := by
          rw [hkey]
          exact beq_eq_false_iff_ne.mpr h
        rw [List.filter_cons_of_neg (by simpa using hkey), ih, List.lookup_cons, hother]
      · rw [List.filter_cons_of_pos (by simpa using hkey), List.lookup_cons, List.lookup_cons, ih]

/-- What is inserted at a path stands there. -/
theorem get?_insert_self (files : FileSystem) (entry : Entry) (h : path.names ≠ []) :
    (files.insert path entry).get? path = some entry := by
  rw [get?, if_neg h, insert, List.lookup_cons, beq_self_eq_true]

/-- What is inserted at a path changes no other path. -/
theorem get?_insert_of_ne (files : FileSystem) (entry : Entry) (h : other ≠ path) :
    (files.insert path entry).get? other = files.get? other := by
  have hother : (other == path) = false := beq_eq_false_iff_ne.mpr h
  unfold get? insert
  rw [List.lookup_cons, hother]
  dsimp only
  rw [lookup_filter_of_ne _ h]

/-! ## Directories -/

/-- A directory is made where nothing stands. -/
theorem get?_addDirectory (files : FileSystem) (path other : Path) :
    (files.addDirectory path).get? other =
      if other = path ∧ files.get? other = none then some .directory else files.get? other := by
  unfold addDirectory
  split
  next hsome =>
      rw [if_neg]
      rintro ⟨rfl, hnone⟩
      rw [hnone] at hsome
      cases hsome
  next hnone =>
      have habsent : files.get? path = none := by
        cases hget : files.get? path with
        | none => rfl
        | some entry =>
            rw [hget] at hnone
            exact absurd rfl hnone
      by_cases hother : other = path
      · rw [hother, get?_insert_self files _ (names_ne_nil_of_missing habsent),
          if_pos ⟨rfl, habsent⟩]
      · rw [get?_insert_of_ne files _ hother, if_neg fun h => hother h.1]

/-- Adding directories changes the paths at which nothing stands, and no others. -/
theorem get?_addDirectories (files : FileSystem) (paths : List Path) (other : Path) :
    (paths.foldl addDirectory files).get? other =
      if other ∈ paths ∧ files.get? other = none then some .directory else files.get? other := by
  induction paths generalizing files with
  | nil => simp
  | cons path paths ih =>
      rw [List.foldl_cons, ih, get?_addDirectory]
      by_cases hother : other = path
      · cases hget : files.get? other <;> simp [hother]
      · simp [hother]

/-- Directories are made where nothing stands, and nothing else changes. -/
theorem get?_makeDirectories (h : files.makeDirectories path = .ok made) (other : Path) :
    made.get? other = if other ∈ path.ancestors ++ [path] ∧ files.get? other = none
      then some .directory else files.get? other := by
  unfold makeDirectories at h
  split at h
  · cases h
  split at h
  · cases h
  · cases h
    exact get?_addDirectories files _ other

/-- A path that changes when the directory of a path is made is a directory above that path. -/
theorem makeDirectories_changed (h : files.makeDirectories path.parent = .ok made)
    (hchanged : made.get? other ≠ files.get? other) :
    other ∈ path.ancestors ∧ files.get? other = none ∧ made.get? other = some .directory := by
  rw [get?_makeDirectories h] at hchanged ⊢
  split at hchanged
  next hnew =>
      refine ⟨?_, hnew.2, if_pos hnew⟩
      by_cases hroot : path.names = []
      · -- the root stands above nothing but itself, and it is always there
        have hother : other.names = [] := by
          rw [Path.ancestors, Path.parent, hroot] at hnew
          rw [List.mem_singleton.mp hnew.1]
          rfl
        exact absurd hother (names_ne_nil_of_missing hnew.2)
      · rw [Path.ancestors_eq hroot]
        exact hnew.1
  · exact absurd rfl hchanged

/-! ## Files -/

/-- A file that can be written is inserted at its path. -/
theorem write_eq_ok {bytes : List UInt8} (h : files.write path bytes = .ok written) :
    written = files.insert path (.file bytes) := by
  unfold write at h
  split at h
  · cases h
  · cases h
    rfl

/-- A path that changes when files are written is that of one of the files, which is then there. -/
theorem writeAll_changed {outputs : List (Path × List UInt8)}
    (h : (files.writeAll outputs).1.get? path ≠ files.get? path) :
    ∃ bytes, (path, bytes) ∈ outputs ∧
      (files.writeAll outputs).1.get? path = some (.file bytes) := by
  induction outputs generalizing files with
  | nil => exact absurd rfl h
  | cons output outputs ih =>
      obtain ⟨target, bytes⟩ := output
      have hlater {start : FileSystem} (hstart : (start.writeAll outputs).1.get? path ≠
          start.get? path) : ∃ more, (path, more) ∈ (target, bytes) :: outputs ∧
            (start.writeAll outputs).1.get? path = some (.file more) := by
        obtain ⟨more, hmem, hget⟩ := ih hstart
        exact ⟨more, List.mem_cons_of_mem _ hmem, hget⟩
      cases hwrite : files.write target bytes with
      | error e =>
          simp only [writeAll, hwrite] at h ⊢
          exact hlater h
      | ok written =>
          simp only [writeAll, hwrite] at h ⊢
          by_cases hsame : (written.writeAll outputs).1.get? path = written.get? path
          · -- no later file stands at the path, so this one does
            obtain rfl := write_eq_ok hwrite
            rw [hsame] at h ⊢
            have htarget : path = target := by
              by_contra hne
              exact h (get?_insert_of_ne files _ hne)
            subst htarget
            have hnames : path.names ≠ [] := by
              intro hroot
              rw [get?_of_root _ hroot, get?_of_root _ hroot] at h
              exact h rfl
            exact ⟨bytes, List.mem_cons_self, get?_insert_self files _ hnames⟩
          · exact hlater hsame

/-- Files that are written without an error are there, if no path is written to twice. -/
theorem writeAll_written {outputs : List (Path × List UInt8)}
    (hok : (files.writeAll outputs).2 = none) (hdistinct : (outputs.map Prod.fst).Nodup)
    {bytes : List UInt8} (hmem : (path, bytes) ∈ outputs) (hnames : path.names ≠ []) :
    (files.writeAll outputs).1.get? path = some (.file bytes) := by
  induction outputs generalizing files with
  | nil => cases hmem
  | cons output outputs ih =>
      obtain ⟨target, content⟩ := output
      obtain ⟨hfresh, hdistinct⟩ := List.nodup_cons.mp hdistinct
      cases hwrite : files.write target content with
      | error e =>
          simp only [writeAll, hwrite] at hok
          cases hok
      | ok written =>
          simp only [writeAll, hwrite] at hok ⊢
          rcases List.mem_cons.mp hmem with hfirst | hlater
          · cases hfirst
            have hkept : (written.writeAll outputs).1.get? path = written.get? path := by
              by_contra hchanged
              obtain ⟨more, hmore, -⟩ := writeAll_changed hchanged
              exact hfresh (List.mem_map.mpr ⟨(path, more), hmore, rfl⟩)
            rw [hkept, write_eq_ok hwrite, get?_insert_self files _ hnames]
          · exact ih hok hdistinct hlater

end LolMarkup.FileSystem
