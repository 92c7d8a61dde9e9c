import LolMarkup.Proofs.Files.Rewriting

/-!
# File systems as trees

In a rooted file system all that exists stands in directories. Making directories and writing files
into them keeps it rooted (`FileSystem.Rooted.makeDirectories`, `FileSystem.Rooted.writeAll`), and
lets it grow: directories stay directories and files stay files (`FileSystem.Grows`). What can be
read from a rooted file system can be read after it has grown, and what cannot be read still cannot,
as long as the entry itself is left alone (`FileSystem.Rooted.toOption_read`).
-/

namespace LolMarkup

namespace Path

variable {path above higher : Path}

/-- The directories above a path are named by its proper prefixes. -/
theorem mem_ancestors_iff :
    above ∈ path.ancestors ↔
      above.names <+: path.names ∧ above.names.length < path.names.length := by
  unfold ancestors
  constructor
  · intro h
    obtain ⟨n, hn, rfl⟩ := List.mem_map.mp h
    have hlt := List.mem_range.mp hn
    refine ⟨List.take_prefix _ _, ?_⟩
    show (path.names.take n).length < _
    rw [List.length_take]
    omega
  · rintro ⟨hbegins, hlt⟩
    refine List.mem_map.mpr ⟨above.names.length, List.mem_range.mpr hlt, ?_⟩
    rw [← List.prefix_iff_eq_take.mp hbegins]

/-- What is above something above a path is above the path. -/
theorem mem_ancestors_trans (h : above ∈ path.ancestors) (hhigher : higher ∈ above.ancestors) :
    higher ∈ path.ancestors := by
  rw [mem_ancestors_iff] at h hhigher ⊢
  exact ⟨hhigher.1.trans h.1, Nat.lt_trans hhigher.2 h.2⟩

/-- Another extension does not change the parent. -/
theorem parent_withExtension (path : Path) (extension : String) :
    (path.withExtension extension).parent = path.parent := by
  rw [withExtension, parent, List.dropLast_concat]

/-- A path beside another one stands in the same directories. -/
theorem ancestors_withExtension (path : Path) (extension : String) :
    (path.withExtension extension).ancestors = path.parent.ancestors ++ [path.parent] := by
  rw [ancestors_eq (path.names_withExtension_ne_nil extension), parent_withExtension]

end Path

namespace FileSystem

variable {files later made : FileSystem} {path above : Path} {entry : Entry}
  {outputs : List (Path × List UInt8)}

/-- All that exists stands in directories. -/
def Rooted (files : FileSystem) : Prop :=
  ∀ item ∈ files.entries, ∀ above ∈ item.1.ancestors, files.get? above = some .directory

/-- Whether a file system is rooted is decided entry by entry. -/
instance (files : FileSystem) : Decidable files.Rooted :=
  inferInstanceAs (Decidable (∀ item ∈ files.entries, ∀ above ∈ item.1.ancestors,
    files.get? above = some .directory))

/-- A file system is rooted if directories are above every path at which something stands. -/
theorem rooted_iff : files.Rooted ↔ ∀ path, files.get? path ≠ none →
    ∀ above ∈ path.ancestors, files.get? above = some .directory := by
  constructor
  · intro h path hget above habove
    have hnames : path.names ≠ [] := by
      intro hroot
      rw [Path.ancestors, hroot] at habove
      cases habove
    rw [get?, if_neg hnames] at hget
    obtain ⟨entry, hlookup⟩ := Option.ne_none_iff_exists'.mp hget
    obtain ⟨before, after, hentries, -⟩ := List.lookup_eq_some_iff.mp hlookup
    exact h (path, entry) (by rw [hentries]; simp) above habove
  · intro h item hitem
    refine h item.1 ?_
    unfold get?
    split
    · exact Option.some_ne_none _
    · intro hnone
      have hother := List.lookup_eq_none_iff.mp hnone item hitem
      simp at hother

/-- Above what stands in a rooted file system there are directories. -/
theorem Rooted.directory (h : files.Rooted) (hget : files.get? path = some entry)
    (habove : above ∈ path.ancestors) : files.get? above = some .directory := by
  refine rooted_iff.mp h path ?_ above habove
  rw [hget]
  exact Option.some_ne_none _

/-! ## Growth -/

/-- Directories stay directories and files stay files. -/
structure Grows (files later : FileSystem) : Prop where
  directory : ∀ path, files.get? path = some .directory → later.get? path = some .directory
  file : ∀ path, files.isFile path = true → later.isFile path = true

/-- A file system grows into itself. -/
theorem Grows.refl (files : FileSystem) : files.Grows files :=
  ⟨fun _ h => h, fun _ h => h⟩

/-- Growth in two steps is growth. -/
theorem Grows.trans (h : files.Grows made) (hlater : made.Grows later) : files.Grows later :=
  ⟨fun path hpath => hlater.directory path (h.directory path hpath),
    fun path hpath => hlater.file path (h.file path hpath)⟩

/-- A path is that of a file if there are bytes at it. -/
theorem isFile_iff : files.isFile path = true ↔ ∃ bytes, files.get? path = some (.file bytes) := by
  unfold isFile
  split
  next bytes hget => simp [hget]
  next hnot => simpa using hnot

/-- A file system grows if only what was missing is changed. -/
theorem grows_of_missing (h : ∀ path, later.get? path ≠ files.get? path → files.get? path = none) :
    files.Grows later := by
  have hkept {path : Path} {entry : Entry} (hget : files.get? path = some entry) :
      later.get? path = some entry := by
    by_contra hchanged
    rw [← hget] at hchanged
    rw [h path hchanged] at hget
    cases hget
  refine ⟨fun path => hkept, fun path hfile => ?_⟩
  obtain ⟨bytes, hget⟩ := isFile_iff.mp hfile
  exact isFile_iff.mpr ⟨bytes, hkept hget⟩

/-- Making directories lets a file system grow. -/
theorem grows_makeDirectories (h : files.makeDirectories path = .ok made) : files.Grows made := by
  apply grows_of_missing
  intro place hchanged
  rw [get?_makeDirectories h] at hchanged
  split at hchanged
  next hnew => exact hnew.2
  · exact absurd rfl hchanged

/-- Writing files lets a file system grow, also if some of them cannot be written. -/
theorem grows_writeAll (files : FileSystem) (hdistinct : (outputs.map Prod.fst).Nodup) :
    files.Grows (files.writeAll outputs).1 := by
  refine ⟨fun path => (directory_writeAll_iff files hdistinct path).mpr, fun path hfile => ?_⟩
  obtain ⟨bytes, hget⟩ := isFile_iff.mp hfile
  rw [isFile_iff, get?_writeAll files hdistinct, hget]
  cases outputs.lookup path <;> simp

/-! ## Directories -/

/-- A path below directories does not lead through a file. -/
theorem throughFile_of_directories
    (h : ∀ above ∈ path.ancestors, files.get? above = some .directory) :
    files.throughFile path = false := by
  simp only [throughFile, List.any_eq_false]
  intro above habove
  simp [isFile, h above habove]

/-- Nothing is made where all directories exist. -/
theorem makeDirectories_of_directories
    (h : ∀ above ∈ path.ancestors ++ [path], files.get? above = some .directory) :
    files.makeDirectories path = .ok files := by
  have hfold (paths : List Path) (hpaths : ∀ above ∈ paths, files.get? above = some .directory) :
      paths.foldl addDirectory files = files := by
    induction paths with
    | nil => rfl
    | cons first paths ih =>
        have hfirst : files.addDirectory first = files := by
          rw [addDirectory, hpaths first List.mem_cons_self]
          rfl
        rw [List.foldl_cons, hfirst]
        exact ih fun above habove => hpaths above (List.mem_cons_of_mem _ habove)
  have hpath : files.isFile path = false := by
    simp [isFile, h path (by simp)]
  rw [makeDirectories, throughFile_of_directories fun above habove =>
    h above (List.mem_append_left _ habove), hpath, hfold _ h]
  rfl

/-- A directory can be made unless there is a file on the way to it or in its place. -/
theorem exists_makeDirectories_iff :
    (∃ made, files.makeDirectories path = .ok made) ↔
      ∀ above ∈ path.ancestors ++ [path], files.isFile above = false := by
  have hthrough : files.throughFile path = false ↔
      ∀ above ∈ path.ancestors, files.isFile above = false := by
    simp [throughFile]
  rw [List.forall_mem_append, ← hthrough, List.forall_mem_singleton, makeDirectories]
  cases files.throughFile path <;> cases files.isFile path <;> simp

/-- The missing directory of a path can be made unless the path leads through a file. -/
theorem exists_makeDirectories_parent_iff (h : files.get? path.parent ≠ some .directory) :
    (∃ made, files.makeDirectories path.parent = .ok made) ↔ files.throughFile path = false := by
  have hnames : path.names ≠ [] := by
    intro hroot
    refine h (get?_of_root files ?_)
    rw [Path.parent, hroot]
    rfl
  rw [exists_makeDirectories_iff, ← Path.ancestors_eq hnames, throughFile, List.any_eq_false]
  simp

/-- All directories exist after they are made. -/
theorem directories_of_makeDirectories (h : files.makeDirectories path = .ok made) :
    ∀ above ∈ path.ancestors ++ [path], made.get? above = some .directory := by
  intro above habove
  rw [get?_makeDirectories h]
  unfold makeDirectories at h
  split at h
  · cases h
  next hthrough =>
      split at h
      · cases h
      next hfile =>
          have hnot : files.isFile above = false := by
            rcases List.mem_append.mp habove with habove | habove
            · rw [throughFile, List.any_eq_true] at hthrough
              exact Bool.eq_false_iff.mpr fun hisFile => hthrough ⟨above, habove, hisFile⟩
            · rw [List.mem_singleton.mp habove]
              exact Bool.eq_false_iff.mpr hfile
          cases hget : files.get? above with
          | none => rw [if_pos ⟨habove, rfl⟩]
          | some entry =>
              rw [if_neg (by simp)]
              cases entry with
              | directory => rfl
              | file bytes =>
                  rw [isFile_iff.mpr ⟨bytes, hget⟩] at hnot
                  cases hnot

/-! ## Staying rooted -/

namespace Rooted

/-- Making directories keeps a file system rooted. -/
theorem makeDirectories (hrooted : files.Rooted) (h : files.makeDirectories path = .ok made) :
    made.Rooted := by
  have hmade := directories_of_makeDirectories h
  rw [rooted_iff]
  intro place hget above habove
  by_cases hplace : files.get? place = none
  · -- a new directory is one of those above the path, or the path itself
    rw [get?_makeDirectories h] at hget
    split at hget
    next hnew =>
        apply hmade
        rcases List.mem_append.mp hnew.1 with hplace | hplace
        · exact List.mem_append_left _ (Path.mem_ancestors_trans hplace habove)
        · rw [List.mem_singleton.mp hplace] at habove
          exact List.mem_append_left _ habove
    · exact absurd hplace hget
  · have hbefore := rooted_iff.mp hrooted place hplace above habove
    exact (grows_makeDirectories h).directory above hbefore

/-- Writing files into directories keeps a file system rooted. -/
theorem writeAll (hrooted : files.Rooted) (hdistinct : (outputs.map Prod.fst).Nodup)
    (h : ∀ output ∈ outputs, ∀ above ∈ output.1.ancestors, files.get? above = some .directory) :
    (files.writeAll outputs).1.Rooted := by
  rw [rooted_iff]
  intro place hget above habove
  rw [directory_writeAll_iff files hdistinct]
  by_cases hplace : files.get? place = none
  · have hchanged : (files.writeAll outputs).1.get? place ≠ files.get? place := by
      rw [hplace]
      exact hget
    obtain ⟨bytes, hmem, -⟩ := writeAll_changed hchanged
    exact h _ hmem above habove
  · exact rooted_iff.mp hrooted place hplace above habove

/-- A file that stays as it is can be read from the grown file system exactly if it could be read
before. -/
theorem toOption_read (hrooted : files.Rooted) (hgrows : files.Grows later)
    (hsame : later.get? path = files.get? path) :
    (later.read path).toOption = (files.read path).toOption := by
  unfold read
  rw [hsame]
  cases hthrough : files.throughFile path with
  | true =>
      have hlater : later.throughFile path = true := by
        rw [throughFile, List.any_eq_true] at hthrough ⊢
        obtain ⟨above, habove, hfile⟩ := hthrough
        exact ⟨above, habove, hgrows.file above hfile⟩
      rw [hlater]
  | false =>
      cases hget : files.get? path with
      | some entry =>
          have hlater : later.throughFile path = false :=
            throughFile_of_directories fun above habove =>
              hgrows.directory above (hrooted.directory hget habove)
          rw [hlater]
      | none =>
          -- a new file above the path changes the error and nothing else
          cases later.throughFile path <;> rfl

end Rooted

end FileSystem

end LolMarkup
