import LolMarkup.Proofs.Compiling.Contract
import LolMarkup.Proofs.Files.Resolution
import LolMarkup.Proofs.Reading.Placement

/-!
# The file that an outline records

An outline records the file of its document as it is seen from a root directory. `Path.SeenAs` says
what this should be: relative to the directory, and leading from there to the file, exactly if the
file lies strictly below. Whether it does is told by the first two characters of the relative path,
so that a file below a name that starts with two dots is taken for one outside and recorded as a
whole. This is the only exception (`Path.seenAs_iff`). Compilations record files as they are seen
from the directory that holds them (`Source.filterMap_recordedFile?`).
-/

namespace LolMarkup

namespace Path

variable {directory path : Path} {name : String} {names : List String}

/-- The path is below the directory, in or at something whose name starts with two dots. -/
def DottedBelow (directory path : Path) : Prop :=
  ∃ name rest, path.names = directory.names ++ name :: rest ∧ ['.', '.'] <+: name.toList

/-- What is written for a path as it is seen from a directory: a relative path that leads to it, if
it is strictly below, and the path itself otherwise. -/
structure SeenAs (directory path : Path) (written : String) : Prop where
  inside : directory ∈ path.ancestors →
    written.toList.head? ≠ some '/' ∧ directory.resolve written = path
  outside : directory ∉ path.ancestors → written = path.toString

/-- A path is strictly below a directory if names lead down to it. -/
theorem mem_ancestors_iff_exists :
    directory ∈ path.ancestors ↔ ∃ name rest, path.names = directory.names ++ name :: rest := by
  rw [mem_ancestors_iff]
  constructor
  · rintro ⟨⟨below, hbelow⟩, hlength⟩
    cases below with
    | nil =>
        rw [← hbelow, List.append_nil] at hlength
        exact absurd hlength (Nat.lt_irrefl _)
    | cons name rest => exact ⟨name, rest, hbelow.symm⟩
  · rintro ⟨name, rest, hnames⟩
    rw [hnames]
    exact ⟨List.prefix_append _ _, by simp⟩

/-- What is below a directory has the directory above it. -/
theorem DottedBelow.mem_ancestors (h : DottedBelow directory path) :
    directory ∈ path.ancestors := by
  obtain ⟨name, rest, hnames, -⟩ := h
  exact mem_ancestors_iff_exists.mpr ⟨name, rest, hnames⟩

/-- The first two characters that are written for names are those of the first name, as far as they
are dots. -/
theorem dots_prefix_intercalate_iff (name : String) (names : List String) :
    ['.', '.'] <+: ("/".intercalate (name :: names)).toList ↔ ['.', '.'] <+: name.toList := by
  obtain ⟨tail, htail, hend⟩ := exists_toList_intercalate name names
  rw [htail]
  constructor
  · intro h
    rcases hend with rfl | hslash
    · rwa [List.append_nil] at h
    · -- a name that is shorter has a slash after it
      obtain ⟨rest, rfl⟩ := List.head?_eq_some_iff.mp hslash
      cases hname : name.toList with
      | nil => simp [hname] at h
      | cons c cs =>
          cases cs with
          | nil => simp [hname] at h
          | cons d cs =>
              rw [hname] at h
              simpa using h
  · exact fun h => h.trans (List.prefix_append _ _)

/-! ## Seeing a path from a directory -/

/-- A path is below a directory if the names of the directory come first. -/
theorem below?_eq_some_iff :
    directory.below? path = some names ↔ path.names = directory.names ++ names := by
  unfold below?
  split
  next hbegins =>
      obtain ⟨below, hbelow⟩ := List.isPrefixOf_iff_prefix.mp hbegins
      rw [← hbelow, List.drop_left, Option.some.injEq, List.append_cancel_left_eq]
  next hbegins =>
      constructor
      · intro h
        cases h
      · intro h
        exact absurd (List.isPrefixOf_iff_prefix.mpr ⟨names, h.symm⟩) hbegins

/-- What is written for the names below a directory, unless there are none or they start with two
dots. -/
theorem seenFrom_of_names (h : path.names = directory.names ++ names) :
    directory.seenFrom path =
      if "/".intercalate names = "" ∨ ['.', '.'] <+: ("/".intercalate names).toList then
        path.toString
      else "/".intercalate names := by
  rw [seenFrom, below?_eq_some_iff.mpr h]
  simp only [Bool.or_eq_true, String.isEmpty_iff, List.isPrefixOf_iff_prefix]

/-- A path below a directory is seen by the names behind those of the directory, unless the first of
these starts with two dots. -/
theorem seenFrom_below (hnormal : path.Normal) {rest : List String}
    (h : path.names = directory.names ++ name :: rest) (hdots : ¬ ['.', '.'] <+: name.toList) :
    directory.seenFrom path = "/".intercalate (name :: rest) := by
  have hempty : "/".intercalate (name :: rest) ≠ "" := by
    obtain ⟨tail, htail, -⟩ := exists_toList_intercalate name rest
    have hname : name ≠ "" := (hnormal name (by simp [h])).1
    intro hnone
    rw [hnone] at htail
    exact hname (String.toList_eq_nil_iff.mp (List.append_eq_nil_iff.mp htail.symm).1)
  rw [seenFrom_of_names h, if_neg]
  rintro (hnone | hprefix)
  · exact hempty hnone
  · exact hdots ((dots_prefix_intercalate_iff name rest).mp hprefix)

/-- A path below a directory whose next name starts with two dots is seen as it is written. -/
theorem seenFrom_dotted (h : DottedBelow directory path) :
    directory.seenFrom path = path.toString := by
  obtain ⟨name, rest, hnames, hdots⟩ := h
  rw [seenFrom_of_names hnames, if_pos (.inr ((dots_prefix_intercalate_iff name rest).mpr hdots))]

/-- A path that is not below a directory is seen as it is written. -/
theorem seenFrom_outside (h : directory ∉ path.ancestors) :
    directory.seenFrom path = path.toString := by
  cases hbelow : directory.below? path with
  | none => rw [seenFrom, hbelow]
  | some names =>
      rw [below?_eq_some_iff] at hbelow
      cases names with
      | nil => rw [seenFrom_of_names hbelow, if_pos (.inl rfl)]
      | cons name rest => exact absurd (mem_ancestors_iff_exists.mpr ⟨name, rest, hbelow⟩) h

/-- A path is seen from a directory as it should be, unless a name in between starts with two
dots. -/
theorem seenAs_iff (hnormal : path.Normal) :
    SeenAs directory path (directory.seenFrom path) ↔ ¬ DottedBelow directory path := by
  constructor
  · -- below such a name the whole path is written, which is not relative
    intro hseen hdotted
    apply (hseen.inside hdotted.mem_ancestors).1
    rw [seenFrom_dotted hdotted, toString, String.toList_append]
    rfl
  · intro hdotted
    refine ⟨fun hbelow => ?_, seenFrom_outside⟩
    obtain ⟨name, rest, hnames⟩ := mem_ancestors_iff_exists.mp hbelow
    have hbelow : ∀ below ∈ name :: rest, IsName below := by
      intro below hmem
      apply hnormal
      rw [hnames]
      exact List.mem_append_right _ hmem
    rw [seenFrom_below hnormal hnames fun hdots => hdotted ⟨name, rest, hnames, hdots⟩]
    refine ⟨head?_intercalate hbelow (List.cons_ne_nil _ _), ?_⟩
    rw [resolve_intercalate hbelow (List.cons_ne_nil _ _), ← hnames]

/-! ## Forward slashes -/

/-- Where there are no backslashes, none is turned into a slash. -/
theorem slashed_eq_self {text : String} (h : '\\' ∉ text.toList) : slashed text = text := by
  apply String.toList_injective
  rw [slashed, String.toList_map]
  refine (List.map_congr_left fun c hc => if_neg ?_).trans (List.map_id _)
  rintro rfl
  exact h hc

/-- Writing names with slashes between them adds nothing but slashes. -/
theorem notMem_intercalate {c : Char} (hc : c ≠ '/') (h : ∀ name ∈ names, c ∉ name.toList) :
    c ∉ ("/".intercalate names).toList := by
  induction names with
  | nil => simp
  | cons name names ih =>
      rw [List.forall_mem_cons] at h
      cases names with
      | nil => rw [String.intercalate_singleton]; exact h.1
      | cons next names =>
          rw [String.intercalate_cons_cons]
          simpa [h.1, hc] using ih h.2

/-- What is written for a path, or for a path below a directory, has backslashes only if names
have. -/
theorem slashed_seenFrom (h : ∀ name ∈ path.names, '\\' ∉ name.toList) :
    slashed (directory.seenFrom path) = directory.seenFrom path := by
  have hwhole : '\\' ∉ path.toString.toList := by
    rw [toString, String.toList_append, List.mem_append, not_or]
    exact ⟨by simp, notMem_intercalate (by decide) h⟩
  apply slashed_eq_self
  cases hbelow : directory.below? path with
  | none =>
      rw [seenFrom, hbelow]
      exact hwhole
  | some names =>
      rw [below?_eq_some_iff] at hbelow
      rw [seenFrom_of_names hbelow]
      split
      · exact hwhole
      · refine notMem_intercalate (by decide) fun name hname => h name ?_
        rw [hbelow]
        exact List.mem_append_right _ hname

end Path

/-! ## Outlines -/

/-- The text that an object has under a key. -/
def Json.text? (key : String) : Json → Option String
  | object members =>
      match members.lookup key with
      | some (string value) => some value
      | _ => none
  | _ => none

/-- The file that an outline records. -/
def Artifact.recordedFile? : Artifact → Option String
  | outline record => record.text? "file"
  | _ => none

/-- An outline that is written records the file of its document. -/
theorem Draft.recordedFile?_write (here : Path) (document : Document) (root : Option String) :
    ((outline document root).write here).recordedFile? =
      some (recordedFile here document.span.file root) := rfl

/-- Without backslashes, the recorded file is the file as it is seen from the root directory. -/
theorem Draft.recordedFile_eq {here : Path} {file root : String}
    (hhere : ∀ name ∈ here.names, '\\' ∉ name.toList) (hfile : '\\' ∉ file.toList)
    (hroot : root ≠ "") :
    recordedFile here file (some root) = (here.resolve root).seenFrom (here.resolve file) := by
  have hsome : (some root).filter (!·.isEmpty) = some root := by
    simpa [Option.filter_eq_some_iff] using hroot
  rw [recordedFile, hsome]
  apply Path.slashed_seenFrom
  intro name hname
  rcases Path.mem_names_resolve hname with hname | ⟨-, hwritten⟩
  · exact hhere name hname
  · exact fun hslash => hfile (hwritten _ hslash)

/-! ## Compilations -/

/-- What is written for a path is not its name, since it starts with a slash. -/
theorem Path.toString_ne_name {path : Path} (hnormal : path.Normal) (h : path.names ≠ []) :
    path.toString ≠ path.name := by
  intro hname
  have hslash : '/' ∈ path.name.toList := by
    rw [← hname, toString, String.toList_append]
    exact List.mem_append_left _ List.mem_cons_self
  have hmem : path.name ∈ path.names := by
    rw [names_eq h]
    exact List.mem_concat_self
  exact (hnormal _ hmem).2.2.2 hslash

/-- The directory that holds a path sees it by its name. -/
theorem Path.dottedBelow_parent_iff {path : Path} (h : path.names ≠ []) :
    DottedBelow path.parent path ↔ ['.', '.'] <+: path.name.toList := by
  constructor
  · rintro ⟨name, rest, hnames, hdots⟩
    rw [names_eq h, List.append_cancel_left_eq, List.cons.injEq] at hnames
    rwa [hnames.1]
  · exact fun hdots => ⟨path.name, [], names_eq h, hdots⟩

namespace Source

variable {source : Source}

/-- The document of a source is about the file of the source. -/
theorem file_span_of_document {document : Document} (h : source.document = .ok document) :
    document.span.file = source.path := by
  have hplaced := (row_of_document h).placed
  rw [Part.preorderAll_singleton, document.part.preorder_eq, List.forall_mem_cons] at hplaced
  exact hplaced.1.file

/-- A compilation records its file as it is seen from the directory that holds it. -/
theorem filterMap_recordedFile? (here : Path) {options : Options}
    (houtline : options.emitOutline = true) (hlex : options.lexOnly = false)
    (h : ¬ (source.compile here options).Fails) :
    (source.compile here options).artifacts.filterMap Artifact.recordedFile? =
      [Draft.recordedFile here source.path (some (source.directory here).toString)] := by
  rcases (source.outcome here options).cases_of_not_fails h with
    ⟨tokens, hscanned, -, -⟩ | ⟨tokens, document, -, -, hdocument, hartifacts⟩
  · rw [hlex] at hscanned
    cases hscanned
  · have hlisted : ((options.listed tokens).map (Draft.write here)).filterMap
        Artifact.recordedFile? = [] := by
      cases htokens : options.emitTokens <;>
        simp [Options.listed, htokens, Draft.write, Artifact.recordedFile?]
    rw [hartifacts, List.map_append, List.map_cons, List.filterMap_append, List.filterMap_cons,
      hlisted, outline, if_pos houtline, ← file_span_of_document hdocument]
    rfl

/-- What a compilation records is the name of its file, unless it starts with two dots. -/
theorem recordedFile_directory {here : Path} (hhere : here.Normal)
    (hplain : ∀ name ∈ here.names, '\\' ∉ name.toList) (hpath : '\\' ∉ source.path.toList)
    (hroot : (here.resolve source.path).names ≠ []) :
    Draft.recordedFile here source.path (some (source.directory here).toString) =
      if ['.', '.'] <+: (here.resolve source.path).name.toList then
        (here.resolve source.path).toString
      else (here.resolve source.path).name := by
  have hnormal := Path.normal_resolve hhere source.path
  have hne : (source.directory here).toString ≠ "" := by simp [Path.toString]
  rw [Draft.recordedFile_eq hplain hpath hne, directory, Path.resolve_toString hnormal.parent]
  split
  next hdots => exact Path.seenFrom_dotted ((Path.dottedBelow_parent_iff hroot).mpr hdots)
  next hdots => rw [Path.seenFrom_below hnormal (Path.names_eq hroot) hdots,
      String.intercalate_singleton]

end Source

/-- In a working directory without backslashes, the file of a document without backslashes is
recorded as it should be seen from the root directory that is given, except below a name that starts
with two dots, where all of its path is recorded. A compilation records the name of its file, unless
this starts with two dots. -/
theorem recorded_file_seen {here : Path} (hhere : here.Normal)
    (hplain : ∀ name ∈ here.names, '\\' ∉ name.toList) :
    (∀ (document : Document) (root : String), '\\' ∉ document.span.file.toList → root ≠ "" →
      ∃ recorded, ((Draft.outline document (some root)).write here).recordedFile? = some recorded ∧
        ((here.resolve root).SeenAs (here.resolve document.span.file) recorded ↔
          ¬ (here.resolve root).DottedBelow (here.resolve document.span.file)) ∧
        ((here.resolve root).DottedBelow (here.resolve document.span.file) →
          recorded = (here.resolve document.span.file).toString)) ∧
    ∀ (source : Source) (options : Options), '\\' ∉ source.path.toList →
      options.emitOutline = true → options.lexOnly = false →
      ¬ (source.compile here options).Fails → (here.resolve source.path).names ≠ [] →
      ∃ recorded,
        (source.compile here options).artifacts.filterMap Artifact.recordedFile? = [recorded] ∧
        (recorded = (here.resolve source.path).name ↔
          ¬ ['.', '.'] <+: (here.resolve source.path).name.toList) ∧
        (['.', '.'] <+: (here.resolve source.path).name.toList →
          recorded = (here.resolve source.path).toString) := by
  constructor
  · intro document root hfile hroot
    refine ⟨_, Draft.recordedFile?_write here document (some root), ?_⟩
    rw [Draft.recordedFile_eq hplain hfile hroot]
    exact ⟨Path.seenAs_iff (Path.normal_resolve hhere _), Path.seenFrom_dotted⟩
  · intro source options hpath houtline hlex hfails hroot
    refine ⟨_, source.filterMap_recordedFile? here houtline hlex hfails, ?_⟩
    rw [Source.recordedFile_directory hhere hplain hpath hroot]
    split
    next hdots =>
        have hwhole := Path.toString_ne_name (Path.normal_resolve hhere source.path) hroot
        exact ⟨⟨fun hname => absurd hname hwhole, fun hnot => absurd hdots hnot⟩, fun _ => rfl⟩
    next hdots => exact ⟨⟨fun _ => hdots, fun _ => rfl⟩, fun h => absurd h hdots⟩

/-- A file in a subdirectory is recorded with forward slashes and found again. -/
theorem recorded_file_seen_nested :
    (⟨["work"]⟩ : Path).Normal ∧
    ∃ recorded,
      ((Draft.outline ⟨⟨"./notes//a.lol", .origin, .origin⟩, []⟩ (some "notes/..")).write
        ⟨["work"]⟩).recordedFile? = some recorded ∧
      (⟨["work"]⟩ : Path).SeenAs ⟨["work", "notes", "a.lol"]⟩ recorded := by
  have hhere : (⟨["work"]⟩ : Path).Normal := by decide
  obtain ⟨recorded, hrecorded, hseen, -⟩ := (recorded_file_seen hhere (by simp)).1
    ⟨⟨"./notes//a.lol", .origin, .origin⟩, []⟩ "notes/.." (by simp) (by simp)
  refine ⟨hhere, recorded, hrecorded, hseen.mpr ?_⟩
  rintro ⟨name, rest, hnames, hdots⟩
  have hname : ["work", "notes", "a.lol"] = "work" :: name :: rest := hnames
  obtain ⟨rfl, -⟩ := List.cons.inj (List.cons.inj hname).2
  exact absurd hdots (by decide)

/-- A file whose name starts with two dots is not recorded by its name. -/
theorem recorded_dotted_file :
    (⟨["work"]⟩ : Path) ∈ ((⟨["work"]⟩ : Path).resolve "..page.lol").ancestors ∧
    ((⟨["work"]⟩ : Path).resolve "..page.lol").name = "..page.lol" ∧
    ((⟨"..page.lol", "#HAI\n#KTHXBYE"⟩ : Source).compile ⟨["work"]⟩
      { emitOutline := true }).artifacts.filterMap Artifact.recordedFile? =
        ["/work/..page.lol"] :=
  ⟨by decide, by decide, by decide +kernel⟩

end LolMarkup
