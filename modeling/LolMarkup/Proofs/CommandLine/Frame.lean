import LolMarkup.CommandLine.Run
import LolMarkup.Proofs.Compiling.Contract
import LolMarkup.Proofs.Files.Effects

/-!
# What a run of the command line does to the files

A run that ends in the arguments or with an error of the document leaves the files as they are. Any
other run writes its artifacts beside the primary path and makes the directories above it that are
missing; `Request.Frame` says that nothing else changes, and that the artifacts are there if all
went well. The entry is never written to, because no artifact has its extension
(`entry_ne_artifact`).
-/

namespace LolMarkup

/-! ## The artifacts of an entry -/

/-- The extension of an artifact tells its kind. -/
theorem Artifact.kind_of_extension {first second : Artifact}
    (h : first.extension = second.extension) : first.kind = second.kind := by
  cases first <;> cases second <;> simp_all [extension, kind]

/-- There are three extensions of artifacts. -/
theorem Artifact.extension_mem (artifact : Artifact) :
    artifact.extension ∈ [".html", ".tokens.txt", ".ast.json"] := by
  cases artifact <;> simp [extension]

/-- No kind of artifact is asked for twice. -/
theorem Options.nodup_kinds (options : Options) : options.kinds.Nodup := by
  unfold kinds
  cases options.lexOnly <;> cases options.emitTokens <;> cases options.emitOutline <;> decide

namespace FileSystem

variable {files : FileSystem} {here path : Path} {entry : String} {options : Options}
  {source : Source}

/-- An entry that can be compiled is a file with the extension of entries. -/
theorem entrySource_eq_ok (h : files.entrySource path = .ok source) :
    path.extension = EntryError.entryExtension ∧ ∃ bytes, files.get? path = some (.file bytes) := by
  unfold entrySource at h
  split at h
  · cases h
  next hextension =>
      refine ⟨not_not.mp hextension, ?_⟩
      unfold read at h
      split at h
      · cases h
      next bytes hread =>
          split at hread
          · cases hread
          · split at hread
            next content hget => exact ⟨content, hget⟩
            · cases hread
            · cases hread

/-- A compilation without errors is that of a source. -/
theorem exists_source_of_not_fails (h : ¬ (files.compile here entry options).Fails) :
    ∃ source, files.entrySource (here.resolve entry) = .ok source ∧
      files.compile here entry options = source.compile here options := by
  unfold compile at h ⊢
  cases hsource : files.entrySource (here.resolve entry) with
  | ok source => exact ⟨source, rfl, rfl⟩
  | error e =>
      rw [hsource] at h
      exact absurd (Source.fails_singleton [] rfl) h

/-- No two artifacts of a compilation without errors are written to the same path. -/
theorem nodup_artifact_paths (h : ¬ (files.compile here entry options).Fails) (primary : Path) :
    ((files.compile here entry options).artifacts.map
      fun artifact => primary.withExtension artifact.extension).Nodup := by
  obtain ⟨source, -, hcompile⟩ := exists_source_of_not_fails h
  rw [hcompile] at h ⊢
  have hkinds := options.nodup_kinds
  rw [← (source.outcome here options).kinds_of_not_fails h] at hkinds
  refine List.Pairwise.map _ ?_ (List.pairwise_map.mp hkinds)
  intro first second hne hpath
  exact hne (Artifact.kind_of_extension (Path.withExtension_inj.mp hpath))

end FileSystem

/-- An artifact is never written to a path with the extension of entries. -/
theorem entry_ne_artifact {entry primary : Path} (artifact : Artifact)
    (h : entry.extension = EntryError.entryExtension) :
    entry ≠ primary.withExtension artifact.extension := by
  intro hentry
  have hlol : ".lol".toList <:+ entry.name.toList := by
    have hsuffix := Path.extensionOf_suffix entry.name.toList
    rwa [← String.toList_ofList (l := Path.extensionOf entry.name.toList), ← Path.extension, h]
      at hsuffix
  rw [hentry, Path.name_withExtension, String.toList_append] at hlol
  have hnone : ∀ extension ∈ [".html", ".tokens.txt", ".ast.json"],
      ".lol".toList.length ≤ extension.toList.length ∧ ¬ ".lol".toList <:+ extension.toList := by
    decide
  obtain ⟨hlength, hnot⟩ := hnone _ artifact.extension_mem
  exact hnot (List.suffix_of_suffix_length_le hlol (List.suffix_append _ _) hlength)

namespace CommandLine

variable {here path primary : Path} {files made : FileSystem} {artifacts : List Artifact}
  {request : Request}

/-! ## Publishing artifacts -/

/-- The files that hold artifacts beside a path. -/
def outputs (primary : Path) (artifacts : List Artifact) : List (Path × List UInt8) :=
  artifacts.map fun artifact =>
    (primary.withExtension artifact.extension, Text.Utf8.encode artifact.fileText)

/-- No two artifacts are written to the same path. -/
def Separate (primary : Path) (artifacts : List Artifact) : Prop :=
  (artifacts.map fun artifact => primary.withExtension artifact.extension).Nodup

/-- The files that hold separate artifacts have different paths. -/
theorem Separate.nodup_outputs (h : Separate primary artifacts) :
    ((outputs primary artifacts).map Prod.fst).Nodup := by
  rw [outputs, List.map_map]
  exact h

/-- Nothing is published where the directories cannot be made. -/
theorem publish_of_error {e : SystemError} (h : files.makeDirectories primary.parent = .error e) :
    publish files primary artifacts = (files, some e) := by
  rw [publish, h]

/-- Once the directories are made, the artifacts are written one after another. -/
theorem publish_of_ok (h : files.makeDirectories primary.parent = .ok made) :
    publish files primary artifacts = made.writeAll (outputs primary artifacts) := by
  rw [publish, h]
  rfl

/-- A path that changes when artifacts are published is that of an artifact or a new directory. -/
theorem publish_changed
    (h : (publish files primary artifacts).1.get? path ≠ files.get? path) :
    (∃ artifact ∈ artifacts, path = primary.withExtension artifact.extension ∧
      (publish files primary artifacts).1.get? path =
        some (.file (Text.Utf8.encode artifact.fileText))) ∨
    (path ∈ primary.ancestors ∧ files.get? path = none ∧
      (publish files primary artifacts).1.get? path = some .directory) := by
  cases hmade : files.makeDirectories primary.parent with
  | error e =>
      rw [publish_of_error hmade] at h
      exact absurd rfl h
  | ok made =>
      rw [publish_of_ok hmade] at h ⊢
      by_cases hsame : (made.writeAll (outputs primary artifacts)).1.get? path = made.get? path
      · right
        rw [hsame] at h ⊢
        exact FileSystem.makeDirectories_changed hmade h
      · left
        obtain ⟨bytes, hmem, hget⟩ := FileSystem.writeAll_changed hsame
        obtain ⟨artifact, hartifact, heq⟩ := List.mem_map.mp hmem
        cases heq
        exact ⟨artifact, hartifact, rfl, hget⟩

/-- Artifacts that are published without an error are there. -/
theorem publish_written (hok : (publish files primary artifacts).2 = none)
    (hseparate : Separate primary artifacts) {artifact : Artifact} (hmem : artifact ∈ artifacts) :
    (publish files primary artifacts).1.get? (primary.withExtension artifact.extension) =
      some (.file (Text.Utf8.encode artifact.fileText)) := by
  cases hmade : files.makeDirectories primary.parent with
  | error e =>
      rw [publish_of_error hmade] at hok
      cases hok
  | ok made =>
      rw [publish_of_ok hmade] at hok ⊢
      apply FileSystem.writeAll_written hok hseparate.nodup_outputs
      · exact List.mem_map.mpr ⟨artifact, hmem, rfl⟩
      · exact primary.names_withExtension_ne_nil artifact.extension

/-! ## Carrying out a request -/

namespace Request

/-- The compilation that a request asks for. -/
def compilation (here : Path) (files : FileSystem) (request : Request) : Compilation :=
  files.compile here request.entry request.options

/-- What a run that carries out a request may do to the files. -/
structure Frame (here : Path) (files : FileSystem) (request : Request) (outcome : Outcome) :
    Prop where
  /-- Only artifacts that were produced and missing directories above them are written. -/
  changed : ∀ path, outcome.files.get? path ≠ files.get? path →
    (∃ artifact ∈ (request.compilation here files).artifacts,
      path = (request.primary here).withExtension artifact.extension ∧
      outcome.files.get? path = some (.file (Text.Utf8.encode artifact.fileText))) ∨
    (path ∈ (request.primary here).ancestors ∧ files.get? path = none ∧
      outcome.files.get? path = some .directory)
  /-- The artifacts are named by the primary path less its extension. -/
  named : (request.primary here).base ++ (request.primary here).extension =
      (request.primary here).toString ∧
    ∀ artifact ∈ (request.compilation here files).artifacts,
      ((request.primary here).withExtension artifact.extension).toString =
        (request.primary here).base ++ artifact.extension
  /-- The entry stays as it is. -/
  entry : outcome.files.get? (here.resolve request.entry) = files.get? (here.resolve request.entry)
  /-- If all went well, every artifact is there. -/
  written : outcome.code = 0 → ∀ artifact ∈ (request.compilation here files).artifacts,
    outcome.files.get? ((request.primary here).withExtension artifact.extension) =
      some (.file (Text.Utf8.encode artifact.fileText))
  /-- If all went well, the path of the page is printed. -/
  printed : outcome.code = 0 → request.lexOnly = false →
    outcome.stdout = (request.primary here).base ++ ".html" ++ "\n"

/-- How a run ends after it has told the diagnostics and published artifacts. -/
def concluded (here : Path) (request : Request) (told : String) :
    FileSystem × Option SystemError → Outcome
  | (written, none) => ⟨0, success (request.primary here) request.lexOnly, told, written⟩
  | (written, some e) => ⟨2, "", told ++ complaint e.message, written⟩

/-- The files in the end are those that were published. -/
theorem files_concluded (told : String) (published : FileSystem × Option SystemError) :
    (request.concluded here told published).files = published.1 := by
  obtain ⟨written, _ | e⟩ := published <;> rfl

/-- A run that has published never ends as one that finds errors in the document. -/
theorem code_concluded_ne_one (told : String) (published : FileSystem × Option SystemError) :
    (request.concluded here told published).code ≠ 1 := by
  obtain ⟨written, _ | e⟩ := published
  · exact Nat.zero_ne_one
  · exact show (2 : Nat) ≠ 1 by decide

/-- If all went well, publishing met no error and the end says so. -/
theorem concluded_of_code_zero {told : String} {published : FileSystem × Option SystemError}
    (h : (request.concluded here told published).code = 0) :
    published.2 = none ∧ (request.concluded here told published).stdout =
      success (request.primary here) request.lexOnly := by
  obtain ⟨written, _ | e⟩ := published
  · exact ⟨rfl, rfl⟩
  · cases h

/-- A run that finds errors in the document reports them and stops. -/
theorem run_of_fails (h : (request.compilation here files).Fails) :
    request.run here files =
      ⟨1, "", report (request.compilation here files).diagnostics, files⟩ := by
  unfold run
  exact if_pos h

/-- A run without errors of the document publishes the artifacts and says whether that went well. -/
theorem run_eq_concluded (h : ¬ (request.compilation here files).Fails) :
    request.run here files =
      request.concluded here (report (request.compilation here files).diagnostics)
        (publish files (request.primary here) (request.compilation here files).artifacts) := by
  unfold compilation Compilation.Fails at h
  unfold compilation
  simp only [run, if_neg h]
  obtain ⟨written, _ | e⟩ := publish files (request.primary here)
    (files.compile here request.entry request.options).artifacts <;> rfl

/-- A run ends with code 1 exactly if there are errors in the document. -/
theorem code_run_eq_one_iff :
    (request.run here files).code = 1 ↔ (request.compilation here files).Fails := by
  constructor
  · intro hcode
    by_contra h
    rw [run_eq_concluded h] at hcode
    exact code_concluded_ne_one _ _ hcode
  · intro h
    rw [run_of_fails h]

/-- A run without errors of the document stays within its frame. -/
theorem frame_of_not_fails (h : ¬ (request.compilation here files).Fails) :
    request.Frame here files (request.run here files) := by
  rw [run_eq_concluded h]
  refine ⟨?_, ?_, ?_, ?_, ?_⟩
  · intro path hchanged
    rw [files_concluded] at hchanged ⊢
    exact publish_changed hchanged
  · exact ⟨Path.base_append_extension _, fun _ _ => Path.toString_withExtension _ _⟩
  · obtain ⟨source, hsource, -⟩ := FileSystem.exists_source_of_not_fails h
    obtain ⟨hextension, bytes, hfile⟩ := FileSystem.entrySource_eq_ok hsource
    rw [files_concluded]
    by_contra hchanged
    rcases publish_changed hchanged with ⟨artifact, -, hpath, -⟩ | ⟨-, hmissing, -⟩
    · exact entry_ne_artifact artifact hextension hpath
    · rw [hfile] at hmissing
      cases hmissing
  · intro hcode artifact hmem
    rw [files_concluded]
    exact publish_written (concluded_of_code_zero hcode).1 (FileSystem.nodup_artifact_paths h _)
      hmem
  · intro hcode hlex
    rw [(concluded_of_code_zero hcode).2, success, hlex, Path.toString_withExtension]
    rfl

end Request

/-! ## Running the command line -/

/-- Arguments that ask for a compilation are carried out as a request. -/
theorem run_of_compile {arguments : List String}
    (h : Command.ofArguments arguments = .ok (.compile request)) :
    run here files arguments = request.run here files := by
  rw [run, h]

/-- A run that ends in the arguments does nothing to the files. -/
theorem run_of_not_compile {arguments : List String}
    (h : ¬ ∃ request, Command.ofArguments arguments = .ok (.compile request)) :
    (run here files arguments).files = files ∧ (run here files arguments).code ≠ 1 := by
  unfold run
  split
  · exact ⟨rfl, show (2 : Nat) ≠ 1 by decide⟩
  · exact ⟨rfl, Nat.zero_ne_one⟩
  · exact ⟨rfl, Nat.zero_ne_one⟩
  next request hrequest => exact absurd ⟨request, hrequest⟩ h

end CommandLine

end LolMarkup
