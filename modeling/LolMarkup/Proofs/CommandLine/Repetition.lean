import LolMarkup.Proofs.CommandLine.Frame
import LolMarkup.Proofs.Files.Rooted

/-!
# Running the command line again

A run lets a rooted file system grow and keeps it rooted (`grows_run`, `rooted_run`). The entry is
left alone and stays where it can be read, so a second run compiles the same source, finds the
directories it needs and meets the same obstacles when it writes. `run_again` puts this together: it
ends as the first run did and changes nothing, also where that one could write only some of its
artifacts.
-/

namespace LolMarkup

namespace FileSystem

variable {files later : FileSystem} {here path : Path} {entry : String} {options : Options}

/-- An entry that stays as it is has the same source after the file system has grown, if it has
one. -/
theorem Rooted.toOption_entrySource (hrooted : files.Rooted) (hgrows : files.Grows later)
    (hsame : path.extension = EntryError.entryExtension → later.get? path = files.get? path) :
    (later.entrySource path).toOption = (files.entrySource path).toOption := by
  unfold entrySource
  by_cases hextension : path.extension = EntryError.entryExtension
  · have hread := hrooted.toOption_read hgrows (hsame hextension)
    rw [if_neg (not_not.mpr hextension), if_neg (not_not.mpr hextension)]
    cases hlater : later.read path <;> cases hfiles : files.read path <;>
      simp_all [Except.toOption]
  · rw [if_pos hextension, if_pos hextension]

/-- Where the same source is found, compilations both fail or are the same. -/
theorem compile_of_toOption (options : Options)
    (h : (later.entrySource (here.resolve entry)).toOption =
      (files.entrySource (here.resolve entry)).toOption) :
    ((later.compile here entry options).Fails ∧ (files.compile here entry options).Fails) ∨
      ¬ (files.compile here entry options).Fails ∧
        later.compile here entry options = files.compile here entry options := by
  unfold compile
  cases hlater : later.entrySource (here.resolve entry) with
  | error e =>
      cases hfiles : files.entrySource (here.resolve entry) with
      | error e => exact .inl ⟨Source.fails_singleton [] rfl, Source.fails_singleton [] rfl⟩
      | ok source => simp [hlater, hfiles, Except.toOption] at h
  | ok source =>
      cases hfiles : files.entrySource (here.resolve entry) with
      | error e => simp [hlater, hfiles, Except.toOption] at h
      | ok other =>
          rw [hlater, hfiles] at h
          cases h
          by_cases hfails : (source.compile here options).Fails
          · exact .inl ⟨hfails, hfails⟩
          · exact .inr ⟨hfails, rfl⟩

/-- A compilation with errors has no artifacts. -/
theorem artifacts_of_fails (h : (files.compile here entry options).Fails) :
    (files.compile here entry options).artifacts = [] := by
  unfold compile at h ⊢
  cases hsource : files.entrySource (here.resolve entry) with
  | error e => rfl
  | ok source =>
      rw [hsource] at h
      exact (source.outcome here options).artifacts_of_fails h

end FileSystem

namespace CommandLine

open FileSystem

variable {here primary : Path} {files later made : FileSystem} {artifacts : List Artifact}
  {request : Request} {arguments : List String}

/-! ## Publishing again -/

/-- Where all directories exist, publishing only writes the artifacts. -/
theorem publish_of_directories
    (h : ∀ above ∈ primary.parent.ancestors ++ [primary.parent],
      files.get? above = some .directory) :
    publish files primary artifacts = files.writeAll (outputs primary artifacts) :=
  publish_of_ok (makeDirectories_of_directories h)

/-- Publishing lets the file system grow. -/
theorem grows_publish (files : FileSystem) (h : Separate primary artifacts) :
    files.Grows (publish files primary artifacts).1 := by
  cases hmade : files.makeDirectories primary.parent with
  | error e =>
      rw [publish_of_error hmade]
      exact .refl files
  | ok made =>
      rw [publish_of_ok hmade]
      exact (grows_makeDirectories hmade).trans (grows_writeAll made h.nodup_outputs)

/-- Publishing keeps a file system rooted. -/
theorem rooted_publish (hrooted : files.Rooted) (h : Separate primary artifacts) :
    (publish files primary artifacts).1.Rooted := by
  cases hmade : files.makeDirectories primary.parent with
  | error e =>
      rw [publish_of_error hmade]
      exact hrooted
  | ok made =>
      rw [publish_of_ok hmade]
      refine (hrooted.makeDirectories hmade).writeAll h.nodup_outputs ?_
      intro output houtput above habove
      obtain ⟨artifact, -, rfl⟩ := List.mem_map.mp houtput
      rw [Path.ancestors_withExtension] at habove
      exact directories_of_makeDirectories hmade above habove

/-- Publishing the same artifacts again meets the same error and changes nothing. -/
theorem publish_again (files : FileSystem) (h : Separate primary artifacts) :
    (publish (publish files primary artifacts).1 primary artifacts).2 =
        (publish files primary artifacts).2 ∧
      (publish (publish files primary artifacts).1 primary artifacts).1.Same
        (publish files primary artifacts).1 := by
  cases hmade : files.makeDirectories primary.parent with
  | error e =>
      rw [publish_of_error hmade]
      show (publish files primary artifacts).2 = _ ∧ (publish files primary artifacts).1.Same files
      rw [publish_of_error hmade]
      exact ⟨rfl, fun _ => rfl⟩
  | ok made =>
      rw [publish_of_ok hmade, publish_of_directories]
      · exact same_writeAll_again made h.nodup_outputs
      · intro above habove
        exact (grows_writeAll made h.nodup_outputs).directory above
          (directories_of_makeDirectories hmade above habove)

/-! ## Carrying out a request again -/

namespace Request

/-- The files do not matter to what the user is told in the end. -/
theorem concluded_congr (here : Path) (request : Request) (told : String)
    {first second : FileSystem × Option SystemError} (h : first.2 = second.2) :
    (request.concluded here told first).code = (request.concluded here told second).code ∧
    (request.concluded here told first).stdout = (request.concluded here told second).stdout ∧
    (request.concluded here told first).stderr = (request.concluded here told second).stderr := by
  obtain ⟨written, error⟩ := first
  obtain ⟨written', error'⟩ := second
  cases h
  cases error <;> exact ⟨rfl, rfl, rfl⟩

/-- A request whose compilation has errors has no artifacts. -/
theorem no_artifacts_of_fails (h : (request.compilation here files).Fails) :
    (request.compilation here files).artifacts = [] :=
  artifacts_of_fails h

/-- The artifacts of a request are written to different paths, also if there are none. -/
theorem separate_artifacts (request : Request) (here : Path) (files : FileSystem) :
    Separate (request.primary here) (request.compilation here files).artifacts := by
  by_cases h : (request.compilation here files).Fails
  · rw [no_artifacts_of_fails h]
    exact List.nodup_nil
  · exact nodup_artifact_paths h _

/-- The files after a run are those it found, or those it has published. -/
theorem files_run (request : Request) (here : Path) (files : FileSystem) :
    (request.run here files).files = files ∨
      (request.run here files).files = (publish files (request.primary here)
        (request.compilation here files).artifacts).1 := by
  by_cases h : (request.compilation here files).Fails
  · exact .inl (by rw [run_of_fails h])
  · exact .inr (by rw [run_eq_concluded h, files_concluded])

/-- Carrying out a request lets the file system grow. -/
theorem grows_run (request : Request) (here : Path) (files : FileSystem) :
    files.Grows (request.run here files).files := by
  rcases request.files_run here files with hfiles | hfiles
  · rw [hfiles]
    exact .refl files
  · rw [hfiles]
    exact grows_publish files (request.separate_artifacts here files)

/-- Carrying out a request keeps a file system rooted. -/
theorem rooted_run (request : Request) (here : Path) (h : files.Rooted) :
    (request.run here files).files.Rooted := by
  rcases request.files_run here files with hfiles | hfiles
  · rw [hfiles]
    exact h
  · rw [hfiles]
    exact rooted_publish h (request.separate_artifacts here files)

/-- The compilation of a request that was carried out is the same the next time. -/
theorem compilation_again (hrooted : files.Rooted) (h : ¬ (request.compilation here files).Fails) :
    request.compilation here (request.run here files).files = request.compilation here files := by
  have hentry := (frame_of_not_fails h).entry
  have hsource := hrooted.toOption_entrySource (request.grows_run here files) fun _ => hentry
  rcases compile_of_toOption request.options hsource with ⟨-, hfails⟩ | ⟨-, hsame⟩
  · exact absurd hfails h
  · exact hsame

/-- Carrying out a request again ends in the same way and changes nothing. -/
theorem run_again (hrooted : files.Rooted) (request : Request) :
    (request.run here (request.run here files).files).code = (request.run here files).code ∧
    (request.run here (request.run here files).files).stdout = (request.run here files).stdout ∧
    (request.run here (request.run here files).files).stderr = (request.run here files).stderr ∧
    (request.run here (request.run here files).files).files.Same
      (request.run here files).files := by
  by_cases h : (request.compilation here files).Fails
  · have hfiles : (request.run here files).files = files := by rw [run_of_fails h]
    rw [hfiles]
    exact ⟨rfl, rfl, rfl, fun _ => by rw [hfiles]⟩
  · have hcompilation := compilation_again hrooted h
    have hlater : ¬ (request.compilation here (request.run here files).files).Fails := by
      rwa [hcompilation]
    obtain ⟨herror, hsame⟩ := publish_again files (request.separate_artifacts here files)
    rw [run_eq_concluded hlater, hcompilation, run_eq_concluded h, files_concluded,
      files_concluded]
    obtain ⟨hcode, hstdout, hstderr⟩ := concluded_congr here request
      (report (request.compilation here files).diagnostics) herror
    exact ⟨hcode, hstdout, hstderr, hsame⟩

end Request

/-! ## Running the command line again -/

/-- A run keeps a file system rooted. -/
theorem rooted_run (here : Path) (h : files.Rooted) (arguments : List String) :
    (run here files arguments).files.Rooted := by
  by_cases hrequest : ∃ request, Command.ofArguments arguments = .ok (.compile request)
  · obtain ⟨request, hrequest⟩ := hrequest
    rw [run_of_compile hrequest]
    exact request.rooted_run here h
  · rw [(run_of_not_compile hrequest).1]
    exact h

/-- A second run ends as the first one did and changes nothing. -/
theorem run_repeated (here : Path) {files : FileSystem} (h : files.Rooted)
    (arguments : List String) :
    (run here (run here files arguments).files arguments).code = (run here files arguments).code ∧
    (run here (run here files arguments).files arguments).stdout =
      (run here files arguments).stdout ∧
    (run here (run here files arguments).files arguments).stderr =
      (run here files arguments).stderr ∧
    (run here (run here files arguments).files arguments).files.Same
      (run here files arguments).files := by
  by_cases hrequest : ∃ request, Command.ofArguments arguments = .ok (.compile request)
  · obtain ⟨request, hrequest⟩ := hrequest
    simp only [run_of_compile hrequest]
    exact request.run_again h
  · have hfiles : (run here files arguments).files = files := (run_of_not_compile hrequest).1
    rw [hfiles]
    exact ⟨rfl, rfl, rfl, fun _ => by rw [hfiles]⟩

/-- A document beside a directory that has the name of its token listing. -/
def obstructed : FileSystem :=
  ⟨[(⟨["work"]⟩, .directory), (⟨["work", "x.tokens.txt"]⟩, .directory),
    (⟨["work", "x.lol"]⟩, .file (Text.Utf8.encode "#HAI\n#KTHXBYE"))]⟩

/-- The page is written and the listing is not, in the first run and in the second. -/
theorem run_repeated_obstructed :
    obstructed.Rooted ∧ (run ⟨["work"]⟩ obstructed ["--tokens", "x.lol"]).code = 2 ∧
    (run ⟨["work"]⟩ obstructed ["--tokens", "x.lol"]).files.isFile ⟨["work", "x.html"]⟩ = true ∧
    (run ⟨["work"]⟩ (run ⟨["work"]⟩ obstructed ["--tokens", "x.lol"]).files
      ["--tokens", "x.lol"]).code = 2 ∧
    (run ⟨["work"]⟩ (run ⟨["work"]⟩ obstructed ["--tokens", "x.lol"]).files
      ["--tokens", "x.lol"]).stderr =
        (run ⟨["work"]⟩ obstructed ["--tokens", "x.lol"]).stderr ∧
    (run ⟨["work"]⟩ (run ⟨["work"]⟩ obstructed ["--tokens", "x.lol"]).files
      ["--tokens", "x.lol"]).files.Same
        (run ⟨["work"]⟩ obstructed ["--tokens", "x.lol"]).files := by
  have hrooted : obstructed.Rooted := by decide
  have hcode : (run ⟨["work"]⟩ obstructed ["--tokens", "x.lol"]).code = 2 := by rfl
  obtain ⟨hagain, -, hstderr, hfiles⟩ := run_repeated ⟨["work"]⟩ hrooted ["--tokens", "x.lol"]
  exact ⟨hrooted, hcode, by rfl, hagain.trans hcode, hstderr, hfiles⟩

end CommandLine

end LolMarkup
