import LolMarkup.Proofs.CommandLine.Arguments
import LolMarkup.Proofs.CommandLine.Repetition

/-!
# Runs in either order

Without an output option a run writes its artifacts beside its entry. Two such runs may have the
same entry, and then they write the same text wherever they write the same kind of artifact
(`Source.artifact?_of_mem`), or their artifacts have different paths (`artifact_path_inj`). A run
does nothing to other entries and makes no directory, so that another run finds what it would have
found before (`Request.run_beside`). `runs_commute` says that both orders leave the same files and
that each run ends with the same code and prints the same.
-/

namespace LolMarkup

/-! ## Paths of artifacts -/

/-- No extension of an artifact is the end of another one. -/
theorem Artifact.extension_eq_of_append {first second : Artifact} {front back : String}
    (h : front ++ first.extension = back ++ second.extension) :
    first.extension = second.extension := by
  have hnone : ∀ one ∈ [".html", ".tokens.txt", ".ast.json"],
      ∀ other ∈ [".html", ".tokens.txt", ".ast.json"],
        one.toList <:+ other.toList → one = other := by
    decide
  have hfirst : first.extension.toList <:+ (front ++ first.extension).toList := by
    rw [String.toList_append]
    exact List.suffix_append _ _
  have hsecond : second.extension.toList <:+ (front ++ first.extension).toList := by
    rw [h, String.toList_append]
    exact List.suffix_append _ _
  rcases List.suffix_or_suffix_of_suffix hfirst hsecond with hsuffix | hsuffix
  · exact hnone _ first.extension_mem _ second.extension_mem hsuffix
  · exact (hnone _ second.extension_mem _ first.extension_mem hsuffix).symm

/-- A path is told by its directory, its stem and its extension. -/
theorem Path.eq_of_stem {first second : Path} (hparent : first.parent = second.parent)
    (hstem : first.stem = second.stem) (hextension : first.extension = second.extension)
    (hnames : first.extension ≠ "") : first = second := by
  have hne {path : Path} (h : path.extension ≠ "") : path.names ≠ [] := by
    intro hroot
    exact h (by rw [extension, name, hroot]; rfl)
  have hname : first.name = second.name := by
    rw [← stem_append_extension, ← stem_append_extension, hstem, hextension]
  have hall : first.names = second.names := by
    calc first.names = first.parent.names ++ [first.name] := names_eq (hne hnames)
      _ = second.parent.names ++ [second.name] := by rw [hparent, hname]
      _ = second.names := (names_eq (hne (hextension ▸ hnames))).symm
  cases first
  cases second
  exact congrArg Path.mk hall

/-- Artifacts of entries have the same path only if the entries are the same and the artifacts are
of the same kind. -/
theorem artifact_path_inj {entry other : Path} {first second : Artifact}
    (hentry : entry.extension = EntryError.entryExtension)
    (hother : other.extension = EntryError.entryExtension)
    (h : entry.withExtension first.extension = other.withExtension second.extension) :
    entry = other ∧ first.kind = second.kind := by
  have hname := congrArg Path.name h
  have hparent := congrArg Path.parent h
  rw [Path.name_withExtension, Path.name_withExtension] at hname
  rw [Path.parent_withExtension, Path.parent_withExtension] at hparent
  have hextension := Artifact.extension_eq_of_append hname
  rw [hextension] at hname
  refine ⟨Path.eq_of_stem hparent (String.append_left_inj _ |>.mp hname) (hentry.trans hother.symm)
    ?_, Artifact.kind_of_extension hextension⟩
  rw [hentry]
  decide

/-! ## The artifacts of a source -/

namespace Source

/-- The artifact of each kind that a source has, if the stages before it are passed. -/
def artifact? (here : Path) (source : Source) (ending : Text.LineEnding) :
    Artifact.Kind → Option Artifact
  | .html => source.document.toOption.map fun document =>
      Draft.write here (.html document.render.html ending)
  | .tokens => source.tokenize.toOption.map fun tokens => Draft.write here (.tokens tokens ending)
  | .outline => source.document.toOption.map fun document =>
      Draft.write here (.outline document (some (source.directory here).toString))

/-- Whatever is asked for, an artifact is the one of its kind. -/
theorem artifact?_of_mem {here : Path} {source : Source} {options : Options} {artifact : Artifact}
    (h : artifact ∈ (source.compile here options).artifacts) :
    source.artifact? here options.lineEnding artifact.kind = some artifact := by
  have o := source.outcome here options
  have hlisted {tokens : List Token} (htokens : source.tokenize = .ok tokens)
      (hmem : artifact ∈ (options.listed tokens).map (Draft.write here)) :
      source.artifact? here options.lineEnding artifact.kind = some artifact := by
    unfold Options.listed at hmem
    split at hmem
    · rw [List.map_singleton, List.mem_singleton] at hmem
      rw [hmem]
      simp only [Draft.write, Artifact.kind, artifact?, htokens]
      rfl
    · cases hmem
  have hfails : ¬ (source.compile here options).Fails := by
    intro hfails
    rw [o.artifacts_of_fails hfails] at h
    cases h
  rcases o.cases_of_not_fails hfails with
    ⟨tokens, -, htokens, hartifacts⟩ | ⟨tokens, document, -, htokens, hdocument, hartifacts⟩
  · rw [hartifacts] at h
    exact hlisted htokens h
  · rw [hartifacts, List.cons_append, List.map_cons, List.map_append, List.mem_cons,
      List.mem_append] at h
    rcases h with rfl | h | h
    · simp only [Draft.write, Artifact.kind, artifact?, hdocument]
      rfl
    · exact hlisted htokens h
    · unfold outline at h
      split at h
      · rw [List.map_singleton, List.mem_singleton] at h
        rw [h]
        simp only [Draft.write, Artifact.kind, artifact?, hdocument]
        rfl
      · cases h

end Source

namespace CommandLine

open FileSystem

variable {here : Path} {files later : FileSystem} {request : Request} {arguments : List String}

/-! ## Arguments without an output -/

/-- The argument sets the output. -/
def Argument.IsOutput (argument : String) : Prop :=
  argument = "-o" ∨ argument = "--output" ∨ "--output=".toList <+: argument.toList

/-- An argument that does not set the output is not read as one that does. -/
theorem Argument.ofString_ne_output {argument : String} (h : ¬ IsOutput argument)
    (value : String) :
    ofString argument ≠ .output value ∧ ofString argument ≠ .outputNext value := by
  have hnext : ¬ (argument = "-o" ∨ argument = "--output") := by
    rintro (hoption | hoption)
    · exact h (.inl hoption)
    · exact h (.inr (.inl hoption))
  have hequals : ¬ outputEquals.isPrefixOf argument.toList = true := by
    intro hbegins
    exact h (.inr (.inr (List.isPrefixOf_iff_prefix.mp hbegins)))
  unfold ofString
  rw [if_neg hnext, if_neg hequals]
  constructor
  · split_ifs <;> exact Argument.noConfusion
  · split_ifs <;> exact Argument.noConfusion

/-- Arguments of which none sets the output give no outputs. -/
theorem Argument.outputs_eq_nil (h : ∀ argument ∈ arguments, ¬ IsOutput argument) :
    outputs arguments = [] := by
  unfold outputs
  fun_induction all arguments with
  | case1 => rfl
  | case2 argument option hmeaning =>
      exact absurd hmeaning (ofString_ne_output (h argument List.mem_cons_self) option).2
  | case3 argument option hmeaning =>
      exact absurd hmeaning (ofString_ne_output (h argument List.mem_cons_self) option).2
  | case4 argument rest _ ih =>
      rw [List.forall_mem_cons] at h
      rw [List.filterMap_cons_none, ih h.2]
      have hargument := ofString_ne_output h.1
      cases hmeaning : ofString argument with
      | output value => exact absurd hmeaning (hargument value).1
      | _ => rfl

/-! ## One run beside another -/

/-- The later file system differs by artifacts that were written into existing directories. -/
structure Beside (files later : FileSystem) : Prop where
  grows : files.Grows later
  directory_iff : ∀ path, later.get? path = some .directory ↔ files.get? path = some .directory
  entry : ∀ path : Path, path.extension = EntryError.entryExtension →
    later.get? path = files.get? path

/-- Writing artifacts changes neither directories nor entries. -/
theorem beside_writeAll (files : FileSystem) {primary : Path} {artifacts : List Artifact}
    (h : Separate primary artifacts) :
    Beside files (files.writeAll (outputs primary artifacts)).1 where
  grows := grows_writeAll files h.nodup_outputs
  directory_iff := directory_writeAll_iff files h.nodup_outputs
  entry := by
    intro path hextension
    by_contra hchanged
    obtain ⟨bytes, hmem, -⟩ := writeAll_changed hchanged
    obtain ⟨artifact, -, heq⟩ := List.mem_map.mp hmem
    cases heq
    exact entry_ne_artifact artifact hextension rfl

namespace Request

/-- Without an output the artifacts are named after the entry. -/
theorem primary_of_no_output (h : request.output = none) :
    request.primary here = here.resolve request.entry := by
  rw [primary, h]
  rfl

/-- A request that can be carried out finds the directories above its entry. -/
theorem directories_of_not_fails (hrooted : files.Rooted) (houtput : request.output = none)
    (h : ¬ (request.compilation here files).Fails) :
    ∀ above ∈ (request.primary here).parent.ancestors ++ [(request.primary here).parent],
      files.get? above = some .directory := by
  obtain ⟨source, hsource, -⟩ := exists_source_of_not_fails h
  obtain ⟨-, bytes, hget⟩ := entrySource_eq_ok hsource
  have hnames : (here.resolve request.entry).names ≠ [] := by
    intro hroot
    rw [get?_of_root files hroot] at hget
    cases hget
  intro above habove
  rw [primary_of_no_output houtput, ← Path.ancestors_eq hnames] at habove
  exact hrooted.directory hget habove

/-- A run that finds another run's artifacts ends with the same code, prints the same and has the
same artifacts as before. -/
theorem run_beside (here : Path) (hrooted : files.Rooted) (hbeside : Beside files later)
    (houtput : request.output = none) :
    (request.compilation here later).artifacts = (request.compilation here files).artifacts ∧
    (request.run here later).code = (request.run here files).code ∧
    (request.run here later).stdout = (request.run here files).stdout := by
  have hsource := hrooted.toOption_entrySource hbeside.grows
    (hbeside.entry (here.resolve request.entry))
  rcases compile_of_toOption request.options hsource with
    ⟨hlater, hfails⟩ | ⟨hfails, hsame⟩
  · rw [run_of_fails hlater, run_of_fails hfails]
    exact ⟨(artifacts_of_fails hlater).trans (artifacts_of_fails hfails).symm, rfl, rfl⟩
  · have hcompilation : request.compilation here later = request.compilation here files := hsame
    have hlater : ¬ (request.compilation here later).Fails := by
      rw [hcompilation]
      exact hfails
    have hdirectories := directories_of_not_fails hrooted houtput hfails
    have herror (written : List (Path × List UInt8)) :
        (later.writeAll written).2 = (files.writeAll written).2 := by
      rw [error_writeAll, error_writeAll]
      simp only [obstacle?, hbeside.directory_iff]
    rw [run_eq_concluded hlater, run_eq_concluded hfails, hcompilation,
      publish_of_directories hdirectories, publish_of_directories fun above habove =>
        hbeside.grows.directory above (hdirectories above habove)]
    obtain ⟨hcode, hstdout, -⟩ := concluded_congr here request
      (report (request.compilation here files).diagnostics) (herror _)
    exact ⟨rfl, hcode, hstdout⟩

end Request

/-! ## Runs without an output -/

/-- No argument sets the output. -/
def WithoutOutput (arguments : List String) : Prop :=
  ∀ argument ∈ arguments, ¬ Argument.IsOutput argument

/-- Whether no argument sets the output is decided argument by argument. -/
instance (arguments : List String) : Decidable (WithoutOutput arguments) :=
  inferInstanceAs (Decidable (∀ argument ∈ arguments, ¬ (_ ∨ _ ∨ _)))

/-- If no argument sets the output, the request has none. -/
theorem WithoutOutput.output (h : WithoutOutput arguments)
    (hrequest : Command.ofArguments arguments = .ok (.compile request)) :
    request.output = none := by
  rw [Request.output_eq_getLast? hrequest, Argument.outputs_eq_nil h]
  rfl

/-- The files that a run is to write. -/
def written (here : Path) (files : FileSystem) (arguments : List String) :
    List (Path × List UInt8) :=
  match Command.ofArguments arguments with
  | .ok (.compile request) =>
      outputs (request.primary here) (request.compilation here files).artifacts
  | _ => []

/-- A run that compiles is to write the artifacts of its request. -/
theorem written_of_compile (h : Command.ofArguments arguments = .ok (.compile request)) :
    written here files arguments =
      outputs (request.primary here) (request.compilation here files).artifacts := by
  rw [written, h]

/-- A run that compiles nothing is to write nothing. -/
theorem written_of_not_compile
    (h : ¬ ∃ request, Command.ofArguments arguments = .ok (.compile request)) :
    written here files arguments = [] := by
  unfold written
  split
  next request hrequest => exact absurd ⟨request, hrequest⟩ h
  · rfl

/-- A run without an output writes its files and does nothing else. -/
theorem files_run_eq (hrooted : files.Rooted) (h : WithoutOutput arguments) :
    (run here files arguments).files = (files.writeAll (written here files arguments)).1 := by
  by_cases hrequest : ∃ request, Command.ofArguments arguments = .ok (.compile request)
  · obtain ⟨request, hrequest⟩ := hrequest
    rw [run_of_compile hrequest, written_of_compile hrequest]
    by_cases hfails : (request.compilation here files).Fails
    · rw [Request.run_of_fails hfails, Request.no_artifacts_of_fails hfails]
      rfl
    · rw [Request.run_eq_concluded hfails, Request.files_concluded, publish_of_directories
        (Request.directories_of_not_fails hrooted (h.output hrequest) hfails)]
  · rw [(run_of_not_compile hrequest).1, written_of_not_compile hrequest]
    rfl

/-- No run is to write two files to the same path. -/
theorem nodup_written (here : Path) (files : FileSystem) (arguments : List String) :
    ((written here files arguments).map Prod.fst).Nodup := by
  unfold written
  split
  next request _ => exact (request.separate_artifacts here files).nodup_outputs
  · exact List.nodup_nil

/-- A run without an output changes neither directories nor entries. -/
theorem beside_run (here : Path) (hrooted : files.Rooted) (h : WithoutOutput arguments) :
    Beside files (run here files arguments).files := by
  rw [files_run_eq hrooted h]
  unfold written
  split
  next request _ => exact beside_writeAll files (request.separate_artifacts here files)
  · show Beside files (files.writeAll (outputs here [])).1
    exact beside_writeAll files List.nodup_nil

/-- A run without an output is the same after another one, but for what it prints as errors. -/
theorem run_beside (here : Path) (hrooted : files.Rooted) (hbeside : Beside files later)
    (h : WithoutOutput arguments) :
    written here later arguments = written here files arguments ∧
    (run here later arguments).code = (run here files arguments).code ∧
    (run here later arguments).stdout = (run here files arguments).stdout := by
  cases hcommand : Command.ofArguments arguments with
  | error misuse => simp [written, run, hcommand]
  | ok command =>
      cases command with
      | help | version => simp [written, run, hcommand]
      | compile request =>
          obtain ⟨hartifacts, hcode, hstdout⟩ :=
            Request.run_beside here hrooted hbeside (h.output hcommand)
          rw [written_of_compile hcommand, written_of_compile hcommand, hartifacts,
            run_of_compile hcommand, run_of_compile hcommand]
          exact ⟨rfl, hcode, hstdout⟩

/-- A file that a run is to write holds the artifact of its kind that the source of an entry
has. -/
theorem exists_artifact_of_written {path : Path} {content : List UInt8}
    (h : WithoutOutput arguments) (hmem : (path, content) ∈ written here files arguments) :
    ∃ entry source artifact, entry.extension = EntryError.entryExtension ∧
      files.entrySource entry = .ok source ∧
      source.artifact? here .lf artifact.kind = some artifact ∧
      path = entry.withExtension artifact.extension ∧
      content = Text.Utf8.encode artifact.fileText := by
  by_cases hrequest : ∃ request, Command.ofArguments arguments = .ok (.compile request)
  · obtain ⟨request, hrequest⟩ := hrequest
    rw [written_of_compile hrequest,
      Request.primary_of_no_output (h.output hrequest)] at hmem
    obtain ⟨artifact, hartifact, heq⟩ := List.mem_map.mp hmem
    cases heq
    have hfails : ¬ (request.compilation here files).Fails := by
      intro hfails
      rw [Request.no_artifacts_of_fails hfails] at hartifact
      cases hartifact
    obtain ⟨source, hsource, hcompile⟩ := exists_source_of_not_fails hfails
    have hmade : artifact ∈ (source.compile here request.options).artifacts := by
      rw [← hcompile]
      exact hartifact
    exact ⟨_, source, artifact, (entrySource_eq_ok hsource).1, hsource,
      Source.artifact?_of_mem hmade, rfl, rfl⟩
  · rw [written_of_not_compile hrequest] at hmem
    cases hmem

/-- Where two runs are to write the same file, they are to write the same. -/
theorem written_agree {first second : List String} (hfirst : WithoutOutput first)
    (hsecond : WithoutOutput second) {path : Path} {content other : List UInt8}
    (hcontent : (path, content) ∈ written here files first)
    (hother : (path, other) ∈ written here files second) : content = other := by
  obtain ⟨entry, source, artifact, hentry, hsource, hkind, rfl, rfl⟩ :=
    exists_artifact_of_written hfirst hcontent
  obtain ⟨entry', source', artifact', hentry', hsource', hkind', hpath, rfl⟩ :=
    exists_artifact_of_written hsecond hother
  obtain ⟨rfl, hsame⟩ := artifact_path_inj hentry hentry' hpath
  rw [hsource] at hsource'
  cases hsource'
  rw [hsame, hkind'] at hkind
  cases hkind
  rfl

/-- Runs without an output commute: the files are the same after both in either order, and each run
ends with the same code and prints the same whether it is the first or the second. -/
theorem runs_commute (here : Path) {files : FileSystem} (hfiles : files.Rooted)
    {first second : List String} (hfirst : WithoutOutput first) (hsecond : WithoutOutput second) :
    (run here (run here files first).files second).files.Same
      (run here (run here files second).files first).files ∧
    (run here (run here files second).files first).code = (run here files first).code ∧
    (run here (run here files second).files first).stdout = (run here files first).stdout ∧
    (run here (run here files first).files second).code = (run here files second).code ∧
    (run here (run here files first).files second).stdout = (run here files second).stdout := by
  obtain ⟨hwritten, hcode, hstdout⟩ :=
    run_beside here hfiles (beside_run here hfiles hsecond) hfirst
  obtain ⟨hwritten', hcode', hstdout'⟩ :=
    run_beside here hfiles (beside_run here hfiles hfirst) hsecond
  refine ⟨?_, hcode, hstdout, hcode', hstdout'⟩
  rw [files_run_eq (rooted_run here hfiles first) hsecond, hwritten',
    files_run_eq (rooted_run here hfiles second) hfirst, hwritten, files_run_eq hfiles hfirst,
    files_run_eq hfiles hsecond]
  exact same_writeAll_swap files (nodup_written here files first) (nodup_written here files second)
    fun path content other => written_agree hfirst hsecond

/-- Two documents, one of which is named like the outline of the other. -/
def neighbours : FileSystem :=
  ⟨[(⟨["work"]⟩, .directory),
    (⟨["work", "x.lol"]⟩, .file (Text.Utf8.encode "#HAI\n#KTHXBYE")),
    (⟨["work", "x.ast.lol"]⟩, .file (Text.Utf8.encode "#HAI y #KTHXBYE"))]⟩

/-- Both documents are compiled in either order, with the outline of the one and the tokens of the
other. -/
theorem runs_commute_neighbours :
    neighbours.Rooted ∧ WithoutOutput ["--ast", "x.lol"] ∧ WithoutOutput ["x.ast.lol", "--tokens"] ∧
    (run ⟨["work"]⟩ (run ⟨["work"]⟩ neighbours ["--ast", "x.lol"]).files
      ["x.ast.lol", "--tokens"]).files.Same
        (run ⟨["work"]⟩ (run ⟨["work"]⟩ neighbours ["x.ast.lol", "--tokens"]).files
          ["--ast", "x.lol"]).files ∧
    (run ⟨["work"]⟩ (run ⟨["work"]⟩ neighbours ["x.ast.lol", "--tokens"]).files
      ["--ast", "x.lol"]).code = 0 ∧
    (run ⟨["work"]⟩ (run ⟨["work"]⟩ neighbours ["--ast", "x.lol"]).files
      ["x.ast.lol", "--tokens"]).code = 0 := by
  have hrooted : neighbours.Rooted := by decide
  have hfirst : WithoutOutput ["--ast", "x.lol"] := by decide
  have hsecond : WithoutOutput ["x.ast.lol", "--tokens"] := by decide
  have hcode : (run ⟨["work"]⟩ neighbours ["--ast", "x.lol"]).code = 0 := by decide +kernel
  have hcode' : (run ⟨["work"]⟩ neighbours ["x.ast.lol", "--tokens"]).code = 0 := by
    decide +kernel
  obtain ⟨hfiles, hsame, -, hsame', -⟩ := runs_commute ⟨["work"]⟩ hrooted hfirst hsecond
  exact ⟨hrooted, hfirst, hsecond, hfiles, hsame.trans hcode, hsame'.trans hcode'⟩

end CommandLine

end LolMarkup
