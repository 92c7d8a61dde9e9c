import LolMarkup.Proofs.CommandLine.Commutation

/-!
# Checks of the tokens

A run that stops after the tokens and is not asked to list them has nothing to write. It ends with
code 1 and changes nothing unless the entry can be cut into tokens
(`Request.run_of_not_tokenizes`). If it can, the run still makes the directory of its primary path
(`Request.run_of_tokenizes`). Without an output this is the directory of the entry, so that nothing
is left behind. With an output it may be missing, and then `lex_check_untraced_iff` says what
becomes of it.
-/

namespace LolMarkup

/-- The file at a path has the extension of entries, can be read and can be cut into tokens. -/
def FileSystem.Tokenizes (files : FileSystem) (path : Path) : Prop :=
  path.extension = EntryError.entryExtension ∧ ∃ bytes tokens, files.read path = .ok bytes ∧
    Source.tokenize ⟨path.toString, Text.Utf8.decode bytes⟩ = .ok tokens

namespace FileSystem

variable {here path : Path} {files : FileSystem} {entry : String} {options : Options}

/-- An entry tokenizes exactly if it gives a source that can be cut into tokens. -/
theorem tokenizes_iff : files.Tokenizes path ↔
    ∃ source tokens, files.entrySource path = .ok source ∧ source.tokenize = .ok tokens := by
  unfold Tokenizes entrySource
  by_cases hextension : path.extension = EntryError.entryExtension
  · cases hread : files.read path <;> simp [hextension]
  · simp [hextension]

/-- A compilation of the tokens alone fails exactly if there are none. -/
theorem compile_fails_iff (hlex : options.lexOnly = true) :
    (files.compile here entry options).Fails ↔ ¬ files.Tokenizes (here.resolve entry) := by
  rw [tokenizes_iff]
  unfold compile
  cases hsource : files.entrySource (here.resolve entry) with
  | error e =>
      have hfails := Source.fails_singleton (d := e.diagnostic (here.resolve entry)) [] rfl
      simp [hfails]
  | ok source => simp [(source.outcome here options).fails_lexOnly_iff hlex]

/-- A compilation of the tokens alone has no artifact unless a listing is asked for. -/
theorem artifacts_of_lexOnly (hlex : options.lexOnly = true) (htokens : options.emitTokens = false)
    (h : ¬ (files.compile here entry options).Fails) :
    (files.compile here entry options).artifacts = [] := by
  obtain ⟨source, -, hcompile⟩ := exists_source_of_not_fails h
  rw [hcompile] at h ⊢
  rcases (source.outcome here options).cases_of_not_fails h with
    ⟨tokens, -, -, hartifacts⟩ | ⟨-, -, hfull, -⟩
  · rw [hartifacts, Options.listed, htokens]
    rfl
  · rw [hlex] at hfull
    cases hfull

end FileSystem

namespace CommandLine

open FileSystem

variable {here : Path} {files made : FileSystem} {request : Request} {arguments : List String}

/-! ## How a check ends -/

namespace Request

/-- If only the tokens of an entry are checked and it has none, the run ends with code 1 and writes
nothing. -/
theorem run_of_not_tokenizes (hlex : request.lexOnly = true)
    (h : ¬ files.Tokenizes (here.resolve request.entry)) :
    (request.run here files).code = 1 ∧ (request.run here files).stdout = "" ∧
      (request.run here files).files = files := by
  have hfails : (request.compilation here files).Fails := (compile_fails_iff hlex).mpr h
  rw [run_of_fails hfails]
  exact ⟨rfl, rfl, rfl⟩

/-- If the entry can be cut into tokens, all that is left to do is to make the directory of the
primary path. -/
theorem run_of_tokenizes (hlex : request.lexOnly = true) (htokens : request.emitTokens = false)
    (h : files.Tokenizes (here.resolve request.entry)) :
    (∀ made, files.makeDirectories (request.primary here).parent = .ok made →
      (request.run here files).code = 0 ∧ (request.run here files).stdout = "valid\n" ∧
        (request.run here files).files = made) ∧
    ((¬ ∃ made, files.makeDirectories (request.primary here).parent = .ok made) →
      (request.run here files).code = 2 ∧ (request.run here files).stdout = "" ∧
        (request.run here files).files = files) := by
  have hfails : ¬ (request.compilation here files).Fails := fun hfails =>
    (compile_fails_iff hlex).mp hfails h
  have hartifacts : (request.compilation here files).artifacts = [] :=
    artifacts_of_lexOnly hlex htokens hfails
  rw [run_eq_concluded hfails, hartifacts]
  constructor
  · intro made hmade
    rw [publish_of_ok hmade]
    simp [outputs, writeAll, concluded, success, hlex]
  · intro hnone
    cases hmade : files.makeDirectories (request.primary here).parent with
    | error e =>
        rw [publish_of_error hmade]
        exact ⟨rfl, rfl, rfl⟩
    | ok made => exact absurd ⟨made, hmade⟩ hnone

end Request

/-! ## Traces -/

/-- What is expected of a check: it leaves the files as they are, ends well and says so if the entry
is valid, and ends with code 1 otherwise. -/
structure Outcome.ChecksOnly (outcome : Outcome) (files : FileSystem) (valid : Prop) : Prop where
  unchanged : outcome.files = files
  passed : valid → outcome.code = 0 ∧ outcome.stdout = "valid\n"
  failed : ¬ valid → outcome.code = 1 ∧ outcome.stdout = ""

namespace Request

/-- A check leaves no trace if the directory of its primary path exists. -/
theorem checksOnly_of_directory (hrooted : files.Rooted) (hlex : request.lexOnly = true)
    (htokens : request.emitTokens = false)
    (h : files.Tokenizes (here.resolve request.entry) →
      files.get? (request.primary here).parent = some .directory) :
    (request.run here files).ChecksOnly files (files.Tokenizes (here.resolve request.entry)) := by
  by_cases hvalid : files.Tokenizes (here.resolve request.entry)
  · have hdirectories : ∀ above ∈ (request.primary here).parent.ancestors ++
        [(request.primary here).parent], files.get? above = some .directory := by
      rw [List.forall_mem_append, List.forall_mem_singleton]
      exact ⟨fun _ habove => hrooted.directory (h hvalid) habove, h hvalid⟩
    obtain ⟨hcode, hstdout, hfiles⟩ := (run_of_tokenizes hlex htokens hvalid).1 files
      (makeDirectories_of_directories hdirectories)
    exact ⟨hfiles, fun _ => ⟨hcode, hstdout⟩, fun hnot => absurd hvalid hnot⟩
  · obtain ⟨hcode, hstdout, hfiles⟩ := run_of_not_tokenizes hlex hvalid
    exact ⟨hfiles, fun hnot => absurd hnot hvalid, fun _ => ⟨hcode, hstdout⟩⟩

/-- A check that leaves no trace of a valid entry has found the directory of its primary path. -/
theorem directory_of_checksOnly (hlex : request.lexOnly = true)
    (htokens : request.emitTokens = false)
    (hvalid : files.Tokenizes (here.resolve request.entry))
    (h : (request.run here files).ChecksOnly files
      (files.Tokenizes (here.resolve request.entry))) :
    files.get? (request.primary here).parent = some .directory := by
  obtain ⟨hok, herror⟩ := run_of_tokenizes hlex htokens hvalid
  by_cases hmade : ∃ made, files.makeDirectories (request.primary here).parent = .ok made
  · -- what is there after the directory is made was there before
    obtain ⟨made, hmade⟩ := hmade
    have hsame : made = files := (hok made hmade).2.2.symm.trans h.unchanged
    rw [← hsame] at hmade ⊢
    exact directories_of_makeDirectories hmade _ (by simp)
  · have hcode := (herror hmade).1
    rw [(h.passed hvalid).1] at hcode
    cases hcode

end Request

/-- A check leaves no trace exactly if the directory of its primary path exists, or the entry is not
valid. That is so without an output. Otherwise the missing directories are made, or, if a file is in
the way, the check ends with an error although the entry is valid. -/
theorem lex_check_untraced_iff (hrooted : files.Rooted)
    (hrequest : Command.ofArguments arguments = .ok (.compile request))
    (hlex : .lexOnly ∈ Argument.all arguments) (htokens : .tokens ∉ Argument.all arguments) :
    ((run here files arguments).ChecksOnly files (files.Tokenizes (here.resolve request.entry)) ↔
      (files.Tokenizes (here.resolve request.entry) →
        files.get? (request.primary here).parent = some .directory)) ∧
    (Argument.outputs arguments = [] →
      (run here files arguments).ChecksOnly files
        (files.Tokenizes (here.resolve request.entry))) ∧
    (files.Tokenizes (here.resolve request.entry) →
      files.get? (request.primary here).parent ≠ some .directory →
      (files.throughFile (request.primary here) = true →
        (run here files arguments).code = 2 ∧ (run here files arguments).stdout = "" ∧
          (run here files arguments).files = files) ∧
      (files.throughFile (request.primary here) = false →
        (run here files arguments).code = 0 ∧ (run here files arguments).stdout = "valid\n" ∧
          (run here files arguments).files.get? (request.primary here).parent = some .directory ∧
          ∀ path, (run here files arguments).files.get? path ≠ files.get? path →
            path ∈ (request.primary here).ancestors ∧ files.get? path = none ∧
              (run here files arguments).files.get? path = some .directory)) := by
  have hset : request.lexOnly = true := (Request.lexOnly_iff hrequest).mpr hlex
  have hunset : request.emitTokens = false :=
    Bool.eq_false_iff.mpr fun htrue => htokens ((Request.emitTokens_iff hrequest).mp htrue)
  rw [run_of_compile hrequest]
  refine ⟨⟨?_, ?_⟩, ?_, ?_⟩
  · intro hchecks hvalid
    exact Request.directory_of_checksOnly hset hunset hvalid hchecks
  · exact Request.checksOnly_of_directory hrooted hset hunset
  · intro hnone
    have houtput : request.output = none := by
      rw [Request.output_eq_getLast? hrequest, hnone]
      rfl
    refine Request.checksOnly_of_directory hrooted hset hunset fun hvalid => ?_
    have hfails : ¬ (request.compilation here files).Fails := fun hfails =>
      (compile_fails_iff hset).mp hfails hvalid
    exact Request.directories_of_not_fails hrooted houtput hfails _ (by simp)
  · intro hvalid hmissing
    obtain ⟨hok, herror⟩ := Request.run_of_tokenizes hset hunset hvalid
    have hmakes := exists_makeDirectories_parent_iff hmissing
    constructor
    · intro hthrough
      refine herror ?_
      rw [hmakes, hthrough]
      exact Bool.noConfusion
    · intro hfree
      obtain ⟨made, hmade⟩ := hmakes.mpr hfree
      obtain ⟨hcode, hstdout, hfiles⟩ := hok made hmade
      rw [hfiles]
      exact ⟨hcode, hstdout, directories_of_makeDirectories hmade _ (by simp),
        fun _ => makeDirectories_changed hmade⟩

/-- An output whose directory exists is not touched, though the way to it is written through one
that does not exist. The value of an output option is not an option. -/
theorem lex_check_untraced_iff_detour :
    neighbours.Rooted ∧ neighbours.get? ⟨["work", "new"]⟩ = none ∧
    neighbours.Tokenizes ⟨["work", "x.lol"]⟩ ∧
    (run ⟨["work"]⟩ neighbours
      ["-o", "--tokens", "--lex-only", "x.lol", "-o", "new/../y.html"]).ChecksOnly neighbours
        (neighbours.Tokenizes ⟨["work", "x.lol"]⟩) := by
  have hrooted : neighbours.Rooted := by decide
  have hrequest :
      Command.ofArguments ["-o", "--tokens", "--lex-only", "x.lol", "-o", "new/../y.html"] =
        .ok (.compile ⟨"x.lol", some "new/../y.html", true, false, false⟩) := by decide +kernel
  have hparent : neighbours.get?
      (Request.primary ⟨["work"]⟩ ⟨"x.lol", some "new/../y.html", true, false, false⟩).parent =
        some .directory := by decide
  have hchecks := (lex_check_untraced_iff hrooted hrequest (by decide) (by decide)).1.mpr
    fun _ => hparent
  have hcode : (run ⟨["work"]⟩ neighbours
      ["-o", "--tokens", "--lex-only", "x.lol", "-o", "new/../y.html"]).code = 0 := by
    decide +kernel
  have hvalid : neighbours.Tokenizes ⟨["work", "x.lol"]⟩ := by
    by_contra hinvalid
    rw [(hchecks.failed hinvalid).1] at hcode
    cases hcode
  exact ⟨hrooted, by decide, hvalid, hchecks⟩

/-- A check makes the missing directory of its output. If there is a file in the place of that
directory, the same entry does not pass. -/
theorem lex_check_makes_directory :
    neighbours.get? ⟨["work", "new"]⟩ = none ∧
    (run ⟨["work"]⟩ neighbours ["--lex-only", "-o", "new/y.html", "x.lol"]).code = 0 ∧
    (run ⟨["work"]⟩ neighbours ["--lex-only", "-o", "new/y.html", "x.lol"]).files.get?
      ⟨["work", "new"]⟩ = some .directory ∧
    (run ⟨["work"]⟩ neighbours ["--lex-only", "-o", "x.lol/y.html", "x.lol"]).code = 2 := by
  decide +kernel

end CommandLine

end LolMarkup
