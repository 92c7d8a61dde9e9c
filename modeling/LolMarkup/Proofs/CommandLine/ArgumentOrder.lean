import LolMarkup.Proofs.CommandLine.Arguments
import LolMarkup.Proofs.CommandLine.Commutation

/-!
# The order of the arguments

Arguments come in groups: a flag, an output option with its value, or an entry. Reading a group adds
what it means to what was asked for before, whatever its value looks like (`Gathered.read_group`),
and what is checked in the end is what all groups add up to (`Gathered.read_groups`). Meanings can
be added in any order unless they give two outputs or two entries (`Gathered.add_right_comm`), so
that a run does not depend on the order of the groups, nor on how an output option is written
(`run_regrouped`).
-/

namespace LolMarkup

namespace CommandLine

/-- The ways of writing an output option: with the value in an argument of its own, after the short
or the long name, or in the same argument. -/
inductive OutputForm where
  | short
  | long
  | joined
deriving DecidableEq, Repr

/-- Arguments that belong together. -/
inductive Group where
  | lexOnly
  | tokens
  | outline
  | output (form : OutputForm) (value : String)
  | entry (written : String)
deriving DecidableEq, Repr

/-- The entry that an argument gives. -/
def Argument.entryPath? : Argument → Option String
  | entry written => some written
  | _ => none

namespace Group

/-- The arguments of a group. -/
def arguments : Group → List String
  | lexOnly => ["--lex-only"]
  | tokens => ["--tokens"]
  | outline => ["--ast"]
  | output .short value => ["-o", value]
  | output .long value => ["--output", value]
  | output .joined value => ["--output=" ++ value]
  | entry written => [written]

/-- What a group asks for. The form of an output option does not matter. -/
def meaning : Group → Argument
  | lexOnly => .lexOnly
  | tokens => .tokens
  | outline => .outline
  | output _ value => .output value
  | entry written => .entry written

/-- The outputs that groups give, in order. -/
def outputs (groups : List Group) : List String :=
  (groups.map meaning).filterMap Argument.output?

/-- The entries that groups give, in order. -/
def entries (groups : List Group) : List String :=
  (groups.map meaning).filterMap Argument.entryPath?

/-- The groups of a command line: any flags, at most one output, which is not empty, and exactly one
entry, which is not empty and does not look like an option. -/
structure WellFormed (groups : List Group) : Prop where
  outputs : (outputs groups).length ≤ 1
  output_ne : ∀ value ∈ Group.outputs groups, value ≠ ""
  entries : (entries groups).length = 1
  entry_plain : ∀ written ∈ Group.entries groups, written ≠ "" ∧ written.toList.head? ≠ some '-'

/-- The output of the first group comes before those of the others. -/
theorem outputs_cons (group : Group) (groups : List Group) :
    outputs (group :: groups) = group.meaning.output?.toList ++ outputs groups := by
  cases group <;> rfl

/-- The entry of the first group comes before those of the others. -/
theorem entries_cons (group : Group) (groups : List Group) :
    entries (group :: groups) = group.meaning.entryPath?.toList ++ entries groups := by
  cases group <;> rfl

end Group

/-! ## Reading a group -/

namespace Argument

/-- Only an output option gives an output. -/
theorem eq_output {meaning : Argument} {value : String} (h : meaning.output? = some value) :
    meaning = output value := by
  cases meaning <;> simp_all [output?]

/-- Only an entry gives an entry path. -/
theorem eq_entry {meaning : Argument} {written : String} (h : meaning.entryPath? = some written) :
    meaning = entry written := by
  cases meaning <;> simp_all [entryPath?]

/-- An output option may be written together with its value. -/
theorem ofString_joined (value : String) : ofString ("--output=" ++ value) = output value := by
  have htoList : ("--output=" ++ value).toList = outputEquals ++ value.toList :=
    String.toList_append
  have hne (other : String) (h : ¬ outputEquals <+: other.toList) :
      "--output=" ++ value ≠ other := by
    rintro rfl
    exact h (by rw [htoList]; exact List.prefix_append _ _)
  have hequals : outputEquals.isPrefixOf ("--output=" ++ value).toList = true := by
    rw [htoList, List.isPrefixOf_iff_prefix]
    exact List.prefix_append _ _
  rw [ofString, if_neg, if_neg, if_neg, if_pos hequals, htoList, List.drop_left,
    String.ofList_toList]
  · exact not_or.mpr ⟨hne "-o" (by decide), hne "--output" (by decide)⟩
  · exact not_or.mpr ⟨hne "-V" (by decide), hne "--version" (by decide)⟩
  · exact not_or.mpr ⟨hne "-h" (by decide), hne "--help" (by decide)⟩

/-- What does not start with a hyphen is an entry. -/
theorem ofString_plain {written : String} (h : written.toList.head? ≠ some '-') :
    ofString written = entry written := by
  have hne : ∀ option ∈ ["-h", "--help", "-V", "--version", "-o", "--output", "--lex-only",
      "--tokens", "--ast"], written ≠ option := by
    rintro _ hoption rfl
    exact h ((show ∀ option ∈ _, option.toList.head? = some '-' by decide) _ hoption)
  have hequals : outputEquals.isPrefixOf written.toList ≠ true := by
    rw [ne_eq, List.isPrefixOf_iff_prefix]
    rintro ⟨rest, hrest⟩
    exact h (by rw [← hrest]; rfl)
  simp only [List.forall_mem_cons] at hne
  simp [ofString, h, hequals, hne]

end Argument

namespace Gathered

variable {gathered : Gathered}

/-- Reading the arguments of a group adds what the group means. -/
theorem read_group {group : Group} (houtput : ∀ value ∈ group.meaning.output?, value ≠ "")
    (hentry : ∀ written ∈ group.meaning.entryPath?,
      gathered.entry = none ∧ written.toList.head? ≠ some '-') (rest : List String) :
    gathered.read (group.arguments ++ rest) = (gathered.add group.meaning).read rest := by
  cases group with
  | lexOnly => rfl
  | tokens => rfl
  | outline => rfl
  | output form value =>
      have hadd (option : String) :
          gathered.addOutput option value = .ok (gathered.add (.output value)) := by
        have hvalue : value.isEmpty = false := by
          simpa [String.isEmpty_iff] using houtput value rfl
        rw [addOutput, hvalue]
        rfl
      have hnext {option : String} (hoption : Argument.ofString option = .outputNext option) :
          gathered.read (option :: value :: rest) = (gathered.add (.output value)).read rest := by
        simp only [read, hoption, hadd]
        rfl
      cases form with
      | short => exact hnext rfl
      | long => exact hnext rfl
      | joined =>
          show gathered.read (("--output=" ++ value) :: rest) = _
          rw [read, Argument.ofString_joined]
          simp only [hadd]
          rfl
  | entry written =>
      obtain ⟨hnone, hplain⟩ := hentry written rfl
      have hadd : gathered.addEntry written = .ok (gathered.add (.entry written)) := by
        rw [addEntry, hnone]
        rfl
      show gathered.read (written :: rest) = _
      rw [read, Argument.ofString_plain hplain]
      simp only [hadd]
      rfl

/-- A meaning adds an entry only if it is one. -/
theorem length_entry_add (gathered : Gathered) (meaning : Argument) :
    (gathered.add meaning).entry.toList.length ≤
      gathered.entry.toList.length + meaning.entryPath?.toList.length := by
  cases meaning <;> simp [add, Argument.entryPath?]

/-- Reading groups with no more than one entry among them adds up what they mean. -/
theorem read_groups {groups : List Group} (houtput : ∀ value ∈ Group.outputs groups, value ≠ "")
    (hplain : ∀ written ∈ Group.entries groups, written.toList.head? ≠ some '-')
    (hcount : gathered.entry.toList.length + (Group.entries groups).length ≤ 1) :
    gathered.read (groups.flatMap Group.arguments) =
      ((groups.map Group.meaning).foldl add gathered).finish.map .compile := by
  induction groups generalizing gathered with
  | nil => rw [List.flatMap_nil, read, List.map_nil, List.foldl_nil]
  | cons group groups ih =>
      rw [Group.outputs_cons] at houtput
      rw [Group.entries_cons, List.length_append] at hcount
      rw [Group.entries_cons] at hplain
      have hentry : ∀ written ∈ group.meaning.entryPath?,
          gathered.entry = none ∧ written.toList.head? ≠ some '-' := by
        intro written hwritten
        rw [Option.mem_def.mp hwritten] at hcount hplain
        refine ⟨?_, hplain written (by simp)⟩
        cases hgathered : gathered.entry with
        | none => rfl
        | some other => simp [hgathered] at hcount
      have hrest : (gathered.add group.meaning).entry.toList.length +
          (Group.entries groups).length ≤ 1 := by
        have hadd := gathered.length_entry_add group.meaning
        omega
      rw [List.flatMap_cons, read_group ?_ hentry, List.map_cons, List.foldl_cons]
      · exact ih (fun value hvalue => houtput value (List.mem_append_right _ hvalue))
          (fun written hwritten => hplain written (List.mem_append_right _ hwritten)) hrest
      · exact fun value hvalue =>
          houtput value (List.mem_append_left _ (Option.mem_toList.mpr hvalue))

/-! ## Adding up what groups mean -/

/-- Two meanings can be added in either order, unless they give two outputs or two entries. -/
theorem add_right_comm (gathered : Gathered) {first second : Argument}
    (houtput : first.output?.isSome → second.output?.isSome → first = second)
    (hentry : first.entryPath?.isSome → second.entryPath?.isSome → first = second) :
    (gathered.add first).add second = (gathered.add second).add first := by
  cases first with
  | output value =>
      cases second with
      | output other => rw [houtput rfl rfl]
      | _ => rfl
  | entry written =>
      cases second with
      | entry other => rw [hentry rfl rfl]
      | _ => rfl
  | _ => cases second <;> rfl

/-- Of several meanings only one gives a value of a kind, if there is no more than one such
value. -/
theorem eq_of_length_filterMap {value? : Argument → Option String} {giving : String → Argument}
    (hgiving : ∀ meaning value, value? meaning = some value → meaning = giving value)
    {meanings : List Argument} (hcount : (meanings.filterMap value?).length ≤ 1)
    {first second : Argument} (hfirst : first ∈ meanings) (hsecond : second ∈ meanings)
    (hsome : (value? first).isSome) (hother : (value? second).isSome) : first = second := by
  obtain ⟨value, hvalue⟩ := Option.isSome_iff_exists.mp hsome
  obtain ⟨other, hotherValue⟩ := Option.isSome_iff_exists.mp hother
  have hmem : value ∈ meanings.filterMap value? := List.mem_filterMap.mpr ⟨first, hfirst, hvalue⟩
  have hotherMem : other ∈ meanings.filterMap value? :=
    List.mem_filterMap.mpr ⟨second, hsecond, hotherValue⟩
  rw [hgiving first value hvalue, hgiving second other hotherValue]
  cases hvalues : meanings.filterMap value? with
  | nil => simp [hvalues] at hmem
  | cons only rest =>
      rw [hvalues, List.length_cons] at hcount
      obtain rfl : rest = [] := List.length_eq_zero_iff.mp (by omega)
      rw [hvalues, List.mem_singleton] at hmem hotherMem
      rw [hmem, hotherMem]

/-- What meanings with at most one output and one entry add up to does not depend on their
order. -/
theorem foldl_add_perm {meanings others : List Argument} (h : meanings.Perm others)
    (houtputs : (meanings.filterMap Argument.output?).length ≤ 1)
    (hentries : (meanings.filterMap Argument.entryPath?).length ≤ 1) (gathered : Gathered) :
    meanings.foldl add gathered = others.foldl add gathered := by
  refine h.foldl_eq' ?_ gathered
  intro first hfirst second hsecond gathered
  exact gathered.add_right_comm
    (eq_of_length_filterMap (fun _ _ => Argument.eq_output) houtputs hfirst hsecond)
    (eq_of_length_filterMap (fun _ _ => Argument.eq_entry) hentries hfirst hsecond)

end Gathered

/-- Whether groups are well-formed depends on their meanings alone, and not on the order of these.
-/
theorem Group.WellFormed.perm {groups others : List Group} (h : WellFormed groups)
    (hperm : (groups.map meaning).Perm (others.map meaning)) : WellFormed others := by
  have houtputs : (Group.outputs groups).Perm (Group.outputs others) := hperm.filterMap _
  have hentries : (Group.entries groups).Perm (Group.entries others) := hperm.filterMap _
  constructor
  · rw [← houtputs.length_eq]
    exact h.outputs
  · intro value hvalue
    exact h.output_ne value (houtputs.mem_iff.mpr hvalue)
  · rw [← hentries.length_eq]
    exact h.entries
  · intro written hwritten
    exact h.entry_plain written (hentries.mem_iff.mpr hwritten)

/-- The command of well-formed groups is what they add up to. -/
theorem Command.ofArguments_groups {groups : List Group} (h : Group.WellFormed groups) :
    ofArguments (groups.flatMap Group.arguments) =
      ((groups.map Group.meaning).foldl Gathered.add {}).finish.map .compile :=
  Gathered.read_groups h.output_ne (fun written hwritten => (h.entry_plain written hwritten).2)
    (by rw [h.entries]; rfl)

/-- The order of the groups of a command line does not matter, and neither does the form of an
output option: groups that mean the same in another order make a run end with the same code, print
the same and leave the same files. -/
theorem run_regrouped (here : Path) (files : FileSystem) {groups others : List Group}
    (hgroups : Group.WellFormed groups)
    (hothers : (groups.map Group.meaning).Perm (others.map Group.meaning)) :
    run here files (others.flatMap Group.arguments) =
      run here files (groups.flatMap Group.arguments) := by
  have hcommand : Command.ofArguments (others.flatMap Group.arguments) =
      Command.ofArguments (groups.flatMap Group.arguments) := by
    rw [Command.ofArguments_groups hgroups, Command.ofArguments_groups (hgroups.perm hothers),
      Gathered.foldl_add_perm hothers hgroups.outputs (by rw [← Group.entries, hgroups.entries])]
  rw [run, run, hcommand]

/-- An output that looks like an option, a flag that is given twice, and another order. -/
theorem run_regrouped_option :
    let groups : List Group :=
      [.output .joined "--ast.html", .tokens, .entry "x.lol", .tokens, .outline]
    let others : List Group :=
      [.outline, .entry "x.lol", .output .short "--ast.html", .tokens, .tokens]
    Group.WellFormed groups ∧ (groups.map Group.meaning).Perm (others.map Group.meaning) ∧
    (run ⟨["work"]⟩ neighbours ["--output=--ast.html", "--tokens", "x.lol", "--tokens",
      "--ast"]).code = 0 ∧
    run ⟨["work"]⟩ neighbours ["--ast", "x.lol", "-o", "--ast.html", "--tokens", "--tokens"] =
      run ⟨["work"]⟩ neighbours ["--output=--ast.html", "--tokens", "x.lol", "--tokens",
        "--ast"] := by
  intro groups others
  have hgroups : Group.WellFormed groups :=
    ⟨by decide, by decide, by decide, by decide⟩
  have hperm : (groups.map Group.meaning).Perm (others.map Group.meaning) := by decide
  exact ⟨hgroups, hperm, by decide +kernel, run_regrouped ⟨["work"]⟩ neighbours hgroups hperm⟩

end CommandLine

end LolMarkup
