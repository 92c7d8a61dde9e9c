import LolMarkup.CommandLine.Request
import Mathlib

/-!
# What the arguments ask for

`Argument.all` is the list of what arguments mean, with an output option and its value as one. If
they ask for a compilation, what is asked for is what they add one after the other
(`Gathered.finish_of_read`). So the output is the last one that is given
(`Request.output_eq_getLast?`), and a flag is set if it is among the arguments
(`Request.lexOnly_iff`, `Request.emitTokens_iff`).
-/

namespace LolMarkup.CommandLine

namespace Argument

/-- The meanings of arguments in order. An output option takes the argument after it as its value,
whatever this would mean by itself. -/
def all : List String → List Argument
  | [] => []
  | argument :: rest =>
      match ofString argument with
      | outputNext option =>
          match rest with
          | [] => [outputNext option]
          | value :: rest => output value :: all rest
      | meaning => meaning :: all rest

/-- The output that an argument gives. -/
def output? : Argument → Option String
  | output value => some value
  | _ => none

/-- The outputs that arguments give, in order. -/
def outputs (arguments : List String) : List String :=
  (all arguments).filterMap output?

end Argument

namespace Gathered

variable {gathered next : Gathered} {request : Request} {arguments : List String}

/-- What is asked for with one more argument. -/
def add (gathered : Gathered) : Argument → Gathered
  | .output value => { gathered with output := some value }
  | .lexOnly => { gathered with lexOnly := true }
  | .tokens => { gathered with emitTokens := true }
  | .outline => { gathered with emitOutline := true }
  | .entry written => { gathered with entry := some written }
  | _ => gathered

/-- An output that is accepted is added to what was gathered. -/
theorem addOutput_eq_ok {option value : String} (h : gathered.addOutput option value = .ok next) :
    next = gathered.add (.output value) := by
  unfold addOutput at h
  split at h
  · cases h
  · cases h
    rfl

/-- An entry that is accepted is added to what was gathered. -/
theorem addEntry_eq_ok {written : String} (h : gathered.addEntry written = .ok next) :
    next = gathered.add (.entry written) := by
  unfold addEntry at h
  split at h
  · cases h
  · cases h
    rfl

/-- A request that is read is the one that all arguments together ask for. -/
theorem finish_of_read (h : gathered.read arguments = .ok (.compile request)) :
    ((Argument.all arguments).foldl add gathered).finish = .ok request := by
  fun_induction Argument.all arguments generalizing gathered with
  | case1 =>
      rw [read] at h
      cases hfinish : gathered.finish with
      | error misuse => simp [hfinish, Except.map] at h
      | ok other =>
          rw [hfinish] at h
          cases h
          exact hfinish
  | case2 argument option hmeaning =>
      simp only [read, hmeaning] at h
      cases h
  | case3 argument option hmeaning value rest ih =>
      simp only [read, hmeaning] at h
      cases hadd : gathered.addOutput option value with
      | error misuse =>
          rw [hadd] at h
          cases h
      | ok next =>
          rw [hadd] at h
          rw [List.foldl_cons, ← addOutput_eq_ok hadd]
          exact ih h
  | case4 argument rest hnext ih =>
      rw [read.eq_def] at h
      rw [List.foldl_cons]
      cases hmeaning : Argument.ofString argument with
      | help | version | unknown option =>
          simp only [hmeaning] at h
          cases h
      | outputNext option => exact absurd hmeaning (hnext option)
      | lexOnly | tokens | outline =>
          simp only [hmeaning] at h
          exact ih h
      | output value =>
          simp only [hmeaning] at h
          cases hadd : gathered.addOutput "--output" value with
          | error misuse =>
              rw [hadd] at h
              cases h
          | ok next =>
              rw [hadd] at h
              rw [← addOutput_eq_ok hadd]
              exact ih h
      | entry written =>
          simp only [hmeaning] at h
          cases hadd : gathered.addEntry written with
          | error misuse =>
              rw [hadd] at h
              cases h
          | ok next =>
              rw [hadd] at h
              rw [← addEntry_eq_ok hadd]
              exact ih h

/-- A finished request has what was gathered, and its output may be one. -/
theorem eq_of_finish (h : gathered.finish = .ok request) :
    request.output = gathered.output ∧ request.lexOnly = gathered.lexOnly ∧
      request.emitTokens = gathered.emitTokens ∧ request.output.all isPage = true := by
  unfold finish at h
  split at h
  · cases h
  · split_ifs at h with houtput
    cases h
    exact ⟨rfl, rfl, rfl, by simpa using houtput⟩

/-! ## What arguments add up to -/

/-- The last output counts. -/
theorem output_foldl_add (meanings : List Argument) (gathered : Gathered) :
    (meanings.foldl add gathered).output =
      (meanings.filterMap Argument.output?).getLast?.or gathered.output := by
  induction meanings generalizing gathered with
  | nil => rfl
  | cons meaning meanings ih =>
      rw [List.foldl_cons, ih]
      cases meaning <;> simp [add, Argument.output?, List.getLast?_cons]

/-- A flag is set by one argument and kept by the others. -/
theorem flag_foldl_add (flag : Gathered → Bool) (setter : Argument)
    (hset : ∀ gathered : Gathered, flag (gathered.add setter) = true)
    (hkeep : ∀ (gathered : Gathered) (meaning : Argument), meaning ≠ setter →
      flag (gathered.add meaning) = flag gathered)
    (meanings : List Argument) (gathered : Gathered) :
    flag (meanings.foldl add gathered) = true ↔ flag gathered = true ∨ setter ∈ meanings := by
  induction meanings generalizing gathered with
  | nil => simp
  | cons meaning meanings ih =>
      rw [List.foldl_cons, ih, List.mem_cons]
      by_cases hmeaning : meaning = setter
      · simp [hmeaning, hset]
      · rw [hkeep gathered meaning hmeaning]
        simp [Ne.symm hmeaning]

end Gathered

namespace Request

variable {request : Request} {arguments : List String}

/-- The output of a request is the last one that the arguments give. -/
theorem output_eq_getLast? (h : Command.ofArguments arguments = .ok (.compile request)) :
    request.output = (Argument.outputs arguments).getLast? := by
  rw [(Gathered.eq_of_finish (Gathered.finish_of_read h)).1, Gathered.output_foldl_add,
    Option.or_none]
  rfl

/-- An output of a request has the extension of pages, in whatever letter case. -/
theorem isPage_output (h : Command.ofArguments arguments = .ok (.compile request))
    {written : String} (houtput : request.output = some written) :
    Gathered.isPage written = true := by
  have hall := (Gathered.eq_of_finish (Gathered.finish_of_read h)).2.2.2
  rwa [houtput] at hall

/-- A request is about tokens alone exactly if an argument says so. -/
theorem lexOnly_iff (h : Command.ofArguments arguments = .ok (.compile request)) :
    request.lexOnly = true ↔ .lexOnly ∈ Argument.all arguments := by
  rw [(Gathered.eq_of_finish (Gathered.finish_of_read h)).2.1,
    Gathered.flag_foldl_add Gathered.lexOnly .lexOnly (fun _ => rfl)
      (fun _ meaning hmeaning => by cases meaning <;> simp_all [Gathered.add])]
  simp

/-- A request asks for the token listing exactly if an argument does. -/
theorem emitTokens_iff (h : Command.ofArguments arguments = .ok (.compile request)) :
    request.emitTokens = true ↔ .tokens ∈ Argument.all arguments := by
  rw [(Gathered.eq_of_finish (Gathered.finish_of_read h)).2.2.1,
    Gathered.flag_foldl_add Gathered.emitTokens .tokens (fun _ => rfl)
      (fun _ meaning hmeaning => by cases meaning <;> simp_all [Gathered.add])]
  simp

end Request

end LolMarkup.CommandLine
