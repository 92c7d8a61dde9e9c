import LolMarkup.Proofs.Scoping.Levels
import Mathlib.Data.List.Infix

/-!
# Scopes that are entered and left again

Nested scopes are used by a sequence of operations. `Scopes.around` splits them at a scope that is
entered: the scopes entered since then are a list, and those around it are nested scopes of their
own. As long as the scope is not left, an operation changes either the list or the scopes around it,
and the latter only by an assignment to a name that no scope of the list declares, which is called
outward (`Opened.step`). `bracket_keeps_outer` says what remains of such a sequence when the scope
is left: the values of the outward assignments, and nothing else.
-/

namespace LolMarkup

namespace Scopes

/-! ## The scopes around a list of others -/

/-- Nested scopes with further ones in them, the innermost first. -/
def around (outer : Scopes) (inner : List Scope) : Scopes :=
  inner.foldr nested outer

variable {scopes outer : Scopes} {inner : List Scope} {name : String}

/-- Around no scopes there are only the outer ones. -/
@[simp] theorem around_nil (outer : Scopes) : outer.around [] = outer := rfl

/-- The first of the inner scopes is the innermost one. -/
theorem around_cons (outer : Scopes) (scope : Scope) (inner : List Scope) :
    outer.around (scope :: inner) = nested scope (outer.around inner) := rfl

/-- The inner and outer scopes together are as many as both. -/
theorem depth_around (outer : Scopes) (inner : List Scope) :
    (outer.around inner).depth = inner.length + outer.depth := by
  induction inner with
  | nil => simp
  | cons scope inner ih =>
      rw [around_cons, depth, ih, List.length_cons]
      omega

/-- The levels within the outer scopes lack a name exactly if no scope of the list declares it. -/
theorem binding?_around_eq_none_iff :
    (∀ level, outer.depth ≤ level → (outer.around inner).binding? level name = none) ↔
      ∀ scope ∈ inner, scope.declares name = false := by
  induction inner with
  | nil =>
      refine iff_of_true (fun level hlevel => binding?_of_depth_le hlevel) ?_
      simp
  | cons scope inner ih =>
      rw [List.forall_mem_cons, ← ih, around_cons, Scope.declares, Option.isSome_eq_false_iff,
        Option.isNone_iff_eq_none]
      have hdepth : outer.depth ≤ (outer.around inner).depth := by
        rw [depth_around]
        omega
      constructor
      · intro h
        refine ⟨by simpa [binding?] using h _ hdepth, fun level hlevel => ?_⟩
        by_cases hinnermost : level = (outer.around inner).depth
        · exact binding?_of_depth_le (Nat.le_of_eq hinnermost.symm)
        · simpa [binding?, hinnermost] using h level hlevel
      · rintro ⟨hscope, hinner⟩ level hlevel
        by_cases hinnermost : level = (outer.around inner).depth
        · simpa [binding?, hinnermost] using hscope
        · simpa [binding?, hinnermost] using hinner level hlevel

/-- A declaration within the outer scopes changes the innermost scope and does not look at the outer
ones. -/
theorem declare?_around (scope : Scope) (inner : List Scope) (name : String) :
    ∃ declared, ∀ outer : Scopes, ((outer.around (scope :: inner)).declare? name).getD
      (outer.around (scope :: inner)) = outer.around (declared :: inner) := by
  by_cases h : scope.declares name = true
  · exact ⟨scope, fun outer => by simp [around_cons, declare?, h]⟩
  · exact ⟨scope.insert name, fun outer => by simp [around_cons, declare?, h]⟩

/-- An assignment to a name that a scope of the list declares does not look at the outer scopes. -/
theorem assign?_around_of_declares (value : String)
    (h : ∃ scope ∈ inner, scope.declares name = true) :
    ∃ assigned : List Scope, assigned.length = inner.length ∧
      ∀ outer : Scopes, (outer.around inner).assign? name value = some (outer.around assigned) := by
  induction inner with
  | nil => simp at h
  | cons scope inner ih =>
      by_cases hscope : scope.declares name = true
      · refine ⟨scope.set name value :: inner, rfl, fun outer => ?_⟩
        rw [around_cons, assign?, if_pos hscope, around_cons]
      · obtain ⟨assigned, hlength, hassigned⟩ := ih (by simpa [hscope] using h)
        refine ⟨scope :: assigned, congrArg (· + 1) hlength, fun outer => ?_⟩
        rw [around_cons, assign?, if_neg hscope, hassigned, around_cons, Option.map_some]

/-- An assignment to a name that no scope of the list declares is one in the outer scopes. -/
theorem assign?_around (outer : Scopes) (value : String)
    (h : ∀ scope ∈ inner, scope.declares name = false) :
    (outer.around inner).assign? name value = (outer.assign? name value).map (around · inner) := by
  induction inner with
  | nil => simp
  | cons scope inner ih =>
      rw [List.forall_mem_cons] at h
      rw [around_cons, assign?, h.1, ih h.2, Option.map_map]
      rfl

/-! ## Looking up after an assignment -/

/-- A name can be assigned to exactly if it can be looked up. -/
theorem isSome_assign? (scopes : Scopes) (name value : String) :
    (scopes.assign? name value).isSome = (scopes.lookup name).isSome := by
  induction scopes with
  | global scope =>
      rw [assign?, lookup, Scope.declares]
      split <;> simp_all
  | nested scope outer ih =>
      rw [assign?, lookup, Option.isSome_or, Scope.declares]
      split <;> simp_all

/-- After an assignment the name has the value, provided that it is declared. -/
theorem lookup_assign? (scopes : Scopes) (name value key : String) :
    ((scopes.assign? name value).getD scopes).lookup key =
      if key = name then (scopes.lookup key).map fun _ => .assigned value
      else scopes.lookup key := by
  induction scopes with
  | global scope =>
      rw [assign?]
      split
      · exact Scope.get?_set scope name value key
      · next hdeclares =>
          split
          · next hkey => simp_all [lookup, Scope.declares]
          · rfl
  | nested scope outer ih =>
      rw [assign?]
      split
      · next hdeclares =>
          rw [Option.getD_some, lookup, lookup, get?_set_of_declares hdeclares]
          split
          · next hkey =>
              subst hkey
              obtain ⟨binding, hbinding⟩ := Option.isSome_iff_exists.mp hdeclares
              rw [hbinding]
              rfl
          · rfl
      · next hdeclares =>
          have hnone : scope.get? name = none := by simpa [Scope.declares] using hdeclares
          have hnested : ((outer.assign? name value).map (nested scope)).getD (nested scope outer) =
              nested scope ((outer.assign? name value).getD outer) := by
            cases outer.assign? name value <;> rfl
          rw [hnested, lookup, lookup, ih]
          split
          · next hkey => rw [hkey, hnone, Option.none_or, Option.none_or]
          · rfl

/-! ## Sequences of operations -/

/-- What is done with nested scopes. -/
inductive Operation where
  | push
  | pop
  | declare (name : String)
  | assign (name value : String)
  | lookup (name : String)
deriving DecidableEq, Repr

/-- The scopes after an operation. A declaration or an assignment that is rejected changes nothing,
and neither does a lookup. -/
def Operation.apply (scopes : Scopes) : Operation → Scopes
  | push => scopes.push
  | pop => scopes.pop
  | declare name => (scopes.declare? name).getD scopes
  | assign name value => (scopes.assign? name value).getD scopes
  | lookup _ => scopes

/-- The scopes after a sequence of operations. -/
def run (scopes : Scopes) (operations : List Operation) : Scopes :=
  operations.foldl Operation.apply scopes

/-- The first operation comes before the others. -/
theorem run_cons (scopes : Scopes) (operation : Operation) (rest : List Operation) :
    scopes.run (operation :: rest) = (operation.apply scopes).run rest := rfl

/-- The last operation comes after the others. -/
theorem run_concat (scopes : Scopes) (operations : List Operation) (last : Operation) :
    scopes.run (operations ++ [last]) = last.apply (scopes.run operations) := by
  rw [run, List.foldl_append]
  rfl

/-- As many scopes are left as are entered, and never more than were entered so far. -/
structure Balanced (body : List Operation) : Prop where
  within : ∀ earlier, earlier <+: body → earlier.count .pop ≤ earlier.count .push
  closed : body.count .pop = body.count .push

/-- The operations between entering a scope and leaving it, with these two. -/
def bracket (body : List Operation) : List Operation :=
  .push :: (body ++ [.pop])

/-- An assignment of the name is outward after the given operations in a new scope: no scope that
was entered since and is still open declares the name. -/
def Outward (scopes : Scopes) (earlier : List Operation) (name : String) : Prop :=
  ∀ level, scopes.depth ≤ level → (scopes.push.run earlier).binding? level name = none

/-- The body of a bracket assigns a value outward, after the given operations of it. -/
structure WritesOut (scopes : Scopes) (body earlier : List Operation) (name value : String) :
    Prop where
  found : earlier ++ [.assign name value] <+: body
  outward : scopes.Outward earlier name

variable {body earlier : List Operation} {operation : Operation} {value : String}

/-- An assignment is written outward in the last operation or before it. -/
theorem writesOut_concat_iff :
    WritesOut scopes (body ++ [operation]) earlier name value ↔
      (earlier = body ∧ operation = .assign name value ∧ scopes.Outward body name) ∨
        WritesOut scopes body earlier name value := by
  constructor
  · rintro ⟨hfound, houtward⟩
    rcases List.prefix_concat_iff.mp hfound with heq | hfound
    · obtain ⟨rfl, hlast⟩ := List.append_inj' heq rfl
      exact .inl ⟨rfl, (List.cons.inj hlast).1.symm, houtward⟩
    · exact .inr ⟨hfound, houtward⟩
  · rintro (⟨rfl, rfl, houtward⟩ | ⟨hfound, houtward⟩)
    · exact ⟨List.prefix_refl _, houtward⟩
    · exact ⟨hfound.trans (List.prefix_append body _), houtward⟩

/-- What the outer scopes have become while a scope in them is open: they have the same names, and a
name has another value only if it was assigned outward, namely the last such value. -/
structure Rewritten (scopes : Scopes) (body : List Operation) (outer : Scopes) : Prop where
  depth : outer.depth = scopes.depth
  names : ∀ level name,
    (outer.binding? level name).isSome = (scopes.binding? level name).isSome
  declared : ∀ name, (outer.lookup name).isSome = (scopes.lookup name).isSome
  unwritten : ∀ name, (∀ earlier value, ¬ WritesOut scopes body earlier name value) →
    outer.lookup name = scopes.lookup name
  written : ∀ name earlier value, (scopes.lookup name).isSome = true →
    WritesOut scopes body earlier name value →
    (∀ other later, WritesOut scopes body other name later → other.length ≤ earlier.length) →
      outer.lookup name = some (.assigned value)

/-- Nothing is rewritten before the first operation. -/
theorem rewritten_nil (scopes : Scopes) : Rewritten scopes [] scopes where
  depth := rfl
  names _ _ := rfl
  declared _ := rfl
  unwritten _ _ := rfl
  written name earlier value _ hwrites := by simpa using hwrites.found

/-- An operation that assigns nothing outward leaves the outer scopes as they are. -/
theorem Rewritten.keep (h : Rewritten scopes body outer)
    (hkeep : ∀ name value, operation = .assign name value → ¬ scopes.Outward body name) :
    Rewritten scopes (body ++ [operation]) outer := by
  have hwrites (name : String) (earlier : List Operation) (value : String) :
      WritesOut scopes (body ++ [operation]) earlier name value ↔
        WritesOut scopes body earlier name value := by
    rw [writesOut_concat_iff, or_iff_right]
    rintro ⟨-, hassign, houtward⟩
    exact hkeep name value hassign houtward
  refine ⟨h.depth, h.names, h.declared, ?_, ?_⟩
  · simpa only [hwrites] using h.unwritten
  · simpa only [hwrites] using h.written

/-- An outward assignment is one in the outer scopes. -/
theorem Rewritten.write (h : Rewritten scopes body outer) (houtward : scopes.Outward body name)
    (value : String) :
    Rewritten scopes (body ++ [.assign name value]) ((outer.assign? name value).getD outer) where
  depth := (outer.depth_assign? name value).trans h.depth
  names level key := (isSome_binding?_assign? outer name value level key).trans (h.names level key)
  declared key := by
    rw [lookup_assign?, ← h.declared key]
    split
    · exact Option.isSome_map
    · rfl
  unwritten key hnone := by
    have hkey : key ≠ name := by
      rintro rfl
      exact hnone body value (writesOut_concat_iff.mpr (.inl ⟨rfl, rfl, houtward⟩))
    rw [lookup_assign?, if_neg hkey]
    exact h.unwritten key fun earlier other hwrites =>
      hnone earlier other (writesOut_concat_iff.mpr (.inr hwrites))
  written key earlier other hdeclared hwrites hlast := by
    rw [lookup_assign?]
    by_cases hkey : key = name
    · -- The assignment that was just made is the last one to this name.
      subst hkey
      have hlength := hlast body value (writesOut_concat_iff.mpr (.inl ⟨rfl, rfl, houtward⟩))
      rcases writesOut_concat_iff.mp hwrites with ⟨rfl, hassign, -⟩ | hwrites
      · cases hassign
        obtain ⟨binding, hbinding⟩ :=
          Option.isSome_iff_exists.mp ((h.declared key).trans hdeclared)
        rw [if_pos rfl, hbinding, Option.map_some]
      · have hshort := hwrites.found.length_le
        rw [List.length_append, List.length_singleton] at hshort
        omega
    · rw [if_neg hkey]
      refine h.written key earlier other hdeclared ?_ fun before later hbefore =>
        hlast before later (writesOut_concat_iff.mpr (.inr hbefore))
      rcases writesOut_concat_iff.mp hwrites with ⟨-, hassign, -⟩ | hwrites
      · cases hassign
        exact absurd rfl hkey
      · exact hwrites

/-- After some operations in a new scope the scopes split into those entered since then, which are
still open, and the outer ones. -/
structure Opened (scopes : Scopes) (body : List Operation) (inner : List Scope) (outer : Scopes) :
    Prop where
  run_eq : scopes.push.run body = outer.around inner
  length : inner.length + body.count .pop = body.count .push + 1
  rewritten : Rewritten scopes body outer

/-- A bracket opens with one empty scope. -/
theorem opened_nil (scopes : Scopes) : Opened scopes [] [.empty] scopes where
  run_eq := rfl
  length := rfl
  rewritten := rewritten_nil scopes

/-- An assignment goes outward exactly if no inner scope declares the name. -/
theorem Opened.outward_iff (h : Opened scopes body inner outer) :
    scopes.Outward body name ↔ ∀ scope ∈ inner, scope.declares name = false := by
  rw [Outward, h.run_eq, ← h.rewritten.depth, binding?_around_eq_none_iff]

/-- An operation that leaves the outer scopes as they are. -/
theorem Opened.keep {next : List Scope} (h : Opened scopes body inner outer)
    (happly : operation.apply (outer.around inner) = outer.around next)
    (hlength : next.length + [operation].count .pop = inner.length + [operation].count .push)
    (hkeep : ∀ name value, operation = .assign name value → ¬ scopes.Outward body name) :
    Opened scopes (body ++ [operation]) next outer where
  run_eq := by rw [run_concat, h.run_eq, happly]
  length := by
    have hbody := h.length
    rw [List.count_append, List.count_append]
    omega
  rewritten := h.rewritten.keep hkeep

/-- One operation more keeps the scopes split, unless it leaves the scope that was entered first. -/
theorem Opened.step (h : Opened scopes body inner outer) (operation : Operation)
    (hpops : (body ++ [operation]).count .pop ≤ (body ++ [operation]).count .push) :
    ∃ next rest, Opened scopes (body ++ [operation]) next rest := by
  have hlength := h.length
  rw [List.count_append, List.count_append] at hpops
  have hne (hpush : operation ≠ .push) : inner ≠ [] := by
    rintro rfl
    have hcount : [operation].count .push = 0 :=
      List.count_eq_zero.mpr (mt List.mem_singleton.mp hpush.symm)
    rw [List.length_nil] at hlength
    omega
  cases operation with
  | push => exact ⟨.empty :: inner, outer, h.keep rfl rfl (by simp)⟩
  | pop =>
      obtain ⟨scope, rest, rfl⟩ := List.exists_cons_of_ne_nil (hne (by simp))
      exact ⟨rest, outer, h.keep rfl rfl (by simp)⟩
  | declare name =>
      obtain ⟨scope, rest, rfl⟩ := List.exists_cons_of_ne_nil (hne (by simp))
      obtain ⟨declared, hdeclared⟩ := declare?_around scope rest name
      exact ⟨declared :: rest, outer, h.keep (hdeclared outer) rfl (by simp)⟩
  | assign name value =>
      by_cases hinner : ∀ scope ∈ inner, scope.declares name = false
      · -- The assignment is outward.
        have hassign := assign?_around outer value hinner
        refine ⟨inner, (outer.assign? name value).getD outer, ?_, ?_, ?_⟩
        · rw [run_concat, h.run_eq, Operation.apply, hassign]
          cases outer.assign? name value <;> rfl
        · simpa using hlength
        · exact h.rewritten.write (h.outward_iff.mpr hinner) value
      · have hdeclares : ∃ scope ∈ inner, scope.declares name = true := by simpa using hinner
        obtain ⟨assigned, hsame, hassigned⟩ := assign?_around_of_declares value hdeclares
        refine ⟨assigned, outer, h.keep ?_ (by simp [hsame]) ?_⟩
        · rw [Operation.apply, hassigned outer]
          rfl
        · rintro _ _ heq
          cases heq
          exact mt h.outward_iff.mp hinner
  | lookup name => exact ⟨inner, outer, h.keep rfl rfl (by simp)⟩

/-- As long as the first scope is not left, the scopes stay split. -/
theorem exists_opened (scopes : Scopes)
    (hpops : ∀ earlier, earlier <+: body → earlier.count .pop ≤ earlier.count .push) :
    ∃ inner outer, Opened scopes body inner outer := by
  induction body using List.reverseRecOn with
  | nil => exact ⟨_, _, opened_nil scopes⟩
  | append_singleton body operation ih =>
      obtain ⟨inner, outer, hopened⟩ :=
        ih fun earlier hearlier => hpops earlier (hearlier.trans (List.prefix_append body _))
      exact hopened.step operation (hpops _ (List.prefix_refl _))

/-- Leaving the first scope leaves the outer scopes. -/
theorem rewritten_run_bracket (scopes : Scopes) (hbody : Balanced body) :
    Rewritten scopes body (scopes.run (bracket body)) := by
  obtain ⟨inner, outer, hopened⟩ := exists_opened scopes hbody.within
  have hlength := hopened.length
  rw [hbody.closed] at hlength
  obtain ⟨scope, rfl⟩ := List.length_eq_one_iff.mp (by omega : inner.length = 1)
  have hrun : scopes.run (bracket body) = outer := by
    rw [bracket, run_cons, run_concat, Operation.apply, hopened.run_eq]
    rfl
  rw [hrun]
  exact hopened.rewritten

end Scopes

open Scopes

/-- Suppose that a scope is entered, some balanced operations follow and the scope is left again.
Afterwards there are as many scopes as before and each has the names it had. A name that was not
declared is not declared. Otherwise its binding is the value of the last outward assignment to it,
and if there was none it is what it was. An outward assignment was accepted if and only if the name
was declared before. -/
theorem bracket_keeps_outer (scopes : Scopes) {body : List Operation} (hbody : Balanced body) :
    (scopes.run (bracket body)).depth = scopes.depth ∧
    (∀ level name, ((scopes.run (bracket body)).binding? level name).isSome =
      (scopes.binding? level name).isSome) ∧
    (∀ name, scopes.lookup name = none → (scopes.run (bracket body)).lookup name = none) ∧
    (∀ name earlier value, (scopes.lookup name).isSome = true →
      WritesOut scopes body earlier name value →
      (∀ other later, WritesOut scopes body other name later → other.length ≤ earlier.length) →
        (scopes.run (bracket body)).lookup name = some (.assigned value)) ∧
    (∀ name, (∀ earlier value, ¬ WritesOut scopes body earlier name value) →
      (scopes.run (bracket body)).lookup name = scopes.lookup name) ∧
    (∀ earlier name value, WritesOut scopes body earlier name value →
      ((scopes.push.run earlier).assign? name value).isSome = (scopes.lookup name).isSome) := by
  have hrewritten := rewritten_run_bracket scopes hbody
  refine ⟨hrewritten.depth, hrewritten.names, ?_, hrewritten.written, hrewritten.unwritten, ?_⟩
  · intro name hnone
    have hdeclared := hrewritten.declared name
    rw [hnone] at hdeclared
    simpa using hdeclared
  · intro earlier name value hwrites
    have hprefix : earlier <+: body := (List.prefix_append earlier _).trans hwrites.found
    obtain ⟨inner, outer, hopened⟩ :=
      exists_opened scopes fun before hbefore => hbody.within before (hbefore.trans hprefix)
    rw [hopened.run_eq, assign?_around outer value (hopened.outward_iff.mp hwrites.outward),
      Option.isSome_map, isSome_assign?]
    exact hopened.rewritten.declared name

/-- A name of the outer scope is declared again in a scope within the bracket, which hides one
assignment to it but not the next one, and a name that is declared nowhere is assigned. -/
theorem bracket_keeps_outer_hidden :
    ∃ (scopes : Scopes) (body : List Operation), Balanced body ∧
      scopes.lookup "y" = some .unassigned ∧ scopes.lookup "z" = none ∧
      body = [.push, .declare "y", .assign "y" "4", .pop, .assign "z" "6", .assign "y" "5"] ∧
      (scopes.run (bracket body)).depth = scopes.depth ∧
      (scopes.run (bracket body)).lookup "y" = some (.assigned "5") ∧
      (scopes.run (bracket body)).lookup "z" = none := by
  have hbody : Balanced
      [.push, .declare "y", .assign "y" "4", .pop, .assign "z" "6", .assign "y" "5"] := by
    refine ⟨fun earlier hearlier => ?_, by decide⟩
    revert earlier
    simp only [← List.mem_inits]
    decide
  obtain ⟨hdepth, -, hundeclared, hwritten, -, -⟩ :=
    bracket_keeps_outer (.global ⟨[("y", .unassigned)]⟩) hbody
  refine ⟨_, _, hbody, rfl, rfl, rfl, hdepth, ?_, hundeclared "z" rfl⟩
  refine hwritten "y"
    [.push, .declare "y", .assign "y" "4", .pop, .assign "z" "6"] "5" rfl ⟨by decide, ?_⟩ ?_
  · intro level hlevel
    have hempty : ∀ scope ∈ [Scope.empty], scope.declares "y" = false := by decide
    exact binding?_around_eq_none_iff.mpr hempty level hlevel
  · intro other later hwrites
    have hlength := hwrites.found.length_le
    rw [List.length_append, List.length_singleton] at hlength
    exact Nat.le_of_succ_le_succ hlength

end LolMarkup
