import LolMarkup.Proofs.Scoping.Bindings

/-!
# The levels of nested scopes

`Scopes.binding?` is the binding that one of the nested scopes has for a name, whether or not an
inner one hides it. The scopes are counted from the outside, so that a level stays the same while
scopes are entered and left within it. `Scopes.assign?_of_level` says what an assignment does at all
levels: it changes one binding, at the innermost level that has one for the name. Where no level has
one, there is nothing to assign to (`Scopes.assign?_eq_none`).
-/

namespace LolMarkup

namespace Scopes

/-- The binding of a name at a level, the global scope being at level zero. -/
def binding? : Scopes → Nat → String → Option Binding
  | global scope, level, name => if level = 0 then scope.get? name else none
  | nested scope outer, level, name =>
      if level = outer.depth then scope.get? name else outer.binding? level name

variable {scopes : Scopes} {level : Nat} {name : String}

/-- There is at least one scope. -/
theorem depth_pos (scopes : Scopes) : 0 < scopes.depth := by
  cases scopes <;> exact Nat.succ_pos _

/-- Leaving a scope leaves one less, unless it is the last. -/
theorem depth_pop (scopes : Scopes) (h : 1 < scopes.depth) :
    scopes.pop.depth + 1 = scopes.depth := by
  cases scopes with
  | global scope => exact absurd h (Nat.lt_irrefl 1)
  | nested scope outer => rfl

/-- There are no names beyond the scopes. -/
theorem binding?_of_depth_le (h : scopes.depth ≤ level) : scopes.binding? level name = none := by
  induction scopes with
  | global scope =>
      rw [depth] at h
      rw [binding?, if_neg (by omega)]
  | nested scope outer ih =>
      rw [depth] at h
      rw [binding?, if_neg (by omega)]
      exact ih (by omega)

/-- A new scope has no bindings. -/
theorem binding?_push (scopes : Scopes) (level : Nat) (name : String) :
    scopes.push.binding? level name = scopes.binding? level name := by
  by_cases h : level = scopes.depth
  · rw [push, binding?, if_pos h, binding?_of_depth_le (Nat.le_of_eq h.symm), Scope.get?_empty]
  · rw [push, binding?, if_neg h]

/-- The levels around a scope that is left stay as they are. -/
theorem binding?_pop (h : level < scopes.pop.depth) :
    scopes.pop.binding? level name = scopes.binding? level name := by
  cases scopes with
  | global scope => rfl
  | nested scope outer =>
      have hlevel : level ≠ outer.depth := Nat.ne_of_lt h
      rw [pop, binding?, if_neg hlevel]

/-! ## Declarations -/

/-- Declaring a name opens and closes no scope. -/
theorem depth_declare? (scopes : Scopes) (name : String) :
    ((scopes.declare? name).getD scopes).depth = scopes.depth := by
  cases scopes with
  | global scope =>
      rw [declare?]
      split <;> rfl
  | nested scope outer =>
      rw [declare?]
      split <;> rfl

/-- Declaring a name again changes no binding. -/
theorem get?_of_declares {scope : Scope} (h : scope.declares name = true) (key : String) :
    (scope.get? key).or (if key = name then some .unassigned else none) = scope.get? key := by
  split
  · next hkey =>
      obtain ⟨binding, hbinding⟩ := Option.isSome_iff_exists.mp h
      rw [hkey, hbinding, Option.some_or]
  · exact Option.or_none

/-- A declaration adds the name to the innermost scope, unless it has the name already. -/
theorem binding?_declare? (scopes : Scopes) (name : String) (level : Nat) (key : String) :
    ((scopes.declare? name).getD scopes).binding? level key =
      (scopes.binding? level key).or
        (if level + 1 = scopes.depth ∧ key = name then some .unassigned else none) := by
  cases scopes with
  | global scope =>
      rw [declare?]
      by_cases hlevel : level = 0
      · split
        · next hdeclares => simp [binding?, depth, hlevel, get?_of_declares hdeclares]
        · simp [binding?, depth, hlevel, Scope.get?_insert]
      · split <;> simp [binding?, depth, hlevel]
  | nested scope outer =>
      rw [declare?]
      by_cases hlevel : level = outer.depth
      · split
        · next hdeclares => simp [binding?, depth, hlevel, get?_of_declares hdeclares]
        · simp [binding?, depth, hlevel, Scope.get?_insert]
      · split <;> simp [binding?, depth, hlevel]

/-- After a declaration the innermost scope has the name, also if it had it before. -/
theorem isSome_binding?_declare? (scopes : Scopes) (name : String) :
    (((scopes.declare? name).getD scopes).binding? (scopes.depth - 1) name).isSome = true := by
  have hpos := scopes.depth_pos
  rw [binding?_declare?, if_pos ⟨by omega, rfl⟩, Option.isSome_or]
  exact Bool.or_true _

/-! ## Assignments -/

/-- Assigning to a name opens and closes no scope. -/
theorem depth_assign? (scopes : Scopes) (name value : String) :
    ((scopes.assign? name value).getD scopes).depth = scopes.depth := by
  induction scopes with
  | global scope =>
      rw [assign?]
      split <;> rfl
  | nested scope outer ih =>
      rw [assign?]
      split
      · rfl
      · cases hassign : outer.assign? name value with
        | none => rfl
        | some assigned =>
            rw [hassign, Option.getD_some] at ih
            exact congrArg (· + 1) ih

/-- A declared name is set to the value, and no other name is. -/
theorem get?_set_of_declares {scope : Scope} (h : scope.declares name = true) (value key : String) :
    (scope.set name value).get? key =
      if key = name then some (.assigned value) else scope.get? key := by
  rw [Scope.get?_set]
  split
  · next hkey =>
      rw [Scope.declares, ← hkey] at h
      rw [Option.map_eq_some_iff]
      exact (Option.isSome_iff_exists.mp h).imp fun _ hbinding => ⟨hbinding, rfl⟩
  · rfl

/-- An assignment sets the binding at the innermost level that has the name, and no other. -/
theorem assign?_of_level (value : String) (h : (scopes.binding? level name).isSome = true)
    (habove : ∀ above, level < above → scopes.binding? above name = none) :
    ∃ assigned, scopes.assign? name value = some assigned ∧
      ∀ other key, assigned.binding? other key =
        if other = level ∧ key = name then some (.assigned value)
        else scopes.binding? other key := by
  induction scopes with
  | global scope =>
      rw [binding?] at h
      split at h
      · next hlevel =>
          subst hlevel
          have hdeclares : scope.declares name = true := h
          refine ⟨global (scope.set name value), ?_, ?_⟩
          · rw [assign?, if_pos hdeclares]
          · intro other key
            rw [binding?, binding?, get?_set_of_declares hdeclares]
            by_cases hother : other = 0 <;> simp [hother]
      · cases h
  | nested scope outer ih =>
      by_cases hlevel : level = outer.depth
      · -- The innermost scope has the name, and the assignment goes no further.
        rw [binding?, if_pos hlevel] at h
        have hdeclares : scope.declares name = true := h
        refine ⟨nested (scope.set name value) outer, ?_, ?_⟩
        · rw [assign?, if_pos hdeclares]
        · intro other key
          rw [binding?, binding?, get?_set_of_declares hdeclares, hlevel]
          by_cases hother : other = outer.depth <;> simp [hother]
      · -- The level is an outer one, so that the innermost scope does not have the name.
        rw [binding?, if_neg hlevel] at h
        have hlt : level < outer.depth := by
          refine Nat.lt_of_not_le fun hle => ?_
          rw [binding?_of_depth_le hle] at h
          cases h
        have hdeclares : scope.declares name = false := by
          have hinner := habove outer.depth hlt
          rw [binding?, if_pos rfl] at hinner
          rw [Scope.declares, hinner, Option.isSome_none]
        have houter (above : Nat) (hlevel : level < above) : outer.binding? above name = none := by
          by_cases hdepth : outer.depth ≤ above
          · exact binding?_of_depth_le hdepth
          · have hinner := habove above hlevel
            rwa [binding?, if_neg (by omega)] at hinner
        obtain ⟨assigned, hassigned, hbinding⟩ := ih h houter
        have hdepth := outer.depth_assign? name value
        rw [hassigned, Option.getD_some] at hdepth
        refine ⟨nested scope assigned, ?_, ?_⟩
        · rw [assign?, hdeclares, hassigned]
          rfl
        · intro other key
          rw [binding?, binding?, hdepth, hbinding]
          by_cases hother : other = outer.depth
          · simp [hother, Ne.symm hlevel]
          · simp [hother]

/-- Where no scope has the name there is nothing to assign to. -/
theorem assign?_eq_none (value : String) (h : ∀ level, scopes.binding? level name = none) :
    scopes.assign? name value = none := by
  induction scopes with
  | global scope =>
      have hscope : scope.get? name = none := h 0
      rw [assign?, Scope.declares, hscope]
      rfl
  | nested scope outer ih =>
      have hscope : scope.get? name = none := by
        have hinner := h outer.depth
        rwa [binding?, if_pos rfl] at hinner
      have houter (level : Nat) : outer.binding? level name = none := by
        by_cases hlevel : level = outer.depth
        · exact binding?_of_depth_le (Nat.le_of_eq hlevel.symm)
        · have hinner := h level
          rwa [binding?, if_neg hlevel] at hinner
      rw [assign?, Scope.declares, hscope, ih houter]
      rfl

/-- Of the levels that have a name there is an innermost one. -/
theorem exists_innermost (h : (scopes.binding? level name).isSome = true) :
    ∃ innermost, (scopes.binding? innermost name).isSome = true ∧
      ∀ above, innermost < above → scopes.binding? above name = none := by
  induction hrest : scopes.depth - level using Nat.strongRecOn generalizing level with
  | ind rest ih =>
      by_cases hlast : ∀ above, level < above → scopes.binding? above name = none
      · exact ⟨level, h, hlast⟩
      · obtain ⟨above, hlast⟩ := Classical.not_forall.mp hlast
        obtain ⟨hlt, hsome⟩ := Classical.not_imp.mp hlast
        have hopen : above < scopes.depth := by
          apply Nat.lt_of_not_le
          intro hle
          exact hsome (binding?_of_depth_le hle)
        exact ih (scopes.depth - above) (by omega) (Option.isSome_iff_ne_none.mpr hsome) rfl

/-- An assignment adds no name to any scope. -/
theorem isSome_binding?_assign? (scopes : Scopes) (name value : String) (level : Nat)
    (key : String) :
    (((scopes.assign? name value).getD scopes).binding? level key).isSome =
      (scopes.binding? level key).isSome := by
  by_cases hnone : ∀ level, scopes.binding? level name = none
  · rw [assign?_eq_none value hnone, Option.getD_none]
  · obtain ⟨found, hfound⟩ := Classical.not_forall.mp hnone
    obtain ⟨innermost, hsome, habove⟩ := exists_innermost (Option.isSome_iff_ne_none.mpr hfound)
    obtain ⟨assigned, hassigned, hbinding⟩ := assign?_of_level value hsome habove
    rw [hassigned, Option.getD_some, hbinding]
    split
    · next htarget => rw [htarget.1, htarget.2, hsome, Option.isSome_some]
    · rfl

end Scopes

end LolMarkup
