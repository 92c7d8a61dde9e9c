import LolMarkup.Proofs.Scoping.Sites

/-!
# Nested scopes and the past

`Tied past scopes chain` says that nested scopes hold what the past makes of the addresses in the
chain, level by level and also for names that an inner level hides. One site more keeps them tied:
a reference changes nothing, and a declaration and an assignment change the scopes as the walk does
(`Tied.refers`, `Tied.declares`, `Tied.assigns`).
-/

namespace LolMarkup

namespace Scope

/-- An empty scope has no names. -/
@[simp] theorem get?_empty (name : String) : empty.get? name = none := rfl

/-- The first binding of a name is the one that is found. -/
theorem lookup_cons (bindings : List (String × Binding)) (key other : String) (binding : Binding) :
    List.lookup other ((key, binding) :: bindings) =
      if other = key then some binding else bindings.lookup other := by
  by_cases h : other = key
  · simp [h]
  · simp [h, List.lookup_cons, beq_false_of_ne h]

/-- A name that is inserted has no value, unless it has a binding already. -/
theorem get?_insert (scope : Scope) (name other : String) :
    (scope.insert name).get? other =
      (scope.get? other).or (if other = name then some .unassigned else none) := by
  unfold insert get?
  rw [List.lookup_append, lookup_cons]
  rfl

/-- A name is set where it has a binding, and nowhere else. -/
theorem get?_set (scope : Scope) (name value other : String) :
    (scope.set name value).get? other =
      if other = name then (scope.get? other).map fun _ => .assigned value
      else scope.get? other := by
  obtain ⟨bindings⟩ := scope
  unfold set get?
  induction bindings with
  | nil => simp
  | cons entry rest ih =>
      obtain ⟨key, binding⟩ := entry
      rw [List.map_cons, lookup_cons rest]
      by_cases hkey : key = name
      · subst hkey
        rw [if_pos rfl, lookup_cons, ih]
        by_cases hother : other = key <;> simp [hother]
      · rw [if_neg hkey, lookup_cons, ih]
        by_cases hother : other = key
        · subst hother
          simp [hkey]
        · simp only [if_neg hother]

end Scope

namespace Scoping

variable {past : List Site} {site : Site} {address : Address} {name : String}

/-- What the past makes of a name in one scope. -/
def binding? (past : List Site) (address : Address) (name : String) : Option Binding :=
  if declared past address name then
    some (((value? address name past).map .assigned).getD .unassigned)
  else none

/-- A name has a binding exactly if it is declared. -/
@[simp] theorem isSome_binding? :
    (binding? past address name).isSome = declared past address name := by
  unfold binding?
  cases declared past address name <;> rfl

/-- A name is declared by the last site or before it. -/
theorem declared_cons :
    declared (site :: past) address name =
      (decide (site.use = .declares name ∧ site.scopes.head? = some address) ||
        declared past address name) :=
  List.any_cons

/-- A scope that holds a name declares it. -/
theorem declared_of_holder? {chain : List Address} (h : holder? past chain name = some address) :
    declared past address name = true :=
  List.find?_some (p := (declared past · name)) h

/-- A scope that does not have a name has no value for it. -/
theorem value?_eq_none (h : declared past address name = false) :
    value? address name past = none := by
  induction past with
  | nil => rfl
  | cons site past ih =>
      rw [declared_cons, Bool.or_eq_false_iff] at h
      have hpast := ih h.2
      unfold value?
      split
      · rw [if_neg, hpast]
        rintro ⟨-, hholder⟩
        rw [declared_of_holder? hholder] at h
        exact absurd h.2 (by decide)
      · exact hpast

/-- A reference changes no binding. -/
theorem binding?_refers {target : String} (huse : site.use = .refers target) :
    binding? (site :: past) address name = binding? past address name := by
  unfold binding?
  rw [declared_cons, value?, huse]
  simp

/-- A declaration gives its name a binding in its nearest scope, unless it has one. -/
theorem binding?_declares {target : String} (huse : site.use = .declares target) :
    binding? (site :: past) address name = (binding? past address name).or
      (if name = target ∧ site.scopes.head? = some address then some .unassigned else none) := by
  unfold binding?
  rw [declared_cons, value?, huse]
  cases hdeclared : declared past address name with
  | true => simp
  | false =>
      rw [value?_eq_none hdeclared]
      by_cases htarget : name = target <;>
        by_cases hnearest : site.scopes.head? = some address <;>
          simp [htarget, hnearest, eq_comm]

/-- A declaration changes no binding of another scope. -/
theorem binding?_declares_elsewhere {target : String} (huse : site.use = .declares target)
    (h : site.scopes.head? ≠ some address) :
    binding? (site :: past) address name = binding? past address name := by
  rw [binding?_declares huse, if_neg (fun hboth => h hboth.2), Option.or_none]

/-- A declaration that comes again changes no binding. -/
theorem binding?_redeclares {target : String} (huse : site.use = .declares target)
    (h : declared past address target = true) :
    binding? (site :: past) address name = binding? past address name := by
  rw [binding?_declares huse]
  by_cases htarget : name = target
  · subst htarget
    rw [← isSome_binding?] at h
    exact Option.or_of_isSome h
  · rw [if_neg (fun hboth => htarget hboth.1), Option.or_none]

/-- An assignment changes the value of its name in the scope that holds it. -/
theorem binding?_assigns {target value : String} (huse : site.use = .assigns target value) :
    binding? (site :: past) address name =
      if name = target ∧ holder? past site.scopes target = some address then
        (binding? past address name).map fun _ => .assigned value
      else binding? past address name := by
  unfold binding?
  rw [declared_cons, value?, huse]
  by_cases hname : name = target
  · subst hname
    by_cases hholder : holder? past site.scopes name = some address
    · simp [hholder, declared_of_holder? hholder]
    · simp [hholder]
  · simp [hname, Ne.symm hname]

/-- An assignment changes no binding of another scope. -/
theorem binding?_assigns_elsewhere {target value : String}
    (huse : site.use = .assigns target value)
    (h : holder? past site.scopes target ≠ some address) :
    binding? (site :: past) address name = binding? past address name := by
  rw [binding?_assigns huse, if_neg (fun hboth => h hboth.2)]

/-! ## Levels -/

/-- One scope holds what the past makes of an address. -/
def Holds (past : List Site) (address : Address) (scope : Scope) : Prop :=
  ∀ name, scope.get? name = binding? past address name

/-- A scope has the names that the past declares in it. -/
theorem Holds.declares {scope : Scope} (h : Holds past address scope) (name : String) :
    scope.declares name = declared past address name := by
  rw [Scope.declares, h name, isSome_binding?]

/-- A declaration is inserted into its nearest scope. -/
theorem Holds.insert {scope : Scope} (h : Holds past address scope) {target : String}
    (huse : site.use = .declares target) (hnearest : site.scopes.head? = some address) :
    Holds (site :: past) address (scope.insert target) := by
  intro name
  rw [Scope.get?_insert, h name, binding?_declares huse]
  simp [hnearest]

/-- An assignment sets its name in the scope that holds it. -/
theorem Holds.set {scope : Scope} (h : Holds past address scope) {target value : String}
    (huse : site.use = .assigns target value)
    (hholder : holder? past site.scopes target = some address) :
    Holds (site :: past) address (scope.set target value) := by
  intro name
  rw [Scope.get?_set, h name, binding?_assigns huse]
  simp [hholder]

/-- Nested scopes hold what the past makes of a chain of addresses, from the inside out. -/
inductive Tied (past : List Site) : Scopes → List Address → Prop where
  | global (scope : Scope) (address : Address) : Holds past address scope →
      Tied past (.global scope) [address]
  | nested (scope : Scope) (outer : Scopes) (address : Address) (chain : List Address) :
      address ∉ chain → Holds past address scope → Tied past outer chain →
      Tied past (.nested scope outer) (address :: chain)

variable {scopes : Scopes} {chain : List Address}

/-- There is always a scope. -/
theorem Tied.ne_nil (h : Tied past scopes chain) : chain ≠ [] := by
  cases h <;> simp

/-- Scopes stay tied as long as their bindings do not change. -/
theorem Tied.congr {more : List Site} (h : Tied past scopes chain)
    (hsame : ∀ address ∈ chain, ∀ name, binding? more address name = binding? past address name) :
    Tied more scopes chain := by
  induction h with
  | global scope address hscope =>
      refine .global scope address fun name => ?_
      rw [hscope name, hsame address List.mem_cons_self name]
  | nested scope outer address chain hnew hscope _ ih =>
      refine .nested scope outer address chain hnew (fun name => ?_) (ih fun other hother => ?_)
      · rw [hscope name, hsame address List.mem_cons_self name]
      · exact hsame other (List.mem_cons_of_mem address hother)

/-- The innermost scope holds a name that it declares. -/
theorem holder?_cons_of_declared (h : declared past address name = true) :
    holder? past (address :: chain) name = some address :=
  List.find?_cons_of_pos h

/-- A name that the innermost scope does not declare is held further out. -/
theorem holder?_cons_of_not_declared (h : declared past address name = false) :
    holder? past (address :: chain) name = holder? past chain name :=
  List.find?_cons_of_neg (by simp [h])

/-- The nested scopes find what the innermost scope with the name holds. -/
theorem Tied.lookup (h : Tied past scopes chain) (name : String) :
    scopes.lookup name = (holder? past chain name).bind (binding? past · name) := by
  induction h with
  | global scope address hscope =>
      rw [Scopes.lookup, hscope name]
      cases hdeclared : declared past address name with
      | true => rw [holder?_cons_of_declared hdeclared, Option.bind_some]
      | false =>
          rw [holder?_cons_of_not_declared hdeclared, binding?, hdeclared]
          rfl
  | nested scope outer address chain _ hscope _ ih =>
      rw [Scopes.lookup, hscope name, ih]
      cases hdeclared : declared past address name with
      | true =>
          rw [holder?_cons_of_declared hdeclared, Option.bind_some, binding?, if_pos hdeclared]
          rfl
      | false =>
          rw [holder?_cons_of_not_declared hdeclared, binding?, hdeclared]
          rfl

/-! ## One site more -/

/-- A reference leaves the scopes tied. -/
theorem Tied.refers (h : Tied past scopes chain) {target : String}
    (huse : site.use = .refers target) : Tied (site :: past) scopes chain :=
  h.congr fun _ _ _ => binding?_refers huse

/-- A name is declared unless the nearest scope already has it. -/
theorem Tied.declares (h : Tied past scopes chain) {target : String}
    (huse : site.use = .declares target) (hscopes : site.scopes = chain) :
    (scopes.declare? target).isNone = chain.head?.any (declared past · target) ∧
      Tied (site :: past) ((scopes.declare? target).getD scopes) chain := by
  have redeclared {address : Address} {rest : List Address} (hchain : chain = address :: rest)
      (hdeclared : declared past address target = true) : Tied (site :: past) scopes chain := by
    refine h.congr fun other _ _ => ?_
    by_cases hother : other = address
    · exact binding?_redeclares huse (hother ▸ hdeclared)
    · exact binding?_declares_elsewhere huse (by simp [hscopes, hchain, Ne.symm hother])
  cases h with
  | global scope address hscope =>
      rw [Scopes.declare?, hscope.declares target]
      cases hdeclared : declared past address target with
      | true => exact ⟨by simp [hdeclared], redeclared rfl hdeclared⟩
      | false =>
          have hinsert := hscope.insert huse (by rw [hscopes]; rfl)
          exact ⟨by simp [hdeclared], .global _ address hinsert⟩
  | nested scope outer address chain hnew hscope houter =>
      rw [Scopes.declare?, hscope.declares target]
      cases hdeclared : declared past address target with
      | true => exact ⟨by simp [hdeclared], redeclared rfl hdeclared⟩
      | false =>
          have hinsert := hscope.insert huse (by rw [hscopes]; rfl)
          have hrest : Tied (site :: past) outer chain := by
            refine houter.congr fun other hother _ => binding?_declares_elsewhere huse ?_
            rw [hscopes, List.head?_cons, ne_eq, Option.some.injEq]
            rintro rfl
            exact hnew hother
          exact ⟨by simp [hdeclared], .nested _ outer address chain hnew hinsert hrest⟩

/-- A value is assigned in the innermost scope that has the name. -/
theorem Tied.assigns (h : Tied past scopes chain) {target value : String}
    (huse : site.use = .assigns target value)
    (hholder : holder? past site.scopes target = holder? past chain target) :
    (scopes.assign? target value).isNone = (holder? past chain target).isNone ∧
      Tied (site :: past) ((scopes.assign? target value).getD scopes) chain := by
  induction h with
  | global scope address hscope =>
      rw [Scopes.assign?, hscope.declares target]
      cases hdeclared : declared past address target with
      | true =>
          rw [holder?_cons_of_declared hdeclared] at hholder ⊢
          exact ⟨rfl, .global _ address (hscope.set huse hholder)⟩
      | false =>
          rw [holder?_cons_of_not_declared hdeclared] at hholder ⊢
          have hsame : Holds (site :: past) address scope := by
            intro name
            rw [hscope name, binding?_assigns_elsewhere huse (by rw [hholder]; simp [holder?])]
          exact ⟨rfl, .global scope address hsame⟩
  | nested scope outer address chain hnew hscope houter ih =>
      rw [Scopes.assign?, hscope.declares target]
      cases hdeclared : declared past address target with
      | true =>
          -- The outer levels keep their values, since no address occurs twice.
          rw [holder?_cons_of_declared hdeclared] at hholder ⊢
          have hrest : Tied (site :: past) outer chain := by
            refine houter.congr fun other hother _ => binding?_assigns_elsewhere huse ?_
            rw [hholder, ne_eq, Option.some.injEq]
            rintro rfl
            exact hnew hother
          exact ⟨rfl, .nested _ outer address chain hnew (hscope.set huse hholder) hrest⟩
      | false =>
          rw [holder?_cons_of_not_declared hdeclared] at hholder ⊢
          obtain ⟨hnone, hrest⟩ := ih hholder
          have hsame : Holds (site :: past) address scope := by
            intro name
            rw [hscope name, binding?_assigns_elsewhere huse]
            intro heq
            exact hnew (List.mem_of_find?_eq_some (hholder.symm.trans heq))
          have hnested := Tied.nested scope _ address chain hnew hsame hrest
          cases hassign : outer.assign? target value with
          | none => simp_all
          | some assigned => simp_all

/-- Entering a scope that no site has seen leaves the scopes tied. -/
theorem Tied.push (h : Tied past scopes chain) (hnew : address ∉ chain)
    (hfresh : ∀ site ∈ past, address ∉ site.scopes) :
    Tied past scopes.push (address :: chain) := by
  refine .nested .empty scopes address chain hnew (fun name => ?_) h
  have hdeclared : declared past address name = false := by
    rw [declared, List.any_eq_false]
    intro site hsite hboth
    rw [decide_eq_true_eq] at hboth
    exact hfresh site hsite (List.mem_of_mem_head? hboth.2)
  rw [Scope.get?_empty, binding?, hdeclared]
  rfl

/-- Leaving a scope leaves the scopes tied. -/
theorem Tied.pop (h : Tied past scopes (address :: chain)) (hchain : chain ≠ []) :
    Tied past scopes.pop chain := by
  cases h with
  | global => exact absurd rfl hchain
  | nested _ _ _ _ _ _ houter => exact houter

end Scoping

end LolMarkup
