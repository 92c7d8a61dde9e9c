/-!
# Nested scopes

A scope maps names to bindings. Scopes are nested, the global scope being the outermost; it can be
neither left nor removed. A declaration concerns the innermost scope alone, while an assignment and
a lookup concern the innermost scope that declares the name.
-/

namespace LolMarkup

/-- What is known of a declared name: that it has no value yet, or its value. -/
inductive Binding where
  | unassigned
  | assigned (value : String)
deriving DecidableEq, Repr

/-- The names declared in one scope with their bindings, in the order of declaration. -/
structure Scope where
  bindings : List (String × Binding)
deriving DecidableEq, Repr

namespace Scope

/-- The scope in which nothing is declared. -/
def empty : Scope := ⟨[]⟩

/-- The binding of a name. -/
def get? (scope : Scope) (name : String) : Option Binding :=
  scope.bindings.lookup name

/-- Whether a scope declares a name. -/
def declares (scope : Scope) (name : String) : Bool :=
  (scope.get? name).isSome

/-- Add a name without a value. -/
def insert (scope : Scope) (name : String) : Scope :=
  ⟨scope.bindings ++ [(name, .unassigned)]⟩

/-- Give a value to a name that the scope declares. -/
def set (scope : Scope) (name value : String) : Scope :=
  ⟨scope.bindings.map fun entry => if entry.1 = name then (name, .assigned value) else entry⟩

end Scope

/-- Nested scopes: the global one alone, or an innermost one within others. -/
inductive Scopes where
  | global (scope : Scope)
  | nested (innermost : Scope) (outer : Scopes)
deriving DecidableEq, Repr

namespace Scopes

/-- A global scope in which nothing is declared. -/
def initial : Scopes := global .empty

/-- How many scopes there are. -/
def depth : Scopes → Nat
  | global _ => 1
  | nested _ outer => outer.depth + 1

/-- Enter a new innermost scope. -/
def push (scopes : Scopes) : Scopes :=
  nested .empty scopes

/-- Leave the innermost scope. The global scope is never left. -/
def pop : Scopes → Scopes
  | global scope => global scope
  | nested _ outer => outer

/-- Entering a scope makes one more. -/
@[simp] theorem depth_push (scopes : Scopes) : scopes.push.depth = scopes.depth + 1 := rfl

/-- Leaving a scope that was just entered changes nothing. -/
@[simp] theorem pop_push (scopes : Scopes) : scopes.push.pop = scopes := rfl

/-- Declare a name in the innermost scope, unless that scope already declares it. -/
def declare? (scopes : Scopes) (name : String) : Option Scopes :=
  match scopes with
  | global scope => if scope.declares name then none else some (global (scope.insert name))
  | nested scope outer =>
      if scope.declares name then none else some (nested (scope.insert name) outer)

/-- Assign a value in the innermost scope that declares the name, if there is one. -/
def assign? (scopes : Scopes) (name value : String) : Option Scopes :=
  match scopes with
  | global scope => if scope.declares name then some (global (scope.set name value)) else none
  | nested scope outer =>
      if scope.declares name then some (nested (scope.set name value) outer)
      else (outer.assign? name value).map (nested scope)

/-- The binding of a name in the innermost scope that declares it. -/
def lookup (scopes : Scopes) (name : String) : Option Binding :=
  match scopes with
  | global scope => scope.get? name
  | nested scope outer => (scope.get? name).or (outer.lookup name)

/-- A new scope hides no name. -/
@[simp] theorem lookup_push (scopes : Scopes) (name : String) :
    scopes.push.lookup name = scopes.lookup name := rfl

end Scopes

end LolMarkup
