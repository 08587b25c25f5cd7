import Pins.Syntax.Arena

/-!
# Nested scopes

A scope lists the names it defines. Scopes are nested: a name means its definition in the innermost
scope that has one. The outermost scope is never closed.
-/

namespace Pins

/-- The names of one scope and the nodes that define them, the latest first. -/
abbrev Scope := List (String × NodeId)

/-- An open scope and those around it. -/
structure Scopes where
  /-- The scope new names enter. -/
  innermost : Scope
  /-- The scopes around it, from the inside to the outside. -/
  enclosing : List Scope
deriving DecidableEq, Repr

namespace Scopes

/-- One scope without names. -/
def outermost : Scopes := ⟨[], []⟩

/-- Opens a scope inside the innermost one. -/
def enter (scopes : Scopes) : Scopes := ⟨[], scopes.innermost :: scopes.enclosing⟩

/-- Closes the innermost scope, unless it is the only one. -/
def leave (scopes : Scopes) : Scopes :=
  match scopes.enclosing with
  | [] => scopes
  | next :: others => ⟨next, others⟩

/-- The number of open scopes. -/
def depth (scopes : Scopes) : Nat := scopes.enclosing.length + 1

/-- Defines a name in the innermost scope, or gives the definition that the scope has for it. -/
def define (scopes : Scopes) (name : String) (id : NodeId) : Except NodeId Scopes :=
  match scopes.innermost.lookup name with
  | some existing => .error existing
  | none => .ok { scopes with innermost := (name, id) :: scopes.innermost }

/-- The definition of a name in the innermost scope that has one. -/
def lookup? (scopes : Scopes) (name : String) : Option NodeId :=
  (scopes.innermost :: scopes.enclosing).findSome? fun scope => scope.lookup name

@[simp] theorem leave_enter (scopes : Scopes) : scopes.enter.leave = scopes := rfl

@[simp] theorem depth_enter (scopes : Scopes) : scopes.enter.depth = scopes.depth + 1 := rfl

/-- A scope without names hides nothing. -/
@[simp] theorem lookup?_enter (scopes : Scopes) (name : String) :
    scopes.enter.lookup? name = scopes.lookup? name := by
  simp [lookup?, enter, List.findSome?_cons]

/-- A definition hides those of its name outside and leaves the other names alone. -/
theorem lookup?_define {scopes after : Scopes} {name : String} {id : NodeId}
    (defined : scopes.define name id = .ok after) (other : String) :
    after.lookup? other = if other = name then some id else scopes.lookup? other := by
  unfold define at defined
  split at defined
  · cases defined
  · cases defined
    by_cases same : other = name
    · simp [lookup?, same]
    · have distinct : (other == name) = false := beq_eq_false_iff_ne.2 same
      simp [lookup?, List.findSome?_cons, List.lookup_cons, same, distinct]

end Scopes

end Pins
