import Pins.Builtin
import Pins.Diagnostic
import Pins.NodeTable
import Pins.Scopes

/-!
# Binding names to definitions

The pass walks a tree once and records for every name, every called function and every written type
name which definition it means. All definitions of a list are visible throughout the list. A
function opens a scope for its parameters, which its body sees and its written types do not; a where
clause opens one for its definitions. Built-in routines are never bound.

`visitNode` says what is done at one node, given what is done below it; `visit` applies it all the
way down.
-/

namespace Pins.Binding

/-- What binding has reached: the open scopes, and the definitions found for references. -/
structure State where
  /-- The scopes around the node that is visited. -/
  scopes : Scopes
  /-- The definitions that references mean. -/
  bindings : NodeTable NodeId
deriving DecidableEq, Repr

/-- A step of the pass. -/
abbrev Bind (α : Type) := Pass State α

/-- One open scope and no bindings. -/
def State.initial : State := ⟨.outermost, .empty⟩

/-- Stops at a node. -/
def fail {α : Type} (arena : Arena) (id : NodeId) (fault : Fault) : Bind α :=
  throw ⟨fault, arena.position id⟩

/-- Binds a reference to the innermost definition of a name, which must be of an accepted kind;
`expected` is the word for these kinds. -/
def refer (arena : Arena) (reference : NodeId) (name expected : String)
    (accepted : List DefinitionKind) : Bind Unit := do
  let state ← get
  match state.scopes.lookup? name with
  | none => fail arena reference (.undefinedSymbol name)
  | some id =>
    match arena.definition? id with
    | none =>
      fail arena reference (.internalError ("symbol " ++ name ++ " is bound to a non-definition"))
    | some definition =>
      if definition.kind ∈ accepted then
        match state.bindings.store? reference id with
        | some bindings => set { state with bindings }
        | none =>
          fail arena reference
            (.internalError ("reference " ++ reference.text ++ " resolved twice"))
      else
        fail arena reference (.wrongKindReference name expected definition.kind.text)

/-- Enters a definition into the innermost scope. -/
def define (arena : Arena) (id : NodeId) : Bind Unit := do
  match arena.definition? id with
  | none => fail arena id (.internalError (id.text ++ " is not a definition"))
  | some definition =>
    let state ← get
    match state.scopes.define definition.name id with
    | .ok scopes => set { state with scopes }
    | .error _ => fail arena id (.duplicateDefinitionInScope definition.name)

/-- Runs a step in a scope of its own. -/
def inScope (step : Bind Unit) : Bind Unit := do
  modify fun state => { state with scopes := state.scopes.enter }
  Pass.leaving (fun state => { state with scopes := state.scopes.leave }) step

/-- The written types of those nodes that are parameters. -/
def parameterTypes (arena : Arena) (parameters : List NodeId) : List NodeId :=
  parameters.filterMap fun id =>
    match arena.definition? id with
    | some (.parameter _ written) => some written
    | _ => none

/-- Visits a definition; parameters are left to the function they belong to. -/
def visitDefinition (arena : Arena) (visit : NodeId → Bind Unit) : Definition → Bind Unit
  | .function _ parameters result body => do
    visit result
    (parameterTypes arena parameters).forM visit
    inScope do
      parameters.forM (define arena)
      visit body
  | .var _ written => visit written
  | .type _ written => visit written
  | .parameter .. => return ()

/-- Visits an expression. -/
def visitExpression (arena : Arena) (visit : NodeId → Bind Unit) (id : NodeId) :
    Expression → Bind Unit
  | .call name arguments => do
    unless Builtin.isRoutine name do refer arena id name "function" [.function]
    arguments.forM visit
  | .name name => refer arena id name "variable" [.var, .parameter]
  | .whereClause definitions expression => inScope do
    visit definitions
    visit expression
  | other => other.children.forM visit

/-- Visits a written type. -/
def visitWritten (arena : Arena) (visit : NodeId → Bind Unit) (id : NodeId) :
    WrittenType → Bind Unit
  | .atom _ => return ()
  | .array _ element => visit element
  | .name name => refer arena id name "type" [.type]

/-- Visits a node, given how to visit the nodes below it. -/
def visitNode (arena : Arena) (visit : NodeId → Bind Unit) (id : NodeId) : Bind Unit :=
  match arena.kind? id with
  | none => fail arena id (.internalError (id.text ++ " is not a node"))
  | some (.definitions members) => do
    members.forM (define arena)
    members.forM visit
  | some (.definition definition) => visitDefinition arena visit definition
  | some (.expression expression) => visitExpression arena visit id expression
  | some (.type written) => visitWritten arena visit id written

/-- Visits a node and what is below it, down to `fuel` levels. -/
def visitWithin (arena : Arena) : Nat → NodeId → Bind Unit
  | 0 => fun id => fail arena id (.internalError "nesting bound exceeded")
  | fuel + 1 => visitNode arena (visitWithin arena fuel)

/-- Visits a node and what is below it. -/
def visit (arena : Arena) : NodeId → Bind Unit := visitWithin arena arena.depthBound

/-- The bindings of a program. -/
def ofArena (arena : Arena) : Except Diagnostic (NodeTable NodeId) :=
  match arena.root with
  | none => .ok .empty
  | some root => (Pass.finalState (visit arena root) .initial).map State.bindings

/-- The line that shows the binding of a reference. -/
def entryText (arena : Arena) (entry : NodeId × NodeId) : String :=
  entry.1.text ++ " " ++ arena.describe entry.1 ++ " -> " ++
    entry.2.text ++ " " ++ arena.describe entry.2

end Pins.Binding
