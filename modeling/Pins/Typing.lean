import Pins.Builtin
import Pins.Diagnostic
import Pins.NodeTable

/-!
# Giving every node a type

Types are found on demand and kept: the type of a definition is looked up when something first
refers to it, wherever the definition stands. A definition that is met again while its own type is
being looked up depends on itself, which is a cycle of type definitions. A failed lookup leaves the
definition marked as being looked up.

Four entry points find the type of a definition, of a written type, of an expression, and check a
whole node with everything below it; they may be called in any order on one state.
-/

namespace Pins.Typing

/-- How far the lookup of a definition's type has come. -/
inductive Resolution where
  /-- Nothing has asked for the type yet. -/
  | unvisited
  /-- The lookup has begun and has not ended with a type. -/
  | inProgress
  /-- The type is known. -/
  | done (type : Ty)
deriving DecidableEq, Repr

/-- What typing has reached. -/
structure State where
  /-- The types found. -/
  types : NodeTable Ty
  /-- The definitions whose lookup has begun. -/
  begun : NodeTable Unit
deriving DecidableEq, Repr

namespace State

/-- No type is known. -/
def initial : State := ⟨.empty, .empty⟩

/-- How far the lookup of a definition has come. -/
def resolution (state : State) (id : NodeId) : Resolution :=
  match state.begun.get? id, state.types.get? id with
  | none, _ => .unvisited
  | some (), none => .inProgress
  | some (), some type => .done type

/-- The state in which the lookup of a definition has begun. -/
def beginning (state : State) (id : NodeId) : State :=
  { state with begun := (state.begun.store? id ()).getD state.begun }

end State

/-- A step of the pass. -/
abbrev Check (α : Type) := Pass State α

/-- Stops at a node. -/
def fail {α : Type} (arena : Arena) (id : NodeId) (fault : Fault) : Check α :=
  throw ⟨fault, arena.position id⟩

/-- Stops because the calls are nested deeper than their bound allows. -/
def exhausted {α : Type} (arena : Arena) (id : NodeId) : Check α :=
  fail arena id (.internalError "nesting bound exceeded")

/-- Keeps the type of a node and hands it on. -/
def record (arena : Arena) (id : NodeId) (type : Ty) : Check Ty := do
  let state ← get
  match state.types.store? id type with
  | some types =>
    set { state with types }
    return type
  | none => fail arena id (.internalError ("type of " ++ id.text ++ " computed twice"))

/-- The kept type of a node, or else the one found now. -/
def memoized (id : NodeId) (find : Check Ty) : Check Ty := do
  match (← get).types.get? id with
  | some type => return type
  | none => find

/-- The fault of a definition that depends on itself. -/
def cycleFault : Definition → Fault
  | .type name _ => .cyclicTypeDefinition name
  | other => .internalError (other.name ++ " depends on itself")

/-- The type of a definition, given how to find those of other definitions and of written types. A
function has the type its parameters and its written result give it, whatever its body. -/
def definitionStep (arena : Arena) (ofDefinition ofWritten : NodeId → Check Ty) (id : NodeId) :
    Check Ty := do
  match arena.definition? id with
  | none => fail arena id (.internalError (id.text ++ " is not a definition"))
  | some definition =>
    match (← get).resolution id with
    | .done type => return type
    | .inProgress => fail arena id (cycleFault definition)
    | .unvisited =>
      modify fun state => state.beginning id
      let type ← match definition with
        | .function _ parameters result _ => do
          let parameters ← parameters.mapM ofDefinition
          let result ← ofWritten result
          pure (.function parameters result)
        | .var _ written => ofWritten written
        | .type _ written => ofWritten written
        | .parameter _ written => ofWritten written
      record arena id type

/-- The type of a written type, given how to find those of definitions and of other written types.
Every array type must have a size. -/
def writtenStep (arena : Arena) (bindings : NodeTable NodeId)
    (ofDefinition ofWritten : NodeId → Check Ty) (id : NodeId) : Check Ty :=
  memoized id do
    match arena.type? id with
    | none => fail arena id (.internalError (id.text ++ " is not a type"))
    | some (.atom atom) => record arena id (.ofAtom atom)
    | some (.array length element) =>
      let type := Ty.array length (← ofWritten element)
      if type.size?.isSome then record arena id type
      else fail arena id (.typeTooLarge type.text)
    | some (.name name) =>
      match bindings.get? id with
      | none => fail arena id (.undefinedType name)
      | some definition => record arena id (← ofDefinition definition)

mutual

/-- The type of a definition, through at most `fuel` nested calls. -/
def definitionTypeWithin (arena : Arena) (bindings : NodeTable NodeId) : Nat → NodeId → Check Ty
  | 0 => exhausted arena
  | fuel + 1 =>
    definitionStep arena (definitionTypeWithin arena bindings fuel)
      (writtenTypeWithin arena bindings fuel)

/-- The type of a written type, through at most `fuel` nested calls. -/
def writtenTypeWithin (arena : Arena) (bindings : NodeTable NodeId) : Nat → NodeId → Check Ty
  | 0 => exhausted arena
  | fuel + 1 =>
    writtenStep arena bindings (definitionTypeWithin arena bindings fuel)
      (writtenTypeWithin arena bindings fuel)

end

/-- The type of a definition. -/
def definitionType (arena : Arena) (bindings : NodeTable NodeId) : NodeId → Check Ty :=
  definitionTypeWithin arena bindings arena.depthBound

/-- The type of a written type. -/
def writtenType (arena : Arena) (bindings : NodeTable NodeId) : NodeId → Check Ty :=
  writtenTypeWithin arena bindings arena.depthBound

/-- Stops because an operator does not take operands of these types. -/
def refuseOperands {α : Type} (arena : Arena) (id : NodeId) (operator : String)
    (operands : List Ty) : Check α :=
  fail arena id (.operandTypeMismatch operator (String.intercalate ", " (operands.map Ty.text)))

/-- The type of an operation on two operands of these types. -/
def binaryType (arena : Arena) (id left right : NodeId) (operator : BinaryOperator)
    (leftType rightType : Ty) : Check Ty :=
  match operator with
  | .or | .and =>
    if leftType = .logical ∧ rightType = .logical then return .logical
    else refuseOperands arena id operator.text [leftType, rightType]
  | .add | .sub | .mul | .div | .mod =>
    if leftType = .integer ∧ rightType = .integer then return .integer
    else refuseOperands arena id operator.text [leftType, rightType]
  | .eq | .neq | .lt | .gt | .leq | .geq =>
    if leftType = rightType ∧ (leftType = .integer ∨ leftType = .logical) then return .logical
    else refuseOperands arena id operator.text [leftType, rightType]
  | .index =>
    match leftType.element? with
    | none => fail arena left (.indexOnNonArray leftType.text)
    | some element =>
      if rightType = .integer then return element
      else refuseOperands arena right operator.text [rightType]
  | .assign =>
    if leftType = rightType ∧ leftType.isAtomic then return leftType
    else fail arena id (.assignmentTypeMismatch leftType.text rightType.text)

/-- The type an operator before an operand takes and gives. -/
def unaryType : UnaryOperator → Ty
  | .plus | .minus => .integer
  | .not => .logical

/-- Checks that a condition is logical. -/
def condition (arena : Arena) (typeOf : NodeId → Check Ty) (id : NodeId) : Check Unit := do
  let type ← typeOf id
  unless type = .logical do fail arena id (.nonBooleanCondition type.text)

/-- Checks that a part of a counting loop is an integer; `part` is the word for it. -/
def loopPart (arena : Arena) (typeOf : NodeId → Check Ty) (part : String) (id : NodeId) :
    Check Unit := do
  let type ← typeOf id
  unless type = .integer do fail arena id (.nonIntegerLoopBound part type.text)

/-- Checks arguments against the types of as many parameters, counting from `index`. -/
def checkArguments (arena : Arena) (typeOf : NodeId → Check Ty) (callee : String) :
    Nat → List NodeId → List Ty → Check Unit
  | index, argument :: arguments, parameter :: parameters => do
    let type ← typeOf argument
    if type = parameter then
      checkArguments arena typeOf callee (index + 1) arguments parameters
    else
      fail arena argument (.argumentTypeMismatch callee index parameter.text type.text)
  | _, _, _ => return ()

/-- The function type a call goes by: that of the built-in routine, or that of the definition the
call is bound to. -/
def signature (arena : Arena) (bindings : NodeTable NodeId) (ofDefinition : NodeId → Check Ty)
    (id : NodeId) (callee : String) : Check Ty :=
  match Builtin.signature? callee, bindings.get? id with
  | some signature, _ => return signature
  | none, some definition => ofDefinition definition
  | none, none => fail arena id (.undefinedSymbol callee)

/-- The type of a call. -/
def callType (arena : Arena) (bindings : NodeTable NodeId) (ofDefinition typeOf : NodeId → Check Ty)
    (id : NodeId) (callee : String) (arguments : List NodeId) : Check Ty := do
  match ← signature arena bindings ofDefinition id callee with
  | .function parameters result =>
    if parameters.length = arguments.length then
      checkArguments arena typeOf callee 0 arguments parameters
      return result
    else fail arena id (.argumentCountMismatch callee parameters.length arguments.length)
  | _ => fail arena id (.internalError (callee ++ " is not callable"))

/-- The type of the last of some expressions, all of which are checked. -/
def lastType (typeOf : NodeId → Check Ty) : List NodeId → Check (Option Ty)
  | [] => return none
  | [only] => return some (← typeOf only)
  | first :: rest => do
    let _ ← typeOf first
    lastType typeOf rest

/-- The type of an expression, given how to find those of definitions and of the expressions in it
and how to check the definitions in it. -/
def expressionStep (arena : Arena) (bindings : NodeTable NodeId)
    (ofDefinition typeOf : NodeId → Check Ty) (check : NodeId → Check Unit) (id : NodeId) :
    Expression → Check Ty
  | .literal _ atom => return .ofAtom atom
  | .name name =>
    match bindings.get? id with
    | none => fail arena id (.undefinedSymbol name)
    | some definition => ofDefinition definition
  | .call callee arguments => callType arena bindings ofDefinition typeOf id callee arguments
  | .binary operator left right => do
    let leftType ← typeOf left
    let rightType ← typeOf right
    binaryType arena id left right operator leftType rightType
  | .unary operator operand => do
    let type ← typeOf operand
    if type = unaryType operator then return type
    else refuseOperands arena id operator.text [type]
  | .block expressions => do
    match ← lastType typeOf expressions with
    | some type => return type
    | none => fail arena id (.internalError "empty block")
  | .conditional test thenBranch elseBranch => do
    condition arena typeOf test
    let _ ← typeOf thenBranch
    elseBranch.toList.forM fun branch => do let _ ← typeOf branch
    return .void
  | .whileLoop test body => do
    condition arena typeOf test
    let _ ← typeOf body
    return .void
  | .forLoop counter low high step body => do
    loopPart arena typeOf "counter" counter
    loopPart arena typeOf "lower bound" low
    loopPart arena typeOf "upper bound" high
    loopPart arena typeOf "step" step
    let _ ← typeOf body
    return .void
  | .whereClause definitions expression => do
    check definitions
    typeOf expression

/-- Checks a node, given how to find the types of definitions, of written types and of expressions
and how to check other nodes. -/
def nodeStep (arena : Arena) (ofDefinition ofWritten typeOf : NodeId → Check Ty)
    (check : NodeId → Check Unit) (id : NodeId) : Check Unit := do
  match arena.kind? id with
  | none => fail arena id (.internalError (id.text ++ " is not a node"))
  | some (.definitions members) => members.forM check
  | some (.definition (.function name _ _ body)) =>
    match ← ofDefinition id with
    | .function _ result =>
      let type ← typeOf body
      unless type = result do
        fail arena body (.returnTypeMismatch name result.text type.text)
    | _ => fail arena id (.internalError (name ++ " has no signature"))
  | some (.definition _) =>
    let _ ← ofDefinition id
  | some (.expression _) =>
    let _ ← typeOf id
  | some (.type _) =>
    let _ ← ofWritten id

mutual

/-- The type of an expression, through at most `fuel` nested calls. -/
def expressionTypeWithin (arena : Arena) (bindings : NodeTable NodeId) : Nat → NodeId → Check Ty
  | 0 => exhausted arena
  | fuel + 1 => fun id => memoized id do
    match arena.expression? id with
    | none => fail arena id (.internalError (id.text ++ " is not an expression"))
    | some expression =>
      record arena id (← expressionStep arena bindings (definitionTypeWithin arena bindings fuel)
        (expressionTypeWithin arena bindings fuel) (checkWithin arena bindings fuel) id expression)

/-- Checks a node and what is below it, through at most `fuel` nested calls. -/
def checkWithin (arena : Arena) (bindings : NodeTable NodeId) : Nat → NodeId → Check Unit
  | 0 => exhausted arena
  | fuel + 1 =>
    nodeStep arena (definitionTypeWithin arena bindings fuel)
      (writtenTypeWithin arena bindings fuel) (expressionTypeWithin arena bindings fuel)
      (checkWithin arena bindings fuel)

end

/-- The type of an expression. -/
def expressionType (arena : Arena) (bindings : NodeTable NodeId) : NodeId → Check Ty :=
  expressionTypeWithin arena bindings arena.depthBound

/-- Checks a node and what is below it. -/
def check (arena : Arena) (bindings : NodeTable NodeId) : NodeId → Check Unit :=
  checkWithin arena bindings arena.depthBound

/-- The types of a program under its bindings. -/
def ofArena (arena : Arena) (bindings : NodeTable NodeId) : Except Diagnostic (NodeTable Ty) :=
  match arena.root with
  | none => .ok .empty
  | some root => (Pass.finalState (check arena bindings root) .initial).map State.types

/-- The line that shows the type of a node. -/
def entryText (arena : Arena) (entry : NodeId × Ty) : String :=
  entry.1.text ++ " " ++ arena.describe entry.1 ++ ": " ++ entry.2.text

end Pins.Typing
