import Pins.Builtin
import Pins.Chunk
import Pins.Diagnostic
import Pins.Layout

/-!
# Lowering to intermediate code

The pass turns every expression into intermediate code and every function, string literal and
top-level variable into a chunk, in the order in which it meets their ends. Logical values are 0 and
1, control structures have the value 0, and an array stands for its address.

`lowerExpression` says what is done at one expression, given how the expressions below it are
lowered; `lower` applies it all the way down.
-/

namespace Pins.Lowering

/-- What the earlier passes found out about a program. -/
structure Program where
  /-- The program. -/
  arena : Arena
  /-- The definitions that references mean. -/
  bindings : NodeTable NodeId
  /-- The types of nodes. -/
  types : NodeTable Ty
  /-- The frames of functions and the accesses of definitions. -/
  layout : Layout

/-- What lowering has reached. -/
structure State where
  /-- The labels left. -/
  labels : LabelSupply
  /-- The code of the nodes lowered so far. -/
  trees : NodeTable Ir.Tree
  /-- The chunks so far. -/
  chunks : Array Chunk
  /-- The static level of the function whose body is lowered. -/
  level : Nat

/-- A step of the pass. -/
abbrev Lower (α : Type) := Pass State α

/-- Nothing is lowered, outside all functions. -/
def State.initial (labels : LabelSupply) : State := ⟨labels, .empty, #[], 0⟩

/-- Stops at a node. -/
def fail {α : Type} (program : Program) (id : NodeId) (fault : Fault) : Lower α :=
  throw ⟨fault, program.arena.position id⟩

/-- Stops at a node because the passes before did not do their work. -/
def broken {α : Type} (program : Program) (id : NodeId) (message : String) : Lower α :=
  fail program id (.internalError message)

/-- The type of a node. -/
def requireType (program : Program) (id : NodeId) : Lower Ty :=
  match program.types.get? id with
  | some type => return type
  | none => broken program id (id.text ++ " has no type")

/-- The access of a definition. -/
def requireAccess (program : Program) (id : NodeId) : Lower Access :=
  match program.layout.accesses.get? id with
  | some access => return access
  | none => broken program id (id.text ++ " has no access")

/-- The frame of a function. -/
def requireFrame (program : Program) (id : NodeId) : Lower Frame :=
  match program.layout.frames.get? id with
  | some frame => return frame
  | none => broken program id (id.text ++ " has no frame")

/-- Takes the next label. -/
def freshLabel : Lower Label := do
  let labels := (← get).labels
  modify fun state => { state with labels := labels.rest }
  return labels.label

/-- Keeps the code of a node. -/
def record (program : Program) (id : NodeId) (tree : Ir.Tree) : Lower Unit := do
  let state ← get
  match state.trees.store? id tree with
  | some trees => set { state with trees }
  | none => broken program id (id.text ++ " lowered twice")

/-- Adds a chunk. -/
def emit (chunk : Chunk) : Lower Unit :=
  modify fun state => { state with chunks := state.chunks.push chunk }

/-- The code of a literal. The characters of a string become a chunk under a label. -/
def lowerLiteral (program : Program) (id : NodeId) (value : String) : Atom → Lower Ir.Expr
  | .integer =>
    match Text.signed? value with
    | some number => return .constant number
    | none => broken program id ("invalid integer " ++ value)
  | .logical => return .constant (if value = "true" then 1 else 0)
  | .string => do
    let label ← freshLabel
    emit (.data (.global wordSize label) value)
    return .name label

/-- The address at an offset from the frame pointer of the function at a level, seen from a function
at another level. -/
def slotAddress (level target : Nat) (offset : Int) : Ir.Expr :=
  .binop .add (Ir.staticLink ((level - target) + (target - level))) (.constant offset)

/-- The code of a name: the value kept for its definition, or the address of an array. The slot of
an array parameter holds the address. -/
def lowerName (program : Program) (id : NodeId) : Lower Ir.Expr := do
  match program.bindings.get? id with
  | none => broken program id (id.text ++ " names nothing")
  | some definition =>
    let type ← requireType program definition
    let value (address : Ir.Expr) := if type.isArray then address else .memory address
    match ← requireAccess program definition with
    | .global _ label => return value (.name label)
    | .inFrame _ offset level => return value (slotAddress (← get).level level offset)
    | .parameter _ offset level => return .memory (slotAddress (← get).level level offset)

/-- The static link that a function at a level hands to a callee at another: nothing to a top-level
function, its own frame to a function it defines, and otherwise the frame its own links lead to. -/
def linkToCallee (caller callee : Nat) : Ir.Expr :=
  if callee = 1 then .constant 0
  else if callee = caller + 1 then Ir.framePointer
  else Ir.staticLink (caller + 1 - callee)

/-- Keeps the frame pointer for the time of a call. -/
def saveFramePointer (callee : Frame) : Ir.Stmt :=
  .move (.memory (.binop .sub Ir.stackPointer (.constant callee.oldFramePointerOffset)))
    Ir.framePointer

/-- The code of a call. A built-in routine takes no static link. -/
def lowerCall (program : Program) (lower : NodeId → Lower Ir.Expr) (id : NodeId) (callee : String)
    (arguments : List NodeId) : Lower Ir.Expr := do
  let arguments ← arguments.mapM lower
  if Builtin.isRoutine callee then return .call (.named callee) (.constant 0 :: arguments)
  else
    match program.bindings.get? id with
    | none => broken program id ("call to " ++ callee ++ " is unbound")
    | some function =>
      let frame ← requireFrame program function
      let link := linkToCallee (← get).level frame.level
      return .eseq (saveFramePointer frame) (.call frame.label (link :: arguments))

/-- The code of an element of an array, or its address if it is an array itself. -/
def indexed (element : Ty) (size : Nat) (array index : Ir.Expr) : Ir.Expr :=
  let address := Ir.Expr.binop .add array (.binop .mul index (.constant size))
  if element.isArray then address else .memory address

/-- The code of an operation on two lowered operands. -/
def lowerBinary (program : Program) (id left : NodeId) (operator : BinaryOperator)
    (leftCode rightCode : Ir.Expr) : Lower Ir.Expr :=
  match operator with
  | .assign => return .eseq (.move leftCode rightCode) leftCode
  | .index => do
    match (← requireType program left).element? with
    | none => broken program id (id.text ++ " indexes a non-array")
    | some element =>
      match element.size? with
      | none => fail program left (.typeTooLarge element.text)
      | some size => return indexed element size leftCode rightCode
  | other =>
    match Ir.Operator.ofBinary? other with
    | some operator => return .binop operator leftCode rightCode
    | none => broken program id ("no IR operator for " ++ other.text)

/-- The code of an operator before its operand: a sum, or a difference from 0 or from 1. -/
def unaryCode (operand : Ir.Expr) : UnaryOperator → Ir.Expr
  | .plus => .binop .add (.constant 0) operand
  | .minus => .binop .sub (.constant 0) operand
  | .not => .binop .sub (.constant 1) operand

/-- Runs statements, for the value 0. -/
def zeroAfter (statements : List Ir.Stmt) : Ir.Expr := .eseq (.seq statements) (.constant 0)

/-- The code of a choice. -/
def lowerConditional (lower : NodeId → Lower Ir.Expr) (condition thenBranch : NodeId)
    (elseBranch : Option NodeId) : Lower Ir.Expr := do
  let condition ← lower condition
  let thenCode ← lower thenBranch
  let thenLabel ← freshLabel
  let endLabel ← freshLabel
  match elseBranch with
  | some elseBranch =>
    let elseCode ← lower elseBranch
    let elseLabel ← freshLabel
    return zeroAfter
      [.cjump condition thenLabel elseLabel, .label thenLabel, .exp thenCode, .jump endLabel,
        .label elseLabel, .exp elseCode, .label endLabel]
  | none =>
    return zeroAfter
      [.cjump condition thenLabel endLabel, .label thenLabel, .exp thenCode, .label endLabel]

/-- The code of a loop under a condition. -/
def lowerWhile (lower : NodeId → Lower Ir.Expr) (condition body : NodeId) : Lower Ir.Expr := do
  let condition ← lower condition
  let body ← lower body
  let startLabel ← freshLabel
  let bodyLabel ← freshLabel
  let endLabel ← freshLabel
  return zeroAfter
    [.label startLabel, .cjump condition bodyLabel endLabel, .label bodyLabel, .exp body,
      .jump startLabel, .label endLabel]

/-- The code of a loop that counts: the counter is set, and raised by the step behind every run of
the body, for as long as it is below the upper bound. -/
def lowerFor (lower : NodeId → Lower Ir.Expr) (counter low high step body : NodeId) :
    Lower Ir.Expr := do
  let counter ← lower counter
  let low ← lower low
  let high ← lower high
  let step ← lower step
  let body ← lower body
  let startLabel ← freshLabel
  let bodyLabel ← freshLabel
  let endLabel ← freshLabel
  return zeroAfter
    [.move counter low, .label startLabel, .cjump (.binop .lt counter high) bodyLabel endLabel,
      .label bodyLabel, .exp body, .move counter (.binop .add counter step), .jump startLabel,
      .label endLabel]

/-- The code of a sequence of expressions: the value of the last one behind the effects of the
others. -/
def lowerBlock (program : Program) (lower : NodeId → Lower Ir.Expr) (id : NodeId)
    (expressions : List NodeId) : Lower Ir.Expr := do
  match expressions.getLast? with
  | none => broken program id "empty block"
  | some last =>
    let statements ← expressions.dropLast.mapM fun expression => do
      return Ir.Stmt.exp (← lower expression)
    let value ← lower last
    return .eseq (.seq statements) value

/-- Runs a step at a static level, and returns to the level before. -/
def atLevel {α : Type} (level : Nat) (step : Lower α) : Lower α := do
  let outer := (← get).level
  modify fun state => { state with level }
  Pass.leaving (fun state => { state with level := outer }) step

/-- Lowers a function: its body's value is moved to the address in the frame pointer. -/
def lowerFunction (program : Program) (lower : NodeId → Lower Ir.Expr) (id body : NodeId) :
    Lower Unit := do
  let frame ← requireFrame program id
  let value ← atLevel frame.level (lower body)
  let code := Ir.Stmt.move (.memory Ir.framePointer) value
  record program id (.stmt code)
  emit (.code frame code)

/-- Lowers a definition. Only functions have code, and only variables with a label have storage of
their own. -/
def lowerDefinition (program : Program) (lower : NodeId → Lower Ir.Expr) (id : NodeId) :
    Lower Unit := do
  match program.arena.definition? id with
  | none => broken program id (id.text ++ " is not a definition")
  | some (.function _ _ _ body) => lowerFunction program lower id body
  | some (.var ..) =>
    match ← requireAccess program id with
    | .global size label => emit (.global (.global size label))
    | _ => return ()
  | some _ => return ()

/-- Lowers the definitions of a list. -/
def lowerDefinitions (program : Program) (lower : NodeId → Lower Ir.Expr) (id : NodeId) :
    Lower Unit :=
  match program.arena.kind? id with
  | some (.definitions members) => members.forM (lowerDefinition program lower)
  | _ => broken program id (id.text ++ " is not a definition list")

/-- The code of an expression, given how to lower the expressions below it. -/
def expressionCode (program : Program) (lower : NodeId → Lower Ir.Expr) (id : NodeId) :
    Expression → Lower Ir.Expr
  | .literal value atom => lowerLiteral program id value atom
  | .name _ => lowerName program id
  | .call callee arguments => lowerCall program lower id callee arguments
  | .binary operator left right => do
    let leftCode ← lower left
    let rightCode ← lower right
    lowerBinary program id left operator leftCode rightCode
  | .unary operator operand => do return unaryCode (← lower operand) operator
  | .block expressions => lowerBlock program lower id expressions
  | .conditional condition thenBranch elseBranch =>
    lowerConditional lower condition thenBranch elseBranch
  | .whileLoop condition body => lowerWhile lower condition body
  | .forLoop counter low high step body => lowerFor lower counter low high step body
  | .whereClause definitions expression => do
    lowerDefinitions program lower definitions
    lower expression

/-- Lowers an expression and keeps its code, given how to lower the expressions below it. -/
def lowerExpression (program : Program) (lower : NodeId → Lower Ir.Expr) (id : NodeId) :
    Lower Ir.Expr := do
  match program.arena.expression? id with
  | none => broken program id (id.text ++ " is not an expression")
  | some expression =>
    let code ← expressionCode program lower id expression
    record program id (.expr code)
    return code

/-- Lowers an expression and what is below it, down to `fuel` levels. -/
def lowerWithin (program : Program) : Nat → NodeId → Lower Ir.Expr
  | 0 => fun id => broken program id "nesting bound exceeded"
  | fuel + 1 => lowerExpression program (lowerWithin program fuel)

/-- Lowers an expression and what is below it. -/
def lower (program : Program) : NodeId → Lower Ir.Expr :=
  lowerWithin program program.arena.depthBound

/-- The code of the nodes of a program, and its chunks. -/
def ofProgram (program : Program) (labels : LabelSupply) :
    Except Diagnostic (NodeTable Ir.Tree × Array Chunk) :=
  match program.arena.root with
  | none => .ok (.empty, #[])
  | some root =>
    (Pass.finalState (lowerDefinitions program (lower program) root) (.initial labels)).map
      fun state => (state.trees, state.chunks)

end Pins.Lowering
