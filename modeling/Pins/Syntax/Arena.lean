import Pins.Text.Position
import Pins.Text.Quoted
import Pins.Syntax.Operator

/-!
# Programs as arenas of nodes

A program is kept as an arena: a sequence of nodes that refer to each other by number. What later
passes find out about a node is kept in tables under its number. A parsed program has every node
behind its children and the list of its top-level definitions last; the passes ask for no more
than that whatever they descend into is not endless.
-/

namespace Pins

/-- The number of a node in its arena. -/
structure NodeId where
  /-- The index of the node. -/
  index : Nat
deriving DecidableEq, Repr

/-- The written form of a node number. -/
def NodeId.text (id : NodeId) : String := "#" ++ toString id.index

/-- What a definition can define. -/
inductive DefinitionKind where
  | function
  | var
  | type
  | parameter
deriving DecidableEq, Repr

/-- The word for a kind of definition. -/
def DefinitionKind.text : DefinitionKind → String
  | function => "function"
  | var => "variable"
  | type => "type"
  | parameter => "parameter"

/-- A definition: whatever a name can be bound to. -/
inductive Definition where
  /-- A function of parameters, with a written result type and a body. -/
  | function (name : String) (parameters : List NodeId) (result body : NodeId)
  /-- A variable of a written type. -/
  | var (name : String) (written : NodeId)
  /-- A name for a written type. -/
  | type (name : String) (written : NodeId)
  /-- A parameter of a written type. -/
  | parameter (name : String) (written : NodeId)
deriving DecidableEq, Repr

namespace Definition

/-- The name defined. -/
def name : Definition → String
  | function name .. => name
  | var name _ => name
  | type name _ => name
  | parameter name _ => name

/-- What is defined. -/
def kind : Definition → DefinitionKind
  | function .. => .function
  | var .. => .var
  | type .. => .type
  | parameter .. => .parameter

/-- The nodes directly below a definition, in source order. -/
def children : Definition → List NodeId
  | function _ parameters result body => parameters ++ [result, body]
  | var _ written => [written]
  | type _ written => [written]
  | parameter _ written => [written]

/-- The line that describes a definition. -/
def text : Definition → String
  | function name .. => "FunDef " ++ name
  | var name _ => "VarDef " ++ name
  | type name _ => "TypeDef " ++ name
  | parameter name _ => "Parameter " ++ name

end Definition

/-- An expression: whatever computes a value, control flow included. -/
inductive Expression where
  /-- A call of a function or a built-in routine. -/
  | call (callee : String) (arguments : List NodeId)
  /-- Two operands and an operator, also an array and its index or the sides of an assignment. -/
  | binary (operator : BinaryOperator) (left right : NodeId)
  /-- A sequence of expressions in parentheses. -/
  | block (expressions : List NodeId)
  /-- A loop that counts; the counter is the name of a variable. -/
  | forLoop (counter low high step body : NodeId)
  /-- A loop under a condition. -/
  | whileLoop (condition body : NodeId)
  /-- A name of a variable or parameter. -/
  | name (text : String)
  /-- A choice, with or without a second branch. -/
  | conditional (condition thenBranch : NodeId) (elseBranch : Option NodeId)
  /-- A literal of a class. -/
  | literal (value : String) (atom : Atom)
  /-- An operator before its operand. -/
  | unary (operator : UnaryOperator) (operand : NodeId)
  /-- An expression under definitions of its own. -/
  | whereClause (definitions expression : NodeId)
deriving DecidableEq, Repr

namespace Expression

/-- The nodes directly below an expression. -/
def children : Expression → List NodeId
  | call _ arguments => arguments
  | binary _ left right => [left, right]
  | block expressions => expressions
  | forLoop counter low high step body => [counter, low, high, step, body]
  | whileLoop condition body => [condition, body]
  | name _ => []
  | conditional condition thenBranch elseBranch => condition :: thenBranch :: elseBranch.toList
  | literal .. => []
  | unary _ operand => [operand]
  | whereClause definitions expression => [definitions, expression]

/-- The line that describes an expression. -/
def text : Expression → String
  | call callee _ => "Call " ++ callee
  | binary operator .. => "Binary " ++ operator.text
  | block _ => "Block"
  | forLoop .. => "For"
  | whileLoop .. => "While"
  | name word => "Name " ++ word
  | conditional .. => "IfThenElse"
  | literal value atom => "Literal " ++ atom.text ++ " " ++ Text.quoted value
  | unary operator _ => "Unary " ++ operator.text
  | whereClause .. => "Where"

end Expression

/-- A type as it is written, before names in it are looked up. -/
inductive WrittenType where
  | atom (word : Atom)
  /-- An array of a number of elements. -/
  | array (size : Nat) (element : NodeId)
  /-- The name of a type definition. -/
  | name (text : String)
deriving DecidableEq, Repr

namespace WrittenType

/-- The nodes directly below a written type. -/
def children : WrittenType → List NodeId
  | array _ element => [element]
  | _ => []

/-- The line that describes a written type. -/
def text : WrittenType → String
  | atom word => "Atom " ++ word.text
  | array size _ => "Array [" ++ toString size ++ "]"
  | name word => "TypeName " ++ word

end WrittenType

/-- What a node stands for. -/
inductive NodeKind where
  /-- Definitions of one scope: the program itself, or those of a where clause. -/
  | definitions (members : List NodeId)
  | definition (item : Definition)
  | expression (item : Expression)
  | type (item : WrittenType)
deriving DecidableEq, Repr

namespace NodeKind

/-- The nodes directly below a node. -/
def children : NodeKind → List NodeId
  | definitions members => members
  | definition item => item.children
  | expression item => item.children
  | type item => item.children

/-- The line that describes a node without its children. -/
def text : NodeKind → String
  | definitions _ => "Defs"
  | definition item => item.text
  | expression item => item.text
  | type item => item.text

end NodeKind

/-- A node and the stretch of source it was read from. -/
structure Node where
  /-- What the node stands for. -/
  kind : NodeKind
  /-- Where it was read. -/
  span : Text.Span
deriving DecidableEq, Repr

/-- A program: its nodes, and which of them holds the top-level definitions. -/
structure Arena where
  /-- The nodes in the order of their numbers. -/
  nodes : Array Node
  /-- The top-level definitions, if there are any. -/
  root : Option NodeId
deriving DecidableEq, Repr

namespace Arena

/-- The arena without nodes. -/
def empty : Arena := ⟨#[], none⟩

/-- The number of nodes. -/
def size (arena : Arena) : Nat := arena.nodes.size

/-- The number the next node gets. -/
def nextId (arena : Arena) : NodeId := ⟨arena.size⟩

/-- The arena with one more node, which gets the number `arena.nextId`. -/
def push (arena : Arena) (node : Node) : Arena := { arena with nodes := arena.nodes.push node }

/-- The numbers of all nodes in order. -/
def ids (arena : Arena) : List NodeId := (List.range arena.size).map NodeId.mk

/-- The node of a number. -/
def node? (arena : Arena) (id : NodeId) : Option Node := arena.nodes[id.index]?

/-- What the node of a number stands for. -/
def kind? (arena : Arena) (id : NodeId) : Option NodeKind := (arena.node? id).map Node.kind

/-- The definition of a number. -/
def definition? (arena : Arena) (id : NodeId) : Option Definition :=
  match arena.kind? id with
  | some (.definition item) => some item
  | _ => none

/-- The expression of a number. -/
def expression? (arena : Arena) (id : NodeId) : Option Expression :=
  match arena.kind? id with
  | some (.expression item) => some item
  | _ => none

/-- The written type of a number. -/
def type? (arena : Arena) (id : NodeId) : Option WrittenType :=
  match arena.kind? id with
  | some (.type item) => some item
  | _ => none

/-- The stretch of source of a node; a number without a node has an empty one. -/
def span (arena : Arena) (id : NodeId) : Text.Span :=
  match arena.node? id with
  | some node => node.span
  | none => .empty (.origin "")

/-- The place where a node begins. -/
def position (arena : Arena) (id : NodeId) : Text.Position := (arena.span id).start

/-- The line that describes the node of a number. -/
def describe (arena : Arena) (id : NodeId) : String :=
  match arena.kind? id with
  | some kind => kind.text
  | none => ""

/-- A bound on how deep a pass over an arena can be nested. A path that meets no node twice has at
most as many nodes as the arena, and a pass that looks up definitions on its way strings together
at most as many such paths. -/
def depthBound (arena : Arena) : Nat := (arena.size + 1) * (arena.size + 1)

theorem node?_push_of_lt {arena : Arena} {node : Node} {id : NodeId}
    (earlier : id.index < arena.size) : (arena.push node).node? id = arena.node? id := by
  have distinct : id.index ≠ arena.nodes.size := Nat.ne_of_lt earlier
  simp [node?, push, Array.getElem?_push, distinct]

theorem node?_push_nextId (arena : Arena) (node : Node) :
    (arena.push node).node? arena.nextId = some node := by
  simp [node?, push, nextId, size]

theorem size_push (arena : Arena) (node : Node) : (arena.push node).size = arena.size + 1 := by
  simp [size, push]

end Arena

end Pins
