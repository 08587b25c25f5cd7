import Pins.Frame.Label
import Pins.Syntax.Operator

/-!
# Intermediate code

Intermediate code is a tree of expressions, which compute a value, and statements, which only have
effects. The frame pointer and the stack pointer are named addresses.
-/

namespace Pins.Ir

/-- The operators of intermediate code. -/
inductive Operator where
  | or
  | and
  | eq
  | neq
  | lt
  | gt
  | leq
  | geq
  | add
  | sub
  | mul
  | div
  | mod
deriving DecidableEq, Repr

namespace Operator

/-- The operator that computes an operator of the language, if one alone does. -/
def ofBinary? : BinaryOperator → Option Operator
  | .or => some or
  | .and => some and
  | .eq => some eq
  | .neq => some neq
  | .lt => some lt
  | .gt => some gt
  | .leq => some leq
  | .geq => some geq
  | .add => some add
  | .sub => some sub
  | .mul => some mul
  | .div => some div
  | .mod => some mod
  | .index => none
  | .assign => none

/-- The mark of an operator. -/
def text : Operator → String
  | or => "|"
  | and => "&"
  | eq => "=="
  | neq => "!="
  | lt => "<"
  | gt => ">"
  | leq => "<="
  | geq => ">="
  | add => "+"
  | sub => "-"
  | mul => "*"
  | div => "/"
  | mod => "%"

end Operator

mutual

/-- Code that computes a value. -/
inductive Expr where
  | constant (value : Int)
  /-- The address of a label. -/
  | name (label : Label)
  /-- The value kept at an address. -/
  | memory (address : Expr)
  | binop (operator : Operator) (left right : Expr)
  /-- A call; the first argument is the static link. -/
  | call (label : Label) (arguments : List Expr)
  /-- Runs a statement, then computes an expression. -/
  | eseq (statement : Stmt) (value : Expr)

/-- Code that has an effect. -/
inductive Stmt where
  | move (destination source : Expr)
  /-- Computes an expression for its effects. -/
  | exp (value : Expr)
  | seq (statements : List Stmt)
  | label (label : Label)
  | jump (target : Label)
  | cjump (condition : Expr) (thenTarget elseTarget : Label)

end

/-- The intermediate code of one node. -/
inductive Tree where
  | expr (code : Expr)
  | stmt (code : Stmt)

/-- The frame pointer. -/
def framePointer : Expr := .name (.named "\x7bFP\x7d")

/-- The stack pointer. -/
def stackPointer : Expr := .name (.named "\x7bSP\x7d")

/-- The frame pointer followed through so many static links. -/
def staticLink : Nat → Expr
  | 0 => framePointer
  | depth + 1 => .memory (staticLink depth)

end Pins.Ir
