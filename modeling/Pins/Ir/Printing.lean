import Pins.Ir.Basic
import Pins.Syntax.Dump

/-!
# Printing intermediate code

Every node of a tree is printed on a line of its own, with its parts below it, one level deeper and
in order.
-/

namespace Pins.Ir

mutual

/-- The lines of an expression at a depth. -/
def Expr.lines (depth : Nat) : Expr → List IndentedLine
  | .constant value => [⟨depth, "CONST " ++ toString value⟩]
  | .name label => [⟨depth, "NAME " ++ label.text⟩]
  | .memory address => ⟨depth, "MEM"⟩ :: address.lines (depth + 1)
  | .binop operator left right =>
    ⟨depth, "BINOP " ++ operator.text⟩ :: (left.lines (depth + 1) ++ right.lines (depth + 1))
  | .call label arguments => ⟨depth, "CALL " ++ label.text⟩ :: Expr.listLines (depth + 1) arguments
  | .eseq statement value =>
    ⟨depth, "ESEQ"⟩ :: (statement.lines (depth + 1) ++ value.lines (depth + 1))

/-- The lines of expressions at a depth. -/
def Expr.listLines (depth : Nat) : List Expr → List IndentedLine
  | [] => []
  | first :: rest => first.lines depth ++ Expr.listLines depth rest

/-- The lines of a statement at a depth. -/
def Stmt.lines (depth : Nat) : Stmt → List IndentedLine
  | .move destination source =>
    ⟨depth, "MOVE"⟩ :: (destination.lines (depth + 1) ++ source.lines (depth + 1))
  | .exp value => ⟨depth, "EXP"⟩ :: value.lines (depth + 1)
  | .seq statements => ⟨depth, "SEQ"⟩ :: Stmt.listLines (depth + 1) statements
  | .label label => [⟨depth, "LABEL " ++ label.text⟩]
  | .jump target => [⟨depth, "JUMP " ++ target.text⟩]
  | .cjump condition thenTarget elseTarget =>
    ⟨depth, "CJUMP " ++ thenTarget.text ++ " " ++ elseTarget.text⟩ :: condition.lines (depth + 1)

/-- The lines of statements at a depth. -/
def Stmt.listLines (depth : Nat) : List Stmt → List IndentedLine
  | [] => []
  | first :: rest => first.lines depth ++ Stmt.listLines depth rest

end

/-- The written form of an expression. -/
def Expr.text (code : Expr) : String := IndentedLine.renderAll (code.lines 0)

/-- The written form of a statement. -/
def Stmt.text (code : Stmt) : String := IndentedLine.renderAll (code.lines 0)

/-- The written form of the code of a node. -/
def Tree.text : Tree → String
  | expr code => code.text
  | stmt code => code.text

end Pins.Ir
