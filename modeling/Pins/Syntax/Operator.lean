/-!
# Operators and atoms

The operators of expressions and the three atoms: the classes of literals, which are also the types
a program can name without defining them.
-/

namespace Pins

/-- The class of a literal, and the atomic type it has. -/
inductive Atom where
  | integer
  | logical
  | string
deriving DecidableEq, Repr

/-- The word for an atom. -/
def Atom.text : Atom → String
  | integer => "integer"
  | logical => "logical"
  | string => "string"

/-- The operators with two operands. -/
inductive BinaryOperator where
  | or
  | and
  | eq
  | neq
  | lt
  | gt
  | leq
  | geq
  | add
  | sub
  | mul
  | div
  | mod
  /-- The element of an array at an index. -/
  | index
  /-- Assignment of the right side to the left one. -/
  | assign
deriving DecidableEq, Repr

namespace BinaryOperator

/-- Every operator once. -/
def all : List BinaryOperator :=
  [or, and, eq, neq, lt, gt, leq, geq, add, sub, mul, div, mod, index, assign]

theorem mem_all (operator : BinaryOperator) : operator ∈ all := by cases operator <;> decide

/-- The mark of an operator. -/
def text : BinaryOperator → String
  | or => "|"
  | and => "&"
  | eq => "=="
  | neq => "!="
  | lt => "<"
  | gt => ">"
  | leq => "<="
  | geq => ">="
  | add => "+"
  | sub => "-"
  | mul => "*"
  | div => "/"
  | mod => "%"
  | index => "[]"
  | assign => "="

/-- The operator of a given mark. -/
def ofText? (text : String) : Option BinaryOperator :=
  all.find? fun operator => operator.text == text

/-- The operators that compare two values. -/
def isComparison : BinaryOperator → Bool
  | eq | neq | lt | gt | leq | geq => true
  | _ => false

end BinaryOperator

/-- The operators with one operand. -/
inductive UnaryOperator where
  | plus
  | minus
  | not
deriving DecidableEq, Repr

/-- The mark of an operator. -/
def UnaryOperator.text : UnaryOperator → String
  | plus => "+"
  | minus => "-"
  | not => "!"

end Pins
