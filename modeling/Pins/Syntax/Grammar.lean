import Pins.Token
import Pins.Syntax.Operator

/-!
# What a token may begin or continue

A grammar says of every kind of token which form of definition, of operand or of written type it
begins, and how it continues an expression that stands before it. `Grammar.pins` is the grammar of
the language; `Grammar.blank` begins and continues nothing.
-/

namespace Pins

/-- How tightly an operator holds its operands, from the loosest to the tightest. -/
inductive BindingPower where
  /-- Looser than every operator: the power of a whole expression. -/
  | lowest
  | or
  | and
  | relational
  | additive
  | multiplicative
  | unary
  | subscript
deriving DecidableEq, Repr

namespace BindingPower

/-- The place of a binding power in the order. -/
def rank : BindingPower → Nat
  | lowest => 0
  | or => 1
  | and => 2
  | relational => 3
  | additive => 4
  | multiplicative => 5
  | unary => 6
  | subscript => 7

end BindingPower

/-- The forms of definitions that begin with a word of their own. -/
inductive DefinitionForm where
  | type
  | var
  | function

/-- The forms of operands. -/
inductive OperandForm where
  /-- A literal, a name or a call. -/
  | primary
  /-- An operator before its operand. -/
  | prefixed
  /-- Expressions in parentheses. -/
  | block
  /-- An assignment or a control structure in braces. -/
  | curly

/-- The forms of written types. -/
inductive TypeForm where
  | name
  | atom
  | array

/-- How an expression goes on behind an operand. -/
inductive ContinuationForm where
  /-- An operator and its right operand. -/
  | binary
  /-- An index in brackets. -/
  | index

/-- How an expression goes on, and how tightly that holds the operand before it. -/
structure Continuation where
  /-- What follows. -/
  form : ContinuationForm
  /-- How tightly it binds. -/
  power : BindingPower

/-- Which kinds of tokens begin and continue what. -/
structure Grammar where
  /-- The definition that begins with a kind. -/
  definition? : TokenKind → Option DefinitionForm
  /-- The operand that begins with a kind. -/
  operand? : TokenKind → Option OperandForm
  /-- How a kind continues an expression. -/
  continuation? : TokenKind → Option Continuation
  /-- The written type that begins with a kind. -/
  type? : TokenKind → Option TypeForm

/-- The operator with two operands whose mark is of a kind. -/
def BinaryOperator.ofKind? : TokenKind → Option BinaryOperator
  | .or => some .or
  | .and => some .and
  | .equals => some .eq
  | .notEquals => some .neq
  | .less => some .lt
  | .greater => some .gt
  | .lessEquals => some .leq
  | .greaterEquals => some .geq
  | .plus => some .add
  | .dash => some .sub
  | .star => some .mul
  | .slash => some .div
  | .percent => some .mod
  | _ => none

/-- The operator before an operand whose mark is of a kind. -/
def UnaryOperator.ofKind : TokenKind → UnaryOperator
  | .plus => .plus
  | .dash => .minus
  | _ => .not

/-- The atom whose word is of a kind. -/
def Atom.ofKind : TokenKind → Atom
  | .integerType => .integer
  | .logicalType => .logical
  | _ => .string

namespace Grammar

/-- The grammar without any form. -/
def blank : Grammar := ⟨fun _ => none, fun _ => none, fun _ => none, fun _ => none⟩

/-- The grammar of the language. -/
def pins : Grammar where
  definition?
    | .typWord => some .type
    | .varWord => some .var
    | .funWord => some .function
    | _ => none
  operand?
    | .integer | .logical | .string | .identifier => some .primary
    | .plus | .dash | .not => some .prefixed
    | .openParen => some .block
    | .openCurly => some .curly
    | _ => none
  continuation?
    | .or => some ⟨.binary, .or⟩
    | .and => some ⟨.binary, .and⟩
    | .less | .lessEquals | .greater | .greaterEquals | .equals | .notEquals =>
      some ⟨.binary, .relational⟩
    | .plus | .dash => some ⟨.binary, .additive⟩
    | .star | .slash | .percent => some ⟨.binary, .multiplicative⟩
    | .openBracket => some ⟨.index, .subscript⟩
    | _ => none
  type?
    | .identifier => some .name
    | .integerType | .logicalType | .stringType => some .atom
    | .arrWord => some .array
    | _ => none

end Grammar

end Pins
