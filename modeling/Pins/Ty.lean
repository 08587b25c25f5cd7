import Pins.Text.Number
import Pins.Syntax.Operator

/-!
# Semantic types

The types of values, and of the functions that yield them. A type is printed as it is written in a
program, function types with an arrow. A value takes a number of bytes, unless it would be too large
to be addressed; arrays are handed over by address.
-/

namespace Pins

/-- Types, equal only if they have the same structure. -/
inductive Ty where
  | integer
  | logical
  /-- The address of characters kept elsewhere. -/
  | string
  /-- The type of control structures, which have no value. -/
  | void
  /-- A number of elements of one type. -/
  | array (length : Nat) (element : Ty)
  /-- A function of parameters. -/
  | function (parameters : List Ty) (result : Ty)
deriving Repr

/-- The number of bytes of a machine word. -/
def wordSize : Nat := 4

/-- The number of bytes of the largest object that a signed word can address. -/
def maxObjectSize : Nat := Text.maxSigned

namespace Ty

mutual

/-- Two types have the same structure. -/
def isSame : Ty → Ty → Bool
  | integer, integer => true
  | logical, logical => true
  | string, string => true
  | void, void => true
  | array n first, array m second => n == m && isSame first second
  | function ps first, function qs second => areSame ps qs && isSame first second
  | _, _ => false

/-- Two lists of types have the same length and structure. -/
def areSame : List Ty → List Ty → Bool
  | [], [] => true
  | p :: ps, q :: qs => isSame p q && areSame ps qs
  | _, _ => false

end

mutual

theorem isSame_iff : (first second : Ty) → (first.isSame second = true ↔ first = second)
  | integer, second => by cases second <;> simp [isSame]
  | logical, second => by cases second <;> simp [isSame]
  | string, second => by cases second <;> simp [isSame]
  | void, second => by cases second <;> simp [isSame]
  | array _ element, second => by cases second <;> simp [isSame, isSame_iff element]
  | function parameters result, second => by
    cases second <;> simp [isSame, areSame_iff parameters, isSame_iff result]

theorem areSame_iff : (first second : List Ty) → (areSame first second = true ↔ first = second)
  | [], second => by cases second <;> simp [areSame]
  | head :: tail, second => by
    cases second <;> simp [areSame, isSame_iff head, areSame_iff tail]

end

instance : DecidableEq Ty := fun first second =>
  decidable_of_iff _ (isSame_iff first second)

/-- The type of literals of a class. -/
def ofAtom : Atom → Ty
  | .integer => integer
  | .logical => logical
  | .string => string

/-- The bytes a value takes in memory, if they can be addressed. -/
def size? : Ty → Option Nat
  | integer => some wordSize
  | logical => some wordSize
  | string => some wordSize
  | void => some 0
  | array length element => do
    let size := length * (← element.size?)
    if size ≤ maxObjectSize then some size else none
  | function .. => some 0

/-- The bytes a value takes as an argument: an array is handed over by address. -/
def argumentSize? : Ty → Option Nat
  | array .. => some wordSize
  | other => other.size?

/-- The type is an array type. -/
def isArray : Ty → Bool
  | array .. => true
  | _ => false

/-- The type is that of an atom with a value. Only such values are assigned as a whole. -/
def isAtomic : Ty → Bool
  | integer | logical | string => true
  | _ => false

/-- The type of the elements of an array type. -/
def element? : Ty → Option Ty
  | array _ element => some element
  | _ => none

mutual

/-- The written form of a type. -/
def text : Ty → String
  | integer => "integer"
  | logical => "logical"
  | string => "string"
  | void => "void"
  | array length element => "arr[" ++ toString length ++ "] " ++ element.text
  | function parameters result =>
    "(" ++ String.intercalate ", " (texts parameters) ++ ") -> " ++ result.text

/-- The written forms of types. -/
def texts : List Ty → List String
  | [] => []
  | first :: rest => first.text :: texts rest

end

end Ty

end Pins
