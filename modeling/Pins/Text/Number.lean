/-!
# Reading whole numbers

A written number is a run of ASCII digits, behind at most one sign. It is read exactly, and it is
refused when it lies outside the range of a 32-bit word.
-/

namespace Pins.Text

/-- The largest signed 32-bit word. -/
def maxSigned : Nat := 2147483647

/-- The largest unsigned 32-bit word. -/
def maxUnsigned : Nat := 4294967295

/-- The value of a character as a decimal digit. -/
def digit? (c : Char) : Option Nat :=
  if '0' ≤ c ∧ c ≤ '9' then some (c.toNat - '0'.toNat) else none

/-- Extends a value by the digits of a text, refusing any other character. -/
def digitsFrom? : Nat → List Char → Option Nat
  | value, [] => some value
  | value, c :: rest => do digitsFrom? (10 * value + (← digit? c)) rest

/-- The value of a non-empty run of digits. -/
def digits? : List Char → Option Nat
  | [] => none
  | text => digitsFrom? 0 text

/-- A number that fits an unsigned word; a plus sign may stand in front. -/
def unsigned? (text : String) : Option Nat :=
  let value := match text.toList with
    | '+' :: rest => digits? rest
    | plain => digits? plain
  value.filter (· ≤ maxUnsigned)

/-- A number that fits a signed word; a plus or a minus sign may stand in front. -/
def signed? (text : String) : Option Int :=
  let value : Option Int := match text.toList with
    | '+' :: rest => (digits? rest).map Int.ofNat
    | '-' :: rest => (digits? rest).map fun n => - Int.ofNat n
    | plain => (digits? plain).map Int.ofNat
  value.filter fun n => -(maxSigned : Int) - 1 ≤ n ∧ n ≤ maxSigned

end Pins.Text
