import Pins.Text.Number
import Pins.Text.Quoted

/-!
# What can be wrong with a program

One cause per kind of mistake, from an unreadable character to a frame that does not fit. A cause
has a name, a message in one line, and for all kinds but one a tip. Types and operators enter a
cause in their written form.
-/

namespace Pins

open Text

/-- The reason why a text is not accepted. -/
inductive Fault where
  /-- No token begins with this character. -/
  | unrecognisedToken (token : String)
  /-- A string literal is not closed on its line. -/
  | unterminatedString
  /-- A string literal holds a character that is not printable ASCII. -/
  | invalidStringCharacter (character : Char)
  /-- Letters follow directly on digits. -/
  | invalidIdentifier (token : String)
  /-- A token stands where none of its kind may stand. -/
  | unexpectedToken (token : String)
  /-- The same, with a word on what was expected. -/
  | unexpectedTokenDetailed (token message : String)
  /-- A number is outside the range of its place. -/
  | numberParseError (token : String)
  /-- No scope around a name defines it. -/
  | undefinedSymbol (name : String)
  /-- A name is defined, but as something else than its place needs. -/
  | wrongKindReference (name expected found : String)
  /-- One scope defines a name twice. -/
  | duplicateDefinitionInScope (name : String)
  /-- An operator is applied to operands of other types than its own. -/
  | operandTypeMismatch (operator received : String)
  /-- A call has too few or too many arguments. -/
  | argumentCountMismatch (function : String) (expected received : Nat)
  /-- An argument, counted from 0, has another type than the parameter. -/
  | argumentTypeMismatch (function : String) (index : Nat) (expected received : String)
  /-- A condition is not logical. -/
  | nonBooleanCondition (received : String)
  /-- The counter, a bound or the step of a loop is not an integer. -/
  | nonIntegerLoopBound (part received : String)
  /-- The sides of an assignment differ in type, or their type cannot be assigned. -/
  | assignmentTypeMismatch (left right : String)
  /-- The body of a function has another type than it declares. -/
  | returnTypeMismatch (function expected received : String)
  /-- A written type name is bound to no definition. -/
  | undefinedType (name : String)
  /-- A type is defined in terms of itself. -/
  | cyclicTypeDefinition (name : String)
  /-- Something that is no array is indexed. -/
  | indexOnNonArray (received : String)
  /-- A value of the type would not be addressable. -/
  | typeTooLarge (type : String)
  /-- Storage would grow a frame beyond what is addressable. -/
  | frameTooLarge (name : String)
  /-- A pass was given a tree or tables that no earlier pass produces. -/
  | internalError (message : String)
deriving DecidableEq, Repr

namespace Fault

/-- The name of the kind of mistake. -/
def name : Fault → String
  | unrecognisedToken .. => "UnrecognisedToken"
  | unterminatedString => "UnterminatedString"
  | invalidStringCharacter .. => "InvalidStringCharacter"
  | invalidIdentifier .. => "InvalidIdentifier"
  | unexpectedToken .. => "UnexpectedToken"
  | unexpectedTokenDetailed .. => "UnexpectedTokenDetailed"
  | numberParseError .. => "NumberParseError"
  | undefinedSymbol .. => "UndefinedSymbol"
  | wrongKindReference .. => "WrongKindReference"
  | duplicateDefinitionInScope .. => "DuplicateDefinitionInScope"
  | operandTypeMismatch .. => "OperandTypeMismatch"
  | argumentCountMismatch .. => "ArgumentCountMismatch"
  | argumentTypeMismatch .. => "ArgumentTypeMismatch"
  | nonBooleanCondition .. => "NonBooleanCondition"
  | nonIntegerLoopBound .. => "NonIntegerLoopBound"
  | assignmentTypeMismatch .. => "AssignmentTypeMismatch"
  | returnTypeMismatch .. => "ReturnTypeMismatch"
  | undefinedType .. => "UndefinedType"
  | cyclicTypeDefinition .. => "CyclicTypeDefinition"
  | indexOnNonArray .. => "IndexOnNonArray"
  | typeTooLarge .. => "TypeTooLarge"
  | frameTooLarge .. => "FrameTooLarge"
  | internalError .. => "InternalError"

/-- The mistake in one line. Names and tokens are quoted, written types are not. -/
def message : Fault → String
  | unrecognisedToken token => "unrecognised token: " ++ quoted token
  | unterminatedString => "unterminated string literal"
  | invalidStringCharacter c => "invalid character " ++ quotedChar c ++ " in string literal"
  | invalidIdentifier token => "invalid identifier: " ++ quoted token
  | unexpectedToken token => "unexpected token: " ++ quoted token
  | unexpectedTokenDetailed token message =>
    "unexpected token (" ++ quoted message ++ "): " ++ quoted token
  | numberParseError token => "error parsing number: " ++ quoted token
  | undefinedSymbol name => "undefined symbol " ++ quoted name
  | wrongKindReference name expected found =>
    quoted name ++ " is a " ++ found ++ ", expected a " ++ expected
  | duplicateDefinitionInScope name => quoted name ++ " is already defined in this scope"
  | operandTypeMismatch operator received =>
    "operator " ++ operator ++ " cannot be applied to " ++ received
  | argumentCountMismatch function expected received =>
    quoted function ++ " expects " ++ toString expected ++ " arguments, received " ++
      toString received
  | argumentTypeMismatch function index expected received =>
    "argument " ++ toString index ++ " of " ++ quoted function ++ ": expected " ++ expected ++
      ", received " ++ received
  | nonBooleanCondition received => "condition must be logical, received " ++ received
  | nonIntegerLoopBound part received =>
    "loop " ++ part ++ " must be integer, received " ++ received
  | assignmentTypeMismatch left right => "cannot assign " ++ right ++ " to " ++ left
  | returnTypeMismatch function expected received =>
    quoted function ++ " returns " ++ expected ++ ", body has type " ++ received
  | undefinedType name => "undefined type " ++ quoted name
  | cyclicTypeDefinition name => "cyclic definition of type " ++ quoted name
  | indexOnNonArray received => "cannot index into " ++ received
  | typeTooLarge type => "type " ++ type ++ " is too large"
  | frameTooLarge name => quoted name ++ " does not fit in its frame"
  | internalError message => "internal error: " ++ message

/-- A text between backticks. -/
private def ticked (text : String) : String := "`" ++ text ++ "`"

/-- The advice given with a mistake. Arguments are counted from 1 here. -/
def tip? : Fault → Option String
  | unrecognisedToken _ => none
  | unterminatedString => some "String literals must be closed with `'` on the same line"
  | invalidStringCharacter c =>
    some ("Character " ++ quotedChar c ++
      " is not allowed, strings may only contain printable ASCII")
  | invalidIdentifier token =>
    some (ticked token ++ " is not a valid name, names cannot start with a digit")
  | unexpectedToken token => some ("Unexpected token: " ++ ticked token)
  | unexpectedTokenDetailed token message =>
    some ("Unexpected token: " ++ ticked token ++ ", " ++ message)
  | numberParseError token =>
    some ("Invalid number: " ++ ticked token ++ ", is it above the integer limit?")
  | undefinedSymbol name => some (ticked name ++ " is not defined")
  | wrongKindReference name expected found =>
    some (ticked name ++ " is a " ++ found ++ ", expected a " ++ expected)
  | duplicateDefinitionInScope name => some (ticked name ++ " is already defined in this scope")
  | operandTypeMismatch operator received =>
    some ("Operator " ++ ticked operator ++ " cannot be applied to " ++ ticked received)
  | argumentCountMismatch function expected received =>
    some (ticked function ++ " expects " ++ toString expected ++ " arguments, received " ++
      toString received)
  | argumentTypeMismatch function index expected received =>
    some ("Argument " ++ toString (index + 1) ++ " of " ++ ticked function ++ " should be " ++
      ticked expected ++ ", received " ++ ticked received)
  | nonBooleanCondition received =>
    some ("Conditions must be `logical`, received " ++ ticked received)
  | nonIntegerLoopBound part received =>
    some ("Loop " ++ part ++ " must be `integer`, received " ++ ticked received)
  | assignmentTypeMismatch left right =>
    some ("Cannot assign " ++ ticked right ++ " to " ++ ticked left ++
      ", only matching integer, logical or string values can be assigned")
  | returnTypeMismatch function expected received =>
    some (ticked function ++ " is declared to return " ++ ticked expected ++
      ", but its body has type " ++ ticked received)
  | undefinedType name => some ("Type " ++ ticked name ++ " has no definition")
  | cyclicTypeDefinition name => some ("Type " ++ ticked name ++ " is defined in terms of itself")
  | indexOnNonArray received => some ("Only arrays can be indexed, found " ++ ticked received)
  | typeTooLarge type =>
    some ("A value of type " ++ ticked type ++ " would not fit in " ++ toString maxSigned ++
      " bytes")
  | frameTooLarge name =>
    some ("Storage for " ++ ticked name ++ " would grow its frame beyond " ++
      toString maxSigned ++ " bytes")
  | internalError message => some ("Internal compiler error: " ++ message)

end Fault

end Pins
