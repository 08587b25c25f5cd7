import Pins.Text.Number
import Pins.Diagnostic
import Pins.Syntax.Arena
import Pins.Syntax.Grammar
import Pins.Syntax.TokenStream

/-!
# Reading tokens into an arena

Reading goes by one token: the current token chooses the form to be read, and an operator goes on
with an operand as long as it binds tighter than the place the operand stands in. Every node is
added behind its children.

The functions of the mutual block call each other under a bound on the depth of the calls. A form
consumes a token before it reads another one of its own level, so eight calls per token are enough;
`within` supplies that bound.
-/

namespace Pins

open Text

/-- What the reading of a program has reached. -/
structure ParserState where
  /-- The tokens still to be read. -/
  stream : TokenStream
  /-- The nodes read so far. -/
  arena : Arena
deriving DecidableEq, Repr

/-- A step in the reading of a program. -/
abbrev Parse (α : Type) := Pass ParserState α

namespace Parser

/-- The state in front of the tokens of a named source. -/
def start (file : String) (tokens : List Token) : ParserState :=
  ⟨.ofTokens file tokens, .empty⟩

/-- The current token. -/
def current : Parse Token := do return (← get).stream.current

/-- The kind of the current token. -/
def currentKind : Parse TokenKind := do return (← current).kind

/-- The kind of the token behind the current one. -/
def peekKind : Parse TokenKind := do return (← get).stream.peekKind

/-- Consumes the current token. -/
def advance : Parse Token := do
  let token ← current
  modify fun state => { state with stream := state.stream.advance }
  return token

/-- Stops at the current token. -/
def fail {α : Type} (fault : Token → Fault) : Parse α := do
  let token ← current
  throw ⟨fault token, token.span.start⟩

/-- Stops because the current token may not stand here. -/
def unexpected {α : Type} : Parse α := fail fun token => .unexpectedToken token.value

/-- Stops because the current token may not stand here, with a word on what was expected. -/
def unexpectedBut {α : Type} (message : String) : Parse α :=
  fail fun token => .unexpectedTokenDetailed token.value message

/-- Stops because the calls are nested deeper than their bound allows. -/
def exhausted {α : Type} : Parse α := fail fun _ => .internalError "nesting bound exceeded"

/-- Consumes a token of a kind. -/
def expect (kind : TokenKind) : Parse Token := do
  if (← currentKind) = kind then advance else unexpected

/-- Consumes a token of a kind, with a word on what was expected. -/
def expectBut (kind : TokenKind) (message : String) : Parse Token := do
  if (← currentKind) = kind then advance else unexpectedBut message

/-- Adds a node. -/
def add (kind : NodeKind) (span : Span) : Parse NodeId := do
  let id := (← get).arena.nextId
  modify fun state => { state with arena := state.arena.push ⟨kind, span⟩ }
  return id

/-- Adds a node that reaches from the start of a stretch to the token consumed last. -/
def addFrom (start : Span) (kind : NodeKind) : Parse NodeId := do
  add kind (start.through (← get).stream.previous)

/-- The stretch of a node. -/
def spanAt (id : NodeId) : Parse Span := do return (← get).arena.span id

/-- Runs a step with a bound on nested calls that covers the tokens left. -/
def within {α : Type} (step : Nat → Parse α) : Parse α := fun state =>
  step (8 * (state.stream.upcoming.length + 1)) state

/-- The name of a written type. -/
def typeName : Parse NodeId := do
  let token ← expect .identifier
  add (.type (.name token.value)) token.span

/-- The word of an atomic type. -/
def atomType : Parse NodeId := do
  let token ← advance
  add (.type (.atom (.ofKind token.kind))) token.span

mutual

/-- A written type. -/
def typeWithin (grammar : Grammar) : Nat → Parse NodeId
  | 0 => exhausted
  | fuel + 1 => do
    match grammar.type? (← currentKind) with
    | none => unexpectedBut "expected a type"
    | some .name => typeName
    | some .atom => atomType
    | some .array => arrayTypeWithin grammar fuel

/-- An array type: its length in brackets, then the type of its elements. -/
def arrayTypeWithin (grammar : Grammar) : Nat → Parse NodeId
  | 0 => exhausted
  | fuel + 1 => do
    let first ← expect .arrWord
    let _ ← expectBut .openBracket "expected `[` after `arr`"
    let length ← expectBut .integer "expected the array size"
    match unsigned? length.value with
    | none => throw ⟨.numberParseError length.value, length.span.start⟩
    | some size =>
      let _ ← expectBut .closeBracket "expected `]` after the array size"
      let element ← typeWithin grammar fuel
      addFrom first.span (.type (.array size element))

end

/-- A written type. -/
def type (grammar : Grammar) : Parse NodeId := within (typeWithin grammar)

/-- An array type. -/
def arrayType (grammar : Grammar) : Parse NodeId := within (arrayTypeWithin grammar)

/-- A name, a colon and a written type; `what` says what is named. -/
def typedName (grammar : Grammar) (what : String) : Parse (String × NodeId) := do
  let name ← expectBut .identifier ("expected " ++ what ++ " name")
  let _ ← expectBut .colon ("expected `:` after " ++ what ++ " name")
  let written ← type grammar
  return (name.value, written)

/-- The definition of a type. -/
def typeDefinition (grammar : Grammar) : Parse NodeId := do
  let first ← expect .typWord
  let (name, written) ← typedName grammar "type"
  addFrom first.span (.definition (.type name written))

/-- The definition of a variable. -/
def varDefinition (grammar : Grammar) : Parse NodeId := do
  let first ← expect .varWord
  let (name, written) ← typedName grammar "variable"
  addFrom first.span (.definition (.var name written))

/-- A parameter of a function. -/
def parameter (grammar : Grammar) : Parse NodeId := do
  let first ← current
  let (name, written) ← typedName grammar "parameter"
  addFrom first.span (.definition (.parameter name written))

/-- One or more parameters with commas between them. -/
def parametersWithin (grammar : Grammar) : Nat → Parse (List NodeId)
  | 0 => exhausted
  | fuel + 1 => do
    let first ← parameter grammar
    if (← currentKind) = .comma then
      let _ ← advance
      let others ← parametersWithin grammar fuel
      return first :: others
    else return [first]

/-- The parameters of a function, up to the closing parenthesis. -/
def parameters (grammar : Grammar) : Parse (List NodeId) := do
  if (← currentKind) = .closeParen then return []
  else within (parametersWithin grammar)

/-- A literal of a class. -/
def literal (atom : Atom) : Parse NodeId := do
  let token ← advance
  add (.expression (.literal token.value atom)) token.span

/-- An integer literal, which must fit a signed word. -/
def integerLiteral : Parse NodeId := do
  let token ← current
  if (signed? token.value).isSome then literal .integer
  else fail fun token => .numberParseError token.value

/-- The counter of a loop, read as a name. -/
def counter : Parse NodeId := do
  let token ← expectBut .identifier "expected the loop counter name"
  add (.expression (.name token.value)) token.span

mutual

/-- A whole expression, with the where clause that may follow it. -/
def expressionWithin (grammar : Grammar) : Nat → Parse NodeId
  | 0 => exhausted
  | fuel + 1 => do
    let expression ← operationWithin grammar fuel .lowest
    if (← currentKind) = .openCurly ∧ (← peekKind) = .whereWord then
      let _ ← advance
      let _ ← advance
      let definitions ← definitionsWithin grammar fuel
      let _ ← expectBut .closeCurly "expected `\x7d` to close the where clause"
      addFrom (← spanAt expression) (.expression (.whereClause definitions expression))
    else return expression

/-- One or more expressions with commas between them. -/
def expressionsWithin (grammar : Grammar) : Nat → Parse (List NodeId)
  | 0 => exhausted
  | fuel + 1 => do
    let first ← expressionWithin grammar fuel
    if (← currentKind) = .comma then
      let _ ← advance
      let others ← expressionsWithin grammar fuel
      return first :: others
    else return [first]

/-- An operand and all operators behind it that bind tighter than `power`. -/
def operationWithin (grammar : Grammar) : Nat → BindingPower → Parse NodeId
  | 0, _ => exhausted
  | fuel + 1, power => do
    match grammar.operand? (← currentKind) with
    | none => unexpected
    | some form =>
      let left ← operandWithin grammar fuel form
      continuedWithin grammar fuel power left

/-- The operators behind an operand that bind tighter than `power`. -/
def continuedWithin (grammar : Grammar) : Nat → BindingPower → NodeId → Parse NodeId
  | 0, _, _ => exhausted
  | fuel + 1, power, left => do
    match grammar.continuation? (← currentKind) with
    | none => return left
    | some next =>
      if next.power.rank ≤ power.rank then return left
      else
        let longer ← match next.form with
          | .binary => binaryWithin grammar fuel next.power left
          | .index => indexWithin grammar fuel left
        continuedWithin grammar fuel power longer

/-- An operand of a form. -/
def operandWithin (grammar : Grammar) : Nat → OperandForm → Parse NodeId
  | 0, _ => exhausted
  | fuel + 1, form =>
    match form with
    | .primary => primaryWithin grammar fuel
    | .prefixed => prefixedWithin grammar fuel
    | .block => blockWithin grammar fuel
    | .curly => curlyWithin grammar fuel

/-- A literal, a name, or a call. -/
def primaryWithin (grammar : Grammar) : Nat → Parse NodeId
  | 0 => exhausted
  | fuel + 1 => do
    match (← currentKind) with
    | .integer => integerLiteral
    | .logical => literal .logical
    | .string => literal .string
    | .identifier =>
      let token ← advance
      if (← currentKind) = .openParen then callWithin grammar fuel token
      else add (.expression (.name token.value)) token.span
    | _ => unexpected

/-- The argument list behind the name of a call. -/
def callWithin (grammar : Grammar) : Nat → Token → Parse NodeId
  | 0, _ => exhausted
  | fuel + 1, name => do
    let _ ← expect .openParen
    let arguments ←
      if (← currentKind) = .closeParen then pure [] else expressionsWithin grammar fuel
    let _ ← expectBut .closeParen "expected `,` or `)` in argument list"
    addFrom name.span (.expression (.call name.value arguments))

/-- An operator, and a right operand of operators that bind tighter than `power`. Comparisons may
not be chained. -/
def binaryWithin (grammar : Grammar) : Nat → BindingPower → NodeId → Parse NodeId
  | 0, _, _ => exhausted
  | fuel + 1, power, left => do
    match BinaryOperator.ofKind? (← currentKind) with
    | none => unexpected
    | some operator =>
      let _ ← advance
      let right ← operationWithin grammar fuel power
      if operator.isComparison ∧ (← currentKind).isRelational then
        unexpectedBut "comparisons cannot be chained"
      else addFrom (← spanAt left) (.expression (.binary operator left right))

/-- An index in brackets. -/
def indexWithin (grammar : Grammar) : Nat → NodeId → Parse NodeId
  | 0, _ => exhausted
  | fuel + 1, left => do
    let _ ← expect .openBracket
    let index ← expressionWithin grammar fuel
    let _ ← expectBut .closeBracket "expected `]` after array index"
    addFrom (← spanAt left) (.expression (.binary .index left index))

/-- An operator before its operand. -/
def prefixedWithin (grammar : Grammar) : Nat → Parse NodeId
  | 0 => exhausted
  | fuel + 1 => do
    let operator ← advance
    let operand ← operationWithin grammar fuel .unary
    addFrom operator.span (.expression (.unary (.ofKind operator.kind) operand))

/-- Expressions in parentheses. -/
def blockWithin (grammar : Grammar) : Nat → Parse NodeId
  | 0 => exhausted
  | fuel + 1 => do
    let first ← expect .openParen
    let expressions ← expressionsWithin grammar fuel
    let _ ← expectBut .closeParen "expected `,` or `)` in block"
    addFrom first.span (.expression (.block expressions))

/-- What stands in braces: a choice, a loop, or an assignment. -/
def curlyWithin (grammar : Grammar) : Nat → Parse NodeId
  | 0 => exhausted
  | fuel + 1 => do
    let first ← expect .openCurly
    let expression ← match (← currentKind) with
      | .ifWord => conditionalWithin grammar fuel
      | .whileWord => whileWithin grammar fuel
      | .forWord => forWithin grammar fuel
      | _ => assignmentWithin grammar fuel
    let _ ← expectBut .closeCurly "expected `\x7d`"
    addFrom first.span (.expression expression)

/-- An assignment. -/
def assignmentWithin (grammar : Grammar) : Nat → Parse Expression
  | 0 => exhausted
  | fuel + 1 => do
    let left ← expressionWithin grammar fuel
    let _ ← expectBut .assignment "expected `=` in assignment"
    let right ← expressionWithin grammar fuel
    return .binary .assign left right

/-- A choice. -/
def conditionalWithin (grammar : Grammar) : Nat → Parse Expression
  | 0 => exhausted
  | fuel + 1 => do
    let _ ← expect .ifWord
    let condition ← expressionWithin grammar fuel
    let _ ← expectBut .thenWord "expected `then` after the condition"
    let thenBranch ← expressionWithin grammar fuel
    if (← currentKind) = .elseWord then
      let _ ← advance
      let elseBranch ← expressionWithin grammar fuel
      return .conditional condition thenBranch (some elseBranch)
    else return .conditional condition thenBranch none

/-- A loop under a condition. -/
def whileWithin (grammar : Grammar) : Nat → Parse Expression
  | 0 => exhausted
  | fuel + 1 => do
    let _ ← expect .whileWord
    let condition ← expressionWithin grammar fuel
    let _ ← expectBut .colon "expected `:` after the loop condition"
    let body ← expressionWithin grammar fuel
    return .whileLoop condition body

/-- A loop that counts. -/
def forWithin (grammar : Grammar) : Nat → Parse Expression
  | 0 => exhausted
  | fuel + 1 => do
    let _ ← expect .forWord
    let counter ← counter
    let _ ← expectBut .assignment "expected `=` after the loop counter"
    let low ← expressionWithin grammar fuel
    let _ ← expectBut .comma "expected `,` after the lower bound"
    let high ← expressionWithin grammar fuel
    let _ ← expectBut .comma "expected `,` after the upper bound"
    let step ← expressionWithin grammar fuel
    let _ ← expectBut .colon "expected `:` after the loop step"
    let body ← expressionWithin grammar fuel
    return .forLoop counter low high step body

/-- One or more definitions with semicolons between them, as one node. -/
def definitionsWithin (grammar : Grammar) : Nat → Parse NodeId
  | 0 => exhausted
  | fuel + 1 => do
    let first ← current
    let members ← definitionListWithin grammar fuel
    addFrom first.span (.definitions members)

/-- One or more definitions with semicolons between them. -/
def definitionListWithin (grammar : Grammar) : Nat → Parse (List NodeId)
  | 0 => exhausted
  | fuel + 1 => do
    let first ← definitionWithin grammar fuel
    if (← currentKind) = .semicolon then
      let _ ← advance
      let others ← definitionListWithin grammar fuel
      return first :: others
    else return [first]

/-- One definition. -/
def definitionWithin (grammar : Grammar) : Nat → Parse NodeId
  | 0 => exhausted
  | fuel + 1 => do
    match grammar.definition? (← currentKind) with
    | none => unexpectedBut "expected a definition (`fun`, `var` or `typ`)"
    | some .type => typeDefinition grammar
    | some .var => varDefinition grammar
    | some .function => functionDefinitionWithin grammar fuel

/-- The definition of a function. -/
def functionDefinitionWithin (grammar : Grammar) : Nat → Parse NodeId
  | 0 => exhausted
  | fuel + 1 => do
    let first ← expect .funWord
    let name ← expectBut .identifier "expected function name"
    let _ ← expectBut .openParen "expected `(` after function name"
    let parameters ← parameters grammar
    let _ ← expectBut .closeParen "expected `,` or `)` in parameter list"
    let _ ← expectBut .colon "expected `:` before the return type"
    let result ← type grammar
    let _ ← expectBut .assignment "expected `=` before the function body"
    let body ← expressionWithin grammar fuel
    addFrom first.span (.definition (.function name.value parameters result body))

end

/-- A whole expression, with the where clause that may follow it. -/
def expression (grammar : Grammar) : Parse NodeId := within (expressionWithin grammar)

/-- An operand and all operators behind it that bind tighter than `power`. -/
def operation (grammar : Grammar) (power : BindingPower) : Parse NodeId :=
  within fun fuel => operationWithin grammar fuel power

/-- A literal, a name, or a call. -/
def primary (grammar : Grammar) : Parse NodeId := within (primaryWithin grammar)

/-- An operator before its operand. -/
def prefixed (grammar : Grammar) : Parse NodeId := within (prefixedWithin grammar)

/-- Expressions in parentheses. -/
def block (grammar : Grammar) : Parse NodeId := within (blockWithin grammar)

/-- What stands in braces. -/
def curly (grammar : Grammar) : Parse NodeId := within (curlyWithin grammar)

/-- An operator and a right operand of operators that bind tighter than `power`. -/
def binary (grammar : Grammar) (power : BindingPower) (left : NodeId) : Parse NodeId :=
  within fun fuel => binaryWithin grammar fuel power left

/-- An index in brackets. -/
def index (grammar : Grammar) (left : NodeId) : Parse NodeId :=
  within fun fuel => indexWithin grammar fuel left

/-- One or more definitions, as one node. -/
def definitions (grammar : Grammar) : Parse NodeId := within (definitionsWithin grammar)

/-- One definition. -/
def definition (grammar : Grammar) : Parse NodeId := within (definitionWithin grammar)

/-- The definition of a function. -/
def functionDefinition (grammar : Grammar) : Parse NodeId :=
  within (functionDefinitionWithin grammar)

/-- A whole program: definitions up to the end token. -/
def program : Parse NodeId := do
  let root ← definitions .pins
  if (← currentKind) = .eof then return root
  else unexpectedBut "expected `;` or end of file after a definition"

end Parser

/-- The arena of a program, from the tokens of a named source. -/
def parse (file : String) (tokens : List Token) : Except Diagnostic Arena :=
  match Parser.program (Parser.start file tokens) with
  | .ok root state => .ok { state.arena with root := some root }
  | .error diagnostic _ => .error diagnostic

end Pins
