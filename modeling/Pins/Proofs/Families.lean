import Pins.Syntax.Parser

/-!
# Families of functions that read

Some functions of the parser do the same for different words: they ask for a token of a kind, they
read what stands between marks, or they read a word and a name with a written type. Each of these
families is one function of its words here, and its members are equal to it. So what is shown of a
family is shown of its members, and once.
-/

namespace Pins.Parser

/-- A token of a kind, or a fault at the current one. -/
def wanted (kind : TokenKind) (fault : Token → Fault) : Parse Token := do
  if (← currentKind) = kind then advance else fail fault

theorem expect_eq (kind : TokenKind) :
    expect kind = wanted kind fun token => .unexpectedToken token.value := rfl

theorem expectBut_eq (kind : TokenKind) (message : String) :
    expectBut kind message =
      wanted kind fun token => .unexpectedTokenDetailed token.value message := rfl

/-- Something, and others of it behind a mark. -/
def separated (item : Parse NodeId) (others : Parse (List NodeId)) (mark : TokenKind) :
    Parse (List NodeId) := do
  let first ← item
  if (← currentKind) = mark then
    let _ ← advance
    let others ← others
    return first :: others
  else return [first]

/-- A word, and a name with a written type of which a definition is made. -/
def typedDefinition (grammar : Grammar) (word : TokenKind) (what : String)
    (make : String → NodeId → Definition) : Parse NodeId := do
  let first ← expect word
  let (name, written) ← typedName grammar what
  addFrom first.span (.definition (make name written))

variable {grammar : Grammar} {fuel : Nat}

theorem typeDefinition_eq :
    typeDefinition grammar = typedDefinition grammar .typWord "type" .type := rfl

theorem varDefinition_eq :
    varDefinition grammar = typedDefinition grammar .varWord "variable" .var := rfl

theorem parametersWithin_succ : parametersWithin grammar (fuel + 1) =
    separated (parameter grammar) (parametersWithin grammar fuel) .comma := rfl

theorem expressionsWithin_succ : expressionsWithin grammar (fuel + 1) =
    separated (expressionWithin grammar fuel) (expressionsWithin grammar fuel) .comma := by
  rw [expressionsWithin]
  rfl

theorem definitionListWithin_succ : definitionListWithin grammar (fuel + 1) =
    separated (definitionWithin grammar fuel) (definitionListWithin grammar fuel) .semicolon := by
  rw [definitionListWithin]
  rfl

end Pins.Parser
