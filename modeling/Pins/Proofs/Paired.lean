import Pins.Proofs.Families
import Pins.Proofs.Histories
import Pins.Proofs.Onward

/-!
# Two readings put together alike

Much that is said of reading compares two runs: one with more room for nested calls than the other,
one from tokens whose places are forgotten, or one run with itself, to see what it keeps. What the
runs have in common is the way in which their steps are put together. A `Likeness` says which
tokens, stretches and states of the first run stand for which of the second one, and `Pairs` that
two steps end alike from like states. Each way of putting steps together has one rule, so that one
walk over the functions that read serves every likeness (`paired`).

The functions are bounded in how deep their calls may be nested, and a likeness may leave the second
run more room than the first one. Then nothing is said of it where the first one was stopped for its
nested calls.

The walk goes by the moves of the parser only. Which nodes a reading ends with is another matter:
how they are put together is said by shifts and reductions (`Read`), and of which symbols of the
grammar by derivations (`Reaches`).
-/

namespace Pins.Parser

variable {α β : Type}

/-- The calls of a run were nested too deep. -/
def TooDeep : EStateM.Result Diagnostic ParserState α → Prop
  | .ok .. => False
  | .error diagnostic _ => ∃ message, diagnostic.fault = .internalError message

/-- What stands for what in a second reading. -/
structure Likeness where
  /-- The tokens of the first reading and those that stand for them. -/
  token : Token → Token → Prop
  /-- The stretches of the first reading and those that stand for them. -/
  span : Text.Span → Text.Span → Prop
  /-- The states of the first reading and those that stand for them. -/
  state : ParserState → ParserState → Prop
  /-- The second reading may have more room for nested calls. -/
  roomier : Prop
  -- reading goes by the kinds and texts of tokens and by how much is left to be read
  kind_eq : ∀ {token₁ token₂}, token token₁ token₂ → token₂.kind = token₁.kind
  value_eq : ∀ {token₁ token₂}, token token₁ token₂ → token₂.value = token₁.value
  current : ∀ {state₁ state₂}, state state₁ state₂ →
    token state₁.stream.current state₂.stream.current
  peekKind_eq : ∀ {state₁ state₂}, state state₁ state₂ →
    state₂.stream.peekKind = state₁.stream.peekKind
  left_eq : ∀ {state₁ state₂}, state state₁ state₂ → state₂.left = state₁.left
  -- stretches are put together from those of tokens and of nodes
  spans : ∀ {token₁ token₂}, token token₁ token₂ → span token₁.span token₂.span
  spanAt : ∀ {state₁ state₂} (id : NodeId), state state₁ state₂ →
    span (state₁.arena.span id) (state₂.arena.span id)
  through : ∀ {state₁ state₂ span₁ span₂}, state state₁ state₂ → span span₁ span₂ →
    span (span₁.through state₁.stream.previous) (span₂.through state₂.stream.previous)
  -- states that stand for each other move alike, to as many nodes
  size_eq : ∀ {state₁ state₂}, state state₁ state₂ → state₂.arena.size = state₁.arena.size
  consume : ∀ {state₁ state₂}, state state₁ state₂ → state (behind state₁) (behind state₂)
  push : ∀ {state₁ state₂ span₁ span₂} (kind : NodeKind), state state₁ state₂ → span span₁ span₂ →
    state { state₁ with arena := state₁.arena.push ⟨kind, span₁⟩ }
      { state₂ with arena := state₂.arena.push ⟨kind, span₂⟩ }

namespace Likeness

variable {like : Likeness} {fuel fuel' : Nat}

/-- Diagnostics for the same fault, where tokens begin that stand for each other. -/
inductive Blames (like : Likeness) : Diagnostic → Diagnostic → Prop where
  | token (fault : Fault) {token token' : Token} (ht : like.token token token') :
      Blames like ⟨fault, token.span.start⟩ ⟨fault, token'.span.start⟩

theorem Blames.fault_eq {diagnostic found : Diagnostic} (h : like.Blames diagnostic found) :
    found.fault = diagnostic.fault := by
  obtain ⟨fault, _⟩ := h
  rfl

/-- A diagnostic is where a token begins that another one stands for. -/
theorem Blames.exists_token {diagnostic found : Diagnostic} (h : like.Blames diagnostic found) :
    ∃ token token', like.token token token' ∧ token.span.start = diagnostic.position := by
  obtain ⟨fault, ht⟩ := h
  exact ⟨_, _, ht, rfl⟩

/-- The second outcome stands for the first one: both are values that stand for each other, or both
are diagnostics that do. -/
inductive Outcome (like : Likeness) (rel : α → α → Prop) :
    EStateM.Result Diagnostic ParserState α → EStateM.Result Diagnostic ParserState α → Prop where
  | value {value value' : α} {after after' : ParserState} (hv : rel value value')
      (hs : like.state after after') : Outcome like rel (.ok value after) (.ok value' after')
  | fault {diagnostic found : Diagnostic} {after after' : ParserState}
      (hb : like.Blames diagnostic found) (hs : like.state after after') :
      Outcome like rel (.error diagnostic after) (.error found after')

/-- Outcomes that stand for each other are reached in states that do. -/
theorem Outcome.reached {rel : α → α → Prop} {outcome outcome' : EStateM.Result _ _ α}
    (h : Outcome like rel outcome outcome') :
    like.state (Pass.reached outcome) (Pass.reached outcome') := by
  cases h with
  | value _ hs => exact hs
  | fault _ hs => exact hs

/-- The second reading may be given a bound on nested calls for that of the first one. -/
def Covers (like : Likeness) (fuel fuel' : Nat) : Prop :=
  fuel' = fuel ∨ like.roomier ∧ fuel ≤ fuel'

theorem Covers.refl : like.Covers fuel fuel := .inl rfl

/-- A bound that a call may be nested under leaves one for the calls below it. -/
theorem Covers.exists_succ (h : like.Covers (fuel + 1) fuel') :
    ∃ fewer, fuel' = fewer + 1 ∧ like.Covers fuel fewer := by
  rcases h with rfl | ⟨hroom, hle⟩
  · exact ⟨fuel, rfl, .refl⟩
  · exact ⟨fuel' - 1, by omega, .inr ⟨hroom, by omega⟩⟩

end Likeness

/-- From states that stand for each other, the second step ends as the first one does, unless that
was stopped for its nested calls where the second one has more room. -/
def Pairs (like : Likeness) (rel : α → α → Prop) (step step' : Parse α) : Prop :=
  ∀ state state', like.state state state' →
    like.roomier ∧ TooDeep (step state) ∨ like.Outcome rel (step state) (step' state')

namespace Pairs

variable {like : Likeness} {rel : α → α → Prop} {rel' : β → β → Prop} {token token' : Token}
  {span span' : Text.Span} {kind : NodeKind}

theorem pure (value : α) : Pairs like Eq (pure value) (pure value) :=
  fun _ _ hs => .inr (.value rfl hs)

/-- The second parts go on with values that stand for each other. -/
theorem bindLike {step step' : Parse α} {next next' : α → Parse β} (h : Pairs like rel step step')
    (hn : ∀ value value', rel value value' → Pairs like rel' (next value) (next' value')) :
    Pairs like rel' (step >>= next) (step' >>= next') := by
  intro state state' hs
  rcases h state state' hs with ⟨hroom, hdeep⟩ | hout
  · cases hrun : step state with
    | ok value between =>
      rw [hrun] at hdeep
      exact hdeep.elim
    | error diagnostic between =>
      rw [hrun] at hdeep
      rw [Pass.bind_of_error hrun]
      exact .inl ⟨hroom, hdeep⟩
  · generalize hrun : step state = outcome, hrun' : step' state' = outcome' at hout
    cases hout with
    | value hv hs =>
      rw [Pass.bind_of_ok hrun, Pass.bind_of_ok hrun']
      exact hn _ _ hv _ _ hs
    | fault hb hs =>
      rw [Pass.bind_of_error hrun, Pass.bind_of_error hrun']
      exact .inr (.fault hb hs)

/-- The second parts go on with one value. -/
theorem bind {step step' : Parse α} {next next' : α → Parse β} (h : Pairs like Eq step step')
    (hn : ∀ value, Pairs like rel' (next value) (next' value)) :
    Pairs like rel' (step >>= next) (step' >>= next') :=
  h.bindLike fun value _ he => he ▸ hn value

theorem current : Pairs like like.token current current :=
  fun _ _ hs => .inr (.value (like.current hs) hs)

theorem currentKind : Pairs like Eq currentKind currentKind :=
  fun _ _ hs => .inr (.value (like.kind_eq (like.current hs)).symm hs)

theorem peekKind : Pairs like Eq peekKind peekKind :=
  fun _ _ hs => .inr (.value (like.peekKind_eq hs).symm hs)

theorem spanAt {id : NodeId} : Pairs like like.span (spanAt id) (spanAt id) :=
  fun _ _ hs => .inr (.value (like.spanAt id hs) hs)

theorem advance : Pairs like like.token advance advance :=
  fun _ _ hs => .inr (.value (like.current hs) (like.consume hs))

theorem add (hs : like.span span span') : Pairs like Eq (add kind span) (add kind span') :=
  fun _ _ h => .inr (.value (congrArg NodeId.mk (like.size_eq h).symm) (like.push kind h hs))

theorem addFrom (hs : like.span span span') :
    Pairs like Eq (addFrom span kind) (addFrom span' kind) :=
  fun state state' h => add (like.through h hs) state state' h

/-- A diagnostic is at a token that was read. -/
theorem stop (ht : like.token token token') (fault : Fault) :
    Pairs like rel (throw ⟨fault, token.span.start⟩) (throw ⟨fault, token'.span.start⟩) :=
  fun _ _ hs => .inr (.fault (.token fault ht) hs)

/-- A fault may speak of the text of a token. -/
theorem fail {fault : Token → Fault}
    (hf : ∀ token token' : Token, token'.value = token.value → fault token' = fault token) :
    Pairs like rel (fail fault) (fail fault) :=
  current.bindLike fun token token' ht => by
    rw [hf token token' (like.value_eq ht)]
    exact stop ht _

theorem unexpected : Pairs like rel unexpected unexpected :=
  fail fun _ _ hvalue => congrArg Fault.unexpectedToken hvalue

theorem unexpectedBut {message : String} :
    Pairs like rel (unexpectedBut message) (unexpectedBut message) :=
  fail fun _ _ hvalue => congrArg (Fault.unexpectedTokenDetailed · message) hvalue

/-- Under the bound of 0 a step is exhausted, and one with more room may do anything. -/
theorem exhausted (step : Nat → Parse α) (hz : step 0 = exhausted) {fuel : Nat}
    (h : like.Covers 0 fuel) : Pairs like rel exhausted (step fuel) := by
  rcases h with rfl | ⟨hroom, -⟩
  · rw [hz]
    exact fail fun _ _ _ => rfl
  · exact fun _ _ _ => .inl ⟨hroom, _, rfl⟩

/-- What has a bound of its own is given the same one in both readings. -/
theorem within {step step' : Nat → Parse α} (h : ∀ fuel, Pairs like rel (step fuel) (step' fuel)) :
    Pairs like rel (within step) (within step') := by
  intro state state' hs
  have hleft : state'.stream.upcoming.length = state.stream.upcoming.length := like.left_eq hs
  unfold Parser.within
  rw [hleft]
  exact h _ state state' hs

theorem wanted {kind : TokenKind} {fault : Token → Fault}
    (hf : ∀ token token' : Token, token'.value = token.value → fault token' = fault token) :
    Pairs like like.token (wanted kind fault) (wanted kind fault) := by
  refine currentKind.bind fun found => ?_
  split
  · exact advance
  · exact fail hf

theorem expect {kind : TokenKind} : Pairs like like.token (expect kind) (expect kind) := by
  rw [expect_eq]
  exact wanted fun _ _ hvalue => congrArg Fault.unexpectedToken hvalue

theorem expectBut {kind : TokenKind} {message : String} :
    Pairs like like.token (expectBut kind message) (expectBut kind message) := by
  rw [expectBut_eq]
  exact wanted fun _ _ hvalue => congrArg (Fault.unexpectedTokenDetailed · message) hvalue

/-- A node may say the text of the token that it is. -/
theorem addToken (make : String → NodeKind) (ht : like.token token token') :
    Pairs like Eq (Parser.add (make token.value) token.span)
      (Parser.add (make token'.value) token'.span) := by
  rw [like.value_eq ht]
  exact add (like.spans ht)

theorem typeName : Pairs like Eq typeName typeName :=
  expect.bindLike fun _ _ ht => addToken (fun value => .type (.name value)) ht

theorem atomType : Pairs like Eq atomType atomType :=
  advance.bindLike fun token token' ht => by
    rw [like.kind_eq ht]
    exact add (like.spans ht)

theorem literal {atom : Atom} : Pairs like Eq (literal atom) (literal atom) :=
  advance.bindLike fun _ _ ht => addToken (fun value => .expression (.literal value atom)) ht

theorem integerLiteral : Pairs like Eq integerLiteral integerLiteral := by
  refine current.bindLike fun token token' ht => ?_
  rw [like.value_eq ht]
  split
  · exact literal
  · exact fail fun _ _ hvalue => congrArg Fault.numberParseError hvalue

theorem counter : Pairs like Eq counter counter :=
  expectBut.bindLike fun _ _ ht => addToken (fun value => .expression (.name value)) ht

/-- Items with marks between them. -/
theorem separated {item item' : Parse NodeId} {others others' : Parse (List NodeId)}
    {mark : TokenKind} (hi : Pairs like Eq item item') (ho : Pairs like Eq others others') :
    Pairs like Eq (separated item others mark) (separated item' others' mark) := by
  refine hi.bind fun first => ?_
  refine currentKind.bind fun kind => ?_
  split
  · exact advance.bindLike fun _ _ _ => ho.bind fun others => .pure _
  · exact .pure _

end Pairs

variable {grammar : Grammar} {like : Likeness} {fuel fuel' : Nat}

/-- Written types are read alike. -/
theorem types_paired (h : like.Covers fuel fuel') :
    Pairs like Eq (typeWithin grammar fuel) (typeWithin grammar fuel') ∧
      Pairs like Eq (arrayTypeWithin grammar fuel) (arrayTypeWithin grammar fuel') := by
  induction fuel generalizing fuel' with
  | zero =>
    exact ⟨.exhausted (typeWithin grammar) rfl h, .exhausted (arrayTypeWithin grammar) rfl h⟩
  | succ fuel ih =>
    obtain ⟨fuel', rfl, hfewer⟩ := h.exists_succ
    obtain ⟨htype, harray⟩ := ih hfewer
    constructor
    · refine Pairs.currentKind.bind fun kind => ?_
      split
      · exact .unexpectedBut
      · exact .typeName
      · exact .atomType
      · exact harray
    · refine Pairs.expect.bindLike fun first first' hfirst => ?_
      refine Pairs.expectBut.bindLike fun _ _ _ => ?_
      refine Pairs.expectBut.bindLike fun length length' hlength => ?_
      rw [like.value_eq hlength]
      split
      · exact .stop hlength _
      · refine Pairs.expectBut.bindLike fun _ _ _ => ?_
        exact htype.bind fun element => .addFrom (like.spans hfirst)

namespace Pairs

theorem type : Pairs like Eq (type grammar) (type grammar) :=
  .within fun _ => (types_paired .refl).1

theorem arrayType : Pairs like Eq (arrayType grammar) (arrayType grammar) :=
  .within fun _ => (types_paired .refl).2

theorem typedName {what : String} :
    Pairs like Eq (typedName grammar what) (typedName grammar what) := by
  refine expectBut.bindLike fun name name' hname => ?_
  refine expectBut.bindLike fun _ _ _ => ?_
  rw [like.value_eq hname]
  exact type.bind fun written => .pure _

theorem typedDefinition {word : TokenKind} {what : String} {make : String → NodeId → Definition} :
    Pairs like Eq (typedDefinition grammar word what make)
      (typedDefinition grammar word what make) :=
  expect.bindLike fun _ _ hfirst => typedName.bind fun _ => addFrom (like.spans hfirst)

theorem typeDefinition : Pairs like Eq (typeDefinition grammar) (typeDefinition grammar) := by
  rw [typeDefinition_eq]
  exact typedDefinition

theorem varDefinition : Pairs like Eq (varDefinition grammar) (varDefinition grammar) := by
  rw [varDefinition_eq]
  exact typedDefinition

theorem parameter : Pairs like Eq (parameter grammar) (parameter grammar) :=
  current.bindLike fun _ _ hfirst => typedName.bind fun _ => addFrom (like.spans hfirst)

theorem parametersWithin (fuel : Nat) :
    Pairs like Eq (parametersWithin grammar fuel) (parametersWithin grammar fuel) := by
  induction fuel with
  | zero => exact .exhausted (Parser.parametersWithin grammar) rfl .refl
  | succ fuel ih =>
    rw [parametersWithin_succ]
    exact parameter.separated ih

theorem parameters : Pairs like Eq (parameters grammar) (parameters grammar) := by
  refine currentKind.bind fun kind => ?_
  split
  · exact .pure _
  · exact .within parametersWithin

end Pairs

/-- The functions of the mutual block read alike under two bounds. -/
structure Paired (like : Likeness) (grammar : Grammar) (fuel fuel' : Nat) : Prop where
  expression : Pairs like Eq (expressionWithin grammar fuel) (expressionWithin grammar fuel')
  expressions : Pairs like Eq (expressionsWithin grammar fuel) (expressionsWithin grammar fuel')
  operation : ∀ power,
    Pairs like Eq (operationWithin grammar fuel power) (operationWithin grammar fuel' power)
  continued : ∀ power left, Pairs like Eq (continuedWithin grammar fuel power left)
    (continuedWithin grammar fuel' power left)
  operand : ∀ form,
    Pairs like Eq (operandWithin grammar fuel form) (operandWithin grammar fuel' form)
  primary : Pairs like Eq (primaryWithin grammar fuel) (primaryWithin grammar fuel')
  call : ∀ name name', like.token name name' →
    Pairs like Eq (callWithin grammar fuel name) (callWithin grammar fuel' name')
  binary : ∀ power left, Pairs like Eq (binaryWithin grammar fuel power left)
    (binaryWithin grammar fuel' power left)
  index : ∀ left, Pairs like Eq (indexWithin grammar fuel left) (indexWithin grammar fuel' left)
  prefixed : Pairs like Eq (prefixedWithin grammar fuel) (prefixedWithin grammar fuel')
  block : Pairs like Eq (blockWithin grammar fuel) (blockWithin grammar fuel')
  curly : Pairs like Eq (curlyWithin grammar fuel) (curlyWithin grammar fuel')
  assignment : Pairs like Eq (assignmentWithin grammar fuel) (assignmentWithin grammar fuel')
  conditional : Pairs like Eq (conditionalWithin grammar fuel) (conditionalWithin grammar fuel')
  whileLoop : Pairs like Eq (whileWithin grammar fuel) (whileWithin grammar fuel')
  forLoop : Pairs like Eq (forWithin grammar fuel) (forWithin grammar fuel')
  definitions : Pairs like Eq (definitionsWithin grammar fuel) (definitionsWithin grammar fuel')
  definitionList :
    Pairs like Eq (definitionListWithin grammar fuel) (definitionListWithin grammar fuel')
  definition : Pairs like Eq (definitionWithin grammar fuel) (definitionWithin grammar fuel')
  function : Pairs like Eq (functionDefinitionWithin grammar fuel)
    (functionDefinitionWithin grammar fuel')

namespace Paired

/-- Under the bound of 0, every function is exhausted. -/
theorem zero (h : like.Covers 0 fuel') : Paired like grammar 0 fuel' where
  expression := .exhausted (expressionWithin grammar) rfl h
  expressions := .exhausted (expressionsWithin grammar) rfl h
  operation power := .exhausted (operationWithin grammar · power) rfl h
  continued power left := .exhausted (continuedWithin grammar · power left) rfl h
  operand form := .exhausted (operandWithin grammar · form) rfl h
  primary := .exhausted (primaryWithin grammar) rfl h
  call _ name' _ := .exhausted (callWithin grammar · name') rfl h
  binary power left := .exhausted (binaryWithin grammar · power left) rfl h
  index left := .exhausted (indexWithin grammar · left) rfl h
  prefixed := .exhausted (prefixedWithin grammar) rfl h
  block := .exhausted (blockWithin grammar) rfl h
  curly := .exhausted (curlyWithin grammar) rfl h
  assignment := .exhausted (assignmentWithin grammar) rfl h
  conditional := .exhausted (conditionalWithin grammar) rfl h
  whileLoop := .exhausted (whileWithin grammar) rfl h
  forLoop := .exhausted (forWithin grammar) rfl h
  definitions := .exhausted (definitionsWithin grammar) rfl h
  definitionList := .exhausted (definitionListWithin grammar) rfl h
  definition := .exhausted (definitionWithin grammar) rfl h
  function := .exhausted (functionDefinitionWithin grammar) rfl h

variable (ih : Paired like grammar fuel fuel')

include ih

theorem expression_step :
    Pairs like Eq (expressionWithin grammar (fuel + 1)) (expressionWithin grammar (fuel' + 1)) := by
  refine (ih.operation .lowest).bind fun item => ?_
  refine Pairs.currentKind.bind fun kind => ?_
  refine Pairs.peekKind.bind fun next => ?_
  split
  · refine Pairs.advance.bindLike fun _ _ _ => ?_
    refine Pairs.advance.bindLike fun _ _ _ => ?_
    refine ih.definitions.bind fun inner => ?_
    refine Pairs.expectBut.bindLike fun _ _ _ => ?_
    exact Pairs.spanAt.bindLike fun _ _ hitem => .addFrom hitem
  · exact .pure item

theorem expressions_step :
    Pairs like Eq (expressionsWithin grammar (fuel + 1))
      (expressionsWithin grammar (fuel' + 1)) := by
  rw [expressionsWithin_succ, expressionsWithin_succ]
  exact ih.expression.separated ih.expressions

theorem operation_step (power : BindingPower) :
    Pairs like Eq (operationWithin grammar (fuel + 1) power)
      (operationWithin grammar (fuel' + 1) power) := by
  refine Pairs.currentKind.bind fun kind => ?_
  split
  · exact .unexpected
  · next form _ => exact (ih.operand form).bind fun left => ih.continued power left

theorem continued_step (power : BindingPower) (left : NodeId) :
    Pairs like Eq (continuedWithin grammar (fuel + 1) power left)
      (continuedWithin grammar (fuel' + 1) power left) := by
  refine Pairs.currentKind.bind fun kind => ?_
  split
  · exact .pure left
  · next next _ =>
    split
    · exact .pure left
    · split
      · exact (ih.binary next.power left).bind fun longer => ih.continued power longer
      · exact (ih.index left).bind fun longer => ih.continued power longer

theorem operand_step (form : OperandForm) :
    Pairs like Eq (operandWithin grammar (fuel + 1) form)
      (operandWithin grammar (fuel' + 1) form) := by
  cases form with
  | primary => exact ih.primary
  | prefixed => exact ih.prefixed
  | block => exact ih.block
  | curly => exact ih.curly

theorem primary_step :
    Pairs like Eq (primaryWithin grammar (fuel + 1)) (primaryWithin grammar (fuel' + 1)) := by
  refine Pairs.currentKind.bind fun kind => ?_
  split
  · exact .integerLiteral
  · exact .literal
  · exact .literal
  · refine Pairs.advance.bindLike fun token token' ht => ?_
    refine Pairs.currentKind.bind fun next => ?_
    split
    · exact ih.call token token' ht
    · exact .addToken (fun value => .expression (.name value)) ht
  · exact .unexpected

theorem call_step {name name' : Token} (hname : like.token name name') :
    Pairs like Eq (callWithin grammar (fuel + 1) name) (callWithin grammar (fuel' + 1) name') := by
  refine Pairs.expect.bindLike fun _ _ _ => ?_
  refine Pairs.currentKind.bind fun kind => ?_
  rw [like.value_eq hname]
  split
  · exact Pairs.expectBut.bindLike fun _ _ _ => .addFrom (like.spans hname)
  · refine ih.expressions.bind fun arguments => ?_
    exact Pairs.expectBut.bindLike fun _ _ _ => .addFrom (like.spans hname)

theorem binary_step (power : BindingPower) (left : NodeId) :
    Pairs like Eq (binaryWithin grammar (fuel + 1) power left)
      (binaryWithin grammar (fuel' + 1) power left) := by
  refine Pairs.currentKind.bind fun kind => ?_
  split
  · exact .unexpected
  · refine Pairs.advance.bindLike fun _ _ _ => ?_
    refine (ih.operation power).bind fun right => ?_
    refine Pairs.currentKind.bind fun next => ?_
    split
    · exact .unexpectedBut
    · exact Pairs.spanAt.bindLike fun _ _ hleft => .addFrom hleft

theorem index_step (left : NodeId) :
    Pairs like Eq (indexWithin grammar (fuel + 1) left)
      (indexWithin grammar (fuel' + 1) left) := by
  refine Pairs.expect.bindLike fun _ _ _ => ?_
  refine ih.expression.bind fun index => ?_
  refine Pairs.expectBut.bindLike fun _ _ _ => ?_
  exact Pairs.spanAt.bindLike fun _ _ hleft => .addFrom hleft

theorem prefixed_step :
    Pairs like Eq (prefixedWithin grammar (fuel + 1)) (prefixedWithin grammar (fuel' + 1)) := by
  refine Pairs.advance.bindLike fun operator operator' ho => ?_
  refine (ih.operation .unary).bind fun operand => ?_
  rw [like.kind_eq ho]
  exact .addFrom (like.spans ho)

theorem block_step :
    Pairs like Eq (blockWithin grammar (fuel + 1)) (blockWithin grammar (fuel' + 1)) := by
  refine Pairs.expect.bindLike fun _ _ hfirst => ?_
  refine ih.expressions.bind fun expressions => ?_
  exact Pairs.expectBut.bindLike fun _ _ _ => .addFrom (like.spans hfirst)

theorem curly_step :
    Pairs like Eq (curlyWithin grammar (fuel + 1)) (curlyWithin grammar (fuel' + 1)) := by
  refine Pairs.expect.bindLike fun first first' hfirst => ?_
  refine Pairs.currentKind.bind fun kind => ?_
  have hclose : ∀ item : Expression, Pairs like Eq
      (do let _ ← expectBut .closeCurly "expected `\x7d`"
          addFrom first.span (.expression item))
      (do let _ ← expectBut .closeCurly "expected `\x7d`"
          addFrom first'.span (.expression item)) :=
    fun item => Pairs.expectBut.bindLike fun _ _ _ => .addFrom (like.spans hfirst)
  split
  · exact ih.conditional.bind hclose
  · exact ih.whileLoop.bind hclose
  · exact ih.forLoop.bind hclose
  · exact ih.assignment.bind hclose

theorem assignment_step :
    Pairs like Eq (assignmentWithin grammar (fuel + 1)) (assignmentWithin grammar (fuel' + 1)) := by
  refine ih.expression.bind fun left => ?_
  refine Pairs.expectBut.bindLike fun _ _ _ => ?_
  exact ih.expression.bind fun right => .pure _

theorem conditional_step :
    Pairs like Eq (conditionalWithin grammar (fuel + 1))
      (conditionalWithin grammar (fuel' + 1)) := by
  refine Pairs.expect.bindLike fun _ _ _ => ?_
  refine ih.expression.bind fun condition => ?_
  refine Pairs.expectBut.bindLike fun _ _ _ => ?_
  refine ih.expression.bind fun thenBranch => ?_
  refine Pairs.currentKind.bind fun kind => ?_
  split
  · exact Pairs.advance.bindLike fun _ _ _ => ih.expression.bind fun elseBranch => .pure _
  · exact .pure _

theorem whileLoop_step :
    Pairs like Eq (whileWithin grammar (fuel + 1)) (whileWithin grammar (fuel' + 1)) := by
  refine Pairs.expect.bindLike fun _ _ _ => ?_
  refine ih.expression.bind fun condition => ?_
  refine Pairs.expectBut.bindLike fun _ _ _ => ?_
  exact ih.expression.bind fun body => .pure _

theorem forLoop_step :
    Pairs like Eq (forWithin grammar (fuel + 1)) (forWithin grammar (fuel' + 1)) := by
  refine Pairs.expect.bindLike fun _ _ _ => ?_
  refine Pairs.counter.bind fun counter => ?_
  refine Pairs.expectBut.bindLike fun _ _ _ => ?_
  refine ih.expression.bind fun low => ?_
  refine Pairs.expectBut.bindLike fun _ _ _ => ?_
  refine ih.expression.bind fun high => ?_
  refine Pairs.expectBut.bindLike fun _ _ _ => ?_
  refine ih.expression.bind fun step => ?_
  refine Pairs.expectBut.bindLike fun _ _ _ => ?_
  exact ih.expression.bind fun body => .pure _

theorem definitions_step :
    Pairs like Eq (definitionsWithin grammar (fuel + 1)) (definitionsWithin grammar (fuel' + 1)) :=
  Pairs.current.bindLike fun _ _ hfirst =>
    ih.definitionList.bind fun _ => .addFrom (like.spans hfirst)

theorem definitionList_step :
    Pairs like Eq (definitionListWithin grammar (fuel + 1))
      (definitionListWithin grammar (fuel' + 1)) := by
  rw [definitionListWithin_succ, definitionListWithin_succ]
  exact ih.definition.separated ih.definitionList

theorem definition_step :
    Pairs like Eq (definitionWithin grammar (fuel + 1)) (definitionWithin grammar (fuel' + 1)) := by
  refine Pairs.currentKind.bind fun kind => ?_
  split
  · exact .unexpectedBut
  · exact .typeDefinition
  · exact .varDefinition
  · exact ih.function

theorem function_step :
    Pairs like Eq (functionDefinitionWithin grammar (fuel + 1))
      (functionDefinitionWithin grammar (fuel' + 1)) := by
  refine Pairs.expect.bindLike fun _ _ hfirst => ?_
  refine Pairs.expectBut.bindLike fun name name' hname => ?_
  rw [like.value_eq hname]
  refine Pairs.expectBut.bindLike fun _ _ _ => ?_
  refine Pairs.parameters.bind fun parameters => ?_
  refine Pairs.expectBut.bindLike fun _ _ _ => ?_
  refine Pairs.expectBut.bindLike fun _ _ _ => ?_
  refine Pairs.type.bind fun result => ?_
  refine Pairs.expectBut.bindLike fun _ _ _ => ?_
  exact ih.expression.bind fun body => .addFrom (like.spans hfirst)

theorem succ : Paired like grammar (fuel + 1) (fuel' + 1) where
  expression := ih.expression_step
  expressions := ih.expressions_step
  operation := ih.operation_step
  continued := ih.continued_step
  operand := ih.operand_step
  primary := ih.primary_step
  call _ _ := ih.call_step
  binary := ih.binary_step
  index := ih.index_step
  prefixed := ih.prefixed_step
  block := ih.block_step
  curly := ih.curly_step
  assignment := ih.assignment_step
  conditional := ih.conditional_step
  whileLoop := ih.whileLoop_step
  forLoop := ih.forLoop_step
  definitions := ih.definitions_step
  definitionList := ih.definitionList_step
  definition := ih.definition_step
  function := ih.function_step

end Paired

/-- Every function of the mutual block reads alike, whatever stands for what. -/
theorem paired (like : Likeness) (grammar : Grammar) {fuel fuel' : Nat}
    (h : like.Covers fuel fuel') : Paired like grammar fuel fuel' := by
  induction fuel generalizing fuel' with
  | zero => exact .zero h
  | succ fuel ih =>
    obtain ⟨fuel', rfl, hfewer⟩ := h.exists_succ
    exact (ih hfewer).succ

/-- A program is read alike. -/
theorem program_paired (like : Likeness) : Pairs like Eq program program := by
  have hdefinitions : Pairs like Eq (definitions .pins) (definitions .pins) :=
    .within fun _ => (paired like .pins .refl).definitions
  refine hdefinitions.bind fun root => ?_
  refine Pairs.currentKind.bind fun kind => ?_
  split
  · exact .pure root
  · exact .unexpectedBut

/-- A reading beside itself: its states are such that moves lead to others of them only, and the
tokens that it reads are such that they stand in front of these. -/
def Likeness.keeping (roomier : Prop) (holds : ParserState → Prop) (read : Token → Prop)
    (hm : ∀ {state after : ParserState}, Move state after → holds state → holds after)
    (hr : ∀ {state : ParserState}, holds state → read state.stream.current) : Likeness where
  token token token' := token' = token ∧ read token
  span := Eq
  state state state' := state' = state ∧ holds state
  roomier := roomier
  kind_eq h := congrArg Token.kind h.1
  value_eq h := congrArg Token.value h.1
  spans h := congrArg Token.span h.1.symm
  current h := ⟨congrArg (·.stream.current) h.1, hr h.2⟩
  peekKind_eq h := congrArg (·.stream.peekKind) h.1
  left_eq h := congrArg ParserState.left h.1
  size_eq h := congrArg (·.arena.size) h.1
  spanAt id h := congrArg (·.arena.span id) h.1.symm
  through h hs := by rw [h.1, hs]
  consume h := ⟨congrArg behind h.1, hm (.consume _) h.2⟩
  push kind h hs := ⟨by rw [h.1, hs], hm (.push _ _) h.2⟩

/-- A reading beside itself, onward from a state. -/
def Likeness.onward (start : ParserState) : Likeness :=
  .keeping False (Onward start) (fun _ => True) (fun hmove honward => honward.tail hmove)
    fun _ => trivial

/-- A reading beside one that is the same but may have more room for nested calls. -/
def Likeness.roomy : Likeness :=
  .keeping True (fun _ => True) (fun _ => True) (fun _ => id) id

/-- What is put together in the same way beside itself only moves onward, however it ends. -/
theorem moves_of_pairs {step : Parse α}
    (h : ∀ start, ∃ rel, Pairs (.onward start) rel step step) : Pass.Moves Onward step := by
  intro start
  obtain ⟨rel, hstep⟩ := h start
  have hout := (hstep start start ⟨rfl, .refl⟩).resolve_left fun hdeep => hdeep.1
  exact hout.reached.2

/-- A step with more room does the same, unless the first one is stopped for its nested calls. -/
theorem eq_of_pairs {step step' : Parse α} {state : ParserState}
    (h : Pairs .roomy Eq step step') (hdeep : ¬ TooDeep (step state)) :
    step' state = step state := by
  have hout := (h state state ⟨rfl, trivial⟩).resolve_left fun hd => hdeep hd.2
  generalize step state = outcome, step' state = outcome' at hout ⊢
  cases hout with
  | value hv hs => rw [hv, hs.1]
  | fault hb hs =>
    obtain ⟨_, ht⟩ := hb
    rw [ht.1, hs.1]

end Pins.Parser
