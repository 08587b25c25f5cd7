import Pins.Proofs.Built
import Pins.Proofs.Families
import Pins.Proofs.Lexed
import Pins.Proofs.Runs
import Pins.Token.Lexer

/-!
# Programs that were read

Reading a program either finds a token that may not stand where it stands, or a number that is too
large, or it ends with an arena that holds one tree (`parse_isTree`). It never runs into the bound
on nested calls: every form consumes a token before it comes back to its own level.

`Read` says what has been read since a state: the shifts and reductions that lead on from it, and
the list of places that the nodes left are for. Reading a token adds nothing to the list, and a node
closes the list of its own places to one.
-/

namespace Pins

namespace Parser

variable {state between after base : ParserState} {place : Place} {places : List (Place × NodeId)}
  {kind : NodeKind} {span : Text.Span} {id : NodeId} {fuel : Nat}

/-- The faults that reading may find in a list of tokens. -/
def Refuses : Fault → Prop
  | .unexpectedToken _ | .unexpectedTokenDetailed .. | .numberParseError _ => True
  | _ => False

/-- Nodes for some places have been read since a state. -/
structure Read (before : ParserState) (places : List (Place × NodeId)) (after : ParserState) :
    Prop where
  /-- The tokens left still end. -/
  ended : after.stream.Ended
  /-- Shifts and reductions leave these nodes. -/
  built : Built before places after

namespace Read

theorem refl (h : state.stream.Ended) : Read state [] state := ⟨h, .rest state⟩

/-- What is read one behind the other is read. -/
theorem trans {others : List (Place × NodeId)} (hf : Read state places between)
    (hs : Read between others after) : Read state (places ++ others) after :=
  ⟨hs.ended, hf.built.trans hs.built⟩

/-- No token is given back. -/
theorem left_le (h : Read state places after) : after.left ≤ state.left := h.built.onward.left_le

/-- A token behind nodes changes nothing about them. -/
theorem token (hf : Read state places between) (hs : Read between [] after) :
    Read state places after := by
  simpa using hf.trans hs

end Read

/-- A step reads subtrees for places that its value says, and at least one token. -/
def Gives {α : Type} (step : Parse α) (state : ParserState) (places : α → List (Place × NodeId)) :
    Prop :=
  step.Runs (Pass.Reports Refuses) state fun value after => Read state (places value) after ∧
    after.left < state.left

/-- Some members for one kind of place. -/
def GivesSome (step : Parse (List NodeId)) (place : Place) (state : ParserState) : Prop :=
  step.Runs (Pass.Reports Refuses) state fun ids after =>
    Read state (ids.map (place, ·)) after ∧ ids ≠ [] ∧ after.left < state.left

/-- A token was consumed, and nothing else. -/
abbrev Takes (before : ParserState) (token : Token) (after : ParserState) : Prop :=
  Read before [] after ∧ after.left < before.left ∧ token = before.stream.current ∧
    after = behind before

/-- A node may begin with the token that was consumed first. -/
theorem Opens.of_takes {token : Token} (h : Takes base token between) :
    Opens base state kind token.span := h.2.2.1 ▸ .token

/-- Any token but the end token can be consumed. -/
theorem advance_runs (hs : state.stream.Ended) (hk : state.stream.current.kind ≠ .eof) :
    advance.Runs (Pass.Reports Refuses) state fun token after => Takes state token after := by
  simp only [advance, current, Pass.runs_bind, Pass.runs_get, Pass.runs_pure,
    Pass.runs_modify]
  have hleft : state.stream.advance.upcoming.length < state.stream.upcoming.length := by
    unfold TokenStream.advance
    cases hu : state.stream.upcoming with
    | nil => exact absurd hu (hs.upcoming_ne_nil hk)
    | cons next rest => exact Nat.lt_succ_self _
  exact ⟨⟨hs.advance, (Built.rest state).shift hk⟩, hleft, rfl, rfl⟩

/-- A token of a kind is consumed. -/
theorem wanted_runs {expected : TokenKind} {fault : Token → Fault} (hs : state.stream.Ended)
    (hk : expected ≠ .eof) (hf : ∀ token, Refuses (fault token)) :
    (wanted expected fault).Runs (Pass.Reports Refuses) state fun token after =>
      Takes state token after := by
  simp only [wanted, currentKind, current, Pass.runs_bind, Pass.runs_get, Pass.runs_pure]
  split
  · next he => exact advance_runs hs (by rw [he]; exact hk)
  · exact hf _

theorem expect_runs {expected : TokenKind} (hs : state.stream.Ended) (hk : expected ≠ .eof) :
    (expect expected).Runs (Pass.Reports Refuses) state fun token after =>
      Takes state token after := by
  rw [expect_eq]
  exact wanted_runs hs hk fun _ => trivial

theorem expectBut_runs {expected : TokenKind} {message : String} (hs : state.stream.Ended)
    (hk : expected ≠ .eof) :
    (expectBut expected message).Runs (Pass.Reports Refuses) state fun token after =>
      Takes state token after := by
  rw [expectBut_eq]
  exact wanted_runs hs hk fun _ => trivial

/-- A node is added around those that were read since a state, and takes their place. -/
theorem addFrom_runs (place : Place) (hr : Read base places state) (hp : kind.places = places)
    (hopens : Opens base state kind span) (hleft : state.left < base.left)
    (ha : place.admits kind = true) (hregular : kind.isRegular = true) :
    (addFrom span kind).Runs (Pass.Reports Refuses) state fun id after =>
      Read base [(place, id)] after ∧ after.left = state.left := by
  simp only [addFrom, add, Pass.runs_bind, Pass.runs_get, Pass.runs_modify, Pass.runs_pure]
  subst hp
  exact ⟨⟨hr.ended, .reduce (.rest base) hr.built hleft hopens ha hregular⟩, rfl⟩

/-- A node without places is added that is one token. -/
theorem addToken_runs {token : Token} (place : Place) (ht : Takes base token state)
    (hp : kind.places = []) (ha : place.admits kind = true) (hregular : kind.isRegular = true) :
    (add kind token.span).Runs (Pass.Reports Refuses) state fun id after =>
      Read base [(place, id)] after ∧ after.left = state.left := by
  obtain ⟨hr, hleft, rfl, rfl⟩ := ht
  have hprevious : (behind base).stream.previous = base.stream.current.span := by
    unfold behind ParserState.left TokenStream.advance at *
    split at hleft
    · exact absurd hleft (Nat.lt_irrefl _)
    · rfl
  have hadd := addFrom_runs place hr hp .token hleft ha hregular
  simp only [addFrom, Pass.runs_bind, Pass.runs_get, hprevious] at hadd
  exact hadd

/-- The bound on nested calls covers the tokens left. -/
theorem within_runs {α : Type} {step : Nat → Parse α} {promised : α → ParserState → Prop}
    (h : (step (8 * (state.left + 1))).Runs (Pass.Reports Refuses) state promised) :
    (within step).Runs (Pass.Reports Refuses) state promised := h

/-- Members are read as long as marks follow, if that is true behind the first mark. -/
theorem separated_runs {item : Parse NodeId} {others : Parse (List NodeId)} {mark : TokenKind}
    (hmark : mark ≠ .eof) (hitem : Gives item state fun id => [(place, id)])
    (hothers : ∀ {between : ParserState}, between.stream.Ended → between.left < state.left →
      GivesSome others place between) :
    GivesSome (separated item others mark) place state := by
  simp only [GivesSome, separated, currentKind, current, Pass.runs_bind, Pass.runs_get,
    Pass.runs_pure]
  refine hitem.mono fun first s₁ h₁ => ?_
  split
  · next hk =>
    simp only [Pass.runs_bind, Pass.runs_pure]
    refine (advance_runs h₁.1.ended (hk ▸ hmark)).mono fun _ s₂ h₂ => ?_
    refine (hothers h₂.1.ended (by omega)).mono fun ids s₃ h₃ => ?_
    exact ⟨(h₁.1.token h₂.1).trans h₃.1, by simp, by omega⟩
  · exact ⟨h₁.1, by simp, h₁.2⟩

/-- Written types are read, as long as the bound on nested calls covers the tokens left. -/
theorem types_run : ∀ fuel : Nat,
    (∀ state : ParserState, state.stream.Ended → 8 * state.left + 2 ≤ fuel →
      Gives (typeWithin .pins fuel) state fun id => [(.type, id)]) ∧
    (∀ state : ParserState, state.stream.Ended → 8 * state.left + 1 ≤ fuel →
      Gives (arrayTypeWithin .pins fuel) state fun id => [(.type, id)]) := by
  intro fuel
  induction fuel with
  | zero => exact ⟨fun _ _ h => by omega, fun _ _ h => by omega⟩
  | succ fuel ih =>
    constructor
    · intro state hs hfuel
      simp only [Gives, typeWithin, currentKind, current, Pass.runs_bind, Pass.runs_get,
        Pass.runs_pure]
      cases hform : Grammar.pins.type? state.stream.current.kind with
      | none => simp [unexpectedBut, fail, current, Refuses]
      | some form =>
        cases form with
        | name =>
          simp only [typeName, Pass.runs_bind]
          refine (expect_runs hs (by decide)).mono fun token named hn => ?_
          refine (addToken_runs .type hn rfl rfl rfl).mono fun id after ha => ?_
          exact ⟨ha.1, by omega⟩
        | atom =>
          have hk : state.stream.current.kind ≠ .eof := by
            intro he
            simp [he, Grammar.pins] at hform
          simp only [atomType, Pass.runs_bind]
          refine (advance_runs hs hk).mono fun token named hn => ?_
          refine (addToken_runs .type hn rfl rfl rfl).mono fun id after ha => ?_
          exact ⟨ha.1, by omega⟩
        | array => exact ih.2 state hs (by omega)
    · intro state hs hfuel
      simp only [Gives, arrayTypeWithin, Pass.runs_bind]
      refine (expect_runs hs (by decide)).mono fun first s₁ h₁ => ?_
      refine (expectBut_runs h₁.1.ended (by decide)).mono fun _ s₂ h₂ => ?_
      refine (expectBut_runs h₂.1.ended (by decide)).mono fun length s₃ h₃ => ?_
      split
      · simp [Refuses]
      · simp only [Pass.runs_bind]
        refine (expectBut_runs h₃.1.ended (by decide)).mono fun _ s₄ h₄ => ?_
        refine (ih.1 s₄ h₄.1.ended (by omega)).mono fun element s₅ h₅ => ?_
        have hread := (((h₁.1.token h₂.1).token h₃.1).token h₄.1).trans h₅.1
        refine (addFrom_runs .type hread rfl (.of_takes h₁) (by omega) rfl rfl).mono
          fun id after ha => ?_
        exact ⟨ha.1, by omega⟩

/-- A written type is read. -/
theorem type_runs (hs : state.stream.Ended) :
    Gives (type .pins) state fun id => [(.type, id)] :=
  within_runs ((types_run _).1 state hs (by omega))

/-- A name with a written type is read. -/
theorem typedName_runs {what : String} (hs : state.stream.Ended) :
    Gives (typedName .pins what) state fun typed => [(.type, typed.2)] := by
  simp only [Gives, typedName, Pass.runs_bind, Pass.runs_pure]
  refine (expectBut_runs hs (by decide)).mono fun name s₁ h₁ => ?_
  refine (expectBut_runs h₁.1.ended (by decide)).mono fun _ s₂ h₂ => ?_
  refine (type_runs h₂.1.ended).mono fun written s₃ h₃ => ?_
  exact ⟨(h₁.1.token h₂.1).trans h₃.1, by omega⟩

/-- The definition of a type or of a variable is read. -/
theorem typedDefinition_runs {word : TokenKind} {what : String}
    {make : String → NodeId → Definition} (hs : state.stream.Ended) (hword : word ≠ .eof)
    (hplaces : ∀ name written,
      (NodeKind.definition (make name written)).places = [(.type, written)])
    (hadmits : ∀ name written, Place.definition.admits (.definition (make name written)) = true) :
    Gives (typedDefinition .pins word what make) state fun id => [(.definition, id)] := by
  simp only [Gives, typedDefinition, Pass.runs_bind]
  refine (expect_runs hs hword).mono fun first s₁ h₁ => ?_
  refine (typedName_runs h₁.1.ended).mono fun typed s₂ h₂ => ?_
  refine (addFrom_runs .definition (h₁.1.trans h₂.1) (hplaces _ _) (.of_takes h₁) (by omega)
    (hadmits _ _) rfl).mono fun id after ha => ?_
  exact ⟨ha.1, by omega⟩

theorem typeDefinition_runs (hs : state.stream.Ended) :
    Gives (typeDefinition .pins) state fun id => [(.definition, id)] := by
  rw [typeDefinition_eq]
  exact typedDefinition_runs hs (by decide) (fun _ _ => rfl) fun _ _ => rfl

theorem varDefinition_runs (hs : state.stream.Ended) :
    Gives (varDefinition .pins) state fun id => [(.definition, id)] := by
  rw [varDefinition_eq]
  exact typedDefinition_runs hs (by decide) (fun _ _ => rfl) fun _ _ => rfl

/-- A parameter is read. -/
theorem parameter_runs (hs : state.stream.Ended) :
    Gives (parameter .pins) state fun id => [(.parameter, id)] := by
  simp only [Gives, parameter, current, Pass.runs_bind, Pass.runs_get, Pass.runs_pure]
  refine (typedName_runs hs).mono fun typed s₁ h₁ => ?_
  refine (addFrom_runs .parameter h₁.1 rfl .token h₁.2 rfl rfl).mono fun id after ha => ?_
  exact ⟨ha.1, by omega⟩

/-- Parameters are read, as long as the bound on nested calls covers the tokens left. -/
theorem parametersWithin_runs : ∀ (fuel : Nat) {state : ParserState}, state.stream.Ended →
    8 * state.left + 1 ≤ fuel → GivesSome (parametersWithin .pins fuel) .parameter state := by
  intro fuel
  induction fuel with
  | zero => intro _ _ h; omega
  | succ fuel ih =>
    intro state hs hfuel
    rw [parametersWithin_succ]
    exact separated_runs (by decide) (parameter_runs hs) fun hended hless => ih hended (by omega)

/-- The parameters of a function are read, if there are any. -/
theorem parameters_runs (hs : state.stream.Ended) :
    (parameters .pins).Runs (Pass.Reports Refuses) state fun ids after =>
      Read state (ids.map (.parameter, ·)) after := by
  simp only [parameters, currentKind, current, Pass.runs_bind, Pass.runs_get, Pass.runs_pure]
  split
  · exact .refl hs
  · refine within_runs ?_
    exact (parametersWithin_runs _ hs (by omega)).mono fun _ _ h => h.1

/-- A literal is read. -/
theorem literal_runs {word : Atom} (hs : state.stream.Ended)
    (hk : state.stream.current.kind ≠ .eof)
    (hregular : (NodeKind.expression (.literal state.stream.current.value word)).isRegular = true) :
    Gives (literal word) state fun id => [(.expression, id)] := by
  simp only [Gives, literal, Pass.runs_bind]
  refine (advance_runs hs hk).mono fun token s₁ h₁ => ?_
  rw [← h₁.2.2.1] at hregular
  refine (addToken_runs .expression h₁ rfl rfl hregular).mono fun id after ha => ?_
  exact ⟨ha.1, by omega⟩

/-- An integer literal is read if it fits a signed word. -/
theorem integerLiteral_runs (hs : state.stream.Ended) (hk : state.stream.current.kind ≠ .eof) :
    Gives integerLiteral state fun id => [(.expression, id)] := by
  simp only [Gives, integerLiteral, current, Pass.runs_bind, Pass.runs_get, Pass.runs_pure]
  split
  · next hfits => exact literal_runs hs hk hfits
  · simp [fail, current, Refuses]

/-- The counter of a loop is read. -/
theorem counter_runs (hs : state.stream.Ended) :
    Gives counter state fun id => [(.counter, id)] := by
  simp only [Gives, counter, Pass.runs_bind]
  refine (expectBut_runs hs (by decide)).mono fun token s₁ h₁ => ?_
  refine (addToken_runs .counter h₁ rfl rfl rfl).mono fun id after ha => ?_
  exact ⟨ha.1, by omega⟩

/-- An expression behind one that was read already, which becomes its first part. -/
def Continues (step : Parse NodeId) (base state : ParserState) : Prop :=
  step.Runs (Pass.Reports Refuses) state fun id after => Read base [(.expression, id)] after ∧
    after.left < state.left

/-- An expression in braces, which is to become a node. -/
def GivesForm (step : Parse Expression) (state : ParserState) : Prop :=
  step.Runs (Pass.Reports Refuses) state fun item after =>
    Read state (NodeKind.expression item).places after ∧
      (NodeKind.expression item).isRegular = true ∧ after.left < state.left

/-- All functions of the mutual block read what they are for, as long as the bound on nested calls
covers the tokens left. The calls a function may make before it has consumed a token are in the
second summand of what it asks of the bound. -/
structure Reads (fuel : Nat) : Prop where
  expression : ∀ {state : ParserState}, state.stream.Ended → 8 * state.left + 4 ≤ fuel →
    Gives (expressionWithin .pins fuel) state fun id => [(.expression, id)]
  expressions : ∀ {state : ParserState}, state.stream.Ended → 8 * state.left + 5 ≤ fuel →
    GivesSome (expressionsWithin .pins fuel) .expression state
  operation : ∀ {state : ParserState} {power : BindingPower}, state.stream.Ended →
    8 * state.left + 3 ≤ fuel →
    Gives (operationWithin .pins fuel power) state fun id => [(.expression, id)]
  continued : ∀ {base state : ParserState} {power : BindingPower} {left : NodeId},
    Read base [(.expression, left)] state → 8 * state.left + 2 ≤ fuel →
    (continuedWithin .pins fuel power left).Runs (Pass.Reports Refuses) state fun id after =>
      Read base [(.expression, id)] after ∧ after.left ≤ state.left
  operand : ∀ {state : ParserState} {form : OperandForm}, state.stream.Ended →
    state.stream.current.kind ≠ .eof → 8 * state.left + 2 ≤ fuel →
    Gives (operandWithin .pins fuel form) state fun id => [(.expression, id)]
  primary : ∀ {state : ParserState}, state.stream.Ended → 8 * state.left + 1 ≤ fuel →
    Gives (primaryWithin .pins fuel) state fun id => [(.expression, id)]
  call : ∀ {base state : ParserState} {name : Token}, Takes base name state →
    8 * state.left + 1 ≤ fuel → Continues (callWithin .pins fuel name) base state
  binary : ∀ {base state : ParserState} {power : BindingPower} {left : NodeId},
    Read base [(.expression, left)] state → 8 * state.left + 1 ≤ fuel →
    Continues (binaryWithin .pins fuel power left) base state
  index : ∀ {base state : ParserState} {left : NodeId},
    Read base [(.expression, left)] state → 8 * state.left + 1 ≤ fuel →
    Continues (indexWithin .pins fuel left) base state
  prefixed : ∀ {state : ParserState}, state.stream.Ended → state.stream.current.kind ≠ .eof →
    8 * state.left + 1 ≤ fuel →
    Gives (prefixedWithin .pins fuel) state fun id => [(.expression, id)]
  block : ∀ {state : ParserState}, state.stream.Ended → 8 * state.left + 1 ≤ fuel →
    Gives (blockWithin .pins fuel) state fun id => [(.expression, id)]
  curly : ∀ {state : ParserState}, state.stream.Ended → 8 * state.left + 1 ≤ fuel →
    Gives (curlyWithin .pins fuel) state fun id => [(.expression, id)]
  assignment : ∀ {state : ParserState}, state.stream.Ended → 8 * state.left + 5 ≤ fuel →
    GivesForm (assignmentWithin .pins fuel) state
  conditional : ∀ {state : ParserState}, state.stream.Ended → 8 * state.left + 1 ≤ fuel →
    GivesForm (conditionalWithin .pins fuel) state
  whileLoop : ∀ {state : ParserState}, state.stream.Ended → 8 * state.left + 1 ≤ fuel →
    GivesForm (whileWithin .pins fuel) state
  forLoop : ∀ {state : ParserState}, state.stream.Ended → 8 * state.left + 1 ≤ fuel →
    GivesForm (forWithin .pins fuel) state
  definitions : ∀ {state : ParserState}, state.stream.Ended → 8 * state.left + 4 ≤ fuel →
    Gives (definitionsWithin .pins fuel) state fun id => [(.definitions, id)]
  definitionList : ∀ {state : ParserState}, state.stream.Ended → 8 * state.left + 3 ≤ fuel →
    GivesSome (definitionListWithin .pins fuel) .definition state
  definition : ∀ {state : ParserState}, state.stream.Ended → 8 * state.left + 2 ≤ fuel →
    Gives (definitionWithin .pins fuel) state fun id => [(.definition, id)]
  function : ∀ {state : ParserState}, state.stream.Ended → 8 * state.left + 1 ≤ fuel →
    Gives (functionDefinitionWithin .pins fuel) state fun id => [(.definition, id)]

namespace Reads

/-- Every bound of 0 is too small to ask for anything. -/
theorem zero : Reads 0 := by
  constructor <;> intros <;> omega

/-- An expression is read with the definitions that may follow it. -/
theorem expression_step (ih : Reads fuel) (hs : state.stream.Ended)
    (hfuel : 8 * state.left + 4 ≤ fuel + 1) :
    Gives (expressionWithin .pins (fuel + 1)) state fun id => [(.expression, id)] := by
  simp only [Gives, expressionWithin, currentKind, current, peekKind, Pass.runs_bind, Pass.runs_get,
    Pass.runs_pure]
  refine (ih.operation hs (by omega)).mono fun item s₁ h₁ => ?_
  split
  · next hwhere =>
    simp only [Pass.runs_bind, spanAt, Pass.runs_get, Pass.runs_pure]
    refine (advance_runs h₁.1.ended (by rw [hwhere.1]; decide)).mono fun _ s₂ h₂ => ?_
    have hword : s₂.stream.current.kind ≠ .eof := by
      have hpeek := hwhere.2
      rw [h₂.2.2.2]
      unfold TokenStream.peekKind at hpeek
      simp only [behind, TokenStream.advance]
      split at hpeek
      · next hu => rw [hwhere.1] at hpeek; cases hpeek
      · next next rest hu => simp [hpeek]
    refine (advance_runs h₂.1.ended hword).mono fun _ s₃ h₃ => ?_
    refine (ih.definitions h₃.1.ended (by omega)).mono fun listed s₄ h₄ => ?_
    refine (expectBut_runs h₄.1.ended (by decide)).mono fun _ s₅ h₅ => ?_
    have hread := (((h₁.1.token h₂.1).token h₃.1).trans h₄.1).token h₅.1
    refine (addFrom_runs .expression hread rfl (.operand rfl) (by omega) rfl rfl).mono
      fun id after ha => ?_
    exact ⟨ha.1, by omega⟩
  · exact h₁

/-- Expressions are read as long as commas follow. -/
theorem expressions_step (ih : Reads fuel) (hs : state.stream.Ended)
    (hfuel : 8 * state.left + 5 ≤ fuel + 1) :
    GivesSome (expressionsWithin .pins (fuel + 1)) .expression state := by
  rw [expressionsWithin_succ]
  exact separated_runs (by decide) (ih.expression hs (by omega)) fun hended hless =>
    ih.expressions hended (by omega)

/-- An operand is read, and then the operators behind it. -/
theorem operation_step (ih : Reads fuel) {power : BindingPower} (hs : state.stream.Ended)
    (hfuel : 8 * state.left + 3 ≤ fuel + 1) :
    Gives (operationWithin .pins (fuel + 1) power) state fun id => [(.expression, id)] := by
  simp only [Gives, operationWithin, currentKind, current, Pass.runs_bind, Pass.runs_get,
    Pass.runs_pure]
  cases hform : Grammar.pins.operand? state.stream.current.kind with
  | none => simp [unexpected, fail, current, Refuses]
  | some form =>
    have hk : state.stream.current.kind ≠ .eof := by
      intro he
      simp [he, Grammar.pins] at hform
    simp only [Pass.runs_bind]
    refine (ih.operand hs hk (by omega)).mono fun left s₁ h₁ => ?_
    refine (ih.continued h₁.1 (by omega)).mono fun id after ha => ?_
    exact ⟨ha.1, by omega⟩

/-- Operators are read as long as they bind tighter; each consumes its mark before it goes on. -/
theorem continued_step (ih : Reads fuel) {power : BindingPower} {left : NodeId}
    (hr : Read base [(.expression, left)] state) (hfuel : 8 * state.left + 2 ≤ fuel + 1) :
    (continuedWithin .pins (fuel + 1) power left).Runs (Pass.Reports Refuses) state fun id after =>
      Read base [(.expression, id)] after ∧ after.left ≤ state.left := by
  simp only [continuedWithin, currentKind, current, Pass.runs_bind, Pass.runs_get, Pass.runs_pure]
  cases Grammar.pins.continuation? state.stream.current.kind with
  | none => exact ⟨hr, Nat.le_refl _⟩
  | some next =>
    dsimp only
    split
    · exact ⟨hr, Nat.le_refl _⟩
    · have hgo : ∀ longer, Continues longer base state →
          (longer >>= continuedWithin .pins fuel power).Runs (Pass.Reports Refuses) state
            fun id after => Read base [(.expression, id)] after ∧ after.left ≤ state.left := by
        intro longer hlonger
        rw [Pass.runs_bind]
        refine hlonger.mono fun left' s₁ h₁ => ?_
        refine (ih.continued h₁.1 (by omega)).mono fun id after ha => ?_
        exact ⟨ha.1, by omega⟩
      cases next.form with
      | binary => exact hgo _ (ih.binary hr (by omega))
      | index => exact hgo _ (ih.index hr (by omega))

/-- An operand is read in the form that its first token chooses. -/
theorem operand_step (ih : Reads fuel) {form : OperandForm} (hs : state.stream.Ended)
    (hk : state.stream.current.kind ≠ .eof) (hfuel : 8 * state.left + 2 ≤ fuel + 1) :
    Gives (operandWithin .pins (fuel + 1) form) state fun id => [(.expression, id)] := by
  cases form with
  | primary => exact ih.primary hs (by omega)
  | prefixed => exact ih.prefixed hs hk (by omega)
  | block => exact ih.block hs (by omega)
  | curly => exact ih.curly hs (by omega)

/-- A literal, a name or a call is read. -/
theorem primary_step (ih : Reads fuel) (hs : state.stream.Ended)
    (hfuel : 8 * state.left + 1 ≤ fuel + 1) :
    Gives (primaryWithin .pins (fuel + 1)) state fun id => [(.expression, id)] := by
  simp only [Gives, primaryWithin, currentKind, current, Pass.runs_bind, Pass.runs_get,
    Pass.runs_pure]
  split
  · next hk => exact integerLiteral_runs hs (by rw [hk]; decide)
  · next hk => exact literal_runs hs (by rw [hk]; decide) rfl
  · next hk => exact literal_runs hs (by rw [hk]; decide) rfl
  · next hk =>
    simp only [Pass.runs_bind, Pass.runs_get, Pass.runs_pure]
    refine (advance_runs hs (by rw [hk]; decide)).mono fun token s₁ h₁ => ?_
    split
    · refine (ih.call h₁ (by omega)).mono fun id after ha => ?_
      exact ⟨ha.1, by omega⟩
    · refine (addToken_runs .expression h₁ rfl rfl rfl).mono fun id after ha => ?_
      exact ⟨ha.1, by omega⟩
  · simp [unexpected, fail, current, Refuses]

/-- The arguments of a call are read. -/
theorem call_step (ih : Reads fuel) {name : Token} (hname : Takes base name state)
    (hfuel : 8 * state.left + 1 ≤ fuel + 1) :
    Continues (callWithin .pins (fuel + 1) name) base state := by
  simp only [Continues, callWithin, currentKind, current, Pass.runs_bind, Pass.runs_get,
    Pass.runs_pure]
  refine (expect_runs hname.1.ended (by decide)).mono fun _ s₁ h₁ => ?_
  have hclose : ∀ (arguments : List NodeId) (s₂ : ParserState),
      Read s₁ (arguments.map (.expression, ·)) s₂ →
      Continues (do
        let _ ← expectBut .closeParen "expected `,` or `)` in argument list"
        addFrom name.span (.expression (.call name.value arguments))) base s₂ := by
    intro arguments s₂ h₂
    have hleft := h₂.left_le
    simp only [Continues, Pass.runs_bind]
    refine (expectBut_runs h₂.ended (by decide)).mono fun _ s₃ h₃ => ?_
    have hread := ((hname.1.token h₁.1).trans h₂).token h₃.1
    refine (addFrom_runs .expression hread rfl (.of_takes hname) (by omega) rfl rfl).mono
      fun id after ha => ?_
    exact ⟨ha.1, by omega⟩
  split
  · simp only [pure_bind]
    refine (hclose [] s₁ (.refl h₁.1.ended)).mono fun id after ha => ?_
    exact ⟨ha.1, by omega⟩
  · rw [Pass.runs_bind]
    refine (ih.expressions h₁.1.ended (by omega)).mono fun arguments s₂ h₂ => ?_
    refine (hclose arguments s₂ h₂.1).mono fun id after ha => ?_
    exact ⟨ha.1, by omega⟩

/-- An operator and its right operand are read behind the left one. -/
theorem binary_step (ih : Reads fuel) {power : BindingPower} {left : NodeId}
    (hr : Read base [(.expression, left)] state) (hfuel : 8 * state.left + 1 ≤ fuel + 1) :
    Continues (binaryWithin .pins (fuel + 1) power left) base state := by
  have hleft := hr.left_le
  simp only [Continues, binaryWithin, currentKind, current, Pass.runs_bind, Pass.runs_get,
    Pass.runs_pure]
  cases hoperator : BinaryOperator.ofKind? state.stream.current.kind with
  | none => simp [unexpected, fail, current, Refuses]
  | some operator =>
    have hk : state.stream.current.kind ≠ .eof := by
      intro he
      simp [he, BinaryOperator.ofKind?] at hoperator
    simp only [Pass.runs_bind, Pass.runs_get, Pass.runs_pure]
    refine (advance_runs hr.ended hk).mono fun _ s₁ h₁ => ?_
    refine (ih.operation h₁.1.ended (by omega)).mono fun right s₂ h₂ => ?_
    split
    · simp [unexpectedBut, fail, current, Refuses]
    · simp only [Pass.runs_bind, spanAt, Pass.runs_get, Pass.runs_pure]
      have hread := (hr.token h₁.1).trans h₂.1
      refine (addFrom_runs .expression hread rfl (.operand rfl) (by omega) rfl rfl).mono
        fun id after ha => ?_
      exact ⟨ha.1, by omega⟩

/-- An index is read behind the array. -/
theorem index_step (ih : Reads fuel) {left : NodeId}
    (hr : Read base [(.expression, left)] state) (hfuel : 8 * state.left + 1 ≤ fuel + 1) :
    Continues (indexWithin .pins (fuel + 1) left) base state := by
  have hleft := hr.left_le
  simp only [Continues, indexWithin, Pass.runs_bind]
  refine (expect_runs hr.ended (by decide)).mono fun _ s₁ h₁ => ?_
  refine (ih.expression h₁.1.ended (by omega)).mono fun index s₂ h₂ => ?_
  refine (expectBut_runs h₂.1.ended (by decide)).mono fun _ s₃ h₃ => ?_
  simp only [spanAt, Pass.runs_bind, Pass.runs_get, Pass.runs_pure]
  have hread := ((hr.token h₁.1).trans h₂.1).token h₃.1
  refine (addFrom_runs .expression hread rfl (.operand rfl) (by omega) rfl rfl).mono
    fun id after ha => ?_
  exact ⟨ha.1, by omega⟩

/-- An operator is read before its operand. -/
theorem prefixed_step (ih : Reads fuel) (hs : state.stream.Ended)
    (hk : state.stream.current.kind ≠ .eof) (hfuel : 8 * state.left + 1 ≤ fuel + 1) :
    Gives (prefixedWithin .pins (fuel + 1)) state fun id => [(.expression, id)] := by
  simp only [Gives, prefixedWithin, Pass.runs_bind]
  refine (advance_runs hs hk).mono fun operator s₁ h₁ => ?_
  refine (ih.operation h₁.1.ended (by omega)).mono fun operand s₂ h₂ => ?_
  refine (addFrom_runs .expression (h₁.1.trans h₂.1) rfl (.of_takes h₁) (by omega) rfl rfl).mono
    fun id after ha => ?_
  exact ⟨ha.1, by omega⟩

/-- A block has at least one expression. -/
theorem block_step (ih : Reads fuel) (hs : state.stream.Ended)
    (hfuel : 8 * state.left + 1 ≤ fuel + 1) :
    Gives (blockWithin .pins (fuel + 1)) state fun id => [(.expression, id)] := by
  simp only [Gives, blockWithin, Pass.runs_bind]
  refine (expect_runs hs (by decide)).mono fun first s₁ h₁ => ?_
  refine (ih.expressions h₁.1.ended (by omega)).mono fun expressions s₂ h₂ => ?_
  refine (expectBut_runs h₂.1.ended (by decide)).mono fun _ s₃ h₃ => ?_
  have hread := (h₁.1.trans h₂.1).token h₃.1
  refine (addFrom_runs .expression hread rfl (.of_takes h₁) (by omega) rfl
    (by simp [NodeKind.isRegular, h₂.2.1])).mono
    fun id after ha => ?_
  exact ⟨ha.1, by omega⟩

/-- What stands in braces is read in the form that its first token chooses. -/
theorem curly_step (ih : Reads fuel) (hs : state.stream.Ended)
    (hfuel : 8 * state.left + 1 ≤ fuel + 1) :
    Gives (curlyWithin .pins (fuel + 1)) state fun id => [(.expression, id)] := by
  simp only [Gives, curlyWithin, currentKind, current, Pass.runs_bind, Pass.runs_get,
    Pass.runs_pure]
  refine (expect_runs hs (by decide)).mono fun first s₁ h₁ => ?_
  have hclose : ∀ (item : Expression) (s₂ : ParserState),
      Read s₁ (NodeKind.expression item).places s₂ ∧
        (NodeKind.expression item).isRegular = true ∧ s₂.left < s₁.left →
      Pass.Runs (Pass.Reports Refuses) (do
        let _ ← expectBut .closeCurly "expected `\x7d`"
        addFrom first.span (.expression item)) s₂ fun id after =>
          Read state [(.expression, id)] after ∧ after.left < state.left := by
    intro item s₂ h₂
    simp only [Pass.runs_bind]
    refine (expectBut_runs h₂.1.ended (by decide)).mono fun _ s₃ h₃ => ?_
    have hread := (h₁.1.trans h₂.1).token h₃.1
    refine (addFrom_runs .expression hread rfl (.of_takes h₁) (by omega) rfl h₂.2.1).mono
      fun id after ha => ?_
    exact ⟨ha.1, by omega⟩
  split
  · rw [Pass.runs_bind]
    exact (ih.conditional h₁.1.ended (by omega)).mono hclose
  · rw [Pass.runs_bind]
    exact (ih.whileLoop h₁.1.ended (by omega)).mono hclose
  · rw [Pass.runs_bind]
    exact (ih.forLoop h₁.1.ended (by omega)).mono hclose
  · rw [Pass.runs_bind]
    exact (ih.assignment h₁.1.ended (by omega)).mono hclose

/-- An assignment is read. -/
theorem assignment_step (ih : Reads fuel) (hs : state.stream.Ended)
    (hfuel : 8 * state.left + 5 ≤ fuel + 1) :
    GivesForm (assignmentWithin .pins (fuel + 1)) state := by
  simp only [GivesForm, assignmentWithin, Pass.runs_bind, Pass.runs_pure]
  refine (ih.expression hs (by omega)).mono fun left s₁ h₁ => ?_
  refine (expectBut_runs h₁.1.ended (by decide)).mono fun _ s₂ h₂ => ?_
  refine (ih.expression h₂.1.ended (by omega)).mono fun right s₃ h₃ => ?_
  exact ⟨(h₁.1.token h₂.1).trans h₃.1, rfl, by omega⟩

/-- A choice is read with the branches it has. -/
theorem conditional_step (ih : Reads fuel) (hs : state.stream.Ended)
    (hfuel : 8 * state.left + 1 ≤ fuel + 1) :
    GivesForm (conditionalWithin .pins (fuel + 1)) state := by
  simp only [GivesForm, conditionalWithin, currentKind, current, Pass.runs_bind, Pass.runs_get,
    Pass.runs_pure]
  refine (expect_runs hs (by decide)).mono fun _ s₁ h₁ => ?_
  refine (ih.expression h₁.1.ended (by omega)).mono fun condition s₂ h₂ => ?_
  refine (expectBut_runs h₂.1.ended (by decide)).mono fun _ s₃ h₃ => ?_
  refine (ih.expression h₃.1.ended (by omega)).mono fun thenBranch s₄ h₄ => ?_
  have hread := ((h₁.1.trans h₂.1).token h₃.1).trans h₄.1
  split
  · next helse =>
    simp only [Pass.runs_bind, Pass.runs_pure]
    refine (advance_runs h₄.1.ended (by rw [helse]; decide)).mono fun _ s₅ h₅ => ?_
    refine (ih.expression h₅.1.ended (by omega)).mono fun elseBranch s₆ h₆ => ?_
    exact ⟨(hread.token h₅.1).trans h₆.1, rfl, by omega⟩
  · exact ⟨hread, rfl, by omega⟩

/-- A loop under a condition is read. -/
theorem whileLoop_step (ih : Reads fuel) (hs : state.stream.Ended)
    (hfuel : 8 * state.left + 1 ≤ fuel + 1) :
    GivesForm (whileWithin .pins (fuel + 1)) state := by
  simp only [GivesForm, whileWithin, Pass.runs_bind, Pass.runs_pure]
  refine (expect_runs hs (by decide)).mono fun _ s₁ h₁ => ?_
  refine (ih.expression h₁.1.ended (by omega)).mono fun condition s₂ h₂ => ?_
  refine (expectBut_runs h₂.1.ended (by decide)).mono fun _ s₃ h₃ => ?_
  refine (ih.expression h₃.1.ended (by omega)).mono fun body s₄ h₄ => ?_
  exact ⟨((h₁.1.trans h₂.1).token h₃.1).trans h₄.1, rfl, by omega⟩

/-- A counting loop is read. -/
theorem forLoop_step (ih : Reads fuel) (hs : state.stream.Ended)
    (hfuel : 8 * state.left + 1 ≤ fuel + 1) :
    GivesForm (forWithin .pins (fuel + 1)) state := by
  simp only [GivesForm, forWithin, Pass.runs_bind, Pass.runs_pure]
  refine (expect_runs hs (by decide)).mono fun _ s₁ h₁ => ?_
  refine (counter_runs h₁.1.ended).mono fun counter s₂ h₂ => ?_
  refine (expectBut_runs h₂.1.ended (by decide)).mono fun _ s₃ h₃ => ?_
  refine (ih.expression h₃.1.ended (by omega)).mono fun low s₄ h₄ => ?_
  refine (expectBut_runs h₄.1.ended (by decide)).mono fun _ s₅ h₅ => ?_
  refine (ih.expression h₅.1.ended (by omega)).mono fun high s₆ h₆ => ?_
  refine (expectBut_runs h₆.1.ended (by decide)).mono fun _ s₇ h₇ => ?_
  refine (ih.expression h₇.1.ended (by omega)).mono fun step s₈ h₈ => ?_
  refine (expectBut_runs h₈.1.ended (by decide)).mono fun _ s₉ h₉ => ?_
  refine (ih.expression h₉.1.ended (by omega)).mono fun body s h => ?_
  have hbounds := (((h₁.1.trans h₂.1).token h₃.1).trans h₄.1).token h₅.1
  have hread := (((hbounds.trans h₆.1).token h₇.1).trans h₈.1).token h₉.1
  exact ⟨hread.trans h.1, rfl, by omega⟩

/-- Definitions are read as one node. -/
theorem definitions_step (ih : Reads fuel) (hs : state.stream.Ended)
    (hfuel : 8 * state.left + 4 ≤ fuel + 1) :
    Gives (definitionsWithin .pins (fuel + 1)) state fun id => [(.definitions, id)] := by
  simp only [Gives, definitionsWithin, current, Pass.runs_bind, Pass.runs_get, Pass.runs_pure]
  refine (ih.definitionList hs (by omega)).mono fun members s₁ h₁ => ?_
  refine (addFrom_runs .definitions h₁.1 rfl .token h₁.2.2 rfl
    (by simp [NodeKind.isRegular, h₁.2.1])).mono
    fun id after ha => ?_
  exact ⟨ha.1, by omega⟩

/-- Definitions are read as long as semicolons follow. -/
theorem definitionList_step (ih : Reads fuel) (hs : state.stream.Ended)
    (hfuel : 8 * state.left + 3 ≤ fuel + 1) :
    GivesSome (definitionListWithin .pins (fuel + 1)) .definition state := by
  rw [definitionListWithin_succ]
  exact separated_runs (by decide) (ih.definition hs (by omega)) fun hended hless =>
    ih.definitionList hended (by omega)

/-- A definition is read in the form that its first token chooses. -/
theorem definition_step (ih : Reads fuel) (hs : state.stream.Ended)
    (hfuel : 8 * state.left + 2 ≤ fuel + 1) :
    Gives (definitionWithin .pins (fuel + 1)) state fun id => [(.definition, id)] := by
  simp only [Gives, definitionWithin, currentKind, current, Pass.runs_bind, Pass.runs_get,
    Pass.runs_pure]
  cases Grammar.pins.definition? state.stream.current.kind with
  | none => simp [unexpectedBut, fail, current, Refuses]
  | some form =>
    cases form with
    | type => exact typeDefinition_runs hs
    | var => exact varDefinition_runs hs
    | function => exact ih.function hs (by omega)

/-- A function is read. -/
theorem function_step (ih : Reads fuel) (hs : state.stream.Ended)
    (hfuel : 8 * state.left + 1 ≤ fuel + 1) :
    Gives (functionDefinitionWithin .pins (fuel + 1)) state fun id => [(.definition, id)] := by
  simp only [Gives, functionDefinitionWithin, Pass.runs_bind]
  refine (expect_runs hs (by decide)).mono fun first s₁ h₁ => ?_
  refine (expectBut_runs h₁.1.ended (by decide)).mono fun name s₂ h₂ => ?_
  refine (expectBut_runs h₂.1.ended (by decide)).mono fun _ s₃ h₃ => ?_
  refine (parameters_runs h₃.1.ended).mono fun members s₄ h₄ => ?_
  refine (expectBut_runs h₄.ended (by decide)).mono fun _ s₅ h₅ => ?_
  refine (expectBut_runs h₅.1.ended (by decide)).mono fun _ s₆ h₆ => ?_
  refine (type_runs h₆.1.ended).mono fun result s₇ h₇ => ?_
  refine (expectBut_runs h₇.1.ended (by decide)).mono fun _ s₈ h₈ => ?_
  have hleft := h₄.left_le
  refine (ih.expression h₈.1.ended (by omega)).mono fun body s₉ h₉ => ?_
  have hsignature := ((((h₁.1.token h₂.1).token h₃.1).trans h₄).token h₅.1).token h₆.1
  have hread := ((hsignature.trans h₇.1).token h₈.1).trans h₉.1
  refine (addFrom_runs .definition hread (by simp [NodeKind.places]) (.of_takes h₁) (by omega)
    rfl rfl).mono
    fun id after ha => ?_
  exact ⟨ha.1, by omega⟩

/-- Every bound that covers the tokens left is large enough. -/
theorem all : ∀ fuel : Nat, Reads fuel
  | 0 => zero
  | fuel + 1 =>
    have ih := all fuel
    { expression := ih.expression_step
      expressions := ih.expressions_step
      operation := ih.operation_step
      continued := ih.continued_step
      operand := ih.operand_step
      primary := ih.primary_step
      call := ih.call_step
      binary := ih.binary_step
      index := ih.index_step
      prefixed := ih.prefixed_step
      block := ih.block_step
      curly := ih.curly_step
      assignment := ih.assignment_step
      conditional := ih.conditional_step
      whileLoop := ih.whileLoop_step
      forLoop := ih.forLoop_step
      definitions := ih.definitions_step
      definitionList := ih.definitionList_step
      definition := ih.definition_step
      function := ih.function_step }

end Reads

/-- A program is read as one definition list. -/
theorem program_runs (hs : state.stream.Ended) :
    program.Runs (Pass.Reports Refuses) state fun root after =>
      Read state [(.definitions, root)] after := by
  simp only [program, currentKind, current, Pass.runs_bind, Pass.runs_get, Pass.runs_pure]
  have hdefinitions : (definitions .pins).Runs (Pass.Reports Refuses) state fun root after =>
      Read state [(.definitions, root)] after := by
    refine within_runs ?_
    exact ((Reads.all _).definitions hs (by omega)).mono fun _ _ h => h.1
  refine hdefinitions.mono fun root after hr => ?_
  split
  · exact hr
  · simp [unexpectedBut, fail, current, Refuses]

end Parser

/-- A program that was read is one node that was built from the tokens. -/
theorem built_of_parse {file : String} {tokens : List Token} {arena : Arena}
    (h : parse file tokens = .ok arena) :
    ∃ root state, Parser.Built (Parser.start file tokens) [(.definitions, root)] state ∧
      arena = { state.arena with root := some root } := by
  have hs : (Parser.start file tokens).stream.Ended := TokenStream.ended_ofTokens file tokens
  unfold parse at h
  split at h
  · next root state hp =>
    cases h
    exact ⟨root, state, ((Parser.program_runs hs).of_ok hp).built, rfl⟩
  · cases h

/-- A program that was read is a tree. -/
theorem parse_isTree {file : String} {tokens : List Token} {arena : Arena}
    (h : parse file tokens = .ok arena) : arena.IsTree := by
  obtain ⟨root, state, hbuilt, rfl⟩ := built_of_parse h
  obtain ⟨hsub, hend⟩ := Arena.forest_cons_iff.mp hbuilt.forest
  refine ⟨root, rfl, Arena.forest_nil_iff.mp hend, ?_⟩
  exact Arena.Forest.of_kind_eq hsub fun _ _ hk => hk

/-- A list of tokens is refused for a token that may not stand where it stands, or for a number. -/
theorem parse_refuses {file : String} {tokens : List Token} {diagnostic : Diagnostic}
    (h : parse file tokens = .error diagnostic) : Parser.Refuses diagnostic.fault := by
  have hs : (Parser.start file tokens).stream.Ended := TokenStream.ended_ofTokens file tokens
  have hrun := Parser.program_runs hs
  unfold parse at h
  split at h
  · cases h
  · next found state hp =>
    cases h
    simpa only [Pass.Runs, hp] using hrun

namespace Lexer

/-- The faults that cutting a text into tokens may find. -/
def Refuses : Fault → Prop
  | .unterminatedString | .invalidStringCharacter _ | .invalidIdentifier _
  | .unrecognisedToken _ => True
  | _ => False

/-- The front of a text is refused for what stands there. -/
theorem first_refuses {c : Char} {rest : List Char} {failure : Piece.Failure}
    (h : Piece.first c rest = .error failure) : Refuses failure.fault := by
  unfold Piece.first at h
  split at h
  · cases h
  · split at h
    · cases h
    · split at h
      · unfold Piece.literal at h
        split at h
        · cases h; trivial
        · split at h <;> cases h
          trivial
      · split at h
        · unfold Piece.number at h
          dsimp only at h
          split at h
          · cases h
          · split at h <;> cases h
            trivial
        · split at h
          · cases h
          · split at h <;> cases h
            trivial

/-- A text is refused for what stands at the front of one of its ends. -/
theorem tokensWithin_refuses {fuel : Nat} {place : Text.Position} {source : List Char}
    {diagnostic : Diagnostic} (h : tokensWithin fuel place source = .error diagnostic) :
    Refuses diagnostic.fault := by
  induction fuel generalizing place source with
  | zero =>
    cases source with
    | nil => cases h
    | cons c rest =>
      cases h
      trivial
  | succ fuel ih =>
    cases source with
    | nil => cases h
    | cons c rest =>
      obtain ⟨failure, hpiece, rfl⟩ | ⟨piece, _, hrest⟩ := tokensWithin_eq_error h
      · exact first_refuses hpiece
      · exact ih hrest

end Lexer

/-- A text is refused for what stands in it. -/
theorem tokenize_refuses {file source : String} {diagnostic : Diagnostic}
    (h : tokenize file source = .error diagnostic) : Lexer.Refuses diagnostic.fault :=
  Lexer.tokensWithin_refuses h

end Pins
