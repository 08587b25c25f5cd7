import Pins.Proofs.Paired
import Pins.Proofs.Parsed

/-!
# Reading settles

A parser may be asked for anything in any order, and asked again behind what it refused: its states
are those of `Reachable`. They are the states that moves lead to from the one in front of the first
token (`reachable_iff_onward`).

From any of them, reading an expression, an operation, definitions or a written type stops, and what
is read takes at least one token (`reading_advances`). A run stops because it never meets a bound on
nested calls that covers the tokens left: under all such bounds the outcome is the same, and it is
not the fault that a bound was met.
-/

namespace Pins.Parser

variable {file : String} {tokens : List Token} {cursor : Nat} {state after : ParserState}

/-- The steps that a parser offers to its callers. -/
inductive Offers (grammar : Grammar) : {α : Type} → Parse α → Prop where
  | advance : Offers grammar advance
  | expect (kind : TokenKind) : Offers grammar (expect kind)
  | expectBut (kind : TokenKind) (message : String) : Offers grammar (expectBut kind message)
  | add (kind : NodeKind) (span : Text.Span) : Offers grammar (add kind span)
  | expression : Offers grammar (expression grammar)
  | operation (power : BindingPower) : Offers grammar (operation grammar power)
  | primary : Offers grammar (primary grammar)
  | prefixed : Offers grammar (prefixed grammar)
  | block : Offers grammar (block grammar)
  | curly : Offers grammar (curly grammar)
  | binary (power : BindingPower) (left : NodeId) : Offers grammar (binary grammar power left)
  | index (left : NodeId) : Offers grammar (index grammar left)
  | definitions : Offers grammar (definitions grammar)
  | definition : Offers grammar (definition grammar)
  | typeDefinition : Offers grammar (typeDefinition grammar)
  | varDefinition : Offers grammar (varDefinition grammar)
  | functionDefinition : Offers grammar (functionDefinition grammar)
  | type : Offers grammar (type grammar)
  | arrayType : Offers grammar (arrayType grammar)
  | typeName : Offers grammar typeName
  | atomType : Offers grammar atomType

/-- The states of a parser of some tokens, whatever it was asked for under whatever grammar, and
whether it answered with a value or not. -/
inductive Reachable (file : String) (tokens : List Token) : ParserState → Prop where
  | start : Reachable file tokens (start file tokens)
  | ask {grammar : Grammar} {α : Type} {step : Parse α} {state : ParserState} :
      Reachable file tokens state → Offers grammar step →
        Reachable file tokens (Pass.reached (step state))

/-- What is offered only moves onward, however it ends. -/
theorem Offers.moves {grammar : Grammar} {α : Type} {step : Parse α} (h : Offers grammar step) :
    Pass.Moves Onward step := by
  refine moves_of_pairs fun start => ?_
  have hall : ∀ fuel, Paired (.onward start) grammar fuel fuel :=
    fun fuel => paired (.onward start) grammar .refl
  cases h with
  | advance => exact ⟨_, .advance⟩
  | expect => exact ⟨_, .expect⟩
  | expectBut => exact ⟨_, .expectBut⟩
  | add => exact ⟨_, .add rfl⟩
  | expression => exact ⟨_, .within fun fuel => (hall fuel).expression⟩
  | operation power => exact ⟨_, .within fun fuel => (hall fuel).operation power⟩
  | primary => exact ⟨_, .within fun fuel => (hall fuel).primary⟩
  | prefixed => exact ⟨_, .within fun fuel => (hall fuel).prefixed⟩
  | block => exact ⟨_, .within fun fuel => (hall fuel).block⟩
  | curly => exact ⟨_, .within fun fuel => (hall fuel).curly⟩
  | binary power left => exact ⟨_, .within fun fuel => (hall fuel).binary power left⟩
  | index left => exact ⟨_, .within fun fuel => (hall fuel).index left⟩
  | definitions => exact ⟨_, .within fun fuel => (hall fuel).definitions⟩
  | definition => exact ⟨_, .within fun fuel => (hall fuel).definition⟩
  | typeDefinition => exact ⟨_, .typeDefinition⟩
  | varDefinition => exact ⟨_, .varDefinition⟩
  | functionDefinition => exact ⟨_, .within fun fuel => (hall fuel).function⟩
  | type => exact ⟨_, .type⟩
  | arrayType => exact ⟨_, .arrayType⟩
  | typeName => exact ⟨_, .typeName⟩
  | atomType => exact ⟨_, .atomType⟩

/-- What a parser can be asked for takes it to all states that moves take it to, and to no other
one. -/
theorem reachable_iff_onward :
    Reachable file tokens state ↔ Onward (start file tokens) state := by
  constructor
  · intro h
    induction h with
    | start => exact .refl
    | ask _ hoffers ih => exact ih.trans (hoffers.moves _)
  · intro h
    have hadvance : Offers .pins advance := .advance
    have hadd : ∀ node : Node, Offers .pins (add node.kind node.span) := fun _ => .add _ _
    induction h with
    | refl => exact .start
    | tail _ hmove ih =>
      cases hmove with
      | consume => exact ih.ask hadvance
      | push node => exact ih.ask (hadd node)

/-- A step that reads from a state, with the cursor at one of some tokens, stops and goes onward.
`bounded` is the step under a bound on nested calls. -/
structure Advances (tokens : List Token) (cursor : Nat) (state : ParserState)
    (bounded : Nat → Parse NodeId) (step : Parse NodeId) : Prop where
  /-- Under every bound on nested calls that covers the tokens left, the outcome is the same. -/
  settled : ∀ fuel, 8 * (state.left + 1) ≤ fuel → bounded fuel state = step state
  /-- What is read takes at least one token, and does not go beyond the last one. -/
  read : ∀ id after, step state = .ok id after →
    ∃ next, cursor < next ∧ StandsAt tokens next after
  /-- What is refused is refused for a token or a number, and never because calls are nested too
  deep; no token is given back. -/
  refused : ∀ diagnostic after, step state = .error diagnostic after →
    Refuses diagnostic.fault ∧ ∃ next, cursor ≤ next ∧ StandsAt tokens next after
  /-- Whether something is read or refused, the nodes that there are stay what they are. -/
  kept : ∀ id node, state.arena.node? id = some node →
    (Pass.reached (step state)).arena.node? id = some node

/-- A run that is refused for its tokens is not nested too deep. -/
theorem not_tooDeep_of_runs {step : Parse α} {state : ParserState}
    {promised : α → ParserState → Prop}
    (h : step.Runs (Pass.Reports Refuses) state promised) : ¬ TooDeep (step state) := by
  cases hrun : step state with
  | ok value after => exact id
  | error diagnostic after =>
    rintro ⟨message, hfault⟩
    have hrefuses : Refuses diagnostic.fault := h.of_error hrun
    rw [hfault] at hrefuses
    exact hrefuses

/-- A step advances if it is put together alike under all bounds, and reads at least one token under
the bound that it is given. -/
theorem Advances.of_gives {bounded : Nat → Parse NodeId} {places : NodeId → List (Place × NodeId)}
    (hp : ∀ {like : Likeness} {fuel fuel' : Nat}, like.Covers fuel fuel' →
      Pairs like Eq (bounded fuel) (bounded fuel'))
    (hc : StandsAt tokens cursor state)
    (hg : Gives (bounded (8 * (state.left + 1))) state places) :
    Advances tokens cursor state bounded (within bounded) := by
  have hrun : within bounded state = bounded (8 * (state.left + 1)) state := rfl
  have honward : Onward state (Pass.reached (within bounded state)) :=
    hrun ▸ moves_of_pairs (fun start => ⟨_, hp .refl⟩) state
  refine ⟨fun fuel hfuel => ?_, fun id after hok => ?_, fun diagnostic after herror => ?_,
    fun id node hn => honward.kept hn⟩
  · rw [hrun]
    exact eq_of_pairs (hp (.inr ⟨trivial, hfuel⟩)) (not_tooDeep_of_runs hg)
  · rw [hok, Pass.reached_ok] at honward
    obtain ⟨next, -, hnext⟩ := honward.standsAt hc
    have hless : after.left < state.left := (hg.of_ok (hrun ▸ hok)).2
    -- there are fewer tokens left of the same ones, so the cursor is further on
    have hbefore := hc.length_eq
    have hbehind := hnext.length_eq
    exact ⟨next, by omega, hnext⟩
  · rw [herror, Pass.reached_error] at honward
    exact ⟨hg.of_error (hrun ▸ herror), honward.standsAt hc⟩

/-- From every state of a parser, whatever its tokens are, reading stops: it takes at least one
token, or it refuses one and gives none back, and the nodes that there are stay what they are. -/
theorem reading_advances (h : Reachable file tokens state) :
    ∃ cursor, StandsAt (TokenStream.completed file tokens) cursor state ∧
      Advances (TokenStream.completed file tokens) cursor state
        (expressionWithin .pins) (expression .pins) ∧
      (∀ power, Advances (TokenStream.completed file tokens) cursor state
        (fun fuel => operationWithin .pins fuel power) (operation .pins power)) ∧
      Advances (TokenStream.completed file tokens) cursor state
        (definitionsWithin .pins) (definitions .pins) ∧
      Advances (TokenStream.completed file tokens) cursor state
        (definitionWithin .pins) (definition .pins) ∧
      Advances (TokenStream.completed file tokens) cursor state
        (typeWithin .pins) (type .pins) := by
  have honward := reachable_iff_onward.mp h
  have hended : state.stream.Ended := honward.ended (TokenStream.ended_ofTokens file tokens)
  obtain ⟨cursor, -, hc⟩ := honward.standsAt (.start file tokens)
  have hreads : Reads (8 * (state.left + 1)) := .all _
  refine ⟨cursor, hc, ?_, fun power => ?_, ?_, ?_, ?_⟩
  · exact .of_gives (fun hcovers => (paired _ .pins hcovers).expression) hc
      (hreads.expression hended (by omega))
  · exact .of_gives (fun hcovers => (paired _ .pins hcovers).operation power) hc
      (hreads.operation hended (by omega))
  · exact .of_gives (fun hcovers => (paired _ .pins hcovers).definitions) hc
      (hreads.definitions hended (by omega))
  · exact .of_gives (fun hcovers => (paired _ .pins hcovers).definition) hc
      (hreads.definition hended (by omega))
  · exact .of_gives (fun hcovers => (types_paired hcovers).1) hc
      ((types_run _).1 state hended (by omega))

/-- An operation behind an end token in the middle of the tokens, which have none at their end: it
is read up to the end token that the parser adds. -/
theorem reading_advances_of_inner_end :
    let place := Text.Span.empty (.origin "test")
    let tokens : List Token := [⟨.eof, "EOF", place⟩, ⟨.dash, "-", place⟩, ⟨.integer, "1", place⟩]
    let state := Pass.reached (advance (start "test" tokens))
    Reachable "test" tokens state ∧ StandsAt (TokenStream.completed "test" tokens) 1 state ∧
      ∃ id after next, (∀ fuel, 24 ≤ fuel → expressionWithin .pins fuel state = .ok id after) ∧
        1 < next ∧ StandsAt (TokenStream.completed "test" tokens) next after := by
  intro place tokens state
  have hadvance : Offers .pins advance := .advance
  have hreachable : Reachable "test" tokens state := Reachable.start.ask hadvance
  obtain ⟨cursor, hc, hexpression, -⟩ := reading_advances hreachable
  have hall : (TokenStream.completed "test" tokens).length = 4 := rfl
  have hleft : state.left = 2 := rfl
  have hcursor := hc.length_eq
  obtain rfl : cursor = 1 := by omega
  have hread : (Pass.finalState (expression .pins) state).isOk = true := by decide +kernel
  cases hrun : expression .pins state with
  | error diagnostic after => simp [Pass.finalState, hrun, Except.isOk, Except.toBool] at hread
  | ok id after =>
    obtain ⟨next, hless, hnext⟩ := hexpression.read id after hrun
    refine ⟨hreachable, hc, id, after, next, fun fuel hfuel => ?_, hless, hnext⟩
    rw [hexpression.settled fuel hfuel, hrun]

end Pins.Parser
