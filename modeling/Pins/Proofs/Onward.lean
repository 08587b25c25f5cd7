import Mathlib.Logic.Relation
import Pins.Syntax.Parser

/-!
# Reading goes onward

The state of a parser changes in two ways only: the current token is consumed, or a node is added
(`Move`). Whatever a parser is asked for, and whether that ends with a value or not, it reaches its
next state by such moves.

The tokens of a parser end with an end token (`TokenStream.Ended`), and the parser stands in front
of one of them (`StandsAt`). Along its moves it is never in front of an earlier one, it does not
leave the last one behind, and the nodes that it has stay what they are.
-/

namespace Pins

namespace TokenStream

/-- The tokens of a stream end with an end token. -/
def Ended (stream : TokenStream) : Prop :=
  (stream.current :: stream.upcoming).getLast?.map Token.kind = some .eof

/-- In front of another token than the end token, there is one more to come. -/
theorem Ended.upcoming_ne_nil {stream : TokenStream} (h : stream.Ended)
    (hc : stream.current.kind ≠ .eof) : stream.upcoming ≠ [] := by
  intro hn
  simp [Ended, hn] at h
  exact hc h

/-- A stream that ends goes on to end. -/
theorem Ended.advance {stream : TokenStream} (h : stream.Ended) : stream.advance.Ended := by
  unfold TokenStream.advance
  cases hu : stream.upcoming with
  | nil => exact h
  | cons next rest => simpa [Ended, hu] using h

/-- The stream of a list of tokens ends, whatever the list ends with. -/
theorem ended_ofTokens (file : String) (tokens : List Token) :
    (TokenStream.ofTokens file tokens).Ended := by
  have hlast : (tokens ++ missingEnd file tokens).getLast?.map Token.kind = some .eof := by
    unfold missingEnd
    cases hl : tokens.getLast? with
    | none => simp [List.getLast?_append, Token.endAt]
    | some last =>
      dsimp only
      split
      · next he => simp [hl, he]
      · simp [List.getLast?_append, Token.endAt]
  unfold TokenStream.ofTokens
  split
  · simp [Ended, Token.endAt]
  · next he =>
    rw [he] at hlast
    exact hlast

end TokenStream

/-- The number of tokens behind the current one. -/
def ParserState.left (state : ParserState) : Nat := state.stream.upcoming.length

/-- All tokens that a parser of some tokens has: these, and the end token they may lack. -/
def TokenStream.completed (file : String) (tokens : List Token) : List Token :=
  tokens ++ missingEnd file tokens

namespace Parser

variable {tokens : List Token} {cursor : Nat} {state after : ParserState} {id : NodeId}
  {node : Node}

/-- The state behind the current token. -/
def behind (state : ParserState) : ParserState := { state with stream := state.stream.advance }

/-- One change of the state of a parser. -/
inductive Move : ParserState → ParserState → Prop where
  /-- The current token is consumed. -/
  | consume (state : ParserState) : Move state (behind state)
  /-- A node is added. -/
  | push (state : ParserState) (node : Node) :
      Move state { state with arena := state.arena.push node }

/-- Moves lead from one state to another one. -/
def Onward : ParserState → ParserState → Prop := Relation.ReflTransGen Move

/-- A parser of some tokens stands in front of the one at an index. -/
structure StandsAt (tokens : List Token) (cursor : Nat) (state : ParserState) : Prop where
  /-- There is a token at the cursor: it is never behind the last one. -/
  inside : cursor < tokens.length
  /-- The tokens from the cursor on are those still to be read. -/
  ahead : tokens.drop cursor = state.stream.current :: state.stream.upcoming
  /-- The token in front of the cursor was consumed last; for the first one, it is that itself. -/
  behind : (tokens[cursor - 1]?).map Token.span = some state.stream.previous

namespace StandsAt

/-- The cursor and the tokens left make up all tokens. -/
theorem length_eq (h : StandsAt tokens cursor state) : tokens.length = cursor + state.left + 1 := by
  have hlength := congrArg List.length h.ahead
  rw [List.length_drop, List.length_cons] at hlength
  have hinside := h.inside
  unfold ParserState.left
  omega

/-- A parser begins in front of the first of its tokens. -/
theorem start (file : String) (tokens : List Token) :
    StandsAt (TokenStream.completed file tokens) 0 (start file tokens) := by
  have hstream : (Parser.start file tokens).stream = TokenStream.ofTokens file tokens := rfl
  unfold TokenStream.ofTokens at hstream
  unfold TokenStream.completed
  cases hall : tokens ++ TokenStream.missingEnd file tokens with
  | nil =>
    obtain ⟨rfl, hmissing⟩ := List.append_eq_nil_iff.mp hall
    simp [TokenStream.missingEnd] at hmissing
  | cons first rest =>
    rw [hall] at hstream
    exact ⟨by simp, by rw [hstream]; rfl, by rw [hstream]; rfl⟩

/-- Consuming a token takes the cursor to the next one, if there is one. -/
theorem consume (h : StandsAt tokens cursor state) :
    ∃ next, cursor ≤ next ∧ StandsAt tokens next (Parser.behind state) := by
  have hahead := h.ahead
  cases hu : state.stream.upcoming with
  | nil =>
    -- the last token is not left behind
    have hstays : Parser.behind state = state := by
      simp [Parser.behind, TokenStream.advance, hu]
    exact ⟨cursor, Nat.le_refl cursor, hstays.symm ▸ h⟩
  | cons next rest =>
    rw [hu] at hahead
    have hstream : (Parser.behind state).stream = ⟨state.stream.current.span, next, rest⟩ := by
      simp [Parser.behind, TokenStream.advance, hu]
    have hdrop : tokens.drop (cursor + 1) = next :: rest := by
      rw [← List.drop_drop, hahead, List.drop_one, List.tail_cons]
    have hfound : tokens[cursor]? = some state.stream.current := by
      rw [← Nat.add_zero cursor, ← List.getElem?_drop, hahead, List.getElem?_cons_zero]
    refine ⟨cursor + 1, Nat.le_succ cursor, ?_, ?_, ?_⟩
    · refine Nat.lt_of_not_le fun hle => ?_
      rw [List.drop_eq_nil_of_le hle] at hdrop
      cases hdrop
    · rw [hstream, hdrop]
    · rw [hstream, Nat.add_sub_cancel, hfound, Option.map_some]

end StandsAt

namespace Move

/-- A move does not give a token back. -/
theorem standsAt (h : Move state after) (hc : StandsAt tokens cursor state) :
    ∃ next, cursor ≤ next ∧ StandsAt tokens next after := by
  cases h with
  | consume => exact hc.consume
  | push => exact ⟨cursor, Nat.le_refl cursor, hc.inside, hc.ahead, hc.behind⟩

/-- A move keeps every node. -/
theorem kept (h : Move state after) (hn : state.arena.node? id = some node) :
    after.arena.node? id = some node := by
  cases h with
  | consume => exact hn
  | push =>
    obtain ⟨hinside, -⟩ := Array.getElem?_eq_some_iff.mp hn
    rwa [Arena.node?_push_of_lt hinside]

/-- No tokens are given back by a move. -/
theorem left_le (h : Move state after) : after.left ≤ state.left := by
  cases h with
  | push => exact Nat.le_refl _
  | consume =>
    unfold Parser.behind ParserState.left TokenStream.advance
    split <;> simp_all

/-- Behind a move there is still an end token. -/
theorem ended (h : Move state after) (he : state.stream.Ended) : after.stream.Ended := by
  cases h with
  | consume => exact he.advance
  | push => exact he

end Move

namespace Onward

/-- What every move keeps is kept on the way to a state. -/
theorem keeps {holds : ParserState → Prop}
    (hm : ∀ {between next : ParserState}, Move between next → holds between → holds next)
    (h : Onward state after) (hs : holds state) : holds after := by
  induction h with
  | refl => exact hs
  | tail _ hmove ih => exact hm hmove ih

/-- No token is given back on the way to a state. -/
theorem standsAt (h : Onward state after) (hc : StandsAt tokens cursor state) :
    ∃ next, cursor ≤ next ∧ StandsAt tokens next after := by
  let further : ParserState → Prop := fun found =>
    ∃ next, cursor ≤ next ∧ StandsAt tokens next found
  have hmove : ∀ {between next : ParserState}, Move between next → further between →
      further next := by
    rintro between next hm ⟨middle, hmiddle, hstands⟩
    obtain ⟨last, hlast, hnext⟩ := hm.standsAt hstands
    exact ⟨last, Nat.le_trans hmiddle hlast, hnext⟩
  exact h.keeps hmove ⟨cursor, Nat.le_refl cursor, hc⟩

/-- Every node is kept on the way to a state. -/
theorem kept (h : Onward state after) (hn : state.arena.node? id = some node) :
    after.arena.node? id = some node :=
  h.keeps Move.kept hn

/-- No tokens are given back on the way to a state. -/
theorem left_le (h : Onward state after) : after.left ≤ state.left :=
  h.keeps (fun hmove hle => Nat.le_trans hmove.left_le hle) (Nat.le_refl _)

/-- The end token is there on the way to a state. -/
theorem ended (h : Onward state after) (he : state.stream.Ended) : after.stream.Ended :=
  h.keeps Move.ended he

end Onward

end Parser

end Pins
