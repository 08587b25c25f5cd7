import Pins.Proofs.Paired

/-!
# Reading without places

The place of a token reaches the spans of nodes and the places of diagnostics, and nothing else.
Reading is paired with reading from a state in which all places are forgotten: it does the same, up
to places, and stops for the same fault (`program_unplaced`). Sources with the same tokens are
therefore read as the same nodes, wherever the tokens stand.
-/

namespace Pins

/-- The span of everything whose place is forgotten. -/
def Text.Span.nowhere : Text.Span := .empty (.origin "")

/-- The token without its place. -/
def Token.unplaced (token : Token) : Token := { token with span := .nowhere }

@[simp] theorem Token.kind_unplaced (token : Token) : token.unplaced.kind = token.kind := rfl

@[simp] theorem Token.value_unplaced (token : Token) : token.unplaced.value = token.value := rfl

@[simp] theorem Token.span_unplaced (token : Token) : token.unplaced.span = .nowhere := rfl

/-- The stream without the places of its tokens. -/
def TokenStream.unplaced (stream : TokenStream) : TokenStream :=
  ⟨.nowhere, stream.current.unplaced, stream.upcoming.map Token.unplaced⟩

/-- The node without its place. -/
def Node.unplaced (node : Node) : Node := { node with span := .nowhere }

/-- The arena without the places of its nodes. -/
def Arena.unplaced (arena : Arena) : Arena := { arena with nodes := arena.nodes.map Node.unplaced }

/-- The state without places. -/
def ParserState.unplaced (state : ParserState) : ParserState :=
  ⟨state.stream.unplaced, state.arena.unplaced⟩

namespace Arena

/-- Forgetting places keeps what the nodes stand for. -/
@[simp] theorem kind?_unplaced (arena : Arena) (id : NodeId) :
    arena.unplaced.kind? id = arena.kind? id := by
  simp only [kind?, node?, unplaced, Array.getElem?_map, Option.map_map]
  rfl

@[simp] theorem size_unplaced (arena : Arena) : arena.unplaced.size = arena.size := by
  simp [size, unplaced]

/-- A node whose place is forgotten is nowhere. -/
@[simp] theorem span_unplaced (arena : Arena) (id : NodeId) :
    arena.unplaced.span id = .nowhere := by
  simp only [span, node?, unplaced, Array.getElem?_map]
  cases arena.nodes[id.index]? <;> rfl

theorem unplaced_push (arena : Arena) (kind : NodeKind) (span : Text.Span) :
    (arena.push ⟨kind, span⟩).unplaced = arena.unplaced.push ⟨kind, .nowhere⟩ := by
  simp [push, unplaced, Node.unplaced]

end Arena

/-- The next token is the next one without its place. -/
theorem TokenStream.unplaced_advance (stream : TokenStream) :
    stream.unplaced.advance = stream.advance.unplaced := by
  unfold TokenStream.advance
  cases hu : stream.upcoming <;> simp [unplaced, hu]

namespace Parser

/-- What is left of tokens, stretches and states without their places stands for them. -/
def Likeness.unplaced : Likeness where
  token token token' := token' = token.unplaced
  span _ span' := span' = .nowhere
  state state state' := state' = state.unplaced
  roomier := False
  kind_eq h := by rw [h, Token.kind_unplaced]
  value_eq h := by rw [h, Token.value_unplaced]
  spans h := by rw [h, Token.span_unplaced]
  current h := by rw [h]; rfl
  peekKind_eq := by
    rintro state _ rfl
    unfold TokenStream.peekKind
    cases hu : state.stream.upcoming <;> simp [ParserState.unplaced, TokenStream.unplaced, hu]
  left_eq := by
    rintro state _ rfl
    simp [ParserState.left, ParserState.unplaced, TokenStream.unplaced]
  size_eq h := by rw [h]; exact Arena.size_unplaced _
  spanAt id h := by rw [h]; exact Arena.span_unplaced _ id
  through h hs := by rw [h, hs]; rfl
  consume := by
    rintro state _ rfl
    simp only [behind, ParserState.unplaced, TokenStream.unplaced_advance]
  push := by
    rintro state _ span _ kind rfl rfl
    simp only [ParserState.unplaced, Arena.unplaced_push]

/-- A program is read without places as it is read with them. -/
theorem program_unplaced (state : ParserState) :
    Likeness.unplaced.Outcome Eq (program state) (program state.unplaced) :=
  (program_paired .unplaced state _ rfl).resolve_left fun hdeep => hdeep.1

end Parser

/-- The end token that a list lacks does not depend on places. -/
theorem TokenStream.map_missingEnd {file file' : String} {tokens tokens' : List Token}
    (h : tokens'.map Token.unplaced = tokens.map Token.unplaced) :
    (missingEnd file' tokens').map Token.unplaced =
      (missingEnd file tokens).map Token.unplaced := by
  have hlast : tokens'.getLast?.map Token.unplaced = tokens.getLast?.map Token.unplaced := by
    rw [← List.getLast?_map, h, List.getLast?_map]
  unfold missingEnd
  cases hl : tokens.getLast? with
  | none =>
    rw [hl, Option.map_none, Option.map_eq_none_iff] at hlast
    rw [hlast]
    rfl
  | some last =>
    rw [hl, Option.map_some, Option.map_eq_some_iff] at hlast
    obtain ⟨last', hl', he⟩ := hlast
    have hkind : last'.kind = last.kind := by
      rw [← Token.kind_unplaced last', he, Token.kind_unplaced]
    simp only [hl', hkind]
    split <;> rfl

/-- Tokens without their places make up one stream, whatever source they are from. -/
theorem TokenStream.unplaced_ofTokens {file file' : String} {tokens tokens' : List Token}
    (h : tokens'.map Token.unplaced = tokens.map Token.unplaced) :
    (ofTokens file' tokens').unplaced = (ofTokens file tokens).unplaced := by
  have hall : (tokens' ++ missingEnd file' tokens').map Token.unplaced =
      (tokens ++ missingEnd file tokens).map Token.unplaced := by
    rw [List.map_append, List.map_append, h, map_missingEnd h]
  unfold ofTokens
  cases hs : tokens ++ missingEnd file tokens with
  | nil =>
    rw [hs, List.map_nil, List.map_eq_nil_iff] at hall
    rw [hall]
    rfl
  | cons first rest =>
    rw [hs, List.map_cons, List.map_eq_cons_iff] at hall
    obtain ⟨first', rest', hs', hf, hr⟩ := hall
    simp only [hs', unplaced, hf, hr]

/-- Tokens that differ in their places only are read as arenas that differ in theirs, or stop the
reading for the same fault. -/
theorem parse_unplaced {file file' : String} {tokens tokens' : List Token}
    (h : tokens'.map Token.unplaced = tokens.map Token.unplaced) :
    Pass.SameOutcome (fun arena arena' => arena'.unplaced = arena.unplaced) (parse file tokens)
      (parse file' tokens') := by
  have hstart : (Parser.start file' tokens').unplaced = (Parser.start file tokens).unplaced := by
    simp only [Parser.start, ParserState.unplaced]
    rw [TokenStream.unplaced_ofTokens h]
  -- both readings are paired with the one from the state without places
  have hread := Parser.program_unplaced (Parser.start file tokens)
  have hread' := Parser.program_unplaced (Parser.start file' tokens')
  rw [hstart] at hread'
  unfold parse
  generalize Parser.program (Parser.start file tokens).unplaced = blind at hread hread'
  generalize Parser.program (Parser.start file tokens) = outcome at hread ⊢
  generalize Parser.program (Parser.start file' tokens') = outcome' at hread' ⊢
  cases hread with
  | value hv hs =>
    cases hread' with
    | value hv' hs' =>
      have harena := congrArg ParserState.arena (hs'.symm.trans hs)
      simp only [ParserState.unplaced, Arena.unplaced, Arena.mk.injEq] at harena
      simp only [Pass.SameOutcome, Arena.unplaced, harena.1, hv, hv']
  | fault hb =>
    cases hread' with
    | fault hb' => exact hb'.fault_eq.symm.trans hb.fault_eq

end Pins
