import Pins.Proofs.Families
import Pins.Proofs.Forest
import Pins.Proofs.Lexed
import Pins.Proofs.Runs
import Pins.Proofs.SyntaxTree

/-!
# What reading consumes

Reading takes tokens from the front of a list and adds nodes behind those of an arena. `Consumes`
says which tokens were taken since a state, and which trees stand below the nodes that were read
from them. What is read one behind the other is put together (`Consumes.trans`), and a node closes
the trees below it to one (`add_consumes`).

The lists of tokens are those that a text is cut into (`Lexed`).
-/

namespace Pins

/-- The tokens still to be read, the current one included. -/
def ParserState.tokens (state : ParserState) : List Token :=
  state.stream.current :: state.stream.upcoming

namespace Parser

variable {allowed : Diagnostic → Prop} {base before state between after : ParserState}
  {tokens others rest : List Token} {ids nodes : List NodeId}
  {trees following : List SyntaxTree} {token : Token} {kind : TokenKind}

/-- The current token is the first of those to be read. -/
theorem current_eq (h : state.tokens = token :: rest) : state.stream.current = token :=
  (List.cons.inj h).1

/-- The token behind the current one is the second of those to be read. -/
theorem peekKind_eq {next : Token} (h : state.tokens = token :: next :: rest) :
    state.stream.peekKind = next.kind := by
  have hu : state.stream.upcoming = next :: rest := (List.cons.inj h).2
  simp [TokenStream.peekKind, hu]

/-- Tokens have been read since a state, and the nodes read from them have trees below them. -/
structure Consumes (before : ParserState) (tokens : List Token) (ids : List NodeId)
    (trees : List SyntaxTree) (after : ParserState) : Prop where
  /-- The tokens were taken from the front. -/
  split : before.tokens = tokens ++ after.tokens
  /-- The tokens left are such that a text may end with. -/
  lexed : Lexed after.tokens
  /-- The nodes read before stay. -/
  kept : ∀ id kind, before.arena.kind? id = some kind → after.arena.kind? id = some kind
  /-- The trees stand below the nodes. -/
  holds : after.arena.Holds ids trees

namespace Consumes

/-- Nothing has been read yet. -/
theorem refl (h : Lexed state.tokens) : Consumes state [] [] [] state :=
  ⟨rfl, h, fun _ _ hk => hk, .nil⟩

/-- What is read one behind the other is read. -/
theorem trans (hf : Consumes before tokens ids trees between)
    (hs : Consumes between others nodes following after) :
    Consumes before (tokens ++ others) (ids ++ nodes) (trees ++ following) after where
  split := by rw [hf.split, hs.split, List.append_assoc]
  lexed := hs.lexed
  kept id kind hk := hs.kept id kind (hf.kept id kind hk)
  holds := (hf.holds.of_kept hs.kept).append hs.holds

/-- Marks behind trees change nothing about them. -/
theorem marks (hf : Consumes before tokens ids trees between)
    (hs : Consumes between others [] [] after) :
    Consumes before (tokens ++ others) ids trees after := by
  simpa using hf.trans hs

/-- Two nodes may be told in either order. -/
theorem swap {id node : NodeId} {tree next : SyntaxTree}
    (h : Consumes before tokens [id, node] [tree, next] after) :
    Consumes before tokens [node, id] [next, tree] after :=
  { h with holds := h.holds.swap }

/-- The tokens left are those behind the ones that were taken. -/
theorem tokens_eq (h : Consumes before tokens ids trees after)
    (hb : before.tokens = tokens ++ rest) : after.tokens = rest :=
  List.append_cancel_left (h.split.symm.trans hb)

end Consumes

/-- Any token but the end token can be consumed. -/
theorem advance_consumes (hl : Lexed state.tokens) (hk : state.stream.current.kind ≠ .eof) :
    advance.Runs allowed state fun token after =>
      token = state.stream.current ∧ Consumes state [token] [] [] after := by
  simp only [advance, current, Pass.runs_bind, Pass.runs_get, Pass.runs_pure, Pass.runs_modify]
  have htail : Lexed state.stream.upcoming := hl.tail hk
  cases hu : state.stream.upcoming with
  | nil => exact absurd hu htail.ne_nil
  | cons next others =>
    have hnext : state.stream.advance = ⟨state.stream.current.span, next, others⟩ := by
      simp [TokenStream.advance, hu]
    rw [hu] at htail
    refine ⟨trivial, ?_, ?_, fun _ _ h => h, .nil⟩
    · simp [ParserState.tokens, hnext, hu]
    · simpa [ParserState.tokens, hnext] using htail

/-- A token of a kind is consumed, if it is there or if any diagnostic is allowed otherwise. -/
theorem wanted_consumes {fault : Token → Fault} (hl : Lexed state.tokens) (hk : kind ≠ .eof)
    (ha : state.stream.current.kind = kind ∨ ∀ diagnostic, allowed diagnostic) :
    (wanted kind fault).Runs allowed state fun token after =>
      token = state.stream.current ∧ token.kind = kind ∧ Consumes state [token] [] [] after := by
  simp only [wanted, currentKind, current, Pass.runs_bind, Pass.runs_get, Pass.runs_pure]
  split
  · next he =>
    refine (advance_consumes hl (he ▸ hk)).mono fun token after h => ?_
    exact ⟨h.1, h.1 ▸ he, h.2⟩
  · next hne => exact (ha.resolve_left hne) _

theorem expect_consumes (hl : Lexed state.tokens) (hk : kind ≠ .eof)
    (ha : state.stream.current.kind = kind ∨ ∀ diagnostic, allowed diagnostic) :
    (expect kind).Runs allowed state fun token after =>
      token = state.stream.current ∧ token.kind = kind ∧ Consumes state [token] [] [] after := by
  rw [expect_eq]
  exact wanted_consumes hl hk ha

theorem expectBut_consumes {message : String} (hl : Lexed state.tokens) (hk : kind ≠ .eof)
    (ha : state.stream.current.kind = kind ∨ ∀ diagnostic, allowed diagnostic) :
    (expectBut kind message).Runs allowed state fun token after =>
      token = state.stream.current ∧ token.kind = kind ∧ Consumes state [token] [] [] after := by
  rw [expectBut_eq]
  exact wanted_consumes hl hk ha

/-- A node closes the trees below it. -/
theorem add_consumes {node : NodeKind} {span : Text.Span}
    (h : Consumes base tokens node.children trees state) :
    (add node span).Runs allowed state fun id after =>
      Consumes base tokens [id] [.node node.form trees] after ∧ after.stream = state.stream := by
  simp only [add, Pass.runs_bind, Pass.runs_get, Pass.runs_modify, Pass.runs_pure]
  have hkept : ∀ id found, state.arena.kind? id = some found →
      (state.arena.push ⟨node, span⟩).kind? id = some found := by
    intro id found hf
    rw [Arena.kind?, Arena.node?_push_of_lt (Arena.index_lt_size hf)]
    exact hf
  have hnew : (state.arena.push ⟨node, span⟩).kind? state.arena.nextId = some node := by
    rw [Arena.kind?, Arena.node?_push_nextId]
    rfl
  exact ⟨⟨h.split, h.lexed, fun id found hf => hkept id found (h.kept id found hf),
    .cons hnew (h.holds.of_kept hkept) .nil⟩, trivial⟩

/-- A node that reaches from the start of a stretch closes the trees below it. -/
theorem addFrom_consumes {node : NodeKind} {span : Text.Span}
    (h : Consumes base tokens node.children trees state) :
    (addFrom span node).Runs allowed state fun id after =>
      Consumes base tokens [id] [.node node.form trees] after ∧ after.stream = state.stream := by
  simp only [addFrom, Pass.runs_bind, Pass.runs_get]
  exact add_consumes h

/-- A literal is consumed, whatever its text. -/
theorem literal_consumes {word : Atom} (hl : Lexed state.tokens)
    (hk : state.stream.current.kind ≠ .eof) :
    (literal word).Runs allowed state fun id after =>
      Consumes state [state.stream.current] [id]
        [.node (.literal state.stream.current.value word) []] after := by
  simp only [literal, Pass.runs_bind]
  refine (advance_consumes hl hk).mono fun found s₁ h₁ => ?_
  obtain ⟨rfl, hc⟩ := h₁
  exact (add_consumes hc).mono fun id after ha => ha.1

/-- What a step does under every bound on nested calls, it does under the one that is supplied. -/
theorem runs_within {α : Type} {step : Nat → Parse α} {promised : α → ParserState → Prop}
    (h : ∀ fuel, (step fuel).Runs allowed state promised) :
    (within step).Runs allowed state promised := h _

end Parser

end Pins
