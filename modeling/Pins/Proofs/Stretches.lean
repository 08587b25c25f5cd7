import Pins.Proofs.PlaceOrder
import Pins.Proofs.Sourced

/-!
# The stretches of nodes

A node reaches from the start of a token to the end of one, and what stands directly below it lies
inside, one node behind the other in the order in which they were read (`Node.Spans`). The parser
puts a stretch together from the first token of a node, or from its left operand, and the token
consumed last. So what is shown along shifts and reductions is about these two: the nodes that they
leave lie in a row from the first token to the token consumed last (`Lays`, `Built.lays`).
-/

namespace Pins

open Text

/-- The nodes directly below a node, in the order in which they were read: the definitions of a
where clause stand behind its expression. -/
def NodeKind.inSource (kind : NodeKind) : List NodeId := kind.places.map Prod.snd

/-- But for a where clause, the nodes below a node are listed as they were read. -/
theorem NodeKind.inSource_eq_children {kind : NodeKind}
    (h : ∀ inner body, kind ≠ .expression (.whereClause inner body)) :
    kind.inSource = kind.children := by
  cases kind with
  | definitions members => simp [inSource, places, children, Function.comp_def]
  | definition item =>
    cases item <;> simp [inSource, places, children, Definition.children, Function.comp_def]
  | expression item =>
    cases item with
    | whereClause inner body => exact absurd rfl (h inner body)
    | block | call | binary | unary | conditional | whileLoop | forLoop | name | literal =>
      simp [inSource, places, children, Expression.children, Function.comp_def]
  | type item => simp [inSource, places, children, Function.comp_def]

/-- One of some tokens ends at a place. -/
def Ends (tokens : List Token) (place : Position) : Prop :=
  ∃ token ∈ tokens, token.span.stop = place

namespace Arena

variable {arena grown : Arena} {start between stop earlier : Position} {ids others : List NodeId}
  {id : NodeId} {node : Node}

/-- Nodes that lie one behind the other between two places. -/
inductive Row (arena : Arena) : Position → List NodeId → Position → Prop
  | nil {start stop : Position} (h : start ≤ stop) : Row arena start [] stop
  | cons {start stop : Position} {id : NodeId} {node : Node} {others : List NodeId}
      (hnode : arena.node? id = some node) (hstart : start ≤ node.span.start)
      (hproper : node.span.start < node.span.stop)
      (hothers : Row arena node.span.stop others stop) : Row arena start (id :: others) stop

namespace Row

/-- A row does not lead back. -/
theorem le (h : arena.Row start ids stop) : start ≤ stop := by
  induction h with
  | nil h => exact h
  | cons _ hstart hproper _ ih => exact (hstart.trans hproper.le).trans ih

/-- A row may begin earlier. -/
theorem from_earlier (h : arena.Row start ids stop) (hle : earlier ≤ start) :
    arena.Row earlier ids stop := by
  cases h with
  | nil h => exact .nil (hle.trans h)
  | cons hnode hstart hproper hothers => exact .cons hnode (hle.trans hstart) hproper hothers

/-- A row goes on behind its end. -/
theorem append (h : arena.Row start ids between) (ho : arena.Row between others stop) :
    arena.Row start (ids ++ others) stop := by
  induction h with
  | nil hle => exact ho.from_earlier hle
  | cons hnode hstart hproper _ ih => exact .cons hnode hstart hproper (ih ho)

/-- A row stays one when the arena grows. -/
theorem of_kept (h : arena.Row start ids stop)
    (hkept : ∀ id node, arena.node? id = some node → grown.node? id = some node) :
    grown.Row start ids stop := by
  induction h with
  | nil hle => exact .nil hle
  | cons hnode hstart hproper _ ih => exact .cons (hkept _ _ hnode) hstart hproper ih

/-- One node makes up a row. -/
theorem single (hnode : arena.node? id = some node) (hstart : start ≤ node.span.start)
    (hproper : node.span.start < node.span.stop) (hstop : node.span.stop ≤ stop) :
    arena.Row start [id] stop := .cons hnode hstart hproper (.nil hstop)

/-- The nodes of a row begin behind its start. -/
theorem start_le (h : arena.Row start ids stop) (hmem : id ∈ ids) :
    start ≤ (arena.span id).start := by
  induction h with
  | nil => simp at hmem
  | @cons start stop head node others hnode hstart hproper _ ih =>
    rcases List.mem_cons.mp hmem with rfl | hmem
    · rw [Arena.span, hnode]
      exact hstart
    · exact (hstart.trans hproper.le).trans (ih hmem)

/-- The nodes of a row end in front of its end. -/
theorem le_stop (h : arena.Row start ids stop) (hmem : id ∈ ids) :
    (arena.span id).stop ≤ stop := by
  induction h with
  | nil => simp at hmem
  | @cons start stop head node others hnode hstart hproper hothers ih =>
    rcases List.mem_cons.mp hmem with rfl | hmem
    · rw [Arena.span, hnode]
      exact hothers.le
    · exact ih hmem

/-- Each node of a row ends before the later ones begin. -/
theorem pairwise (h : arena.Row start ids stop) :
    ids.Pairwise fun first second => (arena.span first).stop ≤ (arena.span second).start := by
  induction h with
  | nil => exact List.Pairwise.nil
  | cons hnode _ _ hothers ih =>
    refine List.pairwise_cons.mpr ⟨fun later hmem => ?_, ih⟩
    rw [Arena.span, hnode]
    exact hothers.start_le hmem

end Row

end Arena

/-- A node reaches from one token to another one, and what is below it lies inside in a row. -/
structure Node.Spans (tokens : List Token) (arena : Arena) (node : Node) : Prop where
  /-- It begins where a token begins. -/
  begins : Begins tokens node.span.start
  /-- It ends where a token ends. -/
  ends : Ends tokens node.span.stop
  /-- It is not empty. -/
  proper : node.span.start < node.span.stop
  /-- The nodes below it lie in a row. -/
  row : arena.Row node.span.start node.kind.inSource node.span.stop

/-- The nodes of an arena reach from one of some tokens to another one, and nest. -/
def Arena.Spans (tokens : List Token) (arena : Arena) : Prop :=
  ∀ id node, arena.node? id = some node → node.Spans tokens arena

/-- Every node of such an arena begins where a token begins. -/
theorem Arena.Spans.begins {tokens : List Token} {arena : Arena} {id : NodeId}
    (h : arena.Spans tokens) (hid : id.index < arena.size) :
    Begins tokens (arena.position id) := by
  have hnode : arena.node? id = some arena.nodes[id.index] := Array.getElem?_eq_getElem hid
  rw [position, span, hnode]
  exact (h id _ hnode).begins

/-- A node that is there has its kind. -/
theorem Arena.kind?_of_node? {arena : Arena} {id : NodeId} {node : Node}
    (h : arena.node? id = some node) : arena.kind? id = some node.kind := by
  rw [kind?, h, Option.map_some]

/-- The place where the current token begins. -/
def ParserState.place (state : ParserState) : Position := state.stream.current.span.start

namespace Parser

variable {tokens : List Token} {base before state between after : ParserState} {span opening : Span}
  {ids others : List NodeId} {places : List (Place × NodeId)} {node : NodeKind}

/-- A state in front of tokens that lie one behind the other, whose nodes nest. -/
structure Ready (tokens : List Token) (state : ParserState) : Prop where
  /-- The tokens left are such that a text may end with. -/
  lexed : Lexed state.tokens
  /-- They are among some tokens. -/
  left : ∀ token ∈ state.tokens, token ∈ tokens
  /-- They lie one behind the other. -/
  ordered : InOrder state.place state.tokens
  /-- The nodes read so far nest. -/
  spans : state.arena.Spans tokens

/-- Since a state, at least one token was consumed, and nodes were read that lie in a row between
the first token consumed and the last one. -/
structure Lays (tokens : List Token) (before : ParserState) (ids : List NodeId)
    (after : ParserState) : Prop where
  /-- The tokens left are such that a text may end with. -/
  lexed : Lexed after.tokens
  /-- They are among some tokens. -/
  left : ∀ token ∈ after.tokens, token ∈ tokens
  /-- They lie one behind the other, behind the token consumed last. -/
  ordered : InOrder after.stream.previous.stop after.tokens
  /-- The nodes read so far nest. -/
  spans : after.arena.Spans tokens
  /-- The nodes read before stay. -/
  kept : ∀ id node, before.arena.node? id = some node → after.arena.node? id = some node
  /-- The first token is one of the tokens. -/
  begins : Begins tokens before.place
  /-- The last token is one of the tokens. -/
  ends : Ends tokens after.stream.previous.stop
  /-- The two are the same token, or one lies behind the other. -/
  proper : before.place < after.stream.previous.stop
  /-- The nodes lie in a row between them. -/
  row : after.arena.Row before.place ids after.stream.previous.stop

namespace Lays

/-- What was read ends in front of the current token. -/
theorem stop_le (h : Lays tokens before ids after) : after.stream.previous.stop ≤ after.place :=
  h.ordered.1

/-- The state that was reached is a state to go on from. -/
theorem ready (h : Lays tokens before ids after) : Ready tokens after :=
  ⟨h.lexed, h.left, ⟨le_refl _, h.ordered.2⟩, h.spans⟩

/-- What is read one behind the other lies one behind the other. -/
theorem trans (hf : Lays tokens before ids between) (hs : Lays tokens between others after) :
    Lays tokens before (ids ++ others) after where
  lexed := hs.lexed
  left := hs.left
  ordered := hs.ordered
  spans := hs.spans
  kept id node hnode := hs.kept id node (hf.kept id node hnode)
  begins := hf.begins
  ends := hs.ends
  proper := (hf.proper.trans_le hf.stop_le).trans hs.proper
  row := (hf.row.of_kept hs.kept).append (hs.row.from_earlier hf.stop_le)

/-- Marks behind nodes change nothing about them. -/
theorem marks (hf : Lays tokens before ids between) (hs : Lays tokens between [] after) :
    Lays tokens before ids after := by
  simpa using hf.trans hs

end Lays

/-- Any token but the end token can be consumed. -/
theorem Ready.shift (h : Ready tokens state) (hk : state.stream.current.kind ≠ .eof) :
    Lays tokens state [] (behind state) := by
  have htail : Lexed state.stream.upcoming := h.lexed.tail hk
  have hcurrent : state.stream.current ∈ tokens := h.left _ List.mem_cons_self
  have hproper := h.ordered.2.1 hk
  have hordered : InOrder state.stream.current.span.stop state.stream.upcoming := h.ordered.2.2
  cases hu : state.stream.upcoming with
  | nil => exact absurd hu htail.ne_nil
  | cons next rest =>
    have hnext : (behind state).stream = ⟨state.stream.current.span, next, rest⟩ := by
      simp [behind, TokenStream.advance, hu]
    have htokens : (behind state).tokens = state.stream.upcoming := by
      simp [ParserState.tokens, hnext, hu]
    exact {
      lexed := htokens ▸ htail
      left := fun token hmem => h.left token (List.mem_cons_of_mem _ (htokens ▸ hmem))
      ordered := by rw [htokens, hnext]; exact hordered
      spans := h.spans
      kept := fun _ _ hnode => hnode
      begins := ⟨_, hcurrent, rfl⟩
      ends := by rw [hnext]; exact ⟨_, hcurrent, rfl⟩
      proper := by rw [hnext]; exact hproper
      row := by rw [hnext]; exact .nil hproper.le }

namespace Lays

/-- A node is added that reaches to the token consumed last, around a row. -/
theorem push (h : Lays tokens base ids state) (hstart : base.place ≤ span.start)
    (hbegins : Begins tokens span.start) (hproper : span.start < span.stop)
    (hstop : span.stop = state.stream.previous.stop)
    (hrow : state.arena.Row span.start node.inSource span.stop) :
    Lays tokens base [state.arena.nextId]
      { state with arena := state.arena.push ⟨node, span⟩ } := by
  have hkept : ∀ id found, state.arena.node? id = some found →
      (state.arena.push ⟨node, span⟩).node? id = some found := by
    intro id found hfound
    rw [Arena.node?_push_of_lt (Arena.index_lt_size (Arena.kind?_of_node? hfound))]
    exact hfound
  have hnew := Arena.node?_push_nextId state.arena ⟨node, span⟩
  refine {
    lexed := h.lexed, left := h.left, ordered := h.ordered, begins := h.begins, ends := h.ends
    proper := h.proper
    kept := fun id found hfound => hkept id found (h.kept id found hfound)
    row := .single hnew hstart hproper hstop.le
    spans := fun id found hfound => ?_ }
  by_cases hlt : id.index < state.arena.size
  · rw [Arena.node?_push_of_lt hlt] at hfound
    have hold := h.spans id found hfound
    exact { hold with row := hold.row.of_kept hkept }
  · -- only the node that is added has this number
    have hid : id = state.arena.nextId := by
      have hbound : id.index < state.arena.size + 1 := by
        rw [← Arena.size_push state.arena ⟨node, span⟩]
        exact Arena.index_lt_size (Arena.kind?_of_node? hfound)
      exact NodeId.eq_of_index (show id.index = state.arena.size by omega)
    rw [hid, hnew, Option.some.injEq] at hfound
    subst hfound
    exact ⟨hbegins, hstop ▸ h.ends, hproper, hrow.of_kept hkept⟩

/-- The nodes in a row come to stand below one that begins with the first token, or with the first
of them. -/
theorem reduce (h : Lays tokens base node.inSource state)
    (hopens : Opens base state node opening) :
    Lays tokens base [state.arena.nextId]
      { state with arena := state.arena.push ⟨node, opening.through state.stream.previous⟩ } := by
  cases hopens with
  | token => exact h.push (le_refl _) h.begins h.proper rfl h.row
  | @operand place left others hp =>
    have hrow := h.row
    rw [NodeKind.inSource, hp] at hrow
    obtain _ | ⟨hnode, hstart, hproper, hothers⟩ := hrow
    rw [Arena.span, hnode]
    refine h.push hstart (h.spans _ _ hnode).begins (hproper.trans_le hothers.le) rfl ?_
    rw [NodeKind.inSource, hp]
    exact .cons hnode (le_refl _) hproper hothers

end Lays

/-- Unless nothing was read, the nodes that shifts and reductions leave lie in a row between the
first token consumed and the last one. -/
theorem Built.lays (h : Built before places after) (hr : Ready tokens before) :
    after = before ∧ places = [] ∨ Lays tokens before (places.map Prod.snd) after := by
  induction h with
  | rest => exact .inl ⟨rfl, rfl⟩
  | shift _ hk ih =>
    rcases ih hr with ⟨rfl, rfl⟩ | hlays
    · exact .inr (hr.shift hk)
    · exact .inr (hlays.marks (hlays.ready.shift hk))
  | @reduce before base state places place kind opening _ _ hleft hopens _ _ ih ihbelow =>
    have hadd : Ready tokens base → Lays tokens base [state.arena.nextId] _ := fun hbase => by
      rcases ihbelow hbase with ⟨rfl, -⟩ | hlays
      · exact absurd hleft (Nat.lt_irrefl _)
      · exact hlays.reduce hopens
    rcases ih hr with ⟨rfl, rfl⟩ | hlays
    · exact .inr (hadd hr)
    · rw [List.map_append]
      exact .inr (hlays.trans (hadd hlays.ready))

/-- In front of all tokens nothing has been read. -/
theorem ready_start {place : Position} (file : String) (hl : Lexed tokens)
    (ho : InOrder place tokens) : Ready tokens (start file tokens) := by
  have htokens := tokens_start file hl
  refine ⟨htokens.symm ▸ hl, fun token hmem => htokens ▸ hmem, ?_, fun id node hnode => ?_⟩
  · rw [← htokens] at ho
    exact ⟨le_refl _, ho.2⟩
  · rw [start, Arena.node?, Arena.empty, List.getElem?_toArray, List.getElem?_nil] at hnode
    cases hnode

end Parser

/-- The nodes of a program that was read reach from token to token, and nest. -/
theorem spans_of_parse {file : String} {tokens : List Token} {place : Position} {arena : Arena}
    (hl : Lexed tokens) (ho : InOrder place tokens) (h : parse file tokens = .ok arena) :
    arena.Spans tokens := by
  obtain ⟨root, state, hbuilt, rfl⟩ := built_of_parse h
  rcases hbuilt.lays (Parser.ready_start file hl ho) with ⟨-, hnone⟩ | hlays
  · cases hnone
  · intro id node hnode
    have hspans := hlays.spans id node hnode
    exact { hspans with row := hspans.row.of_kept fun _ _ hfound => hfound }

end Pins
