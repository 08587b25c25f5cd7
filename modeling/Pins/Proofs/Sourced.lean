import Pins.Proofs.Forms
import Pins.Proofs.Paired

/-!
# What is read from the tokens

Where reading stops with a diagnostic, a token begins (`begins_of_parse`): a reading is paired with
itself, from states in front of tokens that are among some. The literals of a program that was read
are tokens of their classes (`exists_token_of_literal`): the rules of the grammar leave no other way
to have one.
-/

namespace Pins

open Text

/-- The kind of the tokens that are literals of a class. -/
def Atom.tokenKind : Atom → TokenKind
  | .integer => .integer
  | .logical => .logical
  | .string => .string

/-- One of some tokens begins at a place. -/
def Begins (tokens : List Token) (place : Position) : Prop :=
  ∃ token ∈ tokens, token.span.start = place

namespace Parser

variable {tokens : List Token} {state after : ParserState}

/-- A move leaves no tokens to be read that were not there before. -/
theorem Move.mem_of_mem (h : Move state after) {token : Token} (hm : token ∈ after.tokens) :
    token ∈ state.tokens := by
  cases h with
  | push => exact hm
  | consume =>
    unfold behind ParserState.tokens TokenStream.advance at hm
    unfold ParserState.tokens
    cases hu : state.stream.upcoming with
    | nil => simpa [hu] using hm
    | cons next rest => exact List.mem_cons_of_mem _ (by simpa [hu] using hm)

/-- A reading beside itself, in front of tokens that are among some. -/
def Likeness.among (tokens : List Token) : Likeness :=
  .keeping False (fun state => ∀ token ∈ state.tokens, token ∈ tokens) (· ∈ tokens)
    (fun hmove hamong token hm => hamong token (hmove.mem_of_mem hm))
    fun hamong => hamong _ List.mem_cons_self

end Parser

variable {file : String} {tokens : List Token}

/-- Where reading stops, a token begins. -/
theorem begins_of_parse {diagnostic : Diagnostic} (hl : Lexed tokens)
    (h : parse file tokens = .error diagnostic) : Begins tokens diagnostic.position := by
  have hstart : ∀ token ∈ (Parser.start file tokens).tokens, token ∈ tokens := by
    rw [Parser.tokens_start file hl]
    exact fun _ => id
  have hout := (Parser.program_paired (.among tokens) _ _ ⟨rfl, hstart⟩).resolve_left
    fun hdeep => hdeep.1
  unfold parse at h
  generalize Parser.program (Parser.start file tokens) = outcome at h hout
  cases hout with
  | value => cases h
  | fault hb =>
    cases h
    obtain ⟨token, _, ht, hplace⟩ := hb.exists_token
    exact ⟨token, ht.2, hplace⟩

/-- A literal is one of some tokens. -/
def NodeForm.IsAmong (tokens : List Token) : NodeForm → Prop
  | .literal value atom => ∃ token ∈ tokens, token.kind = atom.tokenKind ∧ token.value = value
  | _ => True

/-- All literals of a tree are among some tokens. -/
def SyntaxTree.IsAmong (tokens : List Token) (tree : SyntaxTree) : Prop :=
  ∀ form ∈ tree.forms, form.IsAmong tokens

theorem SyntaxTree.isAmong_node {form : NodeForm} {below : List SyntaxTree} :
    (node form below).IsAmong tokens ↔
      form.IsAmong tokens ∧ ∀ tree ∈ below, tree.IsAmong tokens := forall_forms_node

/-- The literals in the trees of a symbol are among the tokens that are derived from it. -/
theorem Symbol.Derives.isAmong {symbol : Symbol} {read : List Token} {trees : List SyntaxTree}
    (h : symbol.Derives read trees) (hr : ∀ token ∈ read, token ∈ tokens) :
    ∀ tree ∈ trees, tree.IsAmong tokens := by
  induction h
  case integer hkind _ _ | logical hkind | string hkind =>
    simpa [SyntaxTree.isAmong_node] using ⟨_, hr _ List.mem_cons_self, hkind, rfl⟩
  case more ih ihothers =>
    obtain ⟨hfirst, hrest⟩ := List.forall_mem_append.mp hr
    exact List.forall_mem_append.mpr ⟨ih hfirst, ihothers (List.forall_mem_cons.mp hrest).2⟩
  all_goals
    simp_all [SyntaxTree.isAmong_node, NodeForm.IsAmong, or_imp, forall_and]

/-- The literals of a program that was read are tokens of their classes. -/
theorem exists_token_of_literal {arena : Arena} {id : NodeId} {value : String} {atom : Atom}
    (hl : Lexed tokens) (h : parse file tokens = .ok arena)
    (hk : arena.kind? id = some (.expression (.literal value atom))) :
    ∃ token ∈ tokens, token.kind = atom.tokenKind ∧ token.value = value := by
  obtain ⟨program, hd, hforms⟩ := exists_forms_of_parse hl h
  exact hd.isAmong (fun _ hm => hm) program List.mem_cons_self _ ((hforms _).mpr ⟨id, _, hk, rfl⟩)

end Pins
