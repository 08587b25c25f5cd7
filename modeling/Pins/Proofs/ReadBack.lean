import Pins.Proofs.ChunkLabels
import Pins.Proofs.Cut
import Pins.Proofs.Inventory
import Pins.Proofs.Sourced

/-!
# Reading printed tokens back

The tokens of a source can be written one behind the other with single spaces between them, strings
as literals, and the text that arises has the same tokens (`printed_tokens_read_back`): a piece that
stands in front of some text stands in front of a space, and a space in front of any piece. So does
the literal that a data chunk is printed with, because its characters are those of a string of the
source.
-/

namespace Pins

open Text

/-- The written form of a string: its text with every quote doubled, between quotes. -/
def Text.Literal.written (value : String) : String :=
  "'" ++ String.ofList (double value.toList) ++ "'"

theorem Text.Literal.toList_written (value : String) :
    (written value).toList = '\'' :: double value.toList ++ ['\''] := by
  simp [written]

/-- The text of a token as a source may have it. -/
def Token.printed (token : Token) : String :=
  if token.kind = .string then Literal.written token.value else token.value

/-- Tokens with single spaces between them, without end tokens. -/
def listing (tokens : List Token) : String :=
  " ".intercalate ((tokens.filter (·.kind ≠ .eof)).map Token.printed)

namespace Lexer

/-- No reserved word has the kind of a string literal. -/
theorem ofWord_ne_string (word : String) : TokenKind.ofWord word ≠ .string := by
  unfold TokenKind.ofWord
  cases hl : TokenKind.reserved.lookup word with
  | none => decide
  | some kind =>
    have hall : ∀ entry ∈ TokenKind.reserved, entry.2 ≠ .string := by decide
    obtain ⟨before, after, he, _⟩ := List.lookup_eq_some_iff.mp hl
    exact hall (word, kind) (by rw [he]; simp)

/-- No mark has the kind of a string literal. -/
theorem mark_ne_string {mark : String × TokenKind} (h : mark ∈ TokenKind.marks) :
    mark.2 ≠ .string := by
  have hall : ∀ mark ∈ TokenKind.marks, mark.2 ≠ .string := by decide
  exact hall mark h

namespace Piece

variable {piece : Piece} {behind next : List Char}

/-- The piece is the lexeme of a token. -/
def isLexeme : Piece → Bool
  | skipped _ => false
  | lexeme .. => true

/-- The kind and the value that a piece is read as. -/
def reading? : Piece → Option (TokenKind × String)
  | skipped _ => none
  | lexeme _ kind value => some (kind, value)

/-- The single space between two tokens. -/
def space : Piece := skipped [' ']

/-- A lexeme may stand in front of a space, and at the end. -/
theorem Stands.before_space (h : piece.Stands behind) (hp : piece.isLexeme = true)
    (hnext : ∀ c ∈ next.head?, c = ' ') : piece.Stands next := by
  cases h with
  | blanks | comment => cases hp
  | number hne hrun _ =>
    exact .number hne ⟨hrun.all, fun c hc => hnext c hc ▸ rfl⟩ fun c hc => hnext c hc ▸ rfl
  | word hstart hrun => exact .word hstart ⟨hrun.all, fun c hc => hnext c hc ▸ rfl⟩
  | mark hmem _ =>
    have hspace : ∀ mark ∈ TokenKind.marks, ' ' ∉ mark.1.toList := by decide +kernel
    refine .mark hmem fun c hc longer hlonger he => hspace longer hlonger ?_
    rw [he, hnext c hc]
    exact List.mem_append_right _ (List.mem_singleton_self _)
  | string hall _ => exact .string hall fun c hc => hnext c hc ▸ by decide

/-- A lexeme does not begin with a blank. -/
theorem Stands.head_not_blank (h : piece.Stands behind) (hp : piece.isLexeme = true) :
    ∀ c ∈ piece.text.head?, isBlank c = false := by
  cases h with
  | blanks | comment => cases hp
  | number _ hrun _ =>
    intro c hc
    have hdigit := hrun.all c (List.mem_of_mem_head? hc)
    exact (of_isWordPart (by rw [isWordPart, hdigit, Bool.or_true])).1
  | word _ hrun => exact fun c hc => (of_isWordPart (hrun.all c (List.mem_of_mem_head? hc))).1
  | mark hmem _ => exact fun c hc => (of_head_mark hmem hc).1
  | string =>
    intro c hc
    cases hc
    rfl

/-- A token is printed as its lexeme. -/
theorem Stands.toList_printed {text : List Char} {kind : TokenKind} {value : String} {span : Span}
    (h : (lexeme text kind value).Stands behind) :
    (Token.printed ⟨kind, value, span⟩).toList = text := by
  cases h with
  | number =>
    have hne : TokenKind.integer ≠ .string := by decide
    rw [Token.printed, if_neg hne, String.toList_ofList]
  | word => rw [Token.printed, if_neg (ofWord_ne_string _), String.toList_ofList]
  | mark hmem _ => rw [Token.printed, if_neg (mark_ne_string hmem)]
  | string => rw [Token.printed, if_pos rfl, Literal.toList_written, String.toList_ofList]

/-- A string token is printable. -/
theorem Stands.isAllowed {text : List Char} {value : String}
    (h : (lexeme text .string value).Stands behind) :
    ∀ c ∈ value.toList, Literal.isAllowed c = true := by
  generalize hkind : TokenKind.string = kind at h
  cases h with
  | number => cases hkind
  | word => exact absurd hkind.symm (ofWord_ne_string _)
  | mark hmem _ => exact absurd hkind.symm (mark_ne_string hmem)
  | string hall _ => rwa [String.toList_ofList]

end Piece

variable {file : String} {source : List Char} {offset : Nat} {pieces words : List Piece}

/-- What the tokens of pieces are is read off the pieces. -/
theorem map_lexemes (offset : Nat) :
    (lexemes file source offset pieces).map (fun token => (token.kind, token.value)) =
      pieces.filterMap Piece.reading? := by
  induction pieces generalizing offset with
  | nil => rfl
  | cons piece pieces ih =>
    cases piece with
    | skipped text => exact ih _
    | lexeme text kind value => exact congrArg _ (ih _)

/-- The tokens of pieces are printed as their lexemes. -/
theorem Cut.map_printed (h : Cut pieces) (offset : Nat) :
    ((lexemes file source offset pieces).map Token.printed).map String.toList =
      (pieces.filter Piece.isLexeme).map Piece.text := by
  induction h generalizing offset with
  | nil => rfl
  | @cons piece _ hstands _ ih =>
    cases piece with
    | skipped text => exact ih _
    | lexeme text kind value =>
      rw [lexemes, List.filter_cons_of_pos rfl, List.map_cons, List.map_cons, List.map_cons, ih,
        hstands.toList_printed, Piece.text]

/-- Every piece stands in front of some text. -/
theorem Cut.stands (h : Cut pieces) : ∀ piece ∈ pieces, ∃ behind, piece.Stands behind := by
  induction h with
  | nil => exact fun _ hmem => absurd hmem List.not_mem_nil
  | cons hstands _ ih => exact List.forall_mem_cons.mpr ⟨⟨_, hstands⟩, ih⟩

/-- Lexemes with spaces between them are the pieces of the text they make up. -/
theorem cut_intersperse
    (h : ∀ piece ∈ words, piece.isLexeme = true ∧ ∃ behind, piece.Stands behind) :
    Cut (words.intersperse .space) := by
  induction words with
  | nil => exact .nil
  | cons first rest ih =>
    obtain ⟨⟨hfirst, behind, hstands⟩, hrest⟩ := List.forall_mem_cons.mp h
    cases rest with
    | nil => exact .cons (hstands.before_space hfirst fun _ hc => nomatch hc) .nil
    | cons second others =>
      obtain ⟨hsecond, behind', hstands'⟩ := hrest second List.mem_cons_self
      have hfront : ∃ more, textOf ((second :: others).intersperse .space) =
          second.text ++ more := by
        cases others <;> exact ⟨_, rfl⟩
      obtain ⟨more, hmore⟩ := hfront
      rw [List.intersperse_cons_cons]
      refine .cons (hstands.before_space hfirst ?_) (.cons (.blanks (List.cons_ne_nil _ _) ?_)
        (ih hrest))
      · rintro c hc
        cases hc
        rfl
      · refine ⟨fun c hc => List.mem_singleton.mp hc ▸ rfl, fun c hc => ?_⟩
        rw [hmore, List.head?_append_of_ne_nil _ hstands'.text_ne_nil] at hc
        exact hstands'.head_not_blank hsecond c hc

/-- Spaces between lexemes are not read as anything. -/
theorem filterMap_intersperse :
    (words.intersperse .space).filterMap Piece.reading? = words.filterMap Piece.reading? := by
  induction words with
  | nil => rfl
  | cons first rest ih =>
    cases rest with
    | nil => rfl
    | cons second others =>
      rw [List.intersperse_cons_cons, List.filterMap_cons, List.filterMap_cons,
        List.filterMap_cons, ih]
      rfl

/-- What is skipped is not read as anything. -/
theorem filterMap_filter :
    (pieces.filter Piece.isLexeme).filterMap Piece.reading? = pieces.filterMap Piece.reading? := by
  induction pieces with
  | nil => rfl
  | cons piece pieces ih =>
    cases piece with
    | skipped text => exact ih
    | lexeme text kind value =>
      rw [List.filter_cons_of_pos rfl, List.filterMap_cons, List.filterMap_cons, ih]

/-- Lexemes with spaces between them make up their texts with spaces between them. -/
theorem textOf_intersperse :
    textOf (words.intersperse .space) = [' '].intercalate (words.map Piece.text) := by
  induction words with
  | nil => rfl
  | cons first rest ih =>
    cases rest with
    | nil => rfl
    | cons second others =>
      rw [List.intersperse_cons_cons, textOf_cons, textOf_cons, ih]
      rfl

/-- The tokens of a text are listed as their lexemes with spaces between them. -/
theorem Cut.toList_listing (h : Cut pieces) (place : Position) :
    (listing (lexemes file source offset pieces ++ [Token.endAt place])).toList =
      textOf ((pieces.filter Piece.isLexeme).intersperse .space) := by
  have hkept : (lexemes file source offset pieces ++ [Token.endAt place]).filter (·.kind ≠ .eof) =
      lexemes file source offset pieces := by
    rw [List.filter_append, List.filter_eq_self.mpr fun token hmem => ?_]
    · exact List.append_nil _
    · exact decide_eq_true (h.kind_ne offset token hmem)
  rw [listing, hkept, String.toList_intercalate, h.map_printed, textOf_intersperse]
  rfl

/-- A string among the tokens of a text is printable. -/
theorem Cut.isAllowed (h : Cut pieces) (offset : Nat) :
    ∀ token ∈ lexemes file source offset pieces, token.kind = .string →
      ∀ c ∈ token.value.toList, Literal.isAllowed c = true := by
  induction h generalizing offset with
  | nil => exact fun _ hmem => absurd hmem List.not_mem_nil
  | @cons piece _ hstands _ ih =>
    cases piece with
    | skipped text => exact ih _
    | lexeme text kind value =>
      refine List.forall_mem_cons.mpr ⟨?_, ih _⟩
      rintro rfl
      exact hstands.isAllowed

end Lexer

variable {file source : String} {tokens : List Token}

/-- The tokens of a source are the tokens of their listing. -/
theorem tokenize_listing (h : tokenize file source = .ok tokens) (file' : String) :
    ∃ tokens', tokenize file' (listing tokens) = .ok tokens' ∧
      tokens'.map (fun token => (token.kind, token.value)) =
        tokens.map fun token => (token.kind, token.value) := by
  obtain ⟨pieces, _, hcut, rfl⟩ := Lexer.exists_cut_of_tokenize h
  have hwords : Lexer.Cut ((pieces.filter Lexer.Piece.isLexeme).intersperse .space) := by
    refine Lexer.cut_intersperse fun piece hmem => ?_
    obtain ⟨hin, hlexeme⟩ := List.mem_filter.mp hmem
    exact ⟨hlexeme, hcut.stands piece hin⟩
  refine ⟨_, hwords.tokenize_eq (hcut.toList_listing _).symm, ?_⟩
  rw [List.map_append, List.map_append, Lexer.map_lexemes, Lexer.map_lexemes,
    Lexer.filterMap_intersperse, Lexer.filterMap_filter]
  rfl

/-- A printable string is read back from its written form. -/
theorem tokenize_written {value : String}
    (h : ∀ c ∈ value.toList, Literal.isAllowed c = true) (file : String) :
    ∃ token last, tokenize file (Literal.written value) = .ok [token, last] ∧
      token.kind = .string ∧ token.value = value ∧ last.kind = .eof := by
  have hcut : Lexer.Cut [.lexeme ('\'' :: Literal.double value.toList ++ ['\'']) .string
      (String.ofList value.toList)] := .cons (.string h fun _ hc => nomatch hc) .nil
  refine ⟨_, _, hcut.tokenize_eq ?_, rfl, String.ofList_toList, rfl⟩
  rw [Literal.toList_written]
  exact List.append_nil _

/-- A string among the tokens of a source is printable. -/
theorem isAllowed_of_mem {token : Token} (h : tokenize file source = .ok tokens)
    (hm : token ∈ tokens) (hk : token.kind = .string) :
    ∀ c ∈ token.value.toList, Literal.isAllowed c = true := by
  obtain ⟨pieces, _, hcut, rfl⟩ := Lexer.exists_cut_of_tokenize h
  rcases List.mem_append.mp hm with hlexeme | hend
  · exact hcut.isAllowed 0 token hlexeme hk
  · obtain rfl := List.mem_singleton.mp hend
    cases hk

namespace Compilation

variable {compilation : Compilation} {access : Access} {value : String}

/-- The characters of a data chunk are those of a string token. -/
theorem exists_token_of_data (h : ofSource file source = .ok compilation)
    (hc : .data access value ∈ compilation.chunks) :
    ∃ tokens, tokenize file source = .ok tokens ∧
      ∃ token ∈ tokens, token.kind = .string ∧ token.value = value := by
  obtain ⟨tokens, arena, ht, hp, ha⟩ := ofSource_eq_ok h
  obtain ⟨_, _, _, _, _, _, _, _, hprogram⟩ := ofArena_eq_ok ha
  obtain ⟨root, members, before, behind, hcompiled⟩ := ofSource_compiled h
  have hemitted : ∃ id, Lowering.Emitted compilation.program id (.data access value) := by
    obtain ⟨hlength, hpairs⟩ := List.forall₂_iff_get.mp hcompiled.emitted
    obtain ⟨index, hindex, hget⟩ := List.getElem_of_mem (Array.mem_toList_iff.mpr hc)
    have hpair := hpairs index (hlength ▸ hindex) hindex
    rw [List.get_eq_getElem, List.get_eq_getElem, hget] at hpair
    exact ⟨_, hpair⟩
  obtain ⟨id, hid⟩ := hemitted
  cases hid with
  | literal hk =>
    rw [hprogram] at hk
    exact ⟨tokens, ht, exists_token_of_literal (lexed_of_tokenize ht) hp hk⟩

/-- Every source that has tokens has the same kinds and values of tokens as the text in which its
tokens stand one behind the other, with single spaces between them and strings as literals. The
literal that a data chunk is printed with is read back as one string token, of its value. -/
theorem printed_tokens_read_back :
    (∀ file source tokens, tokenize file source = .ok tokens →
      ∀ file', ∃ tokens', tokenize file' (listing tokens) = .ok tokens' ∧
        tokens'.map (fun token => (token.kind, token.value)) =
          tokens.map fun token => (token.kind, token.value)) ∧
    (∀ file source compilation, ofSource file source = .ok compilation →
      ∀ access value, Chunk.data access value ∈ compilation.chunks →
        (Chunk.data access value).text =
          "DATA " ++ access.text ++ " " ++ Literal.written value ++ "\n" ∧
        ∀ file', ∃ token last, tokenize file' (Literal.written value) = .ok [token, last] ∧
          token.kind = .string ∧ token.value = value ∧ last.kind = .eof) := by
  refine ⟨fun _ _ _ h => tokenize_listing h, fun _ _ _ h access value hc => ⟨?_, ?_⟩⟩
  · have hquotes : " '" = " " ++ "'" ∧ "'\n" = "'" ++ "\n" := by decide
    rw [Chunk.text, Literal.written, hquotes.1, hquotes.2]
    simp only [String.append_assoc]
  · obtain ⟨tokens, ht, token, hmem, hk, rfl⟩ := exists_token_of_data h hc
    exact tokenize_written (isAllowed_of_mem ht hmem hk)

/-- A literal with quotes at its end and in its middle, and a comment. -/
theorem printed_tokens_read_back_of_quotes : ∃ tokens compilation access value,
    tokenize "note" "fun f(): string = 'it''s ''so''' # note" = .ok tokens ∧
    (∃ tokens', tokenize "again" (listing tokens) = .ok tokens' ∧
      tokens'.map (fun token => (token.kind, token.value)) =
        tokens.map fun token => (token.kind, token.value)) ∧
    ofSource "note" "fun f(): string = 'it''s ''so''' # note" = .ok compilation ∧
    Chunk.data access value ∈ compilation.chunks ∧
    ∃ token last, tokenize "again" (Literal.written value) = .ok [token, last] ∧
      token.kind = .string ∧ token.value = value ∧ last.kind = .eof := by
  obtain ⟨compilation, hc, hany⟩ : ∃ compilation,
      ofSource "note" "fun f(): string = 'it''s ''so''' # note" = .ok compilation ∧
        (compilation.chunks.any fun chunk => chunk.number?.isSome) = true :=
    exists_of_any (by decide +kernel)
  obtain ⟨tokens, _, ht, _, _⟩ := ofSource_eq_ok hc
  obtain ⟨index, hindex, hdata⟩ := Array.any_eq_true.mp hany
  obtain ⟨number, hnumber⟩ := Option.isSome_iff_exists.mp hdata
  obtain ⟨size, value, hchunk⟩ := Chunk.number?_eq_some_iff.mp hnumber
  have hmem : .data (.global size (.generated number)) value ∈ compilation.chunks :=
    hchunk ▸ Array.getElem_mem hindex
  have hread := (printed_tokens_read_back.2 _ _ _ hc _ value hmem).2 "again"
  exact ⟨tokens, compilation, _, value, ht, printed_tokens_read_back.1 _ _ _ ht "again", hc, hmem,
    hread⟩

end Compilation

end Pins
