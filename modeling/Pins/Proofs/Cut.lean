import Pins.Proofs.Lexed
import Pins.Proofs.Pieces
import Pins.Proofs.Places

/-!
# A text cut into pieces

A text has tokens exactly if it can be cut into pieces that stand in front of one another (`Cut`),
and then its tokens are those of the pieces, each between the places of the two ends of its piece,
and the end token behind them (`tokenize_eq_ok_iff`). No character is lost on the way.
-/

namespace Pins

open Text

namespace Lexer

/-- The text that pieces make up. -/
def textOf (pieces : List Piece) : List Char := pieces.flatMap Piece.text

@[simp] theorem textOf_nil : textOf [] = [] := rfl

@[simp] theorem textOf_cons (piece : Piece) (pieces : List Piece) :
    textOf (piece :: pieces) = piece.text ++ textOf pieces := rfl

/-- Pieces each of which may stand in front of the text of the later ones. -/
inductive Cut : List Piece → Prop where
  | nil : Cut []
  | cons {piece : Piece} {pieces : List Piece} (h : piece.Stands (textOf pieces))
      (hrest : Cut pieces) : Cut (piece :: pieces)

/-- The tokens of pieces of a source that begin at a byte offset. Each token lies between the two
ends of its piece. -/
def lexemes (file : String) (source : List Char) : Nat → List Piece → List Token
  | _, [] => []
  | offset, .skipped text :: pieces => lexemes file source (offset + byteLength text) pieces
  | offset, .lexeme text kind value :: pieces =>
    ⟨kind, value, ⟨locate file source offset, locate file source (offset + byteLength text)⟩⟩ ::
      lexemes file source (offset + byteLength text) pieces

section

variable {fuel : Nat} {place : Position} {source front : List Char} {tokens : List Token}
  {pieces : List Piece} {file : String}

/-- A text that has tokens does not begin with a literal that is left open. -/
theorem closes_of_tokensWithin (h : tokensWithin fuel place source = .ok tokens) :
    Piece.Closes source := by
  rintro others rfl
  cases fuel with
  | zero => cases h
  | succ fuel =>
    obtain ⟨piece, _, hpiece, _, _⟩ := tokensWithin_eq_ok h
    rw [Piece.first, if_neg (by decide), if_neg (by decide), if_pos rfl, Piece.literal] at hpiece
    cases hbody : Literal.body? others with
    | none => rw [hbody] at hpiece; cases hpiece
    | some body => rfl

/-- A text that has tokens can be cut into pieces. -/
theorem exists_cut (h : tokensWithin fuel place source = .ok tokens) :
    ∃ pieces, textOf pieces = source ∧ Cut pieces := by
  induction fuel generalizing place source tokens with
  | zero =>
    cases source with
    | nil => exact ⟨[], rfl, .nil⟩
    | cons c rest => cases h
  | succ fuel ih =>
    cases source with
    | nil => exact ⟨[], rfl, .nil⟩
    | cons c rest =>
      obtain ⟨piece, following, hpiece, hfollowing, _⟩ := tokensWithin_eq_ok h
      obtain ⟨behind, hsplit, hstands⟩ := Piece.fronts_of_first hpiece
      rw [hsplit, List.drop_left] at hfollowing
      obtain ⟨pieces, rfl, hcut⟩ := ih hfollowing
      exact ⟨piece :: pieces, hsplit.symm, .cons (hstands (closes_of_tokensWithin hfollowing)) hcut⟩

/-- A piece of a text is no end token. -/
theorem Piece.Stands.kind_ne {text behind : List Char} {kind : TokenKind} {value : String}
    (h : (Piece.lexeme text kind value).Stands behind) : kind ≠ .eof := by
  obtain ⟨c, rest, hcons⟩ :=
    List.exists_cons_of_ne_nil (List.append_ne_nil_of_left_ne_nil h.text_ne_nil behind)
  exact (first_lexeme (first_of_stands h hcons)).1

namespace Cut

/-- No piece is empty. -/
theorem text_ne_nil (h : Cut pieces) : ∀ piece ∈ pieces, piece.text ≠ [] := by
  induction h with
  | nil => exact fun _ hmem => absurd hmem List.not_mem_nil
  | cons hstands _ ih => exact List.forall_mem_cons.mpr ⟨hstands.text_ne_nil, ih⟩

/-- The tokens of the pieces do not include an end token. -/
theorem kind_ne (h : Cut pieces) (offset : Nat) :
    ∀ token ∈ lexemes file source offset pieces, token.kind ≠ .eof := by
  induction h generalizing offset with
  | nil => exact fun _ hmem => absurd hmem List.not_mem_nil
  | @cons piece _ hstands _ ih =>
    cases piece with
    | skipped text => exact ih _
    | lexeme text kind value => exact List.forall_mem_cons.mpr ⟨hstands.kind_ne, ih _⟩

/-- A text that is cut into pieces has the tokens of the pieces. -/
theorem tokensWithin_eq (h : Cut pieces) (hfuel : (textOf pieces).length ≤ fuel)
    (hsource : source = front ++ textOf pieces) :
    tokensWithin fuel ((Position.origin file).past front) (textOf pieces) =
      .ok (lexemes file source (byteLength front) pieces ++
        [Token.endAt (locate file source (byteLength source))]) := by
  induction h generalizing fuel front with
  | nil =>
    have hplace := locate_byteLength file front []
    rw [textOf_nil, List.append_nil] at hsource
    rw [List.append_nil] at hplace
    subst hsource
    rw [textOf_nil, tokensWithin_nil, lexemes, List.nil_append, hplace]
  | @cons piece pieces hstands hrest ih =>
    have hpos := List.length_pos_iff.mpr hstands.text_ne_nil
    rw [textOf_cons, List.length_append] at hfuel
    obtain ⟨c, rest, hcons⟩ :=
      List.exists_cons_of_ne_nil (List.append_ne_nil_of_left_ne_nil hstands.text_ne_nil _)
    have hsource' : source = (front ++ piece.text) ++ textOf pieces := by
      rw [hsource, textOf_cons, List.append_assoc]
    have hbegin := locate_byteLength file front (piece.text ++ textOf pieces)
    have hend := locate_byteLength file (front ++ piece.text) (textOf pieces)
    rw [← List.append_assoc, ← hsource'] at hbegin
    rw [← hsource', byteLength_append] at hend
    obtain ⟨fuel, rfl⟩ : ∃ fewer, fuel = fewer + 1 := ⟨fuel - 1, by omega⟩
    have hfollowing : tokensWithin fuel ((Position.origin file).past (front ++ piece.text))
        (textOf pieces) = _ := ih (by omega) hsource'
    have hdrop : (c :: rest).drop piece.text.length = textOf pieces := by
      rw [← hcons, List.drop_left]
    rw [Position.past_append, ← hdrop] at hfollowing
    rw [textOf_cons, hcons, tokensWithin_of_ok (Piece.first_of_stands hstands hcons), hfollowing,
      Except.map, byteLength_append, ← List.append_assoc]
    cases piece with
    | skipped text => rfl
    | lexeme text kind value =>
      simp only [Piece.tokens, lexemes, Piece.text, List.cons_append, List.nil_append] at hend ⊢
      rw [hend, hbegin, Position.past_append]

/-- A source that is cut into pieces has the tokens of the pieces. -/
theorem tokenize_eq {source : String} (h : Cut pieces) (htext : textOf pieces = source.toList) :
    tokenize file source = .ok (lexemes file source.toList 0 pieces ++
      [Token.endAt (locate file source.toList (byteLength source.toList))]) := by
  have heq : tokensWithin (textOf pieces).length ((Position.origin file).past [])
      (textOf pieces) = _ := h.tokensWithin_eq le_rfl rfl
  rw [htext] at heq
  exact heq

end Cut

end

/-- A source that has tokens can be cut into pieces that have these tokens. -/
theorem exists_cut_of_tokenize {file source : String} {tokens : List Token}
    (h : tokenize file source = .ok tokens) :
    ∃ pieces, textOf pieces = source.toList ∧ Cut pieces ∧
      tokens = lexemes file source.toList 0 pieces ++
        [Token.endAt (locate file source.toList (byteLength source.toList))] := by
  obtain ⟨pieces, htext, hcut⟩ := exists_cut h
  exact ⟨pieces, htext, hcut, Except.ok.inj (h.symm.trans (hcut.tokenize_eq htext))⟩

end Lexer

/-- A source has tokens exactly if it consists of pieces none of which is empty and each of which is
as long as its sort allows. The tokens are those of the pieces, each between the places of the two
ends of its piece, and only then the end token, at the end of the source. -/
theorem tokenize_eq_ok_iff (file source : String) (tokens : List Token) :
    tokenize file source = .ok tokens ↔
      ∃ pieces, Lexer.textOf pieces = source.toList ∧ Lexer.Cut pieces ∧
        (∀ piece ∈ pieces, piece.text ≠ []) ∧
        (∀ token ∈ Lexer.lexemes file source.toList 0 pieces, token.kind ≠ .eof) ∧
        tokens = Lexer.lexemes file source.toList 0 pieces ++
          [Token.endAt (locate file source.toList (byteLength source.toList))] := by
  constructor
  · intro h
    obtain ⟨pieces, htext, hcut, htokens⟩ := Lexer.exists_cut_of_tokenize h
    exact ⟨pieces, htext, hcut, hcut.text_ne_nil, hcut.kind_ne 0, htokens⟩
  · rintro ⟨pieces, htext, hcut, _, _, rfl⟩
    exact hcut.tokenize_eq htext

end Pins
