import Mathlib.Data.Prod.Lex
import Pins.Proofs.Cut

/-!
# The order of places

Places come in the order of the characters, line by line and then column by column. Walking over
characters leads to later places, and so the tokens of a source lie one behind the other: none is
empty but the end token, and none begins before the one in front of it ends
(`inOrder_of_tokenize`).
-/

namespace Pins

namespace Text.Position

variable {place first second : Position}

/-- Places are compared by their lines, and by their columns in one line. -/
instance : Preorder Position := Preorder.lift fun place => toLex (place.line, place.column)

/-- A place lies in front of those in later lines and of those behind it in its line. -/
theorem lt_iff : first < second ↔
    first.line < second.line ∨ first.line = second.line ∧ first.column < second.column :=
  Prod.Lex.toLex_lt_toLex

/-- A character leads to a later place. -/
theorem lt_next (place : Position) (c : Char) : place < place.next c := by
  rw [lt_iff, next]
  split
  · exact .inl (Nat.lt_succ_self _)
  · exact .inr ⟨rfl, Nat.lt_succ_self _⟩

/-- Characters do not lead back. -/
theorem le_past (place : Position) (text : List Char) : place ≤ place.past text := by
  induction text generalizing place with
  | nil => exact le_refl _
  | cons c rest ih => exact (lt_next place c).le.trans (ih _)

/-- At least one character leads to a later place. -/
theorem lt_past {text : List Char} (h : text ≠ []) : place < place.past text := by
  obtain ⟨c, rest, rfl⟩ := List.exists_cons_of_ne_nil h
  exact (lt_next place c).trans_le (le_past _ rest)

end Text.Position

open Text

/-- Tokens lie one behind the other from a place on, and only the end token is empty. -/
def InOrder : Position → List Token → Prop
  | _, [] => True
  | place, token :: others => place ≤ token.span.start ∧
    (token.kind ≠ .eof → token.span.start < token.span.stop) ∧ InOrder token.span.stop others

/-- What lies behind a place lies behind the earlier ones. -/
theorem InOrder.mono {place earlier : Position} {tokens : List Token} (h : InOrder place tokens)
    (hp : earlier ≤ place) : InOrder earlier tokens := by
  cases tokens with
  | nil => trivial
  | cons token others => exact ⟨hp.trans h.1, h.2⟩

/-- The tokens of pieces lie one behind the other. -/
theorem Lexer.Cut.inOrder {file : String} {source front : List Char} {pieces : List Lexer.Piece}
    (h : Lexer.Cut pieces) (hs : source = front ++ Lexer.textOf pieces) :
    InOrder ((Position.origin file).past front)
      (Lexer.lexemes file source (byteLength front) pieces ++
        [Token.endAt (locate file source (byteLength source))]) := by
  induction h generalizing front with
  | nil =>
    have hplace := locate_byteLength file front []
    rw [Lexer.textOf_nil, List.append_nil] at hs
    rw [List.append_nil] at hplace
    subst hs
    rw [Lexer.lexemes, List.nil_append, hplace]
    exact ⟨le_refl _, fun hk => absurd rfl hk, trivial⟩
  | @cons piece pieces hstands _ ih =>
    have hs' : source = (front ++ piece.text) ++ Lexer.textOf pieces := by
      rw [hs, Lexer.textOf_cons, List.append_assoc]
    have hbegin := locate_byteLength file front (piece.text ++ Lexer.textOf pieces)
    have hend := locate_byteLength file (front ++ piece.text) (Lexer.textOf pieces)
    rw [← List.append_assoc, ← hs'] at hbegin
    rw [← hs', byteLength_append] at hend
    have hrest := ih hs'
    rw [byteLength_append] at hrest
    have hlt : (Position.origin file).past front <
        (Position.origin file).past (front ++ piece.text) := by
      rw [Position.past_append]
      exact Position.lt_past hstands.text_ne_nil
    cases piece with
    | skipped text => exact hrest.mono hlt.le
    | lexeme text kind value =>
      simp only [Lexer.Piece.text] at hend hlt hrest
      simp only [Lexer.lexemes, List.cons_append]
      rw [hbegin, hend]
      exact ⟨le_refl _, fun _ => hlt, hrest⟩

/-- The tokens of a source lie one behind the other. -/
theorem inOrder_of_tokenize {file source : String} {tokens : List Token}
    (h : tokenize file source = .ok tokens) : InOrder (.origin file) tokens := by
  obtain ⟨pieces, htext, hcut, rfl⟩ := Lexer.exists_cut_of_tokenize h
  have hsource : source.toList = [] ++ Lexer.textOf pieces := htext.symm
  exact hcut.inOrder hsource

end Pins
