import Pins.Proofs.Located
import Pins.Proofs.Unclosed

/-!
# What a diagnostic points at can be seen

A diagnostic points at the end of its source, at a character that is no blank, or into a string
literal that is closed on its line (`Compilation.diagnostic_isVisible`). So what it points at
neither belongs to the indentation of a line nor to the blanks at its end: a report shows it.
-/

namespace Pins

open Text

namespace Text

/-- What stands behind a text can be seen: it is nothing, or it begins with a character that is no
blank or that stands in a literal which is closed on the line. -/
inductive Visible : List Char → List Char → Prop
  | atEnd {front : List Char} : Visible front []
  | character {front rest : List Char} {c : Char} (hc : isBlank c = false) :
      Visible front (c :: rest)
  | inLiteral {front inside rest : List Char} {c : Char} (hinside : '\n' ∉ inside) (hc : c ≠ '\n')
      (hclosed : '\'' ∈ Literal.line rest) : Visible (front ++ '\'' :: inside) (c :: rest)

/-- What stands at a place of a named source can be seen. -/
def IsVisible (file : String) (source : List Char) (place : Position) : Prop :=
  ∃ front back, source = front ++ back ∧ place = (Position.origin file).past front ∧
    Visible front back

/-- No literal goes on behind its line. -/
theorem Literal.feed_notMem_body {rest body : List Char} (h : body? rest = some body) :
    '\n' ∉ body := by
  fun_induction body? rest generalizing body with
  | case1 | case6 | case8 => cases h
  | case2 | case4 | case5 =>
    cases h
    simp
  | case3 rest inner hinner ih =>
    cases h
    simpa using ih hinner
  | case7 c d rest _ hfeed ih =>
    obtain ⟨inner, hinner, rfl⟩ := Option.map_eq_some_iff.mp h
    simpa [Ne.symm hfeed] using ih hinner

end Text

namespace Lexer

variable {fuel : Nat} {c : Char} {front rest source text : List Char} {file : String}
  {failure : Piece.Failure} {diagnostic : Diagnostic} {pieces : List Piece}

/-- What is wrong in a literal can be seen: its opening quote, or a character in front of the
closing one. -/
theorem visible_of_literal (front : List Char) (h : Piece.literal rest = .error failure) :
    ∃ behind, '\'' :: rest = failure.before ++ behind ∧
      Visible (front ++ failure.before) behind := by
  cases hbody : Literal.body? rest with
  | none =>
    rw [literal_of_none hbody] at h
    cases h
    exact ⟨_, rfl, .character (by decide)⟩
  | some body =>
    have hline := Literal.feed_notMem_body hbody
    obtain ⟨value, others, rfl, rfl, _⟩ := Literal.body?_eq_some hbody
    rw [literal_of_body hbody] at h
    split at h
    · cases h
    · next d after hdrop =>
      cases h
      have hsplit := List.takeWhile_append_dropWhile
        (p := Literal.isAllowed) (l := Literal.double value)
      rw [hdrop] at hsplit
      rw [← hsplit, List.mem_append, not_or, List.mem_cons, not_or] at hline
      refine ⟨d :: (after ++ '\'' :: others), ?_, .inLiteral hline.1 (Ne.symm hline.2.1) ?_⟩
      · conv => lhs; rw [← hsplit]
        simp
      · rw [Literal.line, List.takeWhile_append_of_pos]
        · simp
        · intro e he
          have hfeed : e ≠ '\n' := fun heq => hline.2.2 (heq ▸ he)
          simpa using hfeed

/-- What is wrong at the front of a text can be seen. -/
theorem visible_of_first (front : List Char) (h : Piece.first c rest = .error failure) :
    ∃ behind, c :: rest = failure.before ++ behind ∧ Visible (front ++ failure.before) behind := by
  unfold Piece.first at h
  split at h
  · cases h
  · next hblank =>
    have hc : isBlank c = false := by simpa using hblank
    split at h
    · cases h
    split at h
    · next hquote =>
      subst hquote
      exact visible_of_literal front h
    split at h
    · unfold Piece.number at h
      dsimp only at h
      split at h
      · cases h
      · split at h <;> cases h
        exact ⟨_, rfl, .character hc⟩
    split at h
    · cases h
    · split at h <;> cases h
      exact ⟨_, rfl, .character hc⟩

/-- A piece that is read off the front of a text is not empty. -/
theorem first_text_ne_nil {piece : Piece} (h : Piece.first c rest = .ok piece) :
    piece.text ≠ [] := by
  obtain ⟨behind, hsplit, hstands⟩ := Piece.fronts_of_first h
  intro hnil
  have hcloses : Piece.Closes behind := by
    rintro others rfl
    rw [hnil, List.nil_append] at hsplit
    obtain ⟨rfl, rfl⟩ := List.cons.inj hsplit
    rw [first_quote] at h
    cases hbody : Literal.body? rest with
    | none =>
      rw [literal_of_none hbody] at h
      cases h
    | some body => rfl
  exact (hstands hcloses).text_ne_nil hnil

/-- Cutting a text stops at something that can be seen. -/
theorem isVisible_of_tokensWithin (front : List Char) (hfuel : text.length ≤ fuel)
    (h : tokensWithin fuel ((Position.origin file).past front) text = .error diagnostic) :
    IsVisible file (front ++ text) diagnostic.position := by
  induction fuel generalizing front text with
  | zero =>
    obtain rfl := List.length_eq_zero_iff.mp (Nat.le_zero.mp hfuel)
    cases h
  | succ fuel ih =>
    cases text with
    | nil => cases h
    | cons c rest =>
      obtain ⟨failure, hpiece, rfl⟩ | ⟨piece, hpiece, hrest⟩ := tokensWithin_eq_error h
      · obtain ⟨behind, hbehind, hvisible⟩ := visible_of_first front hpiece
        rw [hbehind, ← List.append_assoc, ← Position.past_append]
        exact ⟨_, behind, rfl, rfl, hvisible⟩
      · -- a piece is not empty, so what is left of the bound is enough for the rest
        obtain ⟨behind, hsplit, _⟩ := Piece.fronts_of_first hpiece
        have hlength := congrArg List.length hsplit
        have hpos := List.length_pos_iff.mpr (first_text_ne_nil hpiece)
        rw [List.length_append] at hlength
        rw [hsplit, List.drop_left, ← Position.past_append] at hrest
        rw [hsplit, ← List.append_assoc]
        exact ih _ (by omega) hrest

/-- A token that is no end token begins with a character that is no blank. -/
theorem Piece.Stands.head_lexeme {behind : List Char} {kind : TokenKind} {value : String}
    (h : (Piece.lexeme text kind value).Stands behind) :
    ∃ c rest, text ++ behind = c :: rest ∧ isBlank c = false := by
  obtain ⟨c, rest, hcons⟩ :=
    List.exists_cons_of_ne_nil (List.append_ne_nil_of_left_ne_nil h.text_ne_nil behind)
  refine ⟨c, rest, hcons, ?_⟩
  have hfirst := first_of_stands h hcons
  by_cases hblank : isBlank c = true
  · rw [Piece.first, if_pos hblank] at hfirst
    cases hfirst
  · simpa using hblank

/-- The tokens of pieces begin with something that can be seen. -/
theorem Cut.isVisible_lexemes (h : Cut pieces) (front : List Char)
    (hsource : source = front ++ textOf pieces) :
    ∀ token ∈ lexemes file source (byteLength front) pieces,
      IsVisible file source token.span.start := by
  induction h generalizing front with
  | nil => exact fun _ hmem => absurd hmem List.not_mem_nil
  | @cons piece pieces hstands _ ih =>
    have hrest := ih (front ++ piece.text) (by rw [hsource, textOf_cons, List.append_assoc])
    rw [byteLength_append] at hrest
    cases piece with
    | skipped text => exact hrest
    | lexeme text kind value =>
      refine List.forall_mem_cons.mpr ⟨?_, hrest⟩
      obtain ⟨c, rest, hcons, hc⟩ := hstands.head_lexeme
      rw [textOf_cons, Piece.text, hcons] at hsource
      refine ⟨front, c :: rest, hsource, ?_, .character hc⟩
      rw [hsource]
      exact locate_byteLength file front (c :: rest)

end Lexer

/-- The tokens of a source begin with something that can be seen. -/
theorem isVisible_of_begins {file source : String} {tokens : List Token} {place : Position}
    (ht : tokenize file source = .ok tokens) (h : Begins tokens place) :
    IsVisible file source.toList place := by
  obtain ⟨pieces, htext, hcut, rfl⟩ := Lexer.exists_cut_of_tokenize ht
  obtain ⟨token, hmem, rfl⟩ := h
  rcases List.mem_append.mp hmem with hlexeme | hend
  · exact hcut.isVisible_lexemes [] htext.symm token hlexeme
  · obtain rfl := List.mem_singleton.mp hend
    have hplace := locate_byteLength file source.toList []
    rw [List.append_nil] at hplace
    exact ⟨source.toList, [], (List.append_nil _).symm, hplace, .atEnd⟩

/-- Whatever phase refuses a source, its diagnostic points at something that can be seen. -/
theorem Compilation.diagnostic_isVisible {file source : String} {diagnostic : Diagnostic}
    (h : ofSource file source = .error diagnostic) :
    IsVisible file source.toList diagnostic.position := by
  rcases ofSource_eq_error h with ht | ⟨tokens, ht, hp | ⟨arena, hp, ha⟩⟩
  · exact Lexer.isVisible_of_tokensWithin [] (Nat.le_refl _) ht
  · exact isVisible_of_begins ht (begins_of_parse (lexed_of_tokenize ht) hp)
  · obtain ⟨id, hid, hposition⟩ := points_of_ofArena (parse_isTree hp) ha
    rw [hposition]
    have hspans := spans_of_parse (lexed_of_tokenize ht) (inOrder_of_tokenize ht) hp
    exact isVisible_of_begins ht (hspans.begins hid)

end Pins
