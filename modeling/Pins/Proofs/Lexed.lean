import Mathlib.Data.List.TakeWhile
import Pins.Text.Number
import Pins.Token.Lexer

/-!
# Tokens of a text

The tokens that a text is cut into end with their only end token, and a token for an integer is a
run of digits (`lexed_of_tokenize`). For a run of digits it does not matter that numbers are read
with a sign: whether it fits a word is a question of its value.
-/

namespace Pins

/-- Tokens as a text is cut into: they end with their only end token, and an integer is a run of
digits. -/
inductive Lexed : List Token → Prop where
  | last {token : Token} (hk : token.kind = .eof) : Lexed [token]
  | cons {token : Token} {rest : List Token} (hk : token.kind ≠ .eof)
      (hdigits : token.kind = .integer → ∃ value, Text.digits? token.value.toList = some value)
      (h : Lexed rest) : Lexed (token :: rest)

namespace Lexed

variable {token : Token} {tokens rest : List Token}

/-- Another token than the end token stands in front of tokens that end in the same way. -/
theorem tail (h : Lexed (token :: rest)) (hk : token.kind ≠ .eof) : Lexed rest := by
  cases h with
  | last he => exact absurd he hk
  | cons _ _ hrest => exact hrest

/-- Nothing stands behind the end token. -/
theorem eq_nil (h : Lexed (token :: rest)) (hk : token.kind = .eof) : rest = [] := by
  cases h with
  | last _ => rfl
  | cons hne _ _ => exact absurd hk hne

/-- There is at least the end token. -/
theorem ne_nil (h : Lexed tokens) : tokens ≠ [] := by
  cases h <;> simp

/-- An integer is a run of digits. -/
theorem exists_digits (h : Lexed (token :: rest)) (hk : token.kind = .integer) :
    ∃ value, Text.digits? token.value.toList = some value := by
  cases h with
  | last he => simp [he] at hk
  | cons _ hdigits _ => exact hdigits hk

/-- The last token is the end token. -/
theorem getLast?_kind {tokens : List Token} (h : Lexed tokens) :
    tokens.getLast?.map Token.kind = some .eof := by
  induction h with
  | last hk => simp [hk]
  | cons _ _ hrest ih =>
    obtain ⟨first, others, rfl⟩ := List.exists_cons_of_ne_nil hrest.ne_nil
    simpa using ih

end Lexed

namespace Text

/-- The first character of a run of digits is no sign. -/
theorem head_of_digits {c : Char} {rest : List Char} {value : Nat}
    (h : digits? (c :: rest) = some value) : c ≠ '+' ∧ c ≠ '-' := by
  constructor <;> rintro rfl <;> simp [digits?, digitsFrom?, digit?] at h

/-- A run of digits is a signed word if its value is not too large. -/
theorem isSome_signed?_iff {text : String} {value : Nat}
    (h : digits? text.toList = some value) : (signed? text).isSome ↔ value ≤ 2147483647 := by
  unfold signed?
  split
  · next rest he => exact absurd rfl (head_of_digits (he ▸ h)).1
  · next rest he => exact absurd rfl (head_of_digits (he ▸ h)).2
  · rw [h]
    simp only [Option.map_some, Option.isSome_filter, Option.any_some, decide_eq_true_eq]
    have hmax : (maxSigned : Int) = 2147483647 := rfl
    rw [hmax, Int.ofNat_eq_natCast]
    omega

/-- A run of digits is an unsigned word if its value is not too large. -/
theorem unsigned?_eq_some_iff {text : String} {value size : Nat}
    (h : digits? text.toList = some value) :
    unsigned? text = some size ↔ value = size ∧ size ≤ 4294967295 := by
  unfold unsigned?
  split
  · next rest he => exact absurd rfl (head_of_digits (he ▸ h)).1
  · rw [h, Option.filter_eq_some_iff]
    simp only [Option.some.injEq, decide_eq_true_eq]
    unfold maxUnsigned
    omega

end Text

namespace Lexer

/-- A run of digits has a value. -/
theorem exists_digitsFrom (text : List Char) (h : ∀ c ∈ text, isDigit c = true) (value : Nat) :
    ∃ number, Text.digitsFrom? value text = some number := by
  induction text generalizing value with
  | nil => exact ⟨value, rfl⟩
  | cons c rest ih =>
    have hc : '0' ≤ c ∧ c ≤ '9' := by simpa [isDigit] using h c List.mem_cons_self
    have hrest := ih (fun d hd => h d (List.mem_cons_of_mem _ hd))
    simp only [Text.digitsFrom?, Text.digit?, if_pos hc]
    exact hrest _

/-- A reserved word or an identifier is neither a number nor the end of a text. -/
theorem ofWord_ne (word : String) :
    TokenKind.ofWord word ≠ .eof ∧ TokenKind.ofWord word ≠ .integer := by
  unfold TokenKind.ofWord
  cases hl : TokenKind.reserved.lookup word with
  | none => decide
  | some kind =>
    have hall : ∀ entry ∈ TokenKind.reserved, entry.2 ≠ .eof ∧ entry.2 ≠ .integer := by decide
    obtain ⟨before, after, he, _⟩ := List.lookup_eq_some_iff.mp hl
    exact hall (word, kind) (by rw [he]; simp)

section Lexemes

variable {c : Char} {rest source text : List Char} {kind : TokenKind} {value : String}

/-- Behind a quote stands a string. -/
theorem literal_lexeme (h : Piece.literal rest = .ok (.lexeme text kind value)) :
    kind = .string := by
  unfold Piece.literal at h
  split at h
  · cases h
  · split at h <;> cases h
    rfl

/-- What begins with a digit is an integer that is a run of digits. -/
theorem number_lexeme (hdigit : isDigit c = true)
    (h : Piece.number (c :: rest) = .ok (.lexeme text kind value)) :
    kind = .integer ∧ ∃ number, Text.digits? value.toList = some number := by
  have hdigits : ∃ number,
      Text.digits? (String.ofList ((c :: rest).takeWhile isDigit)).toList = some number := by
    rw [String.toList_ofList, List.takeWhile_cons_of_pos hdigit]
    refine exists_digitsFrom _ (fun d hd => ?_) 0
    rw [← List.takeWhile_cons_of_pos hdigit] at hd
    exact List.all_eq_true.mp List.all_takeWhile d hd
  unfold Piece.number at h
  dsimp only at h
  split at h
  · cases h
    exact ⟨rfl, hdigits⟩
  · split at h <;> cases h
    exact ⟨rfl, hdigits⟩

/-- A mark is neither a number nor the end of a text. -/
theorem mark_lexeme (h : Piece.mark? source = some (.lexeme text kind value)) :
    kind ≠ .eof ∧ kind ≠ .integer := by
  have hall : ∀ mark ∈ TokenKind.marks, mark.2 ≠ .eof ∧ mark.2 ≠ .integer := by decide
  obtain ⟨mark, hfound, he⟩ := Option.map_eq_some_iff.mp h
  cases he
  exact hall mark (List.mem_of_find?_eq_some hfound)

/-- No piece of a text is the end token, and an integer is a run of digits. -/
theorem first_lexeme (h : Piece.first c rest = .ok (.lexeme text kind value)) :
    kind ≠ .eof ∧
      (kind = .integer → ∃ number, Text.digits? value.toList = some number) := by
  have hother : kind ≠ .eof ∧ kind ≠ .integer → kind ≠ .eof ∧
      (kind = .integer → ∃ number, Text.digits? value.toList = some number) :=
    fun hne => ⟨hne.1, fun hk => absurd hk hne.2⟩
  unfold Piece.first at h
  split at h
  · cases h
  · split at h
    · cases h
    · split at h
      · rw [literal_lexeme h] at hother ⊢
        exact hother (by decide)
      · split at h
        · next hdigit =>
          obtain ⟨rfl, hdigits⟩ := number_lexeme hdigit h
          exact ⟨by decide, fun _ => hdigits⟩
        · split at h
          · cases h
            exact hother (ofWord_ne _)
          · split at h
            · next piece hmark =>
              cases h
              exact hother (mark_lexeme hmark)
            · cases h

end Lexemes

section Steps

variable {fuel : Nat} {place : Text.Position} {c : Char} {rest source : List Char}
  {tokens : List Token} {diagnostic : Diagnostic}

/-- Without text there is only the end token. -/
theorem tokensWithin_nil (fuel : Nat) (place : Text.Position) :
    tokensWithin fuel place [] = .ok [Token.endAt place] := by
  cases fuel <;> rfl

/-- A fault at the front of a text lies behind the characters that stand before it. -/
theorem tokensWithin_of_error {failure : Piece.Failure} (h : Piece.first c rest = .error failure) :
    tokensWithin (fuel + 1) place (c :: rest) =
      .error ⟨failure.fault, place.past failure.before⟩ := by
  conv => lhs; unfold tokensWithin
  dsimp only
  rw [h]

/-- The tokens of the first piece stand in front of those of the text behind it. -/
theorem tokensWithin_of_ok {piece : Piece} (h : Piece.first c rest = .ok piece) :
    tokensWithin (fuel + 1) place (c :: rest) =
      (tokensWithin fuel (place.past piece.text) ((c :: rest).drop piece.text.length)).map
        (piece.tokens place ++ ·) := by
  conv => lhs; unfold tokensWithin
  dsimp only
  rw [h]
  dsimp only
  cases tokensWithin fuel (place.past piece.text) ((c :: rest).drop piece.text.length) <;> rfl

/-- A text that has tokens has a first piece, and the text behind it has the other tokens. -/
theorem tokensWithin_eq_ok (h : tokensWithin (fuel + 1) place (c :: rest) = .ok tokens) :
    ∃ piece following, Piece.first c rest = .ok piece ∧
      tokensWithin fuel (place.past piece.text) ((c :: rest).drop piece.text.length) =
        .ok following ∧ tokens = piece.tokens place ++ following := by
  cases hpiece : Piece.first c rest with
  | error failure =>
    rw [tokensWithin_of_error hpiece] at h
    cases h
  | ok piece =>
    rw [tokensWithin_of_ok hpiece] at h
    cases hrest : tokensWithin fuel (place.past piece.text)
        ((c :: rest).drop piece.text.length) with
    | error found =>
      rw [hrest] at h
      cases h
    | ok following =>
      rw [hrest] at h
      cases h
      exact ⟨piece, following, rfl, hrest, rfl⟩

/-- A text is refused for a fault at its front, or for one behind its first piece. -/
theorem tokensWithin_eq_error (h : tokensWithin (fuel + 1) place (c :: rest) = .error diagnostic) :
    (∃ failure, Piece.first c rest = .error failure ∧
      diagnostic = ⟨failure.fault, place.past failure.before⟩) ∨
    ∃ piece, Piece.first c rest = .ok piece ∧
      tokensWithin fuel (place.past piece.text) ((c :: rest).drop piece.text.length) =
        .error diagnostic := by
  cases hpiece : Piece.first c rest with
  | error failure =>
    rw [tokensWithin_of_error hpiece] at h
    cases h
    exact .inl ⟨failure, rfl, rfl⟩
  | ok piece =>
    rw [tokensWithin_of_ok hpiece] at h
    cases hrest : tokensWithin fuel (place.past piece.text)
        ((c :: rest).drop piece.text.length) with
    | error found =>
      rw [hrest] at h
      cases h
      exact .inr ⟨piece, rfl, hrest⟩
    | ok following =>
      rw [hrest] at h
      cases h

/-- The tokens of a text end with their only end token. -/
theorem tokensWithin_lexed (h : tokensWithin fuel place source = .ok tokens) : Lexed tokens := by
  induction fuel generalizing place source tokens with
  | zero =>
    cases source with
    | nil =>
      cases h
      exact .last rfl
    | cons c rest => cases h
  | succ fuel ih =>
    cases source with
    | nil =>
      cases h
      exact .last rfl
    | cons c rest =>
      obtain ⟨piece, following, hpiece, hrest, rfl⟩ := tokensWithin_eq_ok h
      cases piece with
      | skipped text => exact ih hrest
      | lexeme text kind value =>
        obtain ⟨hne, hdigits⟩ := first_lexeme hpiece
        exact .cons hne hdigits (ih hrest)

end Steps

end Lexer

/-- A text is cut into tokens that end with their only end token. -/
theorem lexed_of_tokenize {file source : String} {tokens : List Token}
    (h : tokenize file source = .ok tokens) : Lexed tokens :=
  Lexer.tokensWithin_lexed h

end Pins
