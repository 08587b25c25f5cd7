import Pins.Text.Blank
import Pins.Text.Literal
import Pins.Diagnostic
import Pins.Token

/-!
# From text to tokens

A source is cut into pieces: runs of blanks, comments, and the lexemes of tokens. `Piece.first`
takes the piece at the front of a non-empty text, and `tokenize` repeats it to the end, keeping
count of the place. A piece is never empty, so the length of the text bounds the number of pieces.
-/

namespace Pins

open Text

namespace Lexer

/-- ASCII digits. -/
def isDigit (c : Char) : Bool := '0' ≤ c && c ≤ '9'

/-- The characters a word may begin with. -/
def isWordStart (c : Char) : Bool :=
  ('a' ≤ c && c ≤ 'z') || ('A' ≤ c && c ≤ 'Z') || c == '_'

/-- The characters a word may go on with. -/
def isWordPart (c : Char) : Bool := isWordStart c || isDigit c

/-- A stretch of source: what separates tokens, or one token. -/
inductive Piece where
  /-- A run of blanks or a comment. -/
  | skipped (text : List Char)
  /-- The lexeme of a token, and the token's kind and value. -/
  | lexeme (text : List Char) (kind : TokenKind) (value : String)
deriving DecidableEq, Repr

namespace Piece

/-- The characters of a piece. -/
def text : Piece → List Char
  | skipped text => text
  | lexeme text .. => text

/-- A fault at the front of a text, and the characters that stand before the place of the fault. -/
structure Failure where
  /-- What is wrong. -/
  fault : Fault
  /-- The characters read before the place of the fault. -/
  before : List Char

/-- The piece of a text behind an opening quote: a string literal, if the line closes it. -/
def literal (rest : List Char) : Except Failure Piece :=
  match Literal.body? rest with
  | none => .error ⟨.unterminatedString, []⟩
  | some body =>
    match body.dropWhile Literal.isAllowed with
    | [] =>
      .ok (.lexeme ('\'' :: body ++ ['\'']) .string (String.ofList (Literal.halve body)))
    | c :: _ =>
      .error ⟨.invalidStringCharacter c, '\'' :: body.takeWhile Literal.isAllowed⟩

/-- The piece of a text that begins with a digit: a number, unless a word follows on it. -/
def number (source : List Char) : Except Failure Piece :=
  let digits := source.takeWhile isDigit
  match source.dropWhile isDigit with
  | [] => .ok (.lexeme digits .integer (String.ofList digits))
  | c :: rest =>
    if isWordStart c then
      .error ⟨.invalidIdentifier (String.ofList (digits ++ c :: rest.takeWhile isWordPart)), []⟩
    else .ok (.lexeme digits .integer (String.ofList digits))

/-- The piece of a text that begins like a word: a reserved word or an identifier. -/
def word (source : List Char) : Piece :=
  let text := source.takeWhile isWordPart
  .lexeme text (.ofWord (String.ofList text)) (String.ofList text)

/-- The piece of a text that begins with an operator or a mark. -/
def mark? (source : List Char) : Option Piece :=
  (TokenKind.marks.find? fun mark => mark.1.toList.isPrefixOf source).map fun mark =>
    .lexeme mark.1.toList mark.2 mark.1

/-- The piece at the front of the text that consists of `c` and `rest`. -/
def first (c : Char) (rest : List Char) : Except Failure Piece :=
  if isBlank c then .ok (.skipped (c :: rest.takeWhile isBlank))
  else if c = '#' then .ok (.skipped (c :: rest.takeWhile (· ≠ '\n')))
  else if c = '\'' then literal rest
  else if isDigit c then number (c :: rest)
  else if isWordStart c then .ok (word (c :: rest))
  else match mark? (c :: rest) with
    | some piece => .ok piece
    | none => .error ⟨.unrecognisedToken c.toString, []⟩

/-- The tokens a piece contributes when it begins at a place. -/
def tokens (place : Position) : Piece → List Token
  | skipped _ => []
  | lexeme text kind value => [⟨kind, value, ⟨place, place.past text⟩⟩]

end Piece

/-- The tokens of a text that begins at a place, the end token included, from at most `fuel`
pieces. -/
def tokensWithin : Nat → Position → List Char → Except Diagnostic (List Token)
  | _, place, [] => .ok [Token.endAt place]
  | 0, place, c :: _ => .error ⟨.unrecognisedToken c.toString, place⟩
  | fuel + 1, place, c :: rest =>
    match Piece.first c rest with
    | .error failure => .error ⟨failure.fault, place.past failure.before⟩
    | .ok piece => do
      let next := place.past piece.text
      let following ← tokensWithin fuel next ((c :: rest).drop piece.text.length)
      return piece.tokens place ++ following

end Lexer

/-- The name of a source that has none. -/
def defaultFile : String := "shell"

/-- The tokens of a named source, ended by one end token. -/
def tokenize (file source : String) : Except Diagnostic (List Token) :=
  Lexer.tokensWithin source.toList.length (.origin file) source.toList

end Pins
