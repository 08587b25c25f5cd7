import Pins.Token

/-!
# A stream of tokens

A stream has a current token, the tokens still to come, and the stretch of the token consumed last.
It always has a current token; a stream made from a list of tokens ends with an end token, behind
which it does not move.
-/

namespace Pins

/-- The tokens of a source from a point on. -/
structure TokenStream where
  /-- The stretch of the token consumed last; before any was consumed, that of the first token. -/
  previous : Text.Span
  /-- The token to be read next. -/
  current : Token
  /-- The tokens behind the current one. -/
  upcoming : List Token
deriving DecidableEq, Repr

namespace TokenStream

/-- The end token a list of tokens lacks, if its last token is of another kind. -/
def missingEnd (file : String) (tokens : List Token) : List Token :=
  match tokens.getLast? with
  | none => [Token.endAt (.origin file)]
  | some last => if last.kind = .eof then [] else [Token.endAt last.span.stop]

/-- The stream of a list of tokens of a named source. -/
def ofTokens (file : String) (tokens : List Token) : TokenStream :=
  match tokens ++ missingEnd file tokens with
  | [] => ⟨.empty (.origin file), Token.endAt (.origin file), []⟩
  | first :: rest => ⟨first.span, first, rest⟩

/-- The kind of the token behind the current one; the last token stands behind itself. -/
def peekKind (stream : TokenStream) : TokenKind :=
  match stream.upcoming with
  | [] => stream.current.kind
  | next :: _ => next.kind

/-- The stream behind the current token. The last token is never left. -/
def advance (stream : TokenStream) : TokenStream :=
  match stream.upcoming with
  | [] => stream
  | next :: rest => ⟨stream.current.span, next, rest⟩

end TokenStream

end Pins
