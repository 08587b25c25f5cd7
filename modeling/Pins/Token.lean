import Pins.Text.Position

/-!
# Tokens

The kinds of words and marks a program is made of, and tokens: a kind, a text and the stretch of
source the token was read from.
-/

namespace Pins

/-- The kinds of tokens. -/
inductive TokenKind where
  /-- The end of the source. -/
  | eof
  | identifier
  | integer
  | logical
  | string
  | openBracket
  | closeBracket
  | openCurly
  | closeCurly
  | openParen
  | closeParen
  | assignment
  | equals
  | not
  | notEquals
  | less
  | lessEquals
  | greater
  | greaterEquals
  | or
  | and
  | dot
  | semicolon
  | colon
  | comma
  | plus
  | dash
  | slash
  | star
  | percent
  | arrWord
  | elseWord
  | forWord
  | funWord
  | ifWord
  | thenWord
  | typWord
  | varWord
  | whereWord
  | whileWord
  | integerType
  | logicalType
  | stringType
deriving DecidableEq, Repr

namespace TokenKind

/-- The name of a kind, as token lists show it. -/
def name : TokenKind → String
  | eof => "EOF"
  | identifier => "Identifier"
  | integer => "Integer"
  | logical => "Logical"
  | string => "String"
  | openBracket => "OpenBracket"
  | closeBracket => "CloseBracket"
  | openCurly => "OpenCurly"
  | closeCurly => "CloseCurly"
  | openParen => "OpenParen"
  | closeParen => "CloseParen"
  | assignment => "Assignment"
  | equals => "Equals"
  | not => "Not"
  | notEquals => "NotEquals"
  | less => "Less"
  | lessEquals => "LessEquals"
  | greater => "Greater"
  | greaterEquals => "GreaterEquals"
  | or => "Or"
  | and => "And"
  | dot => "Dot"
  | semicolon => "Semicolon"
  | colon => "Colon"
  | comma => "Comma"
  | plus => "Plus"
  | dash => "Dash"
  | slash => "Slash"
  | star => "Star"
  | percent => "Percent"
  | arrWord => "Arr"
  | elseWord => "Else"
  | forWord => "For"
  | funWord => "Fun"
  | ifWord => "If"
  | thenWord => "Then"
  | typWord => "Typ"
  | varWord => "Var"
  | whereWord => "Where"
  | whileWord => "While"
  | integerType => "IntegerType"
  | logicalType => "LogicalType"
  | stringType => "StringType"

/-- Every kind once. -/
def all : List TokenKind :=
  [eof, identifier, integer, logical, string, openBracket, closeBracket, openCurly, closeCurly,
    openParen, closeParen, assignment, equals, not, notEquals, less, lessEquals, greater,
    greaterEquals, or, and, dot, semicolon, colon, comma, plus, dash, slash, star, percent,
    arrWord, elseWord, forWord, funWord, ifWord, thenWord, typWord, varWord, whereWord, whileWord,
    integerType, logicalType, stringType]

theorem mem_all (kind : TokenKind) : kind ∈ all := by cases kind <;> decide

/-- The kind of a given name. -/
def ofName? (name : String) : Option TokenKind := all.find? fun kind => kind.name == name

/-- The kinds of the comparison operators, of which an expression may not chain two. -/
def isRelational : TokenKind → Bool
  | equals | notEquals | less | lessEquals | greater | greaterEquals => true
  | _ => false

/-- The kinds whose tokens differ in text, so that a token list shows the text too. -/
def carriesText : TokenKind → Bool
  | identifier | integer | logical | string => true
  | _ => false

/-- The reserved words and their kinds. -/
def reserved : List (String × TokenKind) :=
  [("arr", arrWord), ("else", elseWord), ("for", forWord), ("fun", funWord), ("if", ifWord),
    ("then", thenWord), ("typ", typWord), ("var", varWord), ("where", whereWord),
    ("while", whileWord), ("integer", integerType), ("logical", logicalType),
    ("string", stringType), ("true", logical), ("false", logical)]

/-- The kind of a word: its own if it is reserved, and an identifier otherwise. -/
def ofWord (word : String) : TokenKind := (reserved.lookup word).getD identifier

/-- The operators and marks and their kinds. A text stands before the shorter texts it begins
with. -/
def marks : List (String × TokenKind) :=
  [("==", equals), ("!=", notEquals), ("<=", lessEquals), (">=", greaterEquals),
    ("[", openBracket), ("]", closeBracket), ("\x7b", openCurly), ("\x7d", closeCurly),
    ("(", openParen), (")", closeParen), ("!", not), ("=", assignment), ("<", less),
    (">", greater), ("|", or), ("&", and), (".", dot), (";", semicolon), (":", colon),
    (",", comma), ("+", plus), ("-", dash), ("/", slash), ("*", star), ("%", percent)]

end TokenKind

/-- A word or mark of a program. -/
structure Token where
  /-- Its kind. -/
  kind : TokenKind
  /-- Its text; for a string literal the characters it denotes. -/
  value : String
  /-- Where it was read. -/
  span : Text.Span
deriving DecidableEq, Repr

namespace Token

/-- The token that ends a source at a place. -/
def endAt (place : Text.Position) : Token := ⟨.eof, "EOF", .empty place⟩

/-- The line that shows a token in a token list. -/
def text (token : Token) : String :=
  let shown := "[" ++ token.span.text ++ "] " ++ token.kind.name
  if token.kind.carriesText then shown ++ ":" ++ token.value else shown

end Token

end Pins
