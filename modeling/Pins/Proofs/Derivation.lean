import Pins.Proofs.SyntaxTree
import Pins.Text.Number
import Pins.Token

/-!
# The grammar of the language

What is a program, said by the rules of a grammar instead of by a way of reading:

    source      -> definitions EOF
    definitions -> definition (';' definition)*
    definition  -> 'typ' id ':' type | 'var' id ':' type
                 | 'fun' id '(' [parameter (',' parameter)*] ')' ':' type '=' expression
    parameter   -> id ':' type
    type        -> id | 'integer' | 'logical' | 'string' | 'arr' '[' int ']' type
    expression  -> or_expr ['{' 'where' definitions '}']
    or_expr     -> and_expr ('|' and_expr)*
    and_expr    -> cmp_expr ('&' cmp_expr)*
    cmp_expr    -> add_expr [('==' | '!=' | '<' | '>' | '<=' | '>=') add_expr]
    add_expr    -> mul_expr (('+' | '-') mul_expr)*
    mul_expr    -> prefix (('*' | '/' | '%') prefix)*
    prefix      -> ('+' | '-' | '!') prefix | postfix
    postfix     -> atom ('[' expression ']')*
    atom        -> int | log | str | id ['(' [expression (',' expression)*] ')']
                 | '(' expression (',' expression)* ')'
                 | '{' expression '=' expression '}'
                 | '{' 'if' expression 'then' expression ['else' expression] '}'
                 | '{' 'while' expression ':' expression '}'
                 | '{' 'for' id '=' expression ',' expression ',' expression ':' expression '}'

`Symbol.Derives` says which tokens are derived from a symbol, and to which trees. A repeated
operator is derived from the left, so that its left operand holds the operators in front of it. An
integer in an expression is at most `2 ^ 31 - 1`, and the length of an array at most `2 ^ 32 - 1`.
-/

namespace Pins

/-- The levels of operations, from the loosest to the tightest. -/
inductive Precedence where
  | or
  | and
  | comparison
  | additive
  | multiplicative
  | prefixed
  | postfixed
deriving DecidableEq, Repr

namespace Precedence

/-- The level of the operands of an operator. -/
def tighter? : Precedence → Option Precedence
  | or => some and
  | and => some comparison
  | comparison => some additive
  | additive => some multiplicative
  | multiplicative => some prefixed
  | prefixed => some postfixed
  | postfixed => none

/-- The operators between two operands at a level, by their marks. -/
def operator? : Precedence → TokenKind → Option BinaryOperator
  | or, .or => some .or
  | and, .and => some .and
  | comparison, .equals => some .eq
  | comparison, .notEquals => some .neq
  | comparison, .less => some .lt
  | comparison, .greater => some .gt
  | comparison, .lessEquals => some .leq
  | comparison, .greaterEquals => some .geq
  | additive, .plus => some .add
  | additive, .dash => some .sub
  | multiplicative, .star => some .mul
  | multiplicative, .slash => some .div
  | multiplicative, .percent => some .mod
  | _, _ => none

end Precedence

/-- The operators before an operand, by their marks. -/
def UnaryOperator.ofMark? : TokenKind → Option UnaryOperator
  | .plus => some .plus
  | .dash => some .minus
  | .not => some .not
  | _ => none

/-- The atomic types, by their words. -/
def Atom.ofWord? : TokenKind → Option Atom
  | .integerType => some .integer
  | .logicalType => some .logical
  | .stringType => some .string
  | _ => none

/-- The symbols of the grammar. -/
inductive Symbol where
  | type
  | parameter
  /-- An operation, with the where clause that may follow it. -/
  | expression
  /-- Operators of a level, or of tighter ones, and their operands. -/
  | operation (level : Precedence)
  | atom
  | definition
  | source
  /-- What a symbol stands for, or nothing. -/
  | optional (symbol : Symbol)
  /-- What a symbol stands for, once or more often with marks in between. -/
  | separated (symbol : Symbol) (mark : TokenKind)

namespace Symbol

/-- One or more parameters with commas between them. -/
abbrev parameters : Symbol := .separated .parameter .comma

/-- One or more expressions with commas between them. -/
abbrev expressions : Symbol := .separated .expression .comma

/-- One or more definitions with semicolons between them. -/
abbrev definitions : Symbol := .separated .definition .semicolon

/-- The tokens that are derived from a symbol, with the trees of the derivation. -/
inductive Derives : Symbol → List Token → List SyntaxTree → Prop where
  | absent {symbol : Symbol} : Derives (.optional symbol) [] []
  | present {symbol : Symbol} {tokens : List Token} {trees : List SyntaxTree}
      (h : Derives symbol tokens trees) : Derives (.optional symbol) tokens trees
  | last {symbol : Symbol} {mark : TokenKind} {tokens : List Token} {trees : List SyntaxTree}
      (h : Derives symbol tokens trees) : Derives (.separated symbol mark) tokens trees
  | more {symbol : Symbol} {mark : TokenKind} {between : Token} {tokens others : List Token}
      {trees following : List SyntaxTree} (hbetween : between.kind = mark)
      (h : Derives symbol tokens trees)
      (hothers : Derives (.separated symbol mark) others following) :
      Derives (.separated symbol mark) (tokens ++ between :: others) (trees ++ following)
  -- type
  | namedType {name : Token} (hname : name.kind = .identifier) :
      Derives .type [name] [.node (.namedType name.value) []]
  | atomType {word : Token} {atom : Atom} (hword : Atom.ofWord? word.kind = some atom) :
      Derives .type [word] [.node (.atomType atom) []]
  | arrayType {word opened length closed : Token} {element : List Token} {size : Nat}
      {written : SyntaxTree}
      (hmarks : [word, opened, length, closed].map Token.kind =
        [.arrWord, .openBracket, .integer, .closeBracket])
      (hsize : Text.digits? length.value.toList = some size) (hfits : size ≤ 4294967295)
      (helement : Derives .type element [written]) :
      Derives .type (word :: opened :: length :: closed :: element)
        [.node (.arrayType size) [written]]
  -- parameter
  | parameter {name colon : Token} {type : List Token} {written : SyntaxTree}
      (hmarks : [name, colon].map Token.kind = [.identifier, .colon])
      (htype : Derives .type type [written]) :
      Derives .parameter (name :: colon :: type) [.node (.parameter name.value) [written]]
  -- expression
  | operation {tokens : List Token} {trees : List SyntaxTree}
      (h : Derives (.operation .or) tokens trees) : Derives .expression tokens trees
  | whereClause {opened word closed : Token} {operation definitions : List Token}
      {tree : SyntaxTree} {members : List SyntaxTree}
      (hmarks : [opened, word, closed].map Token.kind = [.openCurly, .whereWord, .closeCurly])
      (hoperation : Derives (.operation .or) operation [tree])
      (hdefinitions : Derives .definitions definitions members) :
      Derives .expression (operation ++ opened :: word :: definitions ++ [closed])
        [.node .whereClause [.node .definitions members, tree]]
  -- or_expr to postfix
  | tighter {level inner : Precedence} {tokens : List Token} {trees : List SyntaxTree}
      (hinner : level.tighter? = some inner) (h : Derives (.operation inner) tokens trees) :
      Derives (.operation level) tokens trees
  | chained {level inner : Precedence} {operator : BinaryOperator} {mark : Token}
      {left right : List Token} {leftTree rightTree : SyntaxTree}
      (hchains : level ≠ .comparison) (hmark : level.operator? mark.kind = some operator)
      (hinner : level.tighter? = some inner)
      (hleft : Derives (.operation level) left [leftTree])
      (hright : Derives (.operation inner) right [rightTree]) :
      Derives (.operation level) (left ++ mark :: right)
        [.node (.binary operator) [leftTree, rightTree]]
  | comparison {operator : BinaryOperator} {mark : Token} {left right : List Token}
      {leftTree rightTree : SyntaxTree}
      (hmark : Precedence.comparison.operator? mark.kind = some operator)
      (hleft : Derives (.operation .additive) left [leftTree])
      (hright : Derives (.operation .additive) right [rightTree]) :
      Derives (.operation .comparison) (left ++ mark :: right)
        [.node (.binary operator) [leftTree, rightTree]]
  | prefixed {operator : UnaryOperator} {mark : Token} {tokens : List Token} {tree : SyntaxTree}
      (hmark : UnaryOperator.ofMark? mark.kind = some operator)
      (h : Derives (.operation .prefixed) tokens [tree]) :
      Derives (.operation .prefixed) (mark :: tokens) [.node (.unary operator) [tree]]
  | index {opened closed : Token} {array index : List Token} {arrayTree indexTree : SyntaxTree}
      (hmarks : [opened, closed].map Token.kind = [.openBracket, .closeBracket])
      (harray : Derives (.operation .postfixed) array [arrayTree])
      (hindex : Derives .expression index [indexTree]) :
      Derives (.operation .postfixed) (array ++ opened :: index ++ [closed])
        [.node (.binary .index) [arrayTree, indexTree]]
  | operand {tokens : List Token} {trees : List SyntaxTree} (h : Derives .atom tokens trees) :
      Derives (.operation .postfixed) tokens trees
  -- atom
  | integer {token : Token} {value : Nat} (hkind : token.kind = .integer)
      (hvalue : Text.digits? token.value.toList = some value) (hfits : value ≤ 2147483647) :
      Derives .atom [token] [.node (.literal token.value .integer) []]
  | logical {token : Token} (hkind : token.kind = .logical) :
      Derives .atom [token] [.node (.literal token.value .logical) []]
  | string {token : Token} (hkind : token.kind = .string) :
      Derives .atom [token] [.node (.literal token.value .string) []]
  | name {token : Token} (hkind : token.kind = .identifier) :
      Derives .atom [token] [.node (.name token.value) []]
  | call {name opened closed : Token} {arguments : List Token} {trees : List SyntaxTree}
      (hmarks : [name, opened, closed].map Token.kind = [.identifier, .openParen, .closeParen])
      (harguments : Derives (.optional .expressions) arguments trees) :
      Derives .atom (name :: opened :: arguments ++ [closed]) [.node (.call name.value) trees]
  | block {opened closed : Token} {expressions : List Token} {trees : List SyntaxTree}
      (hmarks : [opened, closed].map Token.kind = [.openParen, .closeParen])
      (hexpressions : Derives .expressions expressions trees) :
      Derives .atom (opened :: expressions ++ [closed]) [.node .block trees]
  | assignment {opened mark closed : Token} {left right : List Token}
      {leftTree rightTree : SyntaxTree}
      (hmarks : [opened, mark, closed].map Token.kind = [.openCurly, .assignment, .closeCurly])
      (hleft : Derives .expression left [leftTree])
      (hright : Derives .expression right [rightTree]) :
      Derives .atom (opened :: left ++ mark :: right ++ [closed])
        [.node (.binary .assign) [leftTree, rightTree]]
  | conditional {opened word thenWord closed : Token} {condition branch : List Token}
      {conditionTree branchTree : SyntaxTree}
      (hmarks : [opened, word, thenWord, closed].map Token.kind =
        [.openCurly, .ifWord, .thenWord, .closeCurly])
      (hcondition : Derives .expression condition [conditionTree])
      (hbranch : Derives .expression branch [branchTree]) :
      Derives .atom (opened :: word :: condition ++ thenWord :: branch ++ [closed])
        [.node .conditional [conditionTree, branchTree]]
  | choice {opened word thenWord elseWord closed : Token} {condition branch other : List Token}
      {conditionTree branchTree otherTree : SyntaxTree}
      (hmarks : [opened, word, thenWord, elseWord, closed].map Token.kind =
        [.openCurly, .ifWord, .thenWord, .elseWord, .closeCurly])
      (hcondition : Derives .expression condition [conditionTree])
      (hbranch : Derives .expression branch [branchTree])
      (hother : Derives .expression other [otherTree]) :
      Derives .atom
        (opened :: word :: condition ++ thenWord :: branch ++ elseWord :: other ++ [closed])
        [.node .conditional [conditionTree, branchTree, otherTree]]
  | whileLoop {opened word colon closed : Token} {condition body : List Token}
      {conditionTree bodyTree : SyntaxTree}
      (hmarks : [opened, word, colon, closed].map Token.kind =
        [.openCurly, .whileWord, .colon, .closeCurly])
      (hcondition : Derives .expression condition [conditionTree])
      (hbody : Derives .expression body [bodyTree]) :
      Derives .atom (opened :: word :: condition ++ colon :: body ++ [closed])
        [.node .whileLoop [conditionTree, bodyTree]]
  | forLoop {opened word counter mark comma second colon closed : Token}
      {low high step body : List Token} {lowTree highTree stepTree bodyTree : SyntaxTree}
      (hmarks : [opened, word, counter, mark, comma, second, colon, closed].map Token.kind =
        [.openCurly, .forWord, .identifier, .assignment, .comma, .comma, .colon, .closeCurly])
      (hlow : Derives .expression low [lowTree]) (hhigh : Derives .expression high [highTree])
      (hstep : Derives .expression step [stepTree]) (hbody : Derives .expression body [bodyTree]) :
      Derives .atom
        (opened :: word :: counter :: mark :: low ++ comma :: high ++ second :: step ++
          colon :: body ++ [closed])
        [.node .forLoop [.node (.name counter.value) [], lowTree, highTree, stepTree, bodyTree]]
  -- definition
  | typeDefinition {word name colon : Token} {type : List Token} {written : SyntaxTree}
      (hmarks : [word, name, colon].map Token.kind = [.typWord, .identifier, .colon])
      (htype : Derives .type type [written]) :
      Derives .definition (word :: name :: colon :: type) [.node (.type name.value) [written]]
  | varDefinition {word name colon : Token} {type : List Token} {written : SyntaxTree}
      (hmarks : [word, name, colon].map Token.kind = [.varWord, .identifier, .colon])
      (htype : Derives .type type [written]) :
      Derives .definition (word :: name :: colon :: type) [.node (.var name.value) [written]]
  | function {word name opened closed colon mark : Token} {parameters result body : List Token}
      {members : List SyntaxTree} {resultTree bodyTree : SyntaxTree}
      (hmarks : [word, name, opened, closed, colon, mark].map Token.kind =
        [.funWord, .identifier, .openParen, .closeParen, .colon, .assignment])
      (hparameters : Derives (.optional .parameters) parameters members)
      (hresult : Derives .type result [resultTree])
      (hbody : Derives .expression body [bodyTree]) :
      Derives .definition
        (word :: name :: opened :: parameters ++ closed :: colon :: result ++ mark :: body)
        [.node (.function name.value) (members ++ [resultTree, bodyTree])]
  -- source
  | program {last : Token} {tokens : List Token} {members : List SyntaxTree}
      (hlast : last.kind = .eof) (h : Derives .definitions tokens members) :
      Derives .source (tokens ++ [last]) [.node .definitions members]

end Symbol

end Pins
