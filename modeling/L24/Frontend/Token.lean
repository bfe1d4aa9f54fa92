import L24.Lib.Munch

/-! The lexer of the grammar (`grammar/l24.g4`): token types in the order of their rules, and the rules. -/

namespace L24

/-- The lexer rules, in order. -/
inductive TokenType
  | If | Then | Else | End | While | Continue | Break | Return | Const | Int | Void
  | IntLiteral | StringLiteral
  | Assign | Less | Greater | LessEq | GreaterEq | NotEq | Eq | LogicalAnd | LogicalOr
  | Star | Slash | Percentage | Plus | Minus | SemiColon | Comm
  | LeftBrace | RightBrace | LeftParen | RightParen | LeftSqrBr | RightSqrBr | Not
  | Ident
  | Whitespace | Newline | BlockComments | LINECOMMENT
  deriving DecidableEq, Repr

/-- A token of the default channel. -/
structure Token where
  type : TokenType
  text : String
  deriving DecidableEq, Repr

namespace TokenType
open Munch

/-- The text of the rules that match one word only. -/
def literal : TokenType → String
  | If => "if"
  | Then => "then"
  | Else => "else"
  | End => "end"
  | While => "while"
  | Continue => "continue"
  | Break => "break"
  | Return => "return"
  | Const => "const"
  | Void => "void"
  | Assign => "="
  | Less => "<"
  | Greater => ">"
  | LessEq => "<="
  | GreaterEq => ">="
  | NotEq => "!="
  | Eq => "=="
  | LogicalAnd => "&&"
  | LogicalOr => "||"
  | Star => "*"
  | Slash => "/"
  | Percentage => "%"
  | Plus => "+"
  | Minus => "-"
  | SemiColon => ";"
  | Comm => ","
  | LeftBrace => "\x7b"
  | RightBrace => "\x7d"
  | LeftParen => "("
  | RightParen => ")"
  | LeftSqrBr => "["
  | RightSqrBr => "]"
  | Not => "!"
  | Int | IntLiteral | StringLiteral | Ident | Whitespace | Newline | BlockComments | LINECOMMENT => ""

/-- A token whose text its rule fixes. -/
def token (t : TokenType) : Token := ⟨t, t.literal⟩

end TokenType

open Munch

/-- `[0-9]`. -/
def isDigit (c : Char) : Bool := '0' ≤ c && c ≤ '9'

/-- `[a-zA-Z_]`. -/
def isIdentStart (c : Char) : Bool := ('a' ≤ c && c ≤ 'z') || ('A' ≤ c && c ≤ 'Z') || c == '_'

/-- `[a-zA-Z0-9_]`. -/
def isIdentPart (c : Char) : Bool := isIdentStart c || isDigit c

/-- `[ \t]`. -/
def isBlank (c : Char) : Bool := c == ' ' || c == '\t'

/-- `[\r\n]`. -/
def isLineEnd (c : Char) : Bool := c == '\r' || c == '\n'

/-- The rule of a token type. -/
def TokenType.matcher : TokenType → Matcher Char
  | .Int => orElse (word ['i', 'n', 't']) (word ['c', 'h', 'a', 'r'])
  | .IntLiteral => run isDigit isDigit
  | .StringLiteral => after ['"'] (through ['"'])
  | .Ident => run isIdentStart isIdentPart
  | .Whitespace => run isBlank isBlank
  | .Newline => orElse (word ['\r', '\n']) (run isLineEnd fun _ => false)
  | .BlockComments => after ['/', '*'] (through ['*', '/'])
  | .LINECOMMENT => after ['/', '/'] fun input => some (input.takeWhile fun c => !isLineEnd c).length
  | t => word t.literal.toList

/-- The lexer's rules, in the order of the grammar. -/
def lexerRules : List (Rule Char TokenType) :=
  [TokenType.If, .Then, .Else, .End, .While, .Continue, .Break, .Return, .Const, .Int, .Void, .IntLiteral,
    .StringLiteral, .Assign, .Less, .Greater, .LessEq, .GreaterEq, .NotEq, .Eq, .LogicalAnd, .LogicalOr, .Star, .Slash,
    .Percentage, .Plus, .Minus, .SemiColon, .Comm, .LeftBrace, .RightBrace, .LeftParen, .RightParen, .LeftSqrBr,
    .RightSqrBr, .Not, .Ident, .Whitespace, .Newline, .BlockComments, .LINECOMMENT].map fun t => ⟨t, t.matcher⟩

/-- `channel(HIDDEN)` and `skip`: what the parser does not see. -/
def TokenType.isHidden : TokenType → Bool
  | .Whitespace | .Newline | .BlockComments | .LINECOMMENT => true
  | _ => false

/-- The token of a piece of the text, if it is for the parser. -/
def defaultToken? : Lexeme Char TokenType → Option Token
  | .token t text => if t.isHidden then none else some ⟨t, String.ofList text⟩
  | .error _ => none

/-- The tokens that the parser sees. -/
def defaultTokens (ls : List (Lexeme Char TokenType)) : List Token := ls.filterMap defaultToken?

end L24
