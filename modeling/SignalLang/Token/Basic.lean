import SignalLang.Source.Span

/-!
# Tokens

A token is a piece of source text with its class and the place where it starts. Lines and columns count
from one, columns in characters; offsets count bytes from zero.
-/

namespace SignalLang

/-- The class of a token. -/
inductive TokenKind where
  | endOfFile
  | invalid
  | ident
  | intLiteral
  | floatLiteral
  | stringLiteral
  -- operators and punctuation
  | plus | minus | star | starStar | slash | percent
  | assign | equal | notEqual | less | lessEqual | greater | greaterEqual
  | shiftLeft | shiftRight | dot | comma | colon | semicolon | question
  | leftParen | rightParen | leftBrace | rightBrace | leftBracket | rightBracket
  -- keywords
  | kwAnd | kwOr | kwXor | kwNot | kwBNot | kwBAnd | kwBOr | kwBXor | kwAs | kwIn
  | kwInput | kwOutput | kwStatic | kwMacro | kwIf | kwElse | kwFor | kwTo | kwNoUnroll
  | kwAssert | kwReturn | kwInclude | kwInline
deriving DecidableEq, Repr, Inhabited

/-- The name of a token class; operators and keywords are named by their text. -/
def TokenKind.text : TokenKind → String
  | .endOfFile => "end of file"
  | .invalid => "invalid character"
  | .ident => "identifier"
  | .intLiteral => "integer literal"
  | .floatLiteral => "float literal"
  | .stringLiteral => "string literal"
  | .plus => "+"
  | .minus => "-"
  | .star => "*"
  | .starStar => "**"
  | .slash => "/"
  | .percent => "%"
  | .assign => "="
  | .equal => "=="
  | .notEqual => "!="
  | .less => "<"
  | .lessEqual => "<="
  | .greater => ">"
  | .greaterEqual => ">="
  | .shiftLeft => "<<"
  | .shiftRight => ">>"
  | .dot => "."
  | .comma => ","
  | .colon => ":"
  | .semicolon => ";"
  | .question => "?"
  | .leftParen => "("
  | .rightParen => ")"
  | .leftBrace => "\x7b"
  | .rightBrace => "\x7d"
  | .leftBracket => "["
  | .rightBracket => "]"
  | .kwAnd => "and"
  | .kwOr => "or"
  | .kwXor => "xor"
  | .kwNot => "not"
  | .kwBNot => "bnot"
  | .kwBAnd => "band"
  | .kwBOr => "bor"
  | .kwBXor => "bxor"
  | .kwAs => "as"
  | .kwIn => "in"
  | .kwInput => "input"
  | .kwOutput => "output"
  | .kwStatic => "static"
  | .kwMacro => "macro"
  | .kwIf => "if"
  | .kwElse => "else"
  | .kwFor => "for"
  | .kwTo => "to"
  | .kwNoUnroll => "no_unroll"
  | .kwAssert => "assert"
  | .kwReturn => "return"
  | .kwInclude => "include"
  | .kwInline => "inline"

/-- The words that are no names. -/
def TokenKind.keywords : List TokenKind :=
  [.kwAnd, .kwOr, .kwXor, .kwNot, .kwBNot, .kwBAnd, .kwBOr, .kwBXor, .kwAs, .kwIn, .kwInput,
    .kwOutput, .kwStatic, .kwMacro, .kwIf, .kwElse, .kwFor, .kwTo, .kwNoUnroll, .kwAssert,
    .kwReturn, .kwInclude, .kwInline]

/-- The class of a word. -/
def TokenKind.ofWord (word : String) : TokenKind :=
  (keywords.find? (·.text = word)).getD .ident

/-- A token with the place where it starts. -/
structure Token where
  kind : TokenKind
  lexeme : String
  line : Nat
  column : Nat
  offset : Nat
deriving DecidableEq, Repr, Inhabited

namespace Token

/-- Where the token starts. -/
def start (t : Token) : Position := ⟨t.line, t.column, t.offset⟩

/-- The text a token covers. Its end is as many columns further as the lexeme has bytes. -/
def span (t : Token) (file : Int) : Span :=
  let size : Int := t.lexeme.utf8ByteSize
  ⟨file, t.start, ⟨t.line, t.column + size, t.offset + size⟩⟩

end Token

end SignalLang
