import SignalLang.Problem
import SignalLang.Token.Basic

/-!
# Reading tokens

A parser reads a `Stream`: the tokens that are left, the last of which is the end of the file, and the
token read before them. A parser that fails leaves the stream where it stopped, so that reading can go on
behind the mistake.
-/

namespace SignalLang.Tree

/-- Why a parser stopped. -/
inductive Fault where
  | expected (want got : TokenKind)
  | unexpected (got : TokenKind)
  | invalidInt (lexeme : String)
  | invalidFloat (lexeme : String)
  | invalidString (lexeme : String)
  | invalidTarget
  | invalidOutput
  /-- The bound on nested calls was too small. -/
  | tooDeep
deriving DecidableEq, Repr

/-- The text of a fault. -/
def Fault.text : Fault → String
  | .expected want got => s!"expected {want.text}, got {got.text}"
  | .unexpected got => s!"unexpected {got.text} in expression"
  | .invalidInt lexeme => s!"invalid integer literal {lexeme}"
  | .invalidFloat lexeme => s!"invalid float literal {lexeme}"
  | .invalidString lexeme => s!"invalid string literal {lexeme}"
  | .invalidTarget => "invalid assignment target"
  | .invalidOutput => "macro output must be a variable, an indexed variable or a declaration"
  | .tooDeep => "nesting too deep"

/-- A fault at a token of a file. -/
structure ParseError where
  fault : Fault
  token : Token
  file : Int
deriving DecidableEq, Repr

/-- The one-line form of a parse error. -/
def ParseError.message (e : ParseError) : String :=
  s!"line {e.token.line}, column {e.token.column}: {e.fault.text}"

/-- A parse error as a problem. -/
def ParseError.problem (e : ParseError) : Problem :=
  .error .syntaxError (e.token.span e.file) e.fault.text

/-- The tokens of a file that are still to be read. -/
structure Stream where
  file : Int
  previous : Option Token
  rest : List Token
deriving Repr

namespace Stream

/-- The next token. -/
def peek (s : Stream) : Token := s.rest.headD ⟨.endOfFile, "", 0, 0, 0⟩

/-- Whether only the end of the file is left. -/
def atEnd (s : Stream) : Bool := s.peek.kind = .endOfFile

/-- Moves behind the next token; the end of the file is never passed. -/
def advance (s : Stream) : Stream :=
  if s.atEnd then s else { s with previous := some s.peek, rest := s.rest.tail }

/-- The text from a token to the last one read. -/
def spanFrom (s : Stream) (start : Token) : Span :=
  match s.previous with
  | some t => (start.span s.file).union (t.span s.file)
  | none => start.span s.file

end Stream

/-- A parser of `α`. -/
abbrev Parse := ExceptT ParseError (StateM Stream)

namespace Parse

/-- The next token, which stays unread. -/
def peek : Parse Token := return (← get).peek

/-- The token after the next. -/
def peekSecond : Parse Token := do
  let s ← get
  return (s.rest.tail.head?).getD s.peek

/-- Reads the next token. -/
def advance : Parse Token := do
  let t ← peek
  modify Stream.advance
  return t

/-- Whether the next token is of a class. -/
def check (kind : TokenKind) : Parse Bool := return (← peek).kind = kind

/-- Whether only the end of the file is left. -/
def atEnd : Parse Bool := return (← get).atEnd

/-- Reads a token of a class, if it is the next. -/
def accept (kind : TokenKind) : Parse Bool := do
  if ← check kind then
    modify Stream.advance
    return true
  else return false

/-- Stops at a token. -/
def fail {α : Type} (token : Token) (fault : Fault) : Parse α := do
  throw ⟨fault, token, (← get).file⟩

/-- Reads a token of a class, which must be the next. -/
def expect (kind : TokenKind) : Parse Unit := do
  let t ← peek
  if t.kind = kind then modify Stream.advance else fail t (.expected kind t.kind)

/-- The text of a token. -/
def spanOf (token : Token) : Parse Span := return token.span (← get).file

/-- The text from a token to the last one read. -/
def spanFrom (start : Token) : Parse Span := return (← get).spanFrom start

/-- Runs a parser that may fail or find nothing; the stream is then as before. -/
def attempt {α : Type} (p : Parse (Option α)) : Parse (Option α) := fun s =>
  match p.run s with
  | (.ok (some a), s') => (.ok (some a), s')
  | _ => (.ok none, s)

end Parse

end SignalLang.Tree
