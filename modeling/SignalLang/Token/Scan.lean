import SignalLang.Token.Basic
import SignalLang.Text.Letter

/-!
# Scanning source text

`Token.scan` cuts a text into items: tokens, and blanks and comments between them. `itemAt` decides how
many characters the item at the front takes, so the items of a text are consecutive pieces of it.
Strings and block comments that are never closed are the only failures; a character that starts no token
becomes an `invalid` token.
-/

namespace SignalLang

namespace Token

/-- A place while scanning. -/
structure Cursor where
  line : Nat := 1
  column : Nat := 1
  offset : Nat := 0
deriving DecidableEq, Repr, Inhabited

/-- Moves behind one character of the same line. -/
def Cursor.skip (p : Cursor) (c : Char) : Cursor :=
  { p with column := p.column + 1, offset := p.offset + c.utf8Size }

/-- Moves behind one character; a newline starts the next line. -/
def Cursor.step (p : Cursor) (c : Char) : Cursor :=
  if c = '\n' then ⟨p.line + 1, 1, p.offset + c.utf8Size⟩ else p.skip c

/-- Why scanning failed. -/
inductive ScanFault where
  | unterminatedComment
  | unterminatedString
deriving DecidableEq, Repr

/-- The text of a fault. -/
def ScanFault.text : ScanFault → String
  | .unterminatedComment => "unterminated block comment"
  | .unterminatedString => "unterminated string literal"

/-- A fault with the place where the unclosed item starts. -/
structure ScanError where
  fault : ScanFault
  place : Cursor
deriving DecidableEq, Repr

/-- The one-line form of a scan error. -/
def ScanError.message (e : ScanError) : String :=
  s!"line {e.place.line}, column {e.place.column}: {e.fault.text}"

/-- The item at the front of a text: a token class, or none for blanks and comments, and the number of
characters behind the first. -/
structure Item where
  kind : Option TokenKind
  extra : Nat
deriving DecidableEq, Repr

/-- A token of `1 + extra` characters. -/
def Item.token (kind : TokenKind) (extra : Nat) : Item := ⟨some kind, extra⟩

/-- A token of one character. -/
def Item.single (kind : TokenKind) : Item := ⟨some kind, 0⟩

/-- A digit or a separator between digits. -/
def isDigitPart (c : Char) : Bool := c.isDigit || c = '_'

/-- A hexadecimal digit or a separator between digits. -/
def isHexPart (c : Char) : Bool :=
  isDigitPart c || ('a' ≤ c && c ≤ 'f') || ('A' ≤ c && c ≤ 'F')

/-- A character that continues a name. -/
def isNamePart (c : Char) : Bool := Text.isLetter c || c.isDigit || c = '_'

/-- The number of leading digits. -/
def digitRun (cs : List Char) : Nat := (cs.takeWhile isDigitPart).length

/-- The size of an exponent at the front: a mark, then a digit or a sign. -/
def exponentSize : List Char → Nat
  | mark :: next :: rest =>
    if mark = 'e' ∨ mark = 'E' then
      if next = '+' ∨ next = '-' then 2 + digitRun rest
      else if next.isDigit then 1 + digitRun (next :: rest)
      else 0
    else 0
  | _ => 0

/-- The size of a fraction at the front: a point, then a digit. -/
def fractionSize : List Char → Nat
  | '.' :: d :: rest => if d.isDigit then 1 + digitRun (d :: rest) else 0
  | _ => 0

/-- A decimal number whose first character, a digit or a point, stands before `cs`. -/
def decimalItem (first : Char) (cs : List Char) : Item :=
  let whole := digitRun cs
  let fraction := if first = '.' then 0 else fractionSize (cs.drop whole)
  let exponent := exponentSize (cs.drop (whole + fraction))
  let kind :=
    if first = '.' ∨ fraction > 0 ∨ exponent > 0 then TokenKind.floatLiteral else .intLiteral
  .token kind (whole + fraction + exponent)

/-- Whether a character after a leading zero chooses a base. -/
def isBaseMark (c : Char) : Bool := ['x', 'X', 'o', 'O', 'b', 'B'].contains c

/-- A number whose first character stands before `cs`. -/
def numberItem (first : Char) (cs : List Char) : Item :=
  match cs with
  | mark :: rest =>
    if first = '0' ∧ isBaseMark mark then .token .intLiteral (1 + (rest.takeWhile isHexPart).length)
    else decimalItem first cs
  | [] => decimalItem first cs

/-- The number of characters up to the end of a block comment of the given depth. -/
def commentSize (depth : Nat) (cs : List Char) : Option Nat :=
  match depth, cs with
  | 0, _ => some 0
  | _ + 1, [] => none
  | depth + 1, '/' :: '*' :: rest => (commentSize (depth + 2) rest).map (· + 2)
  | depth + 1, '*' :: '/' :: rest => (commentSize depth rest).map (· + 2)
  | depth + 1, _ :: rest => (commentSize (depth + 1) rest).map (· + 1)
termination_by cs.length

/-- The number of characters up to and with the closing quote. A backslash takes the next character
along, whatever it is. -/
def stringSize (cs : List Char) : Option Nat :=
  match cs with
  | [] => none
  | '"' :: _ => some 1
  | '\n' :: _ => none
  | '\\' :: _ :: rest => (stringSize rest).map (· + 2)
  | _ :: rest => (stringSize rest).map (· + 1)
termination_by cs.length

/-- The longer of two operators, if the next character completes it. -/
def pairItem (second : Char) (pair alone : TokenKind) (cs : List Char) : Item :=
  if cs.head? = some second then .token pair 1 else .single alone

/-- The item that starts with `c` and goes on in `cs`. -/
def itemAt (c : Char) (cs : List Char) : Except ScanFault Item :=
  match c with
  | '(' => .ok (.single .leftParen)
  | ')' => .ok (.single .rightParen)
  | '\x7b' => .ok (.single .leftBrace)
  | '\x7d' => .ok (.single .rightBrace)
  | '[' => .ok (.single .leftBracket)
  | ']' => .ok (.single .rightBracket)
  | ',' => .ok (.single .comma)
  | ':' => .ok (.single .colon)
  | ';' => .ok (.single .semicolon)
  | '?' => .ok (.single .question)
  | '+' => .ok (.single .plus)
  | '-' => .ok (.single .minus)
  | '%' => .ok (.single .percent)
  | '.' => .ok (if cs.head?.any Char.isDigit then numberItem '.' cs else .single .dot)
  | '*' => .ok (pairItem '*' .starStar .star cs)
  | '/' =>
    match cs with
    | '/' :: rest => .ok ⟨none, 1 + (rest.takeWhile (· ≠ '\n')).length⟩
    | '*' :: rest =>
      match commentSize 1 rest with
      | some n => .ok ⟨none, 1 + n⟩
      | none => .error .unterminatedComment
    | _ => .ok (.single .slash)
  | '=' => .ok (pairItem '=' .equal .assign cs)
  | '!' => .ok (pairItem '=' .notEqual .invalid cs)
  | '<' => .ok (if cs.head? = some '<' then .token .shiftLeft 1 else pairItem '=' .lessEqual .less cs)
  | '>' =>
    .ok (if cs.head? = some '>' then .token .shiftRight 1 else pairItem '=' .greaterEqual .greater cs)
  | '"' =>
    match stringSize cs with
    | some n => .ok (.token .stringLiteral n)
    | none => .error .unterminatedString
  | ' ' | '\r' | '\t' | '\n' => .ok ⟨none, 0⟩
  | c =>
    if c.isDigit then .ok (numberItem c cs)
    else if Text.isLetter c ∨ c = '_' then
      let tail := cs.takeWhile isNamePart
      .ok (.token (.ofWord (String.ofList (c :: tail))) tail.length)
    else .ok (.single .invalid)

/-- Moves behind an item. Newlines inside a token do not count as lines. -/
def Cursor.pass (p : Cursor) (kind : Option TokenKind) (chars : List Char) : Cursor :=
  if kind.isSome then chars.foldl skip p else chars.foldl step p

/-- The tokens of `cs`, which stands at `p`. -/
def scanFrom (p : Cursor) (cs : List Char) : Except ScanError (List Token) :=
  match cs with
  | [] => .ok [⟨.endOfFile, "", p.line, p.column, p.offset⟩]
  | c :: rest =>
    match itemAt c rest with
    | .error fault => .error ⟨fault, p⟩
    | .ok item =>
      let chars := c :: rest.take item.extra
      match scanFrom (p.pass item.kind chars) (rest.drop item.extra) with
      | .error e => .error e
      | .ok tokens =>
        match item.kind with
        | none => .ok tokens
        | some kind => .ok (⟨kind, String.ofList chars, p.line, p.column, p.offset⟩ :: tokens)
termination_by cs.length
decreasing_by simp only [List.length_drop, List.length_cons]; omega

/-- The tokens of a text; the last one is the end of the file. -/
def scan (source : String) : Except ScanError (List Token) := scanFrom {} source.toList

end Token

end SignalLang
