import SignalLang.Text.Printable

/-!
# Quoted text

`quote` writes a text between double quotes and escapes what is not printable; `unquote?` reads such a
text back. Numeric escapes can produce any byte, so what is read is a list of bytes, and quoting bytes
escapes those that belong to no character.
-/

namespace SignalLang.Text

/-- The bytes of a text. -/
def bytesOf (s : String) : List UInt8 := s.toUTF8.toList

/-- `n` in lower-case hexadecimal, at least `width` digits. -/
def hexDigits (width n : Nat) : String :=
  let ds := Nat.toDigits 16 n
  String.ofList (List.replicate (width - ds.length) '0' ++ ds)

/-- One character between double quotes. -/
def quoteChar (c : Char) : String :=
  match c with
  | '"' => "\\\""
  | '\\' => "\\\\"
  | '\n' => "\\n"
  | '\r' => "\\r"
  | '\t' => "\\t"
  | c =>
    if isPrintable c then c.toString
    else if c.toNat = 0x07 then "\\a"
    else if c.toNat = 0x08 then "\\b"
    else if c.toNat = 0x0C then "\\f"
    else if c.toNat = 0x0B then "\\v"
    else if c.toNat < 0x20 ∨ c.toNat = 0x7F then "\\x" ++ hexDigits 2 c.toNat
    else if c.toNat < 0x10000 then "\\u" ++ hexDigits 4 c.toNat
    else "\\U" ++ hexDigits 8 c.toNat

/-- A text between double quotes. -/
def quote (s : String) : String :=
  "\"" ++ String.join (s.toList.map quoteChar) ++ "\""

/-- The number of bytes of the character a lead byte starts. -/
def sequenceLength (b : UInt8) : Nat :=
  if b < 0x80 then 1 else if b < 0xE0 then 2 else if b < 0xF0 then 3 else 4

/-- The character at the front of a list of bytes, if a whole one stands there. -/
def leadingChar? (bytes : List UInt8) : Option Char :=
  match bytes with
  | [] => none
  | b :: _ =>
    match String.fromUTF8? ⟨(bytes.take (sequenceLength b)).toArray⟩ with
    | some s => s.toList.head?
    | none => none

/-- The characters of a list of bytes; a byte that belongs to none stands alone. -/
def decodeBytes (bytes : List UInt8) : List (Char ⊕ UInt8) :=
  match bytes with
  | [] => []
  | b :: rest =>
    match leadingChar? (b :: rest) with
    | some c => .inl c :: decodeBytes (rest.drop (c.utf8Size - 1))
    | none => .inr b :: decodeBytes rest
termination_by bytes.length
decreasing_by
  · simp only [List.length_drop, List.length_cons]; omega
  · simp

/-- Bytes between double quotes; a byte that belongs to no character is escaped. -/
def quoteBytes (bytes : List UInt8) : String :=
  let part : Char ⊕ UInt8 → String
    | .inl c => quoteChar c
    | .inr b => "\\x" ++ hexDigits 2 b.toNat
  "\"" ++ String.join ((decodeBytes bytes).map part) ++ "\""

/-- The text of the bytes, with a replacement character for what is no character. -/
def lossyText (bytes : List UInt8) : String :=
  String.ofList ((decodeBytes bytes).map fun
    | .inl c => c
    | .inr _ => Char.ofNat 0xFFFD)

/-- The value of a hexadecimal digit. -/
def hexValue? (c : Char) : Option Nat :=
  if c.isDigit then some (c.toNat - '0'.toNat)
  else if 'a' ≤ c ∧ c ≤ 'f' then some (c.toNat - 'a'.toNat + 10)
  else if 'A' ≤ c ∧ c ≤ 'F' then some (c.toNat - 'A'.toNat + 10)
  else none

/-- The number that `cs` writes in hexadecimal. -/
def hexNumber? (cs : List Char) : Option Nat :=
  cs.foldl (fun acc c => do return (← acc) * 16 + (← hexValue? c)) (some 0)

/-- The value of an octal digit. -/
def octalValue? (c : Char) : Option Nat :=
  if '0' ≤ c ∧ c ≤ '7' then some (c.toNat - '0'.toNat) else none

/-- The bytes of a code point, if it is one. -/
def codePointBytes? (n : Nat) : Option (List UInt8) :=
  if n.isValidChar then some (bytesOf (Char.ofNat n).toString) else none

/-- What an escape stands for, given the characters after the backslash: its bytes and how many
characters it took. -/
def escape? : List Char → Option (List UInt8 × Nat)
  | 'a' :: _ => some ([0x07], 1)
  | 'b' :: _ => some ([0x08], 1)
  | 'f' :: _ => some ([0x0C], 1)
  | 'n' :: _ => some ([0x0A], 1)
  | 'r' :: _ => some ([0x0D], 1)
  | 't' :: _ => some ([0x09], 1)
  | 'v' :: _ => some ([0x0B], 1)
  | '\\' :: _ => some ([0x5C], 1)
  | '"' :: _ => some ([0x22], 1)
  | 'x' :: a :: b :: _ => do return ([(← hexNumber? [a, b]).toUInt8], 3)
  | 'u' :: a :: b :: c :: d :: _ => do
    let bytes ← codePointBytes? (← hexNumber? [a, b, c, d])
    return (bytes, 5)
  | 'U' :: a :: b :: c :: d :: e :: f :: g :: h :: _ => do
    let bytes ← codePointBytes? (← hexNumber? [a, b, c, d, e, f, g, h])
    return (bytes, 9)
  | a :: b :: c :: _ => do
    let n := (← octalValue? a) * 64 + (← octalValue? b) * 8 + (← octalValue? c)
    if n < 256 then some ([n.toUInt8], 3) else none
  | _ => none

/-- The bytes written up to the closing quote, which must be the last character. -/
def unquoteTail? (cs : List Char) : Option (List UInt8) :=
  match cs with
  | [] => none
  | ['"'] => some []
  | '"' :: _ => none
  | '\n' :: _ => none
  | '\\' :: rest =>
    match escape? rest with
    | none => none
    | some (bytes, used) => (unquoteTail? (rest.drop used)).map (bytes ++ ·)
  | c :: rest => (unquoteTail? rest).map (bytesOf c.toString ++ ·)
termination_by cs.length
decreasing_by
  · simp only [List.length_drop, List.length_cons]; omega
  · simp

/-- The bytes of a quoted text. -/
def unquote? (s : String) : Option (List UInt8) :=
  match s.toList with
  | '"' :: rest => unquoteTail? rest
  | _ => none

end SignalLang.Text
