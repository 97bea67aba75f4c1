import SignalLang.Decimal.Read
import SignalLang.Text.Integer

/-!
# YAML documents

The nodes of a document, each with the line it starts on, and what a plain scalar stands for.
-/

namespace SignalLang.Yaml

/-- A node. A scalar that was written in quotes or as a block is always a text. -/
inductive Node where
  | scalar (line : Nat) (value : String) (plain : Bool)
  | sequence (line : Nat) (items : List Node)
  /-- Keys with the lines they stand on, and their values. -/
  | mapping (line : Nat) (entries : List ((Nat × String) × Node))
deriving Inhabited

/-- What a scalar stands for. An integer fits 64 bits, with or without a sign. -/
inductive Scalar where
  | null
  | bool (b : Bool)
  | int (n : Int)
  | float (x : Float)
  | text (s : String)
deriving Inhabited

/-- A scalar that was left out, on a line. -/
def Node.absent (line : Nat) : Node := .scalar line "" true

/-- The line a node starts on. -/
def Node.line : Node → Nat
  | .scalar line _ _ | .sequence line _ | .mapping line _ => line

/-- Whether a text has the form of a decimal fraction. -/
def isFraction (s : String) : Bool :=
  let cs :=
    match s.toList with
    | '-' :: cs | '+' :: cs => cs
    | cs => cs
  (cs.head?.any fun c => c.isDigit || c = '.') && (Decimal.unsigned? cs).isSome

/-- What a plain scalar stands for. -/
def Scalar.ofPlain (s : String) : Scalar :=
  match s with
  | "" | "~" | "null" | "Null" | "NULL" => .null
  | "true" | "True" | "TRUE" => .bool true
  | "false" | "False" | "FALSE" => .bool false
  | ".inf" | ".Inf" | ".INF" | "+.inf" | "+.Inf" | "+.INF" => .float (1.0 / 0.0)
  | "-.inf" | "-.Inf" | "-.INF" => .float (-1.0 / 0.0)
  | ".nan" | ".NaN" | ".NAN" => .float (0.0 / 0.0)
  | _ =>
    let digits := String.ofList (s.toList.filter (· ≠ '_'))
    if !(s.toList.head?.any fun c => c.isDigit || c = '-' || c = '+' || c = '.') then .text s
    else
      match Text.integer digits with
      | .ok n => .int n
      | .error _ =>
        match (Text.unsigned? digits.toList).filter (· ≤ LongWord.unsigned (-1)) with
        | some n => .int n
        | none =>
          match if isFraction digits then Decimal.parse? digits else none with
          | some x => .float x
          | none => .text s

/-- The tag of what a scalar stands for. -/
def Scalar.tag : Scalar → String
  | .null => "!!null"
  | .bool _ => "!!bool"
  | .int _ => "!!int"
  | .float _ => "!!float"
  | .text _ => "!!str"

/-- What the scalar of a node stands for. -/
def scalarOf (value : String) (plain : Bool) : Scalar := if plain then .ofPlain value else .text value

/-- Whether a node is a null. -/
def Node.isNull : Node → Bool
  | .scalar _ value plain =>
    match scalarOf value plain with
    | .null => true
    | _ => false
  | _ => false

end SignalLang.Yaml
