import SignalLang.LongWord
import SignalLang.Real
import SignalLang.Text.Quoted
import SignalLang.Yaml.Read

/-!
# Decoding YAML into records

A decoder changes a value by a node and lists what did not fit. Nothing at all fits everything: a null
leaves a value as it is.
-/

namespace SignalLang.Yaml

/-- Something that does not fit. -/
inductive Issue where
  | unknownField (line : Nat) (name type : String)
  | repeatedKey (line : Nat) (name : String) (first : Nat)
  | wrongKind (line : Nat) (tag value type : String)
deriving DecidableEq, Repr

/-- The words for an issue. -/
def Issue.text : Issue → String
  | .unknownField line name type => s!"line {line}: field {name} not found in type {type}"
  | .repeatedKey line name first =>
    s!"line {line}: mapping key " ++ Text.quote name ++ s!" already defined at line {first}"
  | .wrongKind line tag value type => s!"line {line}: cannot unmarshal {tag}{value} into {type}"

/-- Why a text could not be decoded. -/
inductive DecodeError where
  | read (e : ReadError)
  | unfit (issues : List Issue)

/-- The words for an error. -/
def DecodeError.message : DecodeError → String
  | .read e => e.message
  | .unfit issues => "yaml: unmarshal errors:\n  " ++ "\n  ".intercalate (issues.map Issue.text)

/-- Changes a value by a node, and lists what did not fit. -/
abbrev Decoder (α : Type) := Node → α → α × List Issue

/-- The value of a scalar as an issue shows it: long ones are cut. -/
def shownValue (value : String) : String :=
  if value.utf8ByteSize > 10 then
    " `" ++ Text.lossyText ((Text.bytesOf value).take 7) ++ "...`"
  else " `" ++ value ++ "`"

/-- The issue of a node that is not of a type. -/
def wrongKind (type : String) : Node → Issue
  | .scalar line value plain => .wrongKind line (scalarOf value plain).tag (shownValue value) type
  | .sequence line _ => .wrongKind line "!!seq" "" type
  | .mapping line _ => .wrongKind line "!!map" "" type

/-- Decodes a scalar by what it stands for; a null changes nothing. -/
def scalar {α : Type} (type : String) (convert : (value : String) → Scalar → Option α) : Decoder α
  | n@(.scalar _ value plain), a =>
    match scalarOf value plain with
    | .null => (a, [])
    | s =>
      match convert value s with
      | some b => (b, [])
      | none => (a, [wrongKind type n])
  | n, a => (a, [wrongKind type n])

/-- Any scalar, as it is written. -/
def string : Decoder String := scalar "string" fun value _ => some value

/-- A truth value, also in the older spellings. -/
def bool : Decoder Bool :=
  scalar "bool" fun _ s =>
    match s with
    | .bool b => some b
    | .text "y" | .text "Y" | .text "yes" | .text "on" => some true
    | .text "n" | .text "N" | .text "no" | .text "off" => some false
    | _ => none

/-- The whole part of a number, if it is a signed 64-bit word. -/
def wholePart? (x : Float) : Option Int :=
  (Real.truncated? x).filter LongWord.inRange

/-- An integer; a fraction loses its places. -/
def int : Decoder Int :=
  scalar "int" fun _ s =>
    match s with
    | .int n => if LongWord.inRange n then some n else none
    | .float x => wholePart? x
    | _ => none

/-- A value that may be missing. -/
def optional {α : Type} (start : α) (d : Decoder α) : Decoder (Option α)
  | n, a =>
    if n.isNull then (none, [])
    else
      let (b, issues) := d n (a.getD start)
      (some b, issues)

/-- The items of a sequence; a null is no item. -/
def list {α : Type} (type : String) (start : α) (d : Decoder α) : Decoder (List α)
  | .sequence _ items, _ =>
    let results := (items.filter (!·.isNull)).map fun n => d n start
    (results.map (·.1), results.flatMap (·.2))
  | n, a => if n.isNull then ([], []) else (a, [wrongKind type n])

/-- The keys of a mapping that stand there again. -/
def repeatedKeys : List ((Nat × String) × Node) → List Issue
  | [] => []
  | ((line, name), _) :: rest =>
    (rest.filterMap fun ((again, other), _) =>
      if other = name then some (Issue.repeatedKey again name line) else none) ++ repeatedKeys rest

/-- The entries of a mapping of texts. -/
def textMap (type : String) : Decoder (List (String × String))
  | .mapping _ entries, a =>
    match repeatedKeys entries with
    | [] =>
      let results := entries.map fun ((_, name), n) =>
        let (value, issues) := string n ""
        ((name, value), issues)
      (a ++ results.map (·.1), results.flatMap (·.2))
    | issues => (a, issues)
  | n, a => if n.isNull then ([], []) else (a, [wrongKind type n])

/-- A record. `field` gives the decoder of each of its fields. -/
def record {α : Type} (type : String) (field : String → Option (Decoder α)) : Decoder α
  | .mapping _ entries, a =>
    match repeatedKeys entries with
    | [] =>
      entries.foldl (fun (acc : α × List Issue) ((line, name), n) =>
        match field name with
        | some d =>
          let (b, issues) := d n acc.1
          (b, acc.2 ++ issues)
        | none => (acc.1, acc.2 ++ [.unknownField line name type])) (a, [])
    | issues => (a, issues)
  | n, a => (a, if n.isNull then [] else [wrongKind type n])

/-- Decodes a part of a record. -/
def part {α β : Type} (get : α → β) (set : β → α → α) (d : Decoder β) : Decoder α :=
  fun n a =>
    let (b, issues) := d n (get a)
    (set b a, issues)

/-- Decodes a text. -/
def decode {α : Type} (d : Decoder α) (start : α) (s : String) : Except DecodeError α :=
  match read s with
  | .error e => .error (.read e)
  | .ok n =>
    match d n start with
    | (a, []) => .ok a
    | (_, issues) => .error (.unfit issues)

end SignalLang.Yaml
