import SignalLang.Flat.Print

/-!
# Checking flat programs

`validate` lists what is inconsistent in a program: labels that are placed twice or never, variables that do
not exist or that a stream may not touch, operands that are no single element or out of bounds, and abort
codes outside the error table.
-/

namespace SignalLang.Flat

/-- An inconsistency. -/
inductive Issue where
  | notRuntime (id : VarId) (v : Variable)
  | noSuchField (kind : Interface) (id : VarId)
  | misplacedField (kind : Interface) (id : VarId) (found : Location)
  | labelOutside (l : LabelId) (count : Nat)
  | labelRepeated (l : LabelId) (first : Nat)
  | jumpOutside (l : LabelId) (count : Nat)
  | jumpUnplaced (l : LabelId)
  | notElement (what : String) (o : Operand)
  | wrongRank (what : String) (o : Operand) (selected rank : Nat)
  | outOfBounds (what : String) (o : Operand)
  | targetConstant (o : Operand)
  | targetInput (o : Operand)
  | baseConstant (o : Operand)
  | basePartial (o : Operand)
  | indexCount (o : Operand) (given wanted : Nat)
  | firstIndex (base first : Operand)
  | noSuchVariable (id : VarId)
  | foreignStorage (id : VarId) (location : Location) (stream : Stream)
  | abortOutside (code : Int) (count : Nat)
  | missing

/-- The words for an inconsistency. -/
def Issue.text : Issue → String
  | .notRuntime id v => s!"variable tv{id} has non-runtime type " ++ v.tyText "<nil>"
  | .noSuchField kind id => s!"{kind.text} tv{id} does not exist"
  | .misplacedField kind id found => s!"{kind.text} tv{id} is stored as {found.text}"
  | .labelOutside l count => s!"label l{l} is outside the {count} labels of this stream"
  | .labelRepeated l first => s!"label l{l} is already defined at instruction {first}"
  | .jumpOutside l count => s!"jump to l{l}, outside the {count} labels of this stream"
  | .jumpUnplaced l => s!"jump to l{l}, which is never placed"
  | .notElement what o => s!"{what} {o.text} is not a single element"
  | .wrongRank what o selected rank => s!"{what} {o.text} selects {selected} of {rank} dimensions"
  | .outOfBounds what o => s!"{what} {o.text} is out of bounds"
  | .targetConstant o => s!"destination {o.text} is a literal"
  | .targetInput o => s!"{o.text} is an input and cannot be written"
  | .baseConstant o => s!"indexed base {o.text} is a literal"
  | .basePartial o => s!"indexed base {o.text} is not a whole variable"
  | .indexCount o given wanted => s!"{given} indexes into {o.text}, want {wanted}"
  | .firstIndex base first => s!"first index into {base.text} is {first.text}, want a literal 0"
  | .noSuchVariable id => s!"variable tv{id} does not exist"
  | .foreignStorage id location stream =>
    s!"tv{id} is stored as {location.text} and cannot be used in {stream.text}"
  | .abortOutside code count => s!"abort code {code} is not in the error table of {count} entries"
  | .missing => "unknown instruction <nil>"

/-- An inconsistency, with the instruction it is in. -/
structure ValidationError where
  issue : Issue
  place : Option (Stream × Nat) := none

/-- The one-line form. -/
def ValidationError.message (e : ValidationError) : String :=
  match e.place with
  | some (stream, i) => s!"in {stream.text}, instruction {i}: {e.issue.text}"
  | none => e.issue.text

/-- The words for a program that is not there. -/
def noProgram : String := "program is nil"

namespace Program

/-- Whether a stream may touch a location. -/
def mayTouch : Stream → Location → Bool
  | .staticInit, l => l = .static || l = .staticBody
  | .main, l => l ≠ .staticBody

/-- Issues of the storage of a variable. -/
def checkStorage (p : Program) (s : Stream) (id : VarId) : List Issue :=
  match p.vars[id]? with
  | none => [.noSuchVariable id]
  | some v => if mayTouch s v.location then [] else [.foreignStorage id v.location s]

/-- The lengths of a variable. -/
def dimsOf (p : Program) (id : VarId) : List Int := ((p.vars[id]?).bind (·.ty)).elim [] Ty.dims

/-- Whether a coordinate lies within lengths. -/
def within (coord dims : List Int) : Bool := (coord.zip dims).all fun (c, d) => 0 ≤ c && c < d

/-- Issues of the element of a variable that an operand reads. -/
def checkElement (p : Program) (s : Stream) (what : String) (o : Operand) (id : VarId) (coord : List Int) :
    List Issue :=
  match p.checkStorage s id with
  | [] =>
    let dims := p.dimsOf id
    if coord.length ≠ dims.length then [.wrongRank what o coord.length dims.length]
    else if within coord dims then []
    else [.outOfBounds what o]
  | issues => issues

/-- Issues of an operand that is read. -/
def checkOperand (p : Program) (s : Stream) (what : String) (o : Operand) : List Issue :=
  (if o.isScalar then [] else [.notElement what o]) ++
    match o.viewed with
    | .constant _ => []
    | .variable id coord => p.checkElement s what o id coord

/-- Issues of writing to an input. -/
def checkWritable (p : Program) (o : Operand) : List Issue :=
  match o.viewed with
  | .constant _ => []
  | .variable id _ =>
    if (p.vars[id]?).any (·.location = .input) then [.targetInput o] else []

/-- Issues of an operand that is written. -/
def checkTarget (p : Program) (s : Stream) (o : Operand) : List Issue :=
  match o.viewed with
  | .constant _ => [.targetConstant o]
  | .variable .. => p.checkOperand s "destination" o ++ p.checkWritable o

/-- Whether an operand is a constant written as zero. -/
def isZero (o : Operand) : Bool :=
  match o.viewed with
  | .constant c => c.text = "0"
  | .variable .. => false

/-- Issues of a base with its indexes. -/
def checkIndexed (p : Program) (s : Stream) (base : Operand) (indexes : List Operand) : List Issue :=
  match base.viewed with
  | .constant _ => [.baseConstant base]
  | .variable id coord =>
    (if coord.isEmpty then [] else [.basePartial base]) ++
      match p.checkStorage s id with
      | [] =>
        let wanted := (p.dimsOf id).length + 1
        match indexes with
        | first :: rest =>
          if indexes.length ≠ wanted then [.indexCount base indexes.length wanted]
          else
            (if isZero first then [] else [.firstIndex base first]) ++
              rest.flatMap (p.checkOperand s "index")
        | [] => [.indexCount base 0 wanted]
      | issues => issues

/-- Where each label is placed, and the issues of the labels. A label out of range or placed again does not
count. -/
def placedLabels (count : Nat) : List (Instr × Nat) → List (LabelId × Nat) × List ValidationError →
    Stream → List (LabelId × Nat) × List ValidationError
  | [], acc, _ => acc
  | (.label l, i) :: rest, (placed, errors), s =>
    if l ≥ count then
      placedLabels count rest (placed, errors ++ [⟨.labelOutside l count, some (s, i)⟩]) s
    else
      match placed.lookup l with
      | some first => placedLabels count rest (placed, errors ++ [⟨.labelRepeated l first, some (s, i)⟩]) s
      | none => placedLabels count rest ((l, i) :: placed, errors) s
  | _ :: rest, acc, s => placedLabels count rest acc s

/-- Issues of a jump to a label. -/
def checkJump (count : Nat) (placed : List (LabelId × Nat)) (l : LabelId) : List Issue :=
  if l ≥ count then [.jumpOutside l count]
  else if (placed.lookup l).isSome then []
  else [.jumpUnplaced l]

/-- Issues of an instruction. -/
def checkInstr (p : Program) (s : Stream) (placed : List (LabelId × Nat)) : Instr → List Issue
  | .move source target => p.checkOperand s "source" source ++ p.checkTarget s target
  | .load base indexes target => p.checkIndexed s base indexes ++ p.checkTarget s target
  | .store source base indexes =>
    p.checkOperand s "source" source ++ p.checkIndexed s base indexes ++ p.checkWritable base
  | .unary _ a target => p.checkOperand s "operand" a ++ p.checkTarget s target
  | .binary _ a b target =>
    p.checkOperand s "left operand" a ++ p.checkOperand s "right operand" b ++ p.checkTarget s target
  | .label _ => []
  | .jump l => checkJump (p.labelCount s) placed l
  | .branch condition ifTrue ifFalse =>
    p.checkOperand s "condition" condition ++ checkJump (p.labelCount s) placed ifTrue ++
      checkJump (p.labelCount s) placed ifFalse
  | .abort code =>
    if code < 0 ∨ code ≥ p.errors.size then [.abortOutside code p.errors.size] else []
  | .missing => [.missing]

/-- What is inconsistent in a stream, labels first. -/
def validateStream (p : Program) (s : Stream) : List ValidationError :=
  let instrs := (p.stream s).toList.zipIdx
  let (placed, errors) := placedLabels (p.labelCount s) instrs ([], []) s
  errors ++ instrs.flatMap fun (instr, i) =>
    (p.checkInstr s placed instr).map fun issue => ⟨issue, some (s, i)⟩

/-- Issues of a list of the interface. -/
def checkInterface (p : Program) (kind : Interface) (vars : List VarId) : List Issue :=
  vars.flatMap fun id =>
    match p.vars[id]? with
    | none => [.noSuchField kind id]
    | some v => if v.location = kind.location then [] else [.misplacedField kind id v.location]

/-- Issues of the declarations. -/
def checkDeclarations (p : Program) : List Issue :=
  (p.vars.toList.zipIdx.flatMap fun (v, i) =>
    if v.ty.any Ty.isRuntime then [] else [Issue.notRuntime i v]) ++
    p.checkInterface .input p.inputs ++ p.checkInterface .output p.outputs ++
    p.checkInterface .static p.statics

/-- Everything that is inconsistent in a program. -/
def validate (p : Program) : List ValidationError :=
  (p.checkDeclarations.map fun issue => ⟨issue, none⟩) ++ p.validateStream .staticInit ++
    p.validateStream .main

end Program

end SignalLang.Flat
