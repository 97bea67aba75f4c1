import SignalLang.Flat.Operand

/-!
# Printing flat programs
-/

namespace SignalLang.Flat

/-- Operands in brackets. -/
def indexesText (indexes : List Operand) : String := String.join (indexes.map fun i => "[" ++ i.text ++ "]")

/-- The text of an instruction. -/
def Instr.text : Instr → String
  | .move source target => s!"move {source.text} -> {target.text}"
  | .load base indexes target => s!"load ({base.text}){indexesText indexes} -> {target.text}"
  | .store source base indexes => s!"store {source.text} -> ({base.text}){indexesText indexes}"
  | .unary op a target => s!"{op.text} {a.text} -> {target.text}"
  | .binary op a b target => s!"{op.text} {a.text}, {b.text} -> {target.text}"
  | .label l => s!"l{l}:"
  | .jump l => s!"jump l{l}"
  | .branch condition ifTrue ifFalse => s!"if {condition.text} jump l{ifTrue} else l{ifFalse}"
  | .abort code => s!"abort {code}"
  | .missing => "<nil>"

/-- The line of an instruction; labels stand out to the left. -/
def Instr.line (i : Instr) : String :=
  match i with
  | .label _ => " " ++ i.text ++ "\n"
  | _ => "    " ++ i.text ++ "\n"

/-- The type of a variable, where it has one. -/
def Variable.tyText (v : Variable) (none : String) : String := v.ty.elim none (·.text)

/-- The text of a program. -/
def Program.text (p : Program) : String :=
  let row (v : Variable) (i : Nat) : String :=
    s!"  tv{i}: " ++ v.tyText "%!s(<nil>)" ++ s!" {v.location.text}\n"
  let list (word : String) (vars : List VarId) : String :=
    word ++ ":" ++ String.join (vars.map fun v => s!" tv{v}") ++ "\n"
  let stream (word : String) (is : Array Instr) : String :=
    word ++ ":\n" ++ String.join (is.toList.map Instr.line)
  "variables:\n" ++ String.join (p.vars.toList.zipIdx.map fun (v, i) => row v i) ++
    list "statics" p.statics ++ list "inputs" p.inputs ++ list "outputs" p.outputs ++
    s!"labels: {p.staticLabels} static, {p.mainLabels} main\n" ++
    "errors:\n" ++ String.join (p.errors.toList.zipIdx.map fun (e, i) => s!"  {i}: {e}\n") ++
    stream "static_init" p.staticInit ++ stream "main" p.main

end SignalLang.Flat
