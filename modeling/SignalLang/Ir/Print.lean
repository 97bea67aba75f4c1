import SignalLang.Ir.Basic
import SignalLang.Ir.Numeral

/-!
# Printing LLVM modules
-/

namespace SignalLang.Ir

open Flat (Stream Interface)

/-- The text of a type. -/
def Ty.text : Ty → String
  | .i1 => "i1"
  | .i32 => "i32"
  | .float => "float"
  | .array n t => s!"[{n} x {t.text}]"
  | .struct kind => "%" ++ structName kind
  | .pointer t => t.text ++ "*"

namespace Value

/-- The text of a value without its type. -/
def name : Value → String
  | .bool b => if b then "true" else "false"
  | .int n => intText n
  | .float x => floatText x
  | .param kind => "%" ++ kind.text
  | .register n _ => s!"%{n}"

/-- The text of a value behind its type. -/
def text (v : Value) : String := v.ty.text ++ " " ++ v.name

end Value

/-- The name of an operator. -/
def ArithOp.text : ArithOp → String
  | .add => "add"
  | .sub => "sub"
  | .mul => "mul"
  | .sdiv => "sdiv"
  | .srem => "srem"
  | .fadd => "fadd"
  | .fsub => "fsub"
  | .fmul => "fmul"
  | .fdiv => "fdiv"
  | .frem => "frem"
  | .and => "and"
  | .or => "or"
  | .xor => "xor"
  | .shl => "shl"
  | .ashr => "ashr"

/-- The name of an intrinsic. -/
def Intrinsic.text : Intrinsic → String
  | .sin => "llvm.sin.f32"
  | .cos => "llvm.cos.f32"
  | .sqrt => "llvm.sqrt.f32"
  | .exp => "llvm.exp.f32"
  | .exp2 => "llvm.exp2.f32"
  | .log => "llvm.log.f32"
  | .log10 => "llvm.log10.f32"
  | .log2 => "llvm.log2.f32"
  | .fabs => "llvm.fabs.f32"
  | .floor => "llvm.floor.f32"
  | .ceil => "llvm.ceil.f32"
  | .trunc => "llvm.trunc.f32"
  | .pow => "llvm.pow.f32"

/-- The signed integer comparison for a condition. -/
def intPredicate : Flat.Condition → String
  | .eq => "eq"
  | .ne => "ne"
  | .gt => "sgt"
  | .ge => "sge"
  | .lt => "slt"
  | .le => "sle"

/-- The ordered comparison for a condition. -/
def floatPredicate : Flat.Condition → String
  | .eq => "oeq"
  | .ne => "one"
  | .gt => "ogt"
  | .ge => "oge"
  | .lt => "olt"
  | .le => "ole"

/-- Texts divided by commas. -/
def commas (texts : List String) : String := ", ".intercalate texts

/-- The text of what computes a value. -/
def Op.text : Op → String
  | .alloca ty => s!"alloca {ty.text}"
  | .load ty source => s!"load {ty.text}, {source.text}"
  | .address ty base indexes _ =>
    "getelementptr " ++ commas (ty.text :: base.text :: indexes.map Value.text)
  | .arith op a b => s!"{op.text} {a.text}, {b.name}"
  | .fneg a => s!"fneg {a.text}"
  | .icmp c a b => s!"icmp {intPredicate c} {a.text}, {b.name}"
  | .fcmp c a b => s!"fcmp {floatPredicate c} {a.text}, {b.name}"
  | .select condition a b => s!"select {condition.text}, {a.text}, {b.text}"
  | .intToFloat a => s!"sitofp {a.text} to float"
  | .floatToInt a => s!"fptosi {a.text} to i32"
  | .call f args => s!"call float @{f.text}(" ++ commas (args.map Value.text) ++ ")"

/-- The text of an instruction. -/
def Instr.text : Instr → String
  | .define n op => s!"%{n} = {op.text}"
  | .store value target => s!"store {value.text}, {target.text}"

/-- The text of a block's name. -/
def BlockName.text : BlockName → String
  | .entry => "entry"
  | .label l => s!"l{l}"
  | .number n => toString n

/-- The text of a terminator. -/
def Terminator.text : Terminator → String
  | .jump target => s!"br label %{target.text}"
  | .branch condition ifTrue ifFalse =>
    s!"br {condition.text}, label %{ifTrue.text}, label %{ifFalse.text}"
  | .ret code => s!"ret i32 {intText code}"

/-- The lines of a block. -/
def Block.text (b : Block) : String :=
  b.name.text ++ ":\n" ++ String.join (b.body.toList.map fun i => "\t" ++ i.text ++ "\n") ++
    "\t" ++ b.terminator.text ++ "\n"

/-- The definition of the function of a stream. -/
def functionText (s : Stream) (blocks : List Block) : String :=
  let params := (params s).map fun kind => (Value.param kind).text
  s!"define i32 @{s.text}(" ++ commas params ++ ") \x7b\n" ++
    "\n".intercalate (blocks.map Block.text) ++ "\x7d\n"

/-- The declaration of an intrinsic. -/
def Intrinsic.declaration (f : Intrinsic) : String :=
  s!"declare float @{f.text}(" ++ commas ((List.range f.arity).map fun i => s!"float %{i}") ++ ")\n"

/-- Characters between quotes: all bytes but the printable ASCII ones are hexadecimal, as are the quote and
the backslash. -/
def byteText (b : UInt8) : List Char :=
  let c := Char.ofNat b.toNat
  if 32 ≤ b.toNat ∧ b.toNat < 127 ∧ c ≠ '"' ∧ c ≠ '\\' then [c]
  else '\\' :: (if b.toNat < 16 then '0' :: hexDigits b.toNat else hexDigits b.toNat)

/-- The bytes of a text between quotes. -/
def quotedText (s : String) : String :=
  "\"" ++ String.ofList (s.toUTF8.toList.flatMap byteText) ++ "\""

/-- The constant for an entry of the error table. -/
def errorText (i : Nat) (s : String) : String :=
  s!"@error.{i} = constant [{s.utf8ByteSize + 1} x i8] c" ++ quotedText (s ++ "\x00") ++ "\n"

/-- The definition of the struct of an interface list. -/
def structText (kind : Interface) (fields : List Ty) : String :=
  let body := if fields.isEmpty then "" else " " ++ commas (fields.map Ty.text) ++ " "
  s!"%{structName kind} = type <\x7b{body}\x7d>\n"

/-- The text of a module: sections that have something, divided by blank lines. -/
def Module.text (m : Module) : String :=
  let head :=
    (if m.name.isEmpty then "" else "source_filename = " ++ quotedText m.name ++ "\n") ++
      (if m.triple.isEmpty then "" else "target triple = " ++ quotedText m.triple ++ "\n")
  let structs :=
    String.join ([Interface.input, .output, .static].map fun kind => structText kind (m.fields kind))
  let errors := String.join (m.errors.zipIdx.map fun (s, i) => errorText i s)
  let functions :=
    functionText .staticInit m.staticInit :: functionText .main m.main ::
      m.intrinsics.map Intrinsic.declaration
  "\n".intercalate (([head, structs, errors].filter (!·.isEmpty)) ++ functions)

end SignalLang.Ir
