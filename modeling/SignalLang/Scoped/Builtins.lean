import SignalLang.Scoped.Basic

/-!
# Predefined names

The outermost scope: the names of types, constants, and one macro for each mathematical function. The body
of such a macro makes its output and assigns the function of its input to it.
-/

namespace SignalLang.Scoped

/-- A type written by the compiler. -/
def typeLiteral (b : Bound) : Expr := .literal (.type b) .builtin

/-- The predefined names with a plain value. -/
def builtinConstants : List (String × Ty × Constant) :=
  [("AUTO", .dataType, .type .auto),
    ("BOOL", .dataType, .type (.exactly .bool)),
    ("INT", .dataType, .type (.exactly .int)),
    ("FLOAT", .dataType, .type (.exactly .float)),
    ("DATA_TYPE", .dataType, .type (.exactly .dataType)),
    ("MACRO", .dataType, .type (.exactly .macroRef)),
    ("PI", .float, .float 3.141592653589793),
    ("TAU", .float, .float 6.283185307179586),
    ("E", .float, .float 2.718281828459045),
    ("TRUE", .bool, .bool true),
    ("FALSE", .bool, .bool false)]

/-- A predefined macro: its name, its input, its output and the operator it applies. -/
structure BuiltinMacro where
  name : String
  input : String
  output : String
  op : UnaryOp

/-- The predefined macros. -/
def builtinMacros : List BuiltinMacro :=
  [⟨"Ftoi", "float", "int", .ftoi⟩,
    ⟨"Itof", "int", "float", .itof⟩,
    ⟨"Sin", "radians", "ratio", .sin⟩,
    ⟨"Cos", "radians", "ratio", .cos⟩,
    ⟨"Sqrt", "value", "result", .sqrt⟩,
    ⟨"Exp", "power", "result", .exp⟩,
    ⟨"Exp2", "power", "result", .exp2⟩,
    ⟨"Log", "value", "power", .log⟩,
    ⟨"Log10", "value", "power", .log10⟩,
    ⟨"Log2", "value", "power", .log2⟩,
    ⟨"Abs", "value", "result", .abs⟩,
    ⟨"Floor", "value", "result", .floor⟩,
    ⟨"Ceil", "value", "result", .ceil⟩,
    ⟨"Trunc", "value", "result", .trunc⟩]

namespace Program

/-- Defines a predefined name. -/
def addConstant (p : Program) (scope : ScopeId) (name : String) (ty : Ty) (value : Constant) : Program :=
  let id := p.vars.size
  (p.define scope ⟨name, .builtin, some value, true⟩).addStmt scope
    (.create id (typeLiteral (.exactly ty)) .builtin)

/-- Defines a predefined macro with its body. -/
def addBuiltinMacro (p : Program) (scope : ScopeId) (m : BuiltinMacro) : Program :=
  let body := p.scopes.size
  let input := p.vars.size
  let output := input + 1
  let p := p.addScope (some scope)
  let p := p.define body ⟨m.input, .builtin, none, false⟩
  let p := p.define body ⟨m.output, .builtin, none, false⟩
  let p := p.addStmt body (.create output (typeLiteral .auto) .builtin)
  let p := p.addStmt body
    (.assign (.mk output [] .builtin) (.unary m.op (.var input .builtin) .builtin) .builtin)
  let p := p.modifyScope body fun s => { s with inputs := [input], outputs := [output] }
  p.addConstant scope m.name .macroRef (.macroRef ⟨body, .builtin⟩)

/-- The program with the predefined names and an empty scope to start in. -/
def initial : Program :=
  let p := ({} : Program).addScope none
  let p := builtinConstants.foldl (fun p (name, ty, value) => p.addConstant 0 name ty value) p
  let p := builtinMacros.foldl (·.addBuiltinMacro 0 ·) p
  let entry := p.scopes.size
  { p.addScope (some 0) with entry := entry }

end Program

end SignalLang.Scoped
