import SignalLang.Scoped.Builtins
import SignalLang.Scoped.Problems
import SignalLang.Text.Resemblance
import SignalLang.Tree.Parse

/-!
# Building scoped programs

`build` resolves the names of a tree and makes its scopes, variables and statements. The statements of an
included file are built where the include stands, unless the file is being built already in an open scope.

Files that are loaded for an include stay in the library, also when building fails later.
-/

namespace SignalLang.Scoped

/-- Why a program could not be built. -/
inductive BuildError where
  | problem (p : Problem)
  | source (e : Tree.SourceError)
  | load (e : Library.LoadError)

namespace BuildError

/-- The one-line form. -/
def message : BuildError → String
  | .problem p => p.message
  | .source e => e.message
  | .load e => e.message

/-- The problem behind the error, if there is one. -/
def problem? : BuildError → Option Problem
  | .problem p => some p
  | .source e => some e.problem
  | .load _ => none

end BuildError

/-- What is known while building. `included` lists the files taken in by each open scope, the innermost
first. -/
structure Builder where
  library : Library
  program : Program
  current : ScopeId
  included : List (List Nat)
  macroDepth : Nat := 0

/-- A step of building. It may fail, and the library is kept all the same. -/
abbrev Build := ExceptT BuildError (StateM Builder)

namespace Build

/-- Stops with a problem. -/
def refuse {α : Type} (p : Problem) : Build α := throw (.problem p)

/-- Changes the program. -/
def change (f : Program → Program) : Build Unit := modify fun b => { b with program := f b.program }

/-- Appends a statement to the current scope. -/
def emit (stmt : Stmt) : Build Unit := do
  let scope := (← get).current
  change (·.addStmt scope stmt)

/-- Defines a variable in the current scope. -/
def define (v : Variable) : Build VarId := do
  let b ← get
  change (·.define b.current v)
  return b.program.vars.size

/-- Defines a variable of a written name. -/
def defineIdent (id : Tree.Ident) : Build VarId := define ⟨id.name, id.span, none, false⟩

/-- Opens a scope inside the current one. -/
def openScope : Build ScopeId := do
  let b ← get
  let id := b.program.scopes.size
  set { b with
    program := b.program.addScope (some b.current), current := id, included := [] :: b.included }
  return id

/-- Returns to the scope around the current one. -/
def closeScope (outer : ScopeId) : Build Unit :=
  modify fun b => { b with current := outer, included := b.included.tail }

/-- Builds something in a scope of its own. -/
def inNewScope (body : ScopeId → Build Unit) : Build ScopeId := do
  let outer := (← get).current
  let id ← openScope
  body id
  closeScope outer
  return id

/-- The variable a written name stands for. -/
def lookup (id : Tree.Ident) : Build VarId := do
  let b ← get
  match b.program.lookup? b.current id.name with
  | some v => return v
  | none =>
    refuse (.unknownName id.span id.name (Text.closest? id.name (b.program.visibleNames b.current)))

/-- The variable a written name stands for, which must not be read-only. -/
def writable (id : Tree.Ident) : Build VarId := do
  let v ← lookup id
  let info := (← get).program.var v
  if info.readOnly then refuse (.readOnly id.span id.name info.definition) else return v

/-- The variable under the indexes of a target. Optional indexes are refused, the outermost first. -/
def targetIdent : Tree.Expr → Build Tree.Ident
  | .name id => return id
  | .index base _ optional span => if optional then refuse (.optionalTarget span) else targetIdent base
  | e => refuse (.indexedTarget e.span)

/-- The attribute of a name. -/
def property (name : String) (span : Span) : Build Property :=
  match name with
  | "TYPE" => return .type
  | "DIMS" => return .dims
  | _ => refuse (.unknownProperty span name)

mutual

/-- An expression that produces a value. Declarations among the outputs of calls are made on the way. -/
def value : Tree.Expr → Build Expr
  | .name id => return .var (← lookup id) id.span
  | .int v span =>
    if v > 2147483647 ∨ v < -2147483648 then refuse (.literalTooLarge span v)
    else return .literal (.int v) span
  | .float v span => return .literal (.float v) span
  | .array items span => return .collect (← values items) span
  | .arrayType dims base span => do
    let dims ← values dims
    return .arrayType dims (← value base) span
  | .openBound span => return .openBound span
  | .upperBound upper span => return .upperBound (← value upper) span
  | .closedBound lower upper span => do
    let lower ← value lower
    return .closedBound lower (← value upper) span
  | .index base index optional span => do
    let base ← value base
    let arg := IndexArg.mk (← value index) optional
    match base with
    | .index inner args _ => return .index inner (args ++ [arg]) span
    | base => return .index base [arg] span
  | .property base name nameSpan span => do
    let base ← value base
    return .property base (← property name nameSpan) span
  | .unary op operand span => return .unary op (← value operand) span
  | .binary op left right span => do
    let left ← value left
    return .binary op left (← value right) span
  | .call callee inputs explicit outs span => do
    let var ← lookup callee
    let inputs ← values inputs
    if explicit then
      let (outs, inline) ← outputs false outs
      if inline then return .call var callee.span inputs outs span else refuse (.noInline span)
    else return .call var callee.span inputs [.inline span] span
  | .decl _ _ span => refuse (.declarationAsValue span)

/-- Expressions in order. -/
def values : List Tree.Expr → Build (List Expr)
  | [] => return []
  | e :: es => do
    let v ← value e
    return v :: (← values es)

/-- The outputs of a call, and whether one of them is inline. -/
def outputs (seen : Bool) : List Tree.Output → Build (List Output × Bool)
  | [] => return ([], seen)
  | .inline span :: rest => do
    if seen then refuse (.repeatedInline span)
    let (outs, inline) ← outputs true rest
    return (.inline span :: outs, inline)
  | .target e span :: rest => do
    let t ← target e
    let (outs, inline) ← outputs seen rest
    return (.target t span :: outs, inline)

/-- A target. A declaration is made before it is assigned to; its type is built before its name is
bound. -/
def target : Tree.Expr → Build Target
  | .decl type name span => do
    let type ← value type
    let v ← defineIdent name
    emit (.create v type span)
    return .mk v [] span
  | .name id => return .mk (← writable id) [] id.span
  | .index base index optional span => do
    if optional then refuse (.optionalTarget span)
    let v ← writable (← targetIdent base)
    let inner ← targetIndexes base
    return .mk v (inner ++ [← value index]) span
  | e => refuse (.notAssignable e.span)

/-- The indexes of a target, the outermost dimension first. -/
def targetIndexes : Tree.Expr → Build (List Expr)
  | .index base index _ _ => do
    let inner ← targetIndexes base
    return inner ++ [← value index]
  | _ => return []

end

/-- A macro call that stands alone needs no inline output. -/
def callAlone : Tree.Expr → Build Expr
  | .call callee inputs explicit outs span => do
    let var ← lookup callee
    let inputs ← values inputs
    let outs ← if explicit then Prod.fst <$> outputs false outs else pure []
    return .call var callee.span inputs outs span
  | e => value e

/-- Refuses a signature that uses a name twice. -/
def checkSignature (callee : String) : (seen : List Tree.Ident) → List Tree.Ident → Build Unit
  | _, [] => return
  | seen, id :: rest =>
    match seen.find? (·.name = id.name) with
    | some first => refuse (.repeatedParameter id.span id.name callee first.span)
    | none => checkSignature callee (id :: seen) rest

/-- The variables of the outputs of a macro, which its body or a scope around it must define. -/
def macroOutputs (body : ScopeId) (callee : String) (header : Span) (outs : List Tree.Ident) :
    Build (List VarId) :=
  outs.mapM fun id => do
    match (← get).program.lookup? body id.name with
    | some v => return v
    | none => refuse (.undefinedOutput id.span callee id.name header)

/-- Binds the exports of a static block in the current scope. -/
def exportNames (body : ScopeId) (names : List Tree.Ident) : Build (List VarId) :=
  names.mapM fun id => do
    let b ← get
    match (b.program.scope body).find? id.name with
    | some v =>
      change (·.modifyScope b.current (·.bind id.name v))
      return v
    | none => refuse (.undefinedExport id.span id.name)

/-- Declares the names of inputs or outputs of the program. -/
def ioNames (isOutput : Bool) (type : Expr) (span : Span) (names : List Tree.Ident) : Build Unit :=
  names.forM fun id => do
    let v ← defineIdent id
    emit (.create v type span)
    change fun p =>
      if isOutput then { p with outputs := p.outputs ++ [v] } else { p with inputs := p.inputs ++ [v] }

mutual

/-- Builds a statement. `take` builds the statements of an included file. -/
def stmt (take : List UInt8 → Span → Build Unit) : Tree.Stmt → Build Unit
  | .io isOutput type names span => do
    let b ← get
    if b.current ≠ b.program.entry then refuse (.ioInScope span isOutput)
    ioNames isOutput (← value type) span names
  | .decl type name declSpan _ => do
    let type ← value type
    let v ← defineIdent name
    emit (.create v type declSpan)
  | .assign place source span => do
    let v ← value source
    let t ← target place
    emit (.assign t v span)
  | .macroDef name inputs outs body header span => do
    let scope ← inNewScope fun scope => do
      checkSignature name.name [] (inputs ++ outs)
      modify fun b => { b with macroDepth := b.macroDepth + 1 }
      let ins ← inputs.mapM defineIdent
      change (·.modifyScope scope fun s => { s with inputs := ins })
      block take body
      let outs ← macroOutputs scope name.name header outs
      change (·.modifyScope scope fun s => { s with outputs := outs })
      modify fun b => { b with macroDepth := b.macroDepth - 1 }
    let v ← define ⟨name.name, header, some (.macroRef ⟨scope, header⟩), true⟩
    emit (.create v (typeLiteral (.exactly .macroRef)) span)
  | .call call span => do emit (.expr (← callAlone call) span)
  | .expr e span => do emit (.expr (← value e) span)
  | .branch cs otherwise span => do
    let cs ← clauses take cs
    emit (.branch cs (← otherwiseScope take otherwise) span)
  | .loop counter start stop noUnroll body span => do
    let start ← value start
    let stop ← value stop
    let counterVar := (← get).program.vars.size
    let scope ← inNewScope fun _ => do
      let _ ← defineIdent counter
      block take body
    emit (.loop counterVar start stop scope (!noUnroll) span)
  | .static exports body span => do
    let scope ← inNewScope fun _ => block take body
    emit (.static scope (← exportNames scope exports) span)
  | .assert condition span => do emit (.assert (← value condition) span)
  | .ret span => do
    if (← get).macroDepth = 0 then refuse (.returnOutsideMacro span)
    emit (.ret span)
  | .includeFile path span => take path span
  | .block (.mk statements span) => do
    let scope ← inNewScope fun _ => stmts take statements
    emit (.block scope span)

/-- Builds the statements of a block. -/
def block (take : List UInt8 → Span → Build Unit) : Tree.Block → Build Unit
  | .mk statements _ => stmts take statements

/-- Builds statements in order. -/
def stmts (take : List UInt8 → Span → Build Unit) : List Tree.Stmt → Build Unit
  | [] => return
  | s :: ss => do
    stmt take s
    stmts take ss

/-- Builds conditions and the scopes they guard. -/
def clauses (take : List UInt8 → Span → Build Unit) : List Tree.Clause → Build (List Clause)
  | [] => return []
  | .mk condition body :: rest => do
    let condition ← value condition
    let scope ← inNewScope fun _ => block take body
    return ⟨condition, scope⟩ :: (← clauses take rest)

/-- Builds the scope without a condition. -/
def otherwiseScope (take : List UInt8 → Span → Build Unit) : Option Tree.Block → Build (Option ScopeId)
  | none => return none
  | some body => some <$> inNewScope fun _ => block take body

end

/-- The index of an included file. -/
def loadFile (path : List UInt8) (span : Span) : Build Nat := do
  let b ← get
  match String.fromUTF8? ⟨path.toArray⟩ with
  | none => refuse (.missingInclude span path)
  | some name =>
    match b.library.load name with
    | .ok (library, file) =>
      set { b with library := library }
      return file
    | .error (.missing _) => refuse (.missingInclude span path)
    | .error e => throw (.load e)

/-- Marks a file as taken in by the current scope. -/
def markIncluded (file : Nat) : Build Unit :=
  modify fun b => { b with
    included :=
      match b.included with
      | frame :: rest => (file :: frame) :: rest
      | [] => [[file]] }

/-- Builds the statements of an included file, unless an open scope has taken it in; `fuel` bounds the
nesting of includes. -/
def takeFile : (fuel : Nat) → List UInt8 → Span → Build Unit
  | 0, _, _ => return
  | fuel + 1, path, span => do
    let file ← loadFile path span
    if (← get).included.any (·.contains file) then return
    markIncluded file
    match Tree.ofLibrary (← get).library file with
    | .error e => throw (.source e)
    | .ok tree => stmts (takeFile fuel) tree.statements

end Build

/-- More includes than can be nested: a nested include takes in another file, and every name of a file
is known or written in some text. -/
def includeBound (lib : Library) : Nat :=
  (lib.files.foldl (fun n f => n + f.content.utf8ByteSize + 1) 1) +
    (lib.storage.files.foldl (fun n f => n + f.2.utf8ByteSize + 1) 0)

/-- Builds the program of a tree that was read from a file. -/
def ofTree (lib : Library) (file : Nat) (tree : Tree.File) : Except BuildError Program × Library :=
  let start : Builder :=
    ⟨lib, Program.initial, Program.initial.entry, [[file]], 0⟩
  match (Build.stmts (Build.takeFile (includeBound lib)) tree.statements).run start with
  | (.ok _, b) => (.ok b.program, b.library)
  | (.error e, b) => (.error e, b.library)

/-- Reads a file of a library and builds its program. -/
def ofLibrary (lib : Library) (file : Nat) : Except BuildError Program × Library :=
  match Tree.ofLibrary lib file with
  | .error e => (.error (.source e), lib)
  | .ok tree => ofTree lib file tree

end SignalLang.Scoped
