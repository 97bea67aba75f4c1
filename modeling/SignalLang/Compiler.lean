import SignalLang.Flat.Lower
import SignalLang.Flat.Validate
import SignalLang.Ir.Generate
import SignalLang.Ir.Print
import SignalLang.Phase
import SignalLang.Scoped.Build
import SignalLang.Scoped.Print
import SignalLang.Staged.Print
import SignalLang.Staged.Resolve
import SignalLang.Tree.Print

/-!
# The compiler

A `Compiler` holds a library of sources and takes a named source through the phases. Every phase starts
over from the source. Files that an include loads stay in the library, and a phase is counted when its own
work starts, also when it then fails.
-/

namespace SignalLang

/-- How to compile. -/
structure Options where
  staging : Staged.Options := {}
  /-- Whether a flat program is checked before code is generated. -/
  validate : Bool := true
  moduleName : String := "nsprog"
  includePaths : List String := []
deriving DecidableEq, Repr

/-- Why a compilation failed. -/
inductive CompileError where
  | unknownSource (name : String)
  | parse (e : Tree.SourceError)
  | build (e : Scoped.BuildError)
  | stage (p : Problem)
  | lower (message : String)
  | invalid (e : Flat.ValidationError)
  | generate (message : String)
  /-- The compiler itself met a state that no program should lead to, sometimes with words for it. -/
  | fault (message : Option String)

namespace CompileError

/-- The one-line form. -/
def message : CompileError → String
  | .unknownSource name => s!"failed to find a source named {name}"
  | .parse e => "parse error: " ++ e.message
  | .build e => "vague error: " ++ e.message
  | .stage p => "resolve error: " ++ p.message
  | .lower m => "trivialize error: " ++ m
  | .invalid e => "validation failed: " ++ e.message
  | .generate m => m
  | .fault m => m.getD ""

/-- The problem behind the error, if there is one. -/
def problem? : CompileError → Option Problem
  | .parse e => some e.problem
  | .build e => e.problem?
  | .stage p => some p
  | _ => none

/-- The error in full: its problem with the lines it is about, or the one-line form. -/
def render (e : CompileError) (lib : Library) : String :=
  match e.problem? with
  | some p => p.render lib
  | none => e.message

/-- The error for a staging that stopped. -/
def ofStaging : Staged.Failure → CompileError
  | .problem p => .stage p
  | .fault f => .fault f.message?
  | .tooDeep => .fault (some "stack overflow")

/-- The error for a program that could not be flattened. -/
def ofLowering (e : Flat.LowerError) : CompileError := e.message?.elim (.fault none) .lower

/-- The error for a module that could not be made. -/
def ofGeneration (e : Ir.GenerateError) : CompileError := e.message?.elim (.fault none) .generate

end CompileError

/-- Sources with the options to compile them by. -/
structure Compiler where
  options : Options := {}
  library : Library := {}
  counts : PhaseCounts := {}

/-- A step of compilation. -/
abbrev Compile := ExceptT CompileError (StateM Compiler)

namespace Compiler

/-- A compiler without sources. -/
def new (options : Options) (storage : Storage) : Compiler :=
  { options := options, library := { searchPaths := options.includePaths, storage := storage } }

/-- Sets the text of a named source. -/
def addSource (c : Compiler) (name content : String) : Compiler :=
  { c with library := (c.library.put name content).1 }

/-- Counts a run of a phase. -/
def count (p : Phase) : Compile Unit := modify fun c => { c with counts := c.counts.add p }

/-- The number of a named source. -/
def source (name : String) : Compile Nat := do
  match (← get).library.find? name with
  | some file => return file
  | none => throw (.unknownSource name)

/-- The tree of a source. -/
def treeOf (name : String) : Compile Tree.File := do
  let file ← source name
  count .ast
  match Tree.ofLibrary (← get).library file with
  | .ok t => return t
  | .error e => throw (.parse e)

/-- The scoped program of a source. -/
def scopedOf (name : String) : Compile Scoped.Program := do
  let t ← treeOf name
  let file ← source name
  count .vague
  let (result, library) := Scoped.ofTree (← get).library file t
  modify fun c => { c with library := library }
  match result with
  | .ok p => return p
  | .error e => throw (.build e)

/-- The staged program of a source. -/
def stagedOf (name : String) : Compile Staged.Program := do
  let p ← scopedOf name
  count .resolved
  match Staged.resolve p (← get).options.staging with
  | .ok p => return p
  | .error e => throw (.ofStaging e)

/-- The flat program of a source, checked if the options ask for it. -/
def flatOf (name : String) : Compile Flat.Program := do
  let p ← stagedOf name
  count .trivial
  let c ← get
  match Flat.lower p (some c.library) with
  | .error e => throw (.ofLowering e)
  | .ok p =>
    match if c.options.validate then p.validate else [] with
    | e :: _ => throw (.invalid e)
    | [] => return p

/-- The module of a source. -/
def moduleOf (name : String) : Compile Ir.Module := do
  let p ← flatOf name
  count .llvmir
  match Ir.generate p (← get).options.moduleName "" with
  | .ok m => return m
  | .error e => throw (.ofGeneration e)

/-- The text of a source in a phase. -/
def dump (name : String) : Phase → Compile String
  | .ast => return (← treeOf name).text
  | .vague => return (← scopedOf name).text
  | .resolved => return (← stagedOf name).text
  | .trivial => return (← flatOf name).text
  | .llvmir => return (← moduleOf name).text

end Compiler

end SignalLang
