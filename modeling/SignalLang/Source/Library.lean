import SignalLang.Source.Span
import SignalLang.Source.Storage

/-!
# The library of source files

A `Library` holds the files one compilation knows. A file is addressed by its place in the list,
which never changes; a name that is not known yet can be loaded from storage, looked for as it
stands and then below each search path.
-/

namespace SignalLang

/-- A named source text. -/
structure SourceFile where
  name : String
  content : String
deriving DecidableEq, Repr, Inhabited

/-- The source files of a compilation, with the places to look for more. -/
structure Library where
  files : Array SourceFile := #[]
  searchPaths : List String := []
  storage : Storage := {}
deriving Inhabited

namespace Library

/-- Appends a file; its index is the old number of files. -/
def add (lib : Library) (name content : String) : Library :=
  { lib with files := lib.files.push ⟨name, content⟩ }

/-- The index of the first file of that name. -/
def find? (lib : Library) (name : String) : Option Nat :=
  lib.files.findIdx? (·.name = name)

/-- Replaces the content of the named file, or appends it. Returns its index. -/
def put (lib : Library) (name content : String) : Library × Nat :=
  match lib.find? name with
  | some i => ({ lib with files := lib.files.modify i fun f => { f with content := content } }, i)
  | none => (lib.add name content, lib.files.size)

/-- Why a file could not be loaded. -/
inductive LoadError where
  | missing (name : String)
  | unreadable (path : String) (cause : Storage.Failure)
deriving DecidableEq, Repr

/-- The text of a load error. -/
def LoadError.message : LoadError → String
  | .missing name => s!"{name}: file does not exist"
  | .unreadable path cause => s!"read {path}: {cause.text path}"

/-- Reads the first path that exists; a path that exists and cannot be read ends the search. -/
def firstReadable (storage : Storage) (name : String) : List String → Except LoadError String
  | [] => .error (.missing name)
  | path :: rest =>
    match storage.read path with
    | .ok content => .ok content
    | .error .missing => firstReadable storage name rest
    | .error cause => .error (.unreadable path cause)

/-- The index of the named file, loading it when it is new. -/
def load (lib : Library) (name : String) : Except LoadError (Library × Nat) :=
  match lib.find? name with
  | some i => .ok (lib, i)
  | none => do
    let below := if pathIsRooted name then [] else lib.searchPaths.map (joinPath · name)
    let content ← firstReadable lib.storage name (name :: below)
    return (lib.add name content, lib.files.size)

/-- The file at an index, which may be anything. -/
def file? (lib : Library) (index : Int) : Option SourceFile :=
  if index < 0 then none else lib.files[index.toNat]?

/-- The name of a file; code of no file belongs to the compiler. -/
def nameOf (lib : Library) (index : Int) : String :=
  (lib.file? index).elim "<builtin>" (·.name)

/-- The text of a file, empty for no file. -/
def contentOf (lib : Library) (index : Int) : String :=
  (lib.file? index).elim "" (·.content)

/-- Removes trailing carriage returns. -/
def dropTrailingReturns (s : String) : String :=
  String.ofList (s.toList.reverse.dropWhile (· = '\r')).reverse

/-- The lines of a text, without the newlines between them. -/
def linesOf (text : String) : List String := (text.toList.splitOn '\n').map String.ofList

/-- Line `n` of a file, from one, without its line end. -/
def line? (lib : Library) (index n : Int) : Option String :=
  if n < 1 then none else ((linesOf (lib.contentOf index))[n.toNat - 1]?).map dropTrailingReturns

/-- `file:line:column` of the start of a span. -/
def describe (lib : Library) (span : Span) : String :=
  if span.isBuiltin then "<builtin>"
  else s!"{lib.nameOf span.file}:{span.start.line}:{span.start.column}"

end Library

end SignalLang
