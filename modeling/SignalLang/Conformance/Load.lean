import SignalLang.Conformance.Run

/-!
# Loading conformance suites

Every file below a directory whose name ends in `.yaml` is a suite; files are taken in the order of their
paths.
-/

namespace SignalLang.Conformance

/-- Why suites could not be loaded. -/
inductive LoadError where
  | noDirectory (path : String) (cause : Storage.Failure)
  | undecodable (path : String) (e : Yaml.DecodeError)
  | unnamed (path : String) (index : Nat)

/-- The words for an error. -/
def LoadError.message : LoadError → String
  | .noDirectory path cause => cause.lookupText path
  | .undecodable path e => s!"{path}: {e.message}"
  | .unnamed path index => s!"{path}: case {index} has no name"

/-- The extension of a path: what follows the last dot of its last part, with the dot. -/
def extension (path : String) : String :=
  let rev := path.toList.reverse
  let tail := rev.takeWhile fun c => c ≠ '.' && c ≠ '/'
  match rev.drop tail.length with
  | '.' :: _ => String.ofList ('.' :: tail.reverse)
  | _ => ""

/-- The cases of one suite. -/
def loadFile (path content : String) : Except LoadError Suite :=
  match Yaml.decode Suite.decoder {} content with
  | .error e => .error (.undecodable path e)
  | .ok suite =>
    match suite.cases.findIdx? (·.name = "") with
    | some i => .error (.unnamed path i)
    | none => .ok suite

/-- The path of a file as seen from a directory, both clean; a file seen from itself is `.`. -/
def relative (dir path : String) : String :=
  if path = dir then "."
  else if dir = "." then path
  else if path.startsWith (dir ++ "/") then (path.drop (dir.length + 1)).toString
  else path

/-- Cases with the lines to log for the files they came from. -/
structure Loaded where
  cases : List LoadedCase := []
  log : List String := []

/-- Loads every suite below a directory. -/
def load (storage : Storage) (dir : String) : Except LoadError Loaded := do
  match storage.filesBelow dir with
  | .error cause => throw (.noDirectory dir cause)
  | .ok files =>
    let suites := (files.filter fun f => extension f.1 = ".yaml").mergeSort fun a b => decide (a.1 ≤ b.1)
    suites.foldlM (fun (acc : Loaded) (path, content) => do
      let suite ← loadFile path content
      let name := relative (cleanPath dir) path
      return {
        cases := acc.cases ++ suite.cases.map fun c => ⟨name, suite, c⟩
        log := acc.log ++ [s!"conformance: loaded {suite.cases.length} cases from {name}"] }) {}

end SignalLang.Conformance
