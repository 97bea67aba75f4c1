import SignalLang.Conformance.Suite
import SignalLang.Text.Search

/-!
# Running conformance cases
-/

namespace SignalLang.Conformance

/-- A case with the suite and the file it came from. -/
structure LoadedCase where
  file : String
  suite : Suite
  case : Case

/-- The outcome of a case. -/
inductive Outcome where
  | passed
  | skipped (reason : String)
  | failed (message : String)
deriving DecidableEq, Repr

/-- Why a case does not pass. -/
inductive Setback where
  /-- Something is not as the case expects it. -/
  | mismatch (message : String)
  /-- The compiler broke down, sometimes with words for it. -/
  | breakdown (message : Option String)
deriving DecidableEq, Repr

/-- The setback of a compilation that failed where it should not: a fault is a breakdown, and the words of any
other error are a mismatch. -/
def Setback.ofError (words : CompileError → String) : CompileError → Setback
  | .fault m => .breakdown m
  | e => .mismatch (words e)

/-- The name under which the source of a case is compiled. -/
def mainName : String := "main.ns"

namespace LoadedCase

/-- The options of a case: those of its suite, then its own. -/
def options (c : LoadedCase) (base : Options) : Options :=
  let change (o : Option Overrides) (options : Options) : Options := o.elim options (·.apply options)
  change c.case.options (change c.suite.options base)

/-- A compiler with the sources of a case; includes are added by name. -/
def compiler (c : LoadedCase) (base : Options) : Compiler :=
  let includes := c.case.includes.mergeSort fun a b => decide (a.1 ≤ b.1)
  let start := Compiler.new (c.options base) {}
  (includes.foldl (fun k (name, text) => k.addSource name text) start).addSource mainName c.case.source

/-- Checks the text of a phase. -/
def checkText (e : Expectation) (phase : Phase) (out : String) : Except Setback Unit := do
  let head := phase.text ++ " output "
  for want in e.contains do
    if !Text.holds out want then
      throw (.mismatch (head ++ "does not contain " ++ Text.quote want ++ ":\n" ++ out))
  for bad in e.excludes do
    if Text.holds out bad then
      throw (.mismatch (head ++ "contains " ++ Text.quote bad ++ ":\n" ++ out))
  match e.count with
  | none => return
  | some c =>
    let found := Text.occurrences c.text out
    if c.n ≠ found then
      throw (.mismatch (head ++ "contains " ++ Text.quote c.text ++ s!" {found} times, want {c.n}"))

/-- Checks the size of the error table. -/
def checkErrors (compiler : Compiler) (wanted : Int) : Except Setback Unit :=
  match ((Compiler.moduleOf mainName).run compiler).1 with
  | .error e => throw (.ofError (·.message) e)
  | .ok m =>
    if wanted = m.errors.length then return
    else throw (.mismatch s!"error table has {m.errors.length} entries, want {wanted}")

/-- The phase before another one. -/
def before? : Phase → Option Phase
  | .ast => none
  | .vague => some .ast
  | .resolved => some .vague
  | .trivial => some .resolved
  | .llvmir => some .trivial

/-- Checks that a case fails as it should. -/
def checkFailure (c : LoadedCase) (base : Options) (phase : Phase) : Except Setback Unit :=
  let want := c.case.expect.error
  match (Compiler.dump mainName phase).run (c.compiler base) with
  | (.ok _, _) => throw (.mismatch s!"expected {want}, compilation succeeded")
  | (.error e, k) =>
    match e.problem? with
    | none => throw (.ofError (fun e => s!"expected {want}, got {e.message}") e)
    | some p =>
      if p.kind.name ≠ want then throw (.mismatch s!"expected {want}, got {e.render k.library}")
      else if c.case.expect.phase = "" then return
      else
        match before? phase with
        | none => return
        | some earlier =>
          match ((Compiler.dump mainName earlier).run (c.compiler base)).1 with
          | .ok _ => return
          | .error e =>
            let head := s!"expected {want} from {phase.text}, but {earlier.text} already failed: "
            throw (.ofError (fun e => head ++ e.message) e)

/-- Checks that a case compiles as it should. -/
def checkSuccess (c : LoadedCase) (base : Options) (phase : Phase) : Except Setback Unit :=
  match (Compiler.dump mainName phase).run (c.compiler base) with
  | (.error e, k) => throw (.ofError (fun e => "unexpected error: " ++ e.render k.library) e)
  | (.ok out, k) => do
    checkText c.case.expect phase out
    match c.case.expect.errors with
    | none => return
    | some n => checkErrors k n

/-- Checks a case. -/
def check (c : LoadedCase) (base : Options) : Except Setback Unit :=
  let e := c.case.expect
  match if e.phase = "" then some .llvmir else Phase.ofName? e.phase with
  | none => throw (.mismatch (Phase.unknownMessage e.phase))
  | some phase => if e.error = "" then c.checkSuccess base phase else c.checkFailure base phase

/-- Runs a case. There is no outcome when the compiler breaks down. -/
def run (c : LoadedCase) (base : Options) : Except (Option String) Outcome :=
  match c.case.skip with
  | some reason => .ok (.skipped reason)
  | none =>
    match c.check base with
    | .ok _ => .ok .passed
    | .error (.mismatch m) => .ok (.failed m)
    | .error (.breakdown m) => .error m

end LoadedCase

/-- Runs cases in order, up to one on which the compiler breaks down. -/
def runAll (cases : List LoadedCase) (base : Options) : Except (Option String) (List (LoadedCase × Outcome)) :=
  cases.mapM fun c => return (c, ← c.run base)

/-- The one-line summary of outcomes. -/
def summary (outcomes : List Outcome) : String :=
  let count (f : Outcome → Bool) : Nat := outcomes.countP f
  let passed := count (· = .passed)
  let failed := count fun
    | .failed _ => true
    | _ => false
  let skipped := count fun
    | .skipped _ => true
    | _ => false
  s!"Total: {outcomes.length}, Passed: {passed}, Failed: {failed}, Skipped: {skipped}"

end SignalLang.Conformance
