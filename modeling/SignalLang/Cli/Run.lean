import SignalLang.Cli.Config
import SignalLang.Cli.Flags

/-!
# The command line

`plan` reads the arguments and the configuration file and decides what to do; `Job.run` compiles the
sources of a job. Flags win over the configuration file, which wins over the defaults.
-/

namespace SignalLang.Cli

/-- The version that is printed. -/
def version : String := "0.1.0-dev"

/-- What a run printed, the files afterwards, and its exit code. -/
structure Result where
  code : Nat
  stdout : String := ""
  stderr : String := ""
  storage : Storage

/-- Sources to compile. -/
structure Job where
  options : Options
  phase : Phase
  inputs : List String
  /-- The file to write to, empty for the standard output. -/
  output : String
  perf : Bool

/-- What the arguments ask for. -/
inductive Plan where
  | finished (result : Result)
  | interactive (options : Options) (phase : Phase)
  | compile (job : Job)

/-- A line of the log. -/
def logLine (s : String) : String := "nodespeakc: " ++ s ++ "\n"

/-- The options that flags leave over those of a configuration. -/
def Flags.apply (f : Flags) (options : Options) : Options :=
  { staging := {
      unroll := f.unroll.getD options.staging.unroll
      maxUnroll := f.maxUnroll.getD options.staging.maxUnroll }
    validate := f.validate.getD options.validate
    moduleName := f.moduleName.getD options.moduleName
    includePaths := options.includePaths ++ f.includes }

/-- What flags, a configuration and operands ask for. -/
def planWith (f : Flags) (config : Config) (operands : List String) (storage : Storage) : Plan :=
  let failed (message : String) : Plan := .finished { code := 1, stderr := message, storage := storage }
  let (name, inputs) :=
    match operands with
    | [] => (config.phase, [])
    | name :: inputs => (name, inputs)
  if name = "" then failed ("Error: no phase specified\n" ++ usage)
  else
    match Phase.ofName? name with
    | none => failed (logLine (Phase.unknownMessage name))
    | some phase =>
      let options := f.apply (config.apply {})
      if f.repl.getD false then .interactive options phase
      else if inputs.isEmpty then failed ("Error: no input file specified\n" ++ usage)
      else
        .compile {
          options := options
          phase := phase
          inputs := inputs
          output := f.output.getD config.output
          perf := f.perf.getD config.perf }

/-- Decides what arguments ask for. -/
def plan (args : List String) (storage : Storage) : Plan :=
  match parseFlags {} args with
  | .error e =>
    let code := if e = .help then 0 else 2
    .finished { code := code, stderr := e.message?.elim "" (· ++ "\n") ++ usage, storage := storage }
  | .ok (f, operands) =>
    if f.version.getD false then
      .finished { code := 0, stdout := s!"nodespeakc version {version}\n", storage := storage }
    else
      let path := f.config.getD ""
      if path = "" then planWith f {} operands storage
      else
        match Config.load storage path with
        | .error e => .finished { code := 1, stderr := logLine e.message, storage := storage }
        | .ok config => planWith f config operands storage

/-- Why a source gave no text. -/
inductive SourceFailure where
  | unreadable (path : String) (cause : Storage.Failure)
  | uncompiled (path : String) (e : CompileError) (library : Library)

/-- What is printed for a failure. -/
def SourceFailure.text : SourceFailure → String
  | .unreadable path cause => logLine (cause.text path)
  | .uncompiled path e library => e.render library ++ "\n" ++ logLine s!"compilation of {path} failed"

/-- Compiles sources one after the other; the texts are put together. -/
def Job.compileAll (j : Job) (storage : Storage) : List String → Compiler → String →
    Except SourceFailure (String × Compiler)
  | [], c, out => .ok (out, c)
  | path :: rest, c, out =>
    match storage.read path with
    | .error cause => .error (.unreadable path cause)
    | .ok content =>
      match (Compiler.dump path j.phase).run (c.addSource path content) with
      | (.error e, c) => .error (.uncompiled path e c.library)
      | (.ok text, c) =>
        let head := if j.inputs.length > 1 then s!"; {path}\n" else ""
        let ended := if text.endsWith "\n" then text else text ++ "\n"
        j.compileAll storage rest c (out ++ head ++ ended)

/-- Runs a job. `millis` gives the time that each phase took. -/
def Job.run (j : Job) (storage : Storage) (millis : Phase → String) : Except (Option String) Result :=
  match j.compileAll storage j.inputs (.new j.options storage) "" with
  | .error (.uncompiled _ (.fault m) _) => .error m
  | .error e => .ok { code := 1, stderr := e.text, storage := storage }
  | .ok (out, c) =>
    let table := if j.perf then c.counts.table millis ++ "\n" else ""
    if j.output = "" then .ok { code := 0, stdout := out, stderr := table, storage := storage }
    else
      match storage.write j.output out with
      | .error cause =>
        .ok { code := 1, stderr := logLine ("writing output: " ++ cause.writeText j.output), storage := storage }
      | .ok after =>
        let names := ", ".intercalate j.inputs
        let said := s!"Successfully compiled {names} to {j.output} ({j.phase.text})\n"
        .ok { code := 0, stdout := said, stderr := table, storage := after }

end SignalLang.Cli
