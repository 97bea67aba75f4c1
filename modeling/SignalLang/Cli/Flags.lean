import SignalLang.Compiler

/-!
# Command-line flags

A flag is `-name` or `--name`. Its value follows behind `=` or as the next argument; a flag that switches
something takes a value only behind `=`. Flags end at the first argument that is none, or behind `--`.
-/

namespace SignalLang.Cli

/-- The flags that were given. -/
structure Flags where
  includes : List String := []
  config : Option String := none
  maxUnroll : Option Int := none
  moduleName : Option String := none
  output : Option String := none
  perf : Option Bool := none
  repl : Option Bool := none
  unroll : Option Bool := none
  validate : Option Bool := none
  version : Option Bool := none
deriving DecidableEq, Repr, Inhabited

/-- How a flag takes its value. -/
inductive Setter where
  | switch (set : Bool → Flags → Flags)
  | number (set : Int → Flags → Flags)
  | text (set : String → Flags → Flags)

/-- A flag as the usage describes it. -/
structure FlagInfo where
  name : String
  /-- The word for its value, if it takes one. -/
  word : String
  help : String
  setter : Setter

/-- Every flag, by name. -/
def allFlags : List FlagInfo := [
  ⟨"I", "value", "add an include search path (repeatable)",
    .text fun v f => { f with includes := f.includes ++ [v] }⟩,
  ⟨"config", "string", "YAML config file", .text fun v f => { f with config := some v }⟩,
  ⟨"max-unroll", "int", "largest loop to unroll (0 for no limit) (default 4096)",
    .number fun v f => { f with maxUnroll := some v }⟩,
  ⟨"module", "string", "LLVM module name (default \"nsprog\")",
    .text fun v f => { f with moduleName := some v }⟩,
  ⟨"o", "string", "output file (default: stdout)", .text fun v f => { f with output := some v }⟩,
  ⟨"perf", "", "print stage timings", .switch fun v f => { f with perf := some v }⟩,
  ⟨"repl", "", "start an interactive session", .switch fun v f => { f with repl := some v }⟩,
  ⟨"unroll", "", "unroll loops with known bounds (default true)",
    .switch fun v f => { f with unroll := some v }⟩,
  ⟨"validate", "", "validate the trivial program (default true)",
    .switch fun v f => { f with validate := some v }⟩,
  ⟨"version", "", "print version", .switch fun v f => { f with version := some v }⟩]

/-- The lines of a flag in the usage. -/
def FlagInfo.usage (f : FlagInfo) : String :=
  let word := if f.word = "" then "" else " " ++ f.word
  s!"  -{f.name}{word}\n    \t{f.help}\n"

/-- The usage text. -/
def usage : String :=
  "Usage: nodespeakc [options] <phase> <input.ns>...\n\n" ++
  "Phases: ast, vague, resolved, trivial, llvmir\n\n" ++
  "Options:\n" ++ String.join (allFlags.map FlagInfo.usage) ++
  "\nExamples:\n" ++
  "  nodespeakc llvmir synth.ns              Compile to stdout\n" ++
  "  nodespeakc -o synth.ll llvmir synth.ns  Compile to file\n" ++
  "  nodespeakc -perf trivial synth.ns       Print stage timings\n" ++
  "  nodespeakc -repl resolved               Interactive session\n"

/-- Why arguments could not be read. -/
inductive FlagError where
  | help
  | badForm (arg : String)
  | unknown (name : String)
  | noValue (name : String)
  | badSwitch (value name : String)
  | badNumber (value name : String) (e : Text.IntegerError)
deriving DecidableEq, Repr

/-- The line for an error; a request for help has none. -/
def FlagError.message? : FlagError → Option String
  | .help => none
  | .badForm arg => some ("bad flag syntax: " ++ arg)
  | .unknown name => some ("flag provided but not defined: -" ++ name)
  | .noValue name => some ("flag needs an argument: -" ++ name)
  | .badSwitch value name =>
    some ("invalid boolean value " ++ Text.quote value ++ s!" for -{name}: parse error")
  | .badNumber value name e =>
    let cause :=
      match e with
      | .malformed => "parse error"
      | .outOfRange => "value out of range"
    some ("invalid value " ++ Text.quote value ++ s!" for flag -{name}: {cause}")

/-- The truth value of a text. -/
def switchOf? : String → Option Bool
  | "1" | "t" | "T" | "true" | "TRUE" | "True" => some true
  | "0" | "f" | "F" | "false" | "FALSE" | "False" => some false
  | _ => none

/-- An argument that is a flag: its name, and its value behind `=` if it has one. -/
inductive Argument where
  | operand
  | finish
  | flag (name : String) (value : Option String)
  | badForm
deriving DecidableEq, Repr

/-- Takes an argument apart. -/
def Argument.of (arg : String) : Argument :=
  let named (cs : List Char) : Argument :=
    match cs with
    | [] => .badForm
    | c :: _ =>
      if c = '-' ∨ c = '=' then .badForm
      else
        let name := cs.takeWhile (· ≠ '=')
        match cs.drop name.length with
        | [] => .flag (String.ofList name) none
        | _ :: value => .flag (String.ofList name) (some (String.ofList value))
  match arg.toList with
  | ['-', '-'] => .finish
  | '-' :: '-' :: cs => named cs
  | '-' :: c :: cs => named (c :: cs)
  | _ => .operand

/-- Gives a flag that takes one its value. -/
def setValue (info : FlagInfo) (value : String) (f : Flags) : Except FlagError Flags :=
  match info.setter with
  | .switch set =>
    match switchOf? value with
    | some b => .ok (set b f)
    | none => .error (.badSwitch value info.name)
  | .number set =>
    match Text.integer value with
    | .ok n => .ok (set n f)
    | .error e => .error (.badNumber value info.name e)
  | .text set => .ok (set value f)

/-- Whether a flag switches something, so that it needs no value. -/
def FlagInfo.isSwitch (info : FlagInfo) : Bool :=
  match info.setter with
  | .switch _ => true
  | _ => false

/-- Reads flags up to the operands, which it returns. -/
def parseFlags (f : Flags) : (args : List String) → Except FlagError (Flags × List String)
  | [] => .ok (f, [])
  | arg :: rest =>
    match Argument.of arg with
    | .operand => .ok (f, arg :: rest)
    | .finish => .ok (f, rest)
    | .badForm => .error (.badForm arg)
    | .flag name value =>
      match allFlags.find? (·.name = name) with
      | none => if name = "help" ∨ name = "h" then .error .help else .error (.unknown name)
      | some info =>
        match value with
        | some v => do parseFlags (← setValue info v f) rest
        | none =>
          if info.isSwitch then do parseFlags (← setValue info "true" f) rest
          else
            match rest with
            | [] => .error (.noValue name)
            | v :: rest => do parseFlags (← setValue info v f) rest

end SignalLang.Cli
