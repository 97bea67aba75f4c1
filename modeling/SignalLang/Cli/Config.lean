import SignalLang.Compiler
import SignalLang.Yaml.Decode

/-!
# Configuration files

A configuration file is a YAML record with the settings of the command line. What it leaves out keeps its
default.
-/

namespace SignalLang.Cli

/-- The settings of a configuration file. An empty text counts as left out. -/
structure Config where
  phase : String := ""
  output : String := ""
  unroll : Option Bool := none
  maxUnroll : Option Int := none
  validate : Option Bool := none
  moduleName : String := ""
  includePaths : List String := []
  perf : Bool := false
deriving DecidableEq, Repr, Inhabited

namespace Config

open Yaml (Decoder part)

/-- Decodes settings. -/
def decoder : Decoder Config :=
  Yaml.record "main.Config" fun
    | "phase" => some (part (·.phase) (fun v c => { c with phase := v }) Yaml.string)
    | "output" => some (part (·.output) (fun v c => { c with output := v }) Yaml.string)
    | "unroll" => some (part (·.unroll) (fun v c => { c with unroll := v }) (Yaml.optional false Yaml.bool))
    | "max_unroll" =>
      some (part (·.maxUnroll) (fun v c => { c with maxUnroll := v }) (Yaml.optional 0 Yaml.int))
    | "validate" =>
      some (part (·.validate) (fun v c => { c with validate := v }) (Yaml.optional false Yaml.bool))
    | "module_name" => some (part (·.moduleName) (fun v c => { c with moduleName := v }) Yaml.string)
    | "include_paths" =>
      some (part (·.includePaths) (fun v c => { c with includePaths := v })
        (Yaml.list "[]string" "" Yaml.string))
    | "perf" => some (part (·.perf) (fun v c => { c with perf := v }) Yaml.bool)
    | _ => none

/-- Why a file could not be loaded. -/
inductive LoadError where
  | unreadable (path : String) (cause : Storage.Failure)
  | undecodable (path : String) (e : Yaml.DecodeError)

/-- The words for an error. -/
def LoadError.message : LoadError → String
  | .unreadable path cause => cause.text path
  | .undecodable path e => s!"{path}: {e.message}"

/-- Loads a configuration file. -/
def load (storage : Storage) (path : String) : Except LoadError Config :=
  match storage.read path with
  | .error cause => .error (.unreadable path cause)
  | .ok content =>
    match Yaml.decode decoder {} content with
    | .error e => .error (.undecodable path e)
    | .ok c => .ok c

/-- Applies settings to options. -/
def apply (c : Config) (options : Options) : Options :=
  { staging := {
      unroll := c.unroll.getD options.staging.unroll
      maxUnroll := c.maxUnroll.getD options.staging.maxUnroll }
    validate := c.validate.getD options.validate
    moduleName := if c.moduleName = "" then options.moduleName else c.moduleName
    includePaths := options.includePaths ++ c.includePaths }

end Config

end SignalLang.Cli
