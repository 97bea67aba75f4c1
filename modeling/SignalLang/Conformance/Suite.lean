import SignalLang.Compiler
import SignalLang.Yaml.Decode

/-!
# Conformance suites

A suite is a list of cases: programs with what compiling them should produce. Suites are YAML documents.
-/

namespace SignalLang.Conformance

/-- Changes to the options, for a suite or a case. -/
structure Overrides where
  unroll : Option Bool := none
  maxUnroll : Option Int := none
  validate : Option Bool := none
deriving DecidableEq, Repr, Inhabited

/-- Applies changes to options. -/
def Overrides.apply (o : Overrides) (options : Options) : Options :=
  { options with
    staging := {
      unroll := o.unroll.getD options.staging.unroll
      maxUnroll := o.maxUnroll.getD options.staging.maxUnroll }
    validate := o.validate.getD options.validate }

/-- How often a text must occur. -/
structure Count where
  text : String := ""
  n : Int := 0
deriving DecidableEq, Repr, Inhabited

/-- What compiling a case should produce. With an error the case must fail with a problem of that kind, and
if a phase is named, no earlier one may fail. Without, the text of the phase must be as described. -/
structure Expectation where
  error : String := ""
  phase : String := ""
  contains : List String := []
  excludes : List String := []
  count : Option Count := none
  /-- The size of the error table. -/
  errors : Option Int := none
deriving DecidableEq, Repr, Inhabited

/-- A program with its expectation. A case with a reason to skip it is not run. -/
structure Case where
  name : String := ""
  description : String := ""
  skip : Option String := none
  options : Option Overrides := none
  source : String := ""
  includes : List (String × String) := []
  expect : Expectation := {}
deriving DecidableEq, Repr, Inhabited

/-- Cases with what they have in common. -/
structure Suite where
  name : String := ""
  description : String := ""
  options : Option Overrides := none
  cases : List Case := []
deriving DecidableEq, Repr, Inhabited

/-! ### Decoding -/

open Yaml (Decoder part)

/-- Decodes changes to options. -/
def Overrides.decoder : Decoder Overrides :=
  Yaml.record "conformance.Overrides" fun
    | "unroll" => some (part (·.unroll) (fun v o => { o with unroll := v }) (Yaml.optional false Yaml.bool))
    | "max_unroll" =>
      some (part (·.maxUnroll) (fun v o => { o with maxUnroll := v }) (Yaml.optional 0 Yaml.int))
    | "validate" =>
      some (part (·.validate) (fun v o => { o with validate := v }) (Yaml.optional false Yaml.bool))
    | _ => none

/-- Decodes a count. -/
def Count.decoder : Decoder Count :=
  Yaml.record "conformance.Count" fun
    | "text" => some (part (·.text) (fun v c => { c with text := v }) Yaml.string)
    | "n" => some (part (·.n) (fun v c => { c with n := v }) Yaml.int)
    | _ => none

/-- Decodes a list of texts. -/
def texts : Decoder (List String) := Yaml.list "[]string" "" Yaml.string

/-- Decodes an expectation. -/
def Expectation.decoder : Decoder Expectation :=
  Yaml.record "conformance.Expectation" fun
    | "error" => some (part (·.error) (fun v e => { e with error := v }) Yaml.string)
    | "phase" => some (part (·.phase) (fun v e => { e with phase := v }) Yaml.string)
    | "contains" => some (part (·.contains) (fun v e => { e with contains := v }) texts)
    | "excludes" => some (part (·.excludes) (fun v e => { e with excludes := v }) texts)
    | "count" => some (part (·.count) (fun v e => { e with count := v }) (Yaml.optional {} Count.decoder))
    | "errors" => some (part (·.errors) (fun v e => { e with errors := v }) (Yaml.optional 0 Yaml.int))
    | _ => none

/-- Decodes a reason to skip: a text, or true for none in particular. Anything else is no reason. -/
def skipDecoder : Decoder (Option String)
  | .scalar _ value plain, _ =>
    match Yaml.scalarOf value plain with
    | .bool true => (some "skipped", [])
    | .text s => (some s, [])
    | _ => (none, [])
  | _, _ => (none, [])

/-- Decodes a case. -/
def Case.decoder : Decoder Case :=
  Yaml.record "conformance.Case" fun
    | "name" => some (part (·.name) (fun v c => { c with name := v }) Yaml.string)
    | "description" => some (part (·.description) (fun v c => { c with description := v }) Yaml.string)
    | "skip" => some (part (·.skip) (fun v c => { c with skip := v }) skipDecoder)
    | "options" =>
      some (part (·.options) (fun v c => { c with options := v }) (Yaml.optional {} Overrides.decoder))
    | "source" => some (part (·.source) (fun v c => { c with source := v }) Yaml.string)
    | "includes" =>
      some (part (·.includes) (fun v c => { c with includes := v }) (Yaml.textMap "map[string]string"))
    | "expect" => some (part (·.expect) (fun v c => { c with expect := v }) Expectation.decoder)
    | _ => none

/-- Decodes a suite. -/
def Suite.decoder : Decoder Suite :=
  Yaml.record "conformance.Suite" fun
    | "name" => some (part (·.name) (fun v s => { s with name := v }) Yaml.string)
    | "description" => some (part (·.description) (fun v s => { s with description := v }) Yaml.string)
    | "options" =>
      some (part (·.options) (fun v s => { s with options := v }) (Yaml.optional {} Overrides.decoder))
    | "cases" =>
      some (part (·.cases) (fun v s => { s with cases := v })
        (Yaml.list "[]conformance.Case" {} Case.decoder))
    | _ => none

end SignalLang.Conformance
