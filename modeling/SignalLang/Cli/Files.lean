import SignalLang.Cli.Run
import SignalLang.Token.Scan

/-!
# The files a command line names

A run works on the files it can see. These functions tell which ones it may ask for: the configuration
file, the operands, and what the sources that are known include.
-/

namespace SignalLang.Cli

/-- The names in the include statements of a text, as far as they can be told without parsing it. -/
def includedNames (text : String) : List String :=
  match Token.scan text with
  | .error _ => []
  | .ok tokens =>
    (tokens.zip (tokens.drop 1)).filterMap fun (a, b) =>
      if a.kind = .kwInclude then
        (Text.unquote? b.lexeme).bind fun bytes => String.fromUTF8? ⟨bytes.toArray⟩
      else none

/-- The paths under which a name may be found. -/
def pathsFor (includePaths : List String) (name : String) : List String :=
  name :: includePaths.map (joinPath · name)

/-- The paths that the arguments name. -/
def namedPaths (args : List String) : List String :=
  match parseFlags {} args with
  | .error _ => []
  | .ok (f, operands) => f.config.toList ++ operands.drop 1

/-- The paths that a job may ask for, given the files known so far. -/
def Job.wantedPaths (j : Job) (known : Storage) : List String :=
  (j.inputs ++ known.files.flatMap fun (_, text) =>
    (includedNames text).flatMap (pathsFor j.options.includePaths)).eraseDups

end SignalLang.Cli
