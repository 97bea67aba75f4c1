import SignalLang.Problem
import SignalLang.Text.Quoted

/-!
# Problems of names and scopes

Every reason to refuse a program while its names are resolved, with its words.
-/

namespace SignalLang.Problem

/-- A name that stands for nothing, with a similar name that does. -/
def unknownName (span : Span) (name : String) (guess : Option String) : Problem :=
  let p := error .noEntityWithName span s!"cannot find anything named {Text.quote name} in this scope"
  guess.elim p fun g => p.hint span s!"did you mean {Text.quote g}?"

/-- An input or output declared inside a scope. -/
def ioInScope (span : Span) (isOutput : Bool) : Problem :=
  let word := if isOutput then "output" else "input"
  error .ioInsideMacro span s!"{word} variables can only be declared at the top level of the program"

/-- A return outside any macro. -/
def returnOutsideMacro (span : Span) : Problem :=
  error .returnFromRoot span "return is only allowed inside a macro body"

/-- A name that a signature uses twice. -/
def repeatedParameter (span : Span) (name callee : String) (first : Span) : Problem :=
  (error .duplicateDefinition span
    s!"{Text.quote name} appears twice in the signature of macro {callee}").hint first "first used here"

/-- A declared output that the body of its macro does not define. -/
def undefinedOutput (span : Span) (callee name : String) (header : Span) : Problem :=
  (error .missingOutputDefinition span
    s!"macro {callee} declares output {Text.quote name} but its body never defines it").hint
      header "macro signature"

/-- An export that the static block does not define. -/
def undefinedExport (span : Span) (name : String) : Problem :=
  error .missingExportDefinition span s!"static block exports {Text.quote name} but never defines it"

/-- An included file that does not exist. -/
def missingInclude (span : Span) (path : List UInt8) : Problem :=
  error .nonexistentInclude span s!"cannot find included file {Text.quoteBytes path}"

/-- An integer literal out of range. -/
def literalTooLarge (span : Span) (value : Int) : Problem :=
  error .invalidLiteral span s!"{value} does not fit in a 32-bit INT"

/-- An attribute that no value has. -/
def unknownProperty (span : Span) (name : String) : Problem :=
  error .badPropertyName span s!"{Text.quote name} is not a property; expected TYPE or DIMS"

/-- A declaration where a value is needed. -/
def declarationAsValue (span : Span) : Problem :=
  error .statementNotAllowedHere span "a declaration cannot be used as a value"

/-- Two inline outputs of one call. -/
def repeatedInline (span : Span) : Problem :=
  error .tooManyInlineReturns span "a macro call can have at most one inline output"

/-- A call used as a value without an inline output. -/
def noInline (span : Span) : Problem :=
  error .missingInlineReturn span
    "this macro call is used as a value, so one of its outputs must be inline"

/-- An optional index in a target. -/
def optionalTarget (span : Span) : Problem :=
  error .expressionNotAssignable span "optional indexes cannot be assigned to"

/-- Indexes of something that is no variable, in a target. -/
def indexedTarget (span : Span) : Problem :=
  error .expressionNotAssignable span "only variables can be indexed and assigned to"

/-- An expression that cannot be assigned to. -/
def notAssignable (span : Span) : Problem :=
  error .expressionNotAssignable span "this expression cannot be assigned to"

/-- An assignment to a predefined name or a macro. -/
def readOnly (span : Span) (name : String) (definition : Span) : Problem :=
  let p := error .writeToReadOnlyVariable span s!"{Text.quote name} is read-only"
  if definition.isBuiltin then p else p.hint definition s!"{Text.quote name} is defined here"

end SignalLang.Problem
