import SignalLang.Problem
import SignalLang.Ty.Basic

/-!
# Problems of types and values

Every reason to refuse a program while its types and values are worked out, with its words.
-/

namespace SignalLang.Problem

/-- An input that cannot be supplied at run time. -/
def inputNotRuntime (span : Span) (name : String) (b : Bound) : Problem :=
  error .compileTimeInput span s!"input {name} has type {b.text}, which cannot be supplied at run time"

/-- An output that cannot be produced at run time. -/
def outputNotRuntime (span : Span) (name : String) (b : Bound) : Problem :=
  error .compileTimeOutput span s!"output {name} has type {b.text}, which cannot be produced at run time"

/-- A value without a runtime form where one is needed. -/
def onlyCompileTime (span : Span) (ty : Ty) : Problem :=
  error .valueNotRunTimeCompatible span
    s!"a value of type {ty.text} only exists at compile time and cannot be used at run time"

/-- A variable of the program proper, used while statics are initialized. -/
def crossStream (span : Span) (name : String) (definition : Span) : Problem :=
  (error .mainVariableInStaticInit span
    s!"{name} belongs to the main body and cannot be used while initializing statics").hint
      definition "declared here"

/-- A variable read while its type is open. -/
def readWhileOpen (span : Span) (name : String) (b : Bound) (definition : Span) : Problem :=
  (error .unresolvedBoundVar span
    s!"{name} is read before anything was assigned to it, so its type is still {b.text}").hint
      definition "declared here"

/-- A value that is neither known nor can be held at run time. -/
def neitherKnownNorRuntime (span : Span) (name : String) (ty : Ty) : Problem :=
  error .valueNotRunTimeCompatible span
    s!"the value of {name} is not known at compile time, but its type {ty.text} cannot exist at run time"

/-- An array literal without items. -/
def emptyArray (span : Span) : Problem :=
  error .emptyArrayLiteral span "array literals must have at least one item"

/-- An item whose type differs from that of the first. -/
def mixedItems (span : Span) (ty first : Ty) (firstSpan : Span) : Problem :=
  (error .badArrayLiteral span
    s!"this item has type {ty.text} but the first item has type {first.text}").hint firstSpan "first item"

/-- A value where a type is needed. -/
def notAType (kind : Kind) (span : Span) (ty : Ty) : Problem :=
  error kind span s!"expected a data type, found a value of type {ty.text}"

/-- A type that is computed at run time. -/
def typeAtRunTime (span : Span) : Problem :=
  error .typeNotCompileTime span "types must be known at compile time"

/-- A bound where a settled type is needed. -/
def notConcrete (span : Span) (b : Bound) : Problem :=
  error .notADataType span s!"expected a concrete type, found {b.text}"

/-- A bound whose lower side does not promote to its upper side. -/
def contradictory (span : Span) (lower upper : Ty) : Problem :=
  error .contradictoryBound span s!"{lower.text} does not promote to {upper.text}"

/-- An array length that is computed at run time. -/
def sizeAtRunTime (span : Span) : Problem :=
  error .arraySizeNotResolved span "array sizes must be known at compile time"

/-- An array length that is no integer. -/
def sizeNotInt (span : Span) (ty : Ty) : Problem :=
  error .arraySizeNotInt span s!"array sizes must be INT, found {ty.text}"

/-- An array length below one. -/
def sizeBelowOne (span : Span) (n : Int) : Problem :=
  error .arraySizeLessThanOne span s!"array size {n} is less than one"

/-- An index that is no integer. -/
def indexNotInt (span : Span) (ty : Ty) (whole : Span) : Problem :=
  (error .arrayIndexNotInt span s!"array indexes must be INT, found {ty.text}").hint
    whole "while indexing here"

/-- An index below zero. -/
def negativeIndex (span : Span) (n : Int) (whole : Span) : Problem :=
  (error .arrayIndexLessThanZero span s!"index {n} is negative").hint whole "while indexing here"

/-- An index beyond the end. -/
def indexBeyond (span : Span) (n length : Int) (whole : Span) : Problem :=
  (error .arrayIndexTooBig span s!"index {n} is out of range for an array of length {length}").hint
    whole "while indexing here"

/-- Indexes of a value that is no array; `what` is its type as far as it is known. -/
def notIndexable (span : Span) (what : String) (index : Span) : Problem :=
  (error .cannotIndex span s!"cannot index a value of type {what}").hint index "index"

/-- A run-time index of a value that has no runtime form. -/
def runtimeIndexOfValue (span : Span) (ty : Ty) : Problem :=
  error .runTimeIndexesOnCompileTimeVariable span
    s!"a value of type {ty.text} cannot be indexed by a run time index"

/-- A run-time index of a variable that has no runtime form. -/
def runtimeIndexOfVariable (span : Span) (name : String) : Problem :=
  error .runTimeIndexesOnCompileTimeVariable span
    s!"{name} only exists at compile time and cannot be indexed by a run time index"

/-- The lengths of a type that is still open. -/
def openDims (span : Span) (b : Bound) : Problem :=
  error .unresolvedBoundVar span s!"{b.text} has no dimensions until it is concrete"

/-- A unary operator on the wrong type. -/
def badOperand (span : Span) (op : String) (ty : Ty) : Problem :=
  error .badOperandType span s!"{op} cannot be applied to a value of type {ty.text}"

/-- A binary operator on the wrong type. -/
def badOperands (span : Span) (op : String) (ty : Ty) : Problem :=
  error .badOperandType span s!"{op} cannot be applied to values of type {ty.text}"

/-- A right side of `in` or `as` that is no type. -/
def rightSideNotType (span : Span) (op : String) (ty : Ty) : Problem :=
  error .badOperandType span s!"the right side of {op} must be a data type, found {ty.text}"

/-- Operands without a common type. -/
def noCommonType (span : Span) (op : String) (left right : Ty) (leftSpan rightSpan : Span) : Problem :=
  ((error .noCommonType span s!"{op} cannot combine {left.text} and {right.text}").hint
    leftSpan s!"left side has type {left.text}").hint rightSpan s!"right side has type {right.text}"

/-- A right side of `as` that is a bound. -/
def asBound (span : Span) (b : Bound) : Problem :=
  error .asTypeBound span s!"as needs a concrete type, found {b.text}"

/-- A value that cannot be stretched to a type. -/
def cannotStretch (span : Span) (ty target : Ty) : Problem :=
  error .cannotInflate span s!"a value of type {ty.text} cannot be inflated to {target.text}"

/-- A division by zero. -/
def divideByZero (span : Span) : Problem :=
  error .divisionByZero span "integer division by zero"

/-- A power with a negative exponent. -/
def negativePower (span : Span) (n : Int) : Problem :=
  error .negativeExponent span s!"integer power with negative exponent {n}"

/-- A value below the bound of its target. -/
def belowBound (span : Span) (ty : Ty) (b : Bound) (definition : Span) : Problem :=
  (error .valueTooSmall span s!"a value of type {ty.text} is smaller than {b.text} allows").hint
    definition "bound declared here"

/-- A value above the bound of its target. -/
def aboveBound (span : Span) (ty : Ty) (b : Bound) (definition : Span) : Problem :=
  (error .valueTooBig span s!"a value of type {ty.text} is bigger than {b.text} allows").hint
    definition "bound declared here"

/-- A value that does not promote to the type of its target. -/
def mismatch (span : Span) (value target : Ty) (targetSpan valueSpan : Span) : Problem :=
  ((error .mismatchedAssign span
    s!"cannot assign a value of type {value.text} to a target of type {target.text}").hint
      targetSpan s!"target has type {target.text}").hint valueSpan s!"value has type {value.text}"

/-- A variable without a runtime form that is given a run-time value. -/
def cannotHold (span : Span) (name : String) : Problem :=
  error .valueNotRunTimeCompatible span
    s!"{name} only exists at compile time, so it cannot hold a value computed at run time"

/-- A condition that is no truth value; `word` is the statement it belongs to. -/
def conditionNotBool (span : Span) (word : String) (ty : Ty) : Problem :=
  error .wrongType span s!"{word} needs a BOOL condition, found {ty.text}"

/-- An assertion that is known to fail. -/
def assertionFails (span : Span) : Problem :=
  error .guaranteedAssert span "this assertion always fails"

/-- A loop bound that is no integer. -/
def boundNotInt (span : Span) (ty : Ty) : Problem :=
  error .loopBoundsNotInt span s!"loop bounds must be INT, found {ty.text}"

/-- An export without a runtime form. -/
def exportNotRuntime (span : Span) (name : String) (b : Bound) (definition : Span) : Problem :=
  (error .compileTimeExport span
    s!"{name} has type {b.text}, which cannot be kept from static initialization to run time").hint
      definition "declared here"

/-- A value that nothing uses. -/
def dangling (span : Span) (ty : Ty) : Problem :=
  error .danglingValue span s!"a value of type {ty.text} is computed and then thrown away"

/-- A return that may or may not happen. -/
def returnInBranch (span : Span) : Problem :=
  error .conditionalReturn span
    "return inside a branch or a run time loop cannot be decided at compile time"

/-- A call of a value that is no macro. -/
def notCallable (span : Span) (ty : Ty) : Problem :=
  error .notAMacro span s!"a value of type {ty.text} cannot be called"

/-- A call of a macro chosen at run time. -/
def macroAtRunTime (span : Span) : Problem :=
  error .macroNotCompileTime span "the macro to call must be known at compile time"

/-- A call with the wrong number of inputs. -/
def inputCount (span : Span) (takes given : Nat) (header : Span) : Problem :=
  (error .wrongNumberOfInputs span
    s!"the macro takes {takes} inputs but {given} were given").hint header "macro defined here"

/-- A call with the wrong number of outputs. -/
def outputCount (span : Span) (has given : Nat) (header : Span) : Problem :=
  (error .wrongNumberOfOutputs span
    s!"the macro has {has} outputs but {given} were given").hint header "macro defined here"

end SignalLang.Problem
