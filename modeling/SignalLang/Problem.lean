import SignalLang.Source.Library

/-!
# Problems

A `Problem` is what a user is told when a program is refused: its `Kind` says what went wrong, its
descriptors point at source text. The first descriptor is the error itself and the others are hints
at related code. `Problem.message` is the one-line form; `Problem.render` quotes the offending lines
with a row of carets under each.
-/

namespace SignalLang

namespace Problem

/-- What went wrong. -/
inductive Kind where
  | syntaxError
  -- names and scopes
  | noEntityWithName | ioInsideMacro | returnFromRoot | missingOutputDefinition
  | missingExportDefinition | writeToReadOnlyVariable | badPropertyName | tooManyInlineReturns
  | missingInlineReturn | nonexistentInclude | duplicateDefinition | invalidLiteral
  | expressionNotAssignable | statementNotAllowedHere
  -- types
  | mismatchedAssign | wrongType | noCommonType | badOperandType | badArrayLiteral | notADataType
  | arrayBaseNotType | asTypeBound | cannotInflate | notAMacro | unresolvedBoundVar | valueTooSmall
  | valueTooBig | contradictoryBound
  -- shapes and ranges
  | cannotIndex | arrayIndexNotInt | arrayIndexLessThanZero | arrayIndexTooBig | arraySizeLessThanOne
  | arraySizeNotInt | arraySizeNotResolved | emptyArrayLiteral | wrongNumberOfInputs
  | wrongNumberOfOutputs | guaranteedAssert | divisionByZero | negativeExponent
  -- compile time and run time
  | valueNotRunTimeCompatible | runTimeIndexesOnCompileTimeVariable | typeNotCompileTime
  | compileTimeInput | compileTimeOutput | compileTimeExport | mainVariableInStaticInit
  | macroNotCompileTime | danglingValue | loopBoundsNotInt | conditionalReturn
  /-- A kind of a user's own. -/
  | custom (name : String)
deriving DecidableEq, Repr, Inhabited

/-- The stable name of a kind. -/
def Kind.name : Kind → String
  | .syntaxError => "syntax_error"
  | .noEntityWithName => "no_entity_with_name"
  | .ioInsideMacro => "io_inside_macro"
  | .returnFromRoot => "return_from_root"
  | .missingOutputDefinition => "missing_output_definition"
  | .missingExportDefinition => "missing_export_definition"
  | .writeToReadOnlyVariable => "write_to_read_only_variable"
  | .badPropertyName => "bad_property_name"
  | .tooManyInlineReturns => "too_many_inline_returns"
  | .missingInlineReturn => "missing_inline_return"
  | .nonexistentInclude => "nonexistent_include"
  | .duplicateDefinition => "duplicate_definition"
  | .invalidLiteral => "invalid_literal"
  | .expressionNotAssignable => "expression_not_assignable"
  | .statementNotAllowedHere => "statement_not_allowed_here"
  | .mismatchedAssign => "mismatched_assign"
  | .wrongType => "wrong_type"
  | .noCommonType => "no_bct_binop"
  | .badOperandType => "bad_operand_type"
  | .badArrayLiteral => "bad_array_literal"
  | .notADataType => "not_a_data_type"
  | .arrayBaseNotType => "array_base_not_data_type"
  | .asTypeBound => "as_type_bound"
  | .cannotInflate => "cannot_inflate"
  | .notAMacro => "not_a_macro"
  | .unresolvedBoundVar => "unresolved_bounded_var"
  | .valueTooSmall => "value_too_small"
  | .valueTooBig => "value_too_big"
  | .contradictoryBound => "contradictory_bound"
  | .cannotIndex => "cannot_index"
  | .arrayIndexNotInt => "array_index_not_int"
  | .arrayIndexLessThanZero => "array_index_less_than_zero"
  | .arrayIndexTooBig => "array_index_too_big"
  | .arraySizeLessThanOne => "array_size_less_than_one"
  | .arraySizeNotInt => "array_size_not_int"
  | .arraySizeNotResolved => "array_size_not_resolved"
  | .emptyArrayLiteral => "empty_array_literal"
  | .wrongNumberOfInputs => "wrong_number_of_inputs"
  | .wrongNumberOfOutputs => "wrong_number_of_outputs"
  | .guaranteedAssert => "guaranteed_assert"
  | .divisionByZero => "division_by_zero"
  | .negativeExponent => "negative_exponent"
  | .valueNotRunTimeCompatible => "value_not_run_time_compatible"
  | .runTimeIndexesOnCompileTimeVariable => "rt_indexes_on_ct_variable"
  | .typeNotCompileTime => "type_not_compile_time"
  | .compileTimeInput => "compile_time_input"
  | .compileTimeOutput => "compile_time_output"
  | .compileTimeExport => "compile_time_export"
  | .mainVariableInStaticInit => "main_variable_in_static_init"
  | .macroNotCompileTime => "macro_not_compile_time"
  | .danglingValue => "dangling_value"
  | .loopBoundsNotInt => "loop_bounds_not_int"
  | .conditionalReturn => "conditional_return"
  | .custom name => name

/-- The error itself, or a hint that supports it. -/
inductive Severity where
  | error
  | hint
deriving DecidableEq, Repr, Inhabited

/-- The word that introduces a descriptor. -/
def Severity.label : Severity → String
  | .error => "error"
  | .hint => "hint"

/-- One annotated span. -/
structure Descriptor where
  span : Span
  severity : Severity
  caption : String
deriving DecidableEq, Repr, Inhabited

end Problem

/-- A reason to refuse a program, with the places it is about. -/
structure Problem where
  kind : Problem.Kind
  descriptors : List Problem.Descriptor := []
deriving DecidableEq, Repr, Inhabited

namespace Problem

/-- A problem whose error stands at `span`. -/
def error (kind : Kind) (span : Span) (caption : String) : Problem :=
  ⟨kind, [⟨span, .error, caption⟩]⟩

/-- Adds a descriptor behind the others. -/
def describe (p : Problem) (d : Descriptor) : Problem :=
  { p with descriptors := p.descriptors ++ [d] }

/-- Adds a hint. -/
def hint (p : Problem) (span : Span) (caption : String) : Problem :=
  p.describe ⟨span, .hint, caption⟩

/-- Where the error is. -/
def span (p : Problem) : Span :=
  p.descriptors.head?.elim .builtin (·.span)

/-- What the error says; a problem without descriptors says its kind. -/
def caption (p : Problem) : String :=
  p.descriptors.head?.elim p.kind.name (·.caption)

/-- The one-line form, with its position when it has one. -/
def message (p : Problem) : String :=
  let said := s!"{p.kind.name}: {p.caption}"
  if p.span.isBuiltin ∨ p.span.start.line = 0 then said
  else s!"{p.span.start.line}:{p.span.start.column}: {said}"

/-- Two problems are alike when their kinds have one name. -/
def isLike (p q : Problem) : Bool := p.kind.name = q.kind.name

/-- Where the carets of a span stand under its line: the column of the first, from one, and their
number. The column is kept on the line or just behind it, and the carets end with the line;
`length` is the line's length in bytes. -/
def carets (length : Int) (span : Span) : Int × Int :=
  let column := min (max span.start.column 1) (length + 1)
  let width :=
    if span.stop.line = span.start.line ∧ span.stop.column > column then span.stop.column - column
    else 1
  if column - 1 + width > length ∧ length ≥ column then (column, length - column + 1)
  else (column, width)

/-- `c` written `n` times. -/
def repeated (c : Char) (n : Int) : String := String.ofList (List.replicate n.toNat c)

/-- A number right-aligned in three columns. -/
def gutter (n : Int) : String :=
  let digits := toString n
  repeated ' ' (3 - digits.length) ++ digits

/-- The quoted line of a span with its carets. -/
def quotedLine (line : String) (span : Span) : String :=
  let (column, width) := carets line.utf8ByteSize span
  let row := repeated ' ' (column - 1) ++ repeated '^' width
  s!"   |\n{gutter span.start.line}| {line}\n   | {row}\n"

/-- The place of a descriptor: a line that names it and, if the file has that line, the line quoted. -/
def place (lib : Library) (d : Descriptor) : String :=
  if d.span.isBuiltin then "  --> <builtin>\n"
  else
    s!"  --> {lib.describe d.span}\n" ++
      (lib.line? d.span.file d.span.start.line).elim "" (quotedLine · d.span)

/-- Every descriptor with its label, caption and place; a blank line between two. -/
def render (p : Problem) (lib : Library) : String :=
  let head (d : Descriptor) (first : Bool) : String :=
    if first then s!"{d.severity.label}[{p.kind.name}]: {d.caption}\n"
    else s!"{d.severity.label}: {d.caption}\n"
  let block (d : Descriptor) (i : Nat) : String := head d (i = 0) ++ place lib d
  "\n".intercalate (p.descriptors.zipIdx.map fun (d, i) => block d i)

end Problem

end SignalLang
