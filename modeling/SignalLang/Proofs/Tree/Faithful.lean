import SignalLang.LongWord
import SignalLang.Proofs.Tree.Views

/-!
# Trees that printing keeps

The printer puts parentheses around operators that are operands and nowhere else; `unambiguous` says of a
tree that this is enough for its text to show how it is built. `Grammatical` says what every tree that was
read has in common. A tree that is both, and whose literals can be read back, is `Faithful`.
-/

namespace SignalLang.Tree

/-! ## Literals -/

/-- A literal whose text goes through the conversions of numbers and quoted texts. -/
inductive Literal where
  | float (value : Float)
  | path (bytes : List UInt8)

/-- Whether the text of a literal stands for it. A float must be one that can be written without a sign. -/
def Literal.ReadsBack : Literal → Prop
  | .float v => (∃ x, Decimal.decodeDouble v = .finite false x) ∧ floatValue? (floatText v) = some v
  | .path bytes => Text.unquote? (Text.quoteBytes bytes) = some bytes

mutual

/-- The literals of an expression. -/
def Expr.literals : Expr → List Literal
  | .name _ | .int .. | .openBound _ => []
  | .float v _ => [.float v]
  | .array items _ => exprLiterals items
  | .arrayType dims base _ => exprLiterals dims ++ base.literals
  | .upperBound upper _ => upper.literals
  | .closedBound lower upper _ => lower.literals ++ upper.literals
  | .index base index _ _ => base.literals ++ index.literals
  | .property base _ _ _ => base.literals
  | .unary _ operand _ => operand.literals
  | .binary _ left right _ => left.literals ++ right.literals
  | .call _ inputs _ outputs _ => exprLiterals inputs ++ outputLiterals outputs
  | .decl type _ _ => type.literals

/-- The literals of expressions. -/
def exprLiterals : List Expr → List Literal
  | [] => []
  | e :: es => e.literals ++ exprLiterals es

/-- The literals of an output. -/
def Output.literals : Output → List Literal
  | .inline _ => []
  | .target target _ => target.literals

/-- The literals of outputs. -/
def outputLiterals : List Output → List Literal
  | [] => []
  | o :: os => o.literals ++ outputLiterals os

end

mutual

/-- The literals of a statement. -/
def Stmt.literals : Stmt → List Literal
  | .io _ type _ _ | .decl type _ _ _ => type.literals
  | .assign target value _ => target.literals ++ value.literals
  | .macroDef _ _ _ body _ _ | .static _ body _ | .block body => body.literals
  | .call value _ | .expr value _ | .assert value _ => value.literals
  | .branch clauses otherwise _ => clauseLiterals clauses ++ otherwiseLiterals otherwise
  | .loop _ start stop _ body _ => start.literals ++ stop.literals ++ body.literals
  | .ret _ => []
  | .includeFile path _ => [.path path]

/-- The literals of a block. -/
def Block.literals : Block → List Literal
  | .mk statements _ => stmtLiterals statements

/-- The literals of statements. -/
def stmtLiterals : List Stmt → List Literal
  | [] => []
  | s :: ss => s.literals ++ stmtLiterals ss

/-- The literals of clauses. -/
def clauseLiterals : List Clause → List Literal
  | [] => []
  | .mk condition body :: rest => condition.literals ++ body.literals ++ clauseLiterals rest

/-- The literals of the body without a condition. -/
def otherwiseLiterals : Option Block → List Literal
  | none => []
  | some body => body.literals

end

/-- The literals of a file. -/
def File.literals (f : File) : List Literal := stmtLiterals f.statements

/-! ## Trees whose text shows how they are built -/

mutual

/-- Whether the text of an expression, which has parentheses around operands only, shows how the
expression is built. -/
def Expr.unambiguous : Expr → Bool
  | .name _ | .int .. | .float .. | .openBound _ => true
  | .array items _ => unambiguousExprs items
  | .arrayType dims base _ => unambiguousExprs dims && (base.isName || base.isBound) && base.unambiguous
  -- the sides of a type bound are no binary operators, and `<<` and `>>` would be one token
  | .upperBound upper _ =>
    !upper.isBinary && !upper.startsWithBound && !upper.endsWithBound && upper.unambiguous
  | .closedBound lower upper _ =>
    !lower.isBinary && !lower.startsWithBound && lower.unambiguous &&
      (!upper.isBinary && !upper.endsWithBound && upper.unambiguous)
  | .index base index _ _ => !base.isOperator && base.unambiguous && index.unambiguous
  | .property base _ _ _ => !base.isOperator && base.unambiguous
  | .unary _ operand _ => operand.unambiguous
  | .binary op left right _ =>
    !(op = .lessThan && !left.isOperator && left.endsWithLengths) && left.unambiguous &&
      right.unambiguous
  | .call _ inputs _ outputs _ => unambiguousExprs inputs && unambiguousOutputs outputs
  | .decl type _ _ => !type.endsWithLengths && type.unambiguous

/-- Whether every expression is unambiguous. -/
def unambiguousExprs : List Expr → Bool
  | [] => true
  | e :: es => e.unambiguous && unambiguousExprs es

/-- Whether an output is unambiguous. -/
def Output.unambiguous : Output → Bool
  | .inline _ => true
  | .target target _ => target.unambiguous

/-- Whether every output is unambiguous. -/
def unambiguousOutputs : List Output → Bool
  | [] => true
  | o :: os => o.unambiguous && unambiguousOutputs os

end

mutual

/-- Whether the expressions of a statement are unambiguous; names stand right behind the types of
declarations. -/
def Stmt.unambiguous : Stmt → Bool
  | .io _ type _ _ | .decl type _ _ _ => !type.endsWithLengths && type.unambiguous
  | .assign target value _ => target.unambiguous && value.unambiguous
  | .macroDef _ _ _ body _ _ | .static _ body _ | .block body => body.unambiguous
  | .call value _ | .expr value _ | .assert value _ => value.unambiguous
  | .branch clauses otherwise _ => unambiguousClauses clauses && unambiguousOtherwise otherwise
  | .loop _ start stop _ body _ => start.unambiguous && stop.unambiguous && body.unambiguous
  | .ret _ | .includeFile .. => true

/-- Whether the statements of a block are unambiguous. -/
def Block.unambiguous : Block → Bool
  | .mk statements _ => unambiguousStmts statements

/-- Whether every statement is unambiguous. -/
def unambiguousStmts : List Stmt → Bool
  | [] => true
  | s :: ss => s.unambiguous && unambiguousStmts ss

/-- Whether every clause is unambiguous. -/
def unambiguousClauses : List Clause → Bool
  | [] => true
  | .mk condition body :: rest =>
    condition.unambiguous && body.unambiguous && unambiguousClauses rest

/-- Whether the body without a condition is unambiguous. -/
def unambiguousOtherwise : Option Block → Bool
  | none => true
  | some body => body.unambiguous

end

/-- Whether the text of a file shows how the file is built. -/
def File.unambiguous (f : File) : Bool := unambiguousStmts f.statements

/-! ## Trees that can be read -/

mutual

/-- What every expression that was read satisfies: names and numbers are those of tokens, and declarations
are outputs only. -/
def Expr.Grammatical : Expr → Prop
  | .name id => IsName id.name
  | .int v _ => 0 ≤ v ∧ v ≤ LongWord.greatest
  | .float .. | .openBound _ => True
  | .array items _ => GrammaticalExprs items
  | .arrayType dims base _ => dims ≠ [] ∧ GrammaticalExprs dims ∧ base.Grammatical
  | .upperBound upper _ => upper.Grammatical
  | .closedBound lower upper _ => lower.Grammatical ∧ upper.Grammatical
  | .index base index _ _ => base.Grammatical ∧ index.Grammatical
  | .property base name _ _ => base.Grammatical ∧ IsName name
  | .unary op operand _ => op.IsWritten ∧ operand.Grammatical
  | .binary _ left right _ => left.Grammatical ∧ right.Grammatical
  | .call callee inputs explicit outputs _ =>
    IsName callee.name ∧ GrammaticalExprs inputs ∧ (explicit = false → outputs = []) ∧
      GrammaticalOutputs outputs
  | .decl .. => False

/-- Every expression is grammatical. -/
def GrammaticalExprs : List Expr → Prop
  | [] => True
  | e :: es => e.Grammatical ∧ GrammaticalExprs es

/-- An output is the word for one, a declaration or something that can be assigned. -/
def Output.Grammatical : Output → Prop
  | .inline _ => True
  | .target (.decl type name _) _ => type.Grammatical ∧ IsName name.name
  | .target target _ => target.isAssignable = true ∧ target.Grammatical

/-- Every output is grammatical. -/
def GrammaticalOutputs : List Output → Prop
  | [] => True
  | o :: os => o.Grammatical ∧ GrammaticalOutputs os

end

/-- The target of an assignment is a declaration or something that can be assigned. -/
def Expr.GrammaticalTarget : Expr → Prop
  | .decl type id _ => type.Grammatical ∧ IsName id.name
  | e => e.isAssignable = true ∧ e.Grammatical

/-- Every name is one. -/
def AllNames (ids : List Ident) : Prop := ∀ id ∈ ids, IsName id.name

mutual

/-- What every statement that was read satisfies. -/
def Stmt.Grammatical : Stmt → Prop
  | .io _ type names _ => type.Grammatical ∧ names ≠ [] ∧ AllNames names
  | .decl type name _ _ => type.Grammatical ∧ IsName name.name
  | .assign target value _ => target.GrammaticalTarget ∧ value.Grammatical
  | .macroDef name inputs outputs body _ _ =>
    IsName name.name ∧ AllNames inputs ∧ AllNames outputs ∧ body.Grammatical
  | .call call _ => call.isCall = true ∧ call.Grammatical
  | .expr value _ => value.isCall = false ∧ value.Grammatical
  | .branch clauses otherwise _ =>
    clauses ≠ [] ∧ GrammaticalClauses clauses ∧ GrammaticalOtherwise otherwise
  | .loop counter start stop _ body _ =>
    IsName counter.name ∧ start.Grammatical ∧ stop.Grammatical ∧ body.Grammatical
  | .static exports body _ => AllNames exports ∧ body.Grammatical
  | .assert condition _ => condition.Grammatical
  | .ret _ | .includeFile .. => True
  | .block b => b.Grammatical

/-- The statements of a block are grammatical. -/
def Block.Grammatical : Block → Prop
  | .mk statements _ => GrammaticalStmts statements

/-- Every statement is grammatical. -/
def GrammaticalStmts : List Stmt → Prop
  | [] => True
  | s :: ss => s.Grammatical ∧ GrammaticalStmts ss

/-- Every clause is grammatical. -/
def GrammaticalClauses : List Clause → Prop
  | [] => True
  | .mk condition body :: rest =>
    condition.Grammatical ∧ body.Grammatical ∧ GrammaticalClauses rest

/-- The body without a condition is grammatical. -/
def GrammaticalOtherwise : Option Block → Prop
  | none => True
  | some body => body.Grammatical

end

/-! ## Faithful trees -/

/-- Whether every literal can be read back. -/
def AllReadBack (literals : List Literal) : Prop := ∀ l ∈ literals, l.ReadsBack

@[simp] theorem allReadBack_append {xs ys : List Literal} :
    AllReadBack (xs ++ ys) ↔ AllReadBack xs ∧ AllReadBack ys := List.forall_mem_append

/-- An expression that was read and can be read again from its text. -/
def Expr.Faithful (e : Expr) : Prop := e.Grammatical ∧ AllReadBack e.literals ∧ e.unambiguous = true

/-- Every expression is faithful. -/
def FaithfulExprs (es : List Expr) : Prop :=
  GrammaticalExprs es ∧ AllReadBack (exprLiterals es) ∧ unambiguousExprs es = true

/-- A target that was read and can be read again from its text. -/
def Expr.FaithfulTarget (e : Expr) : Prop :=
  e.GrammaticalTarget ∧ AllReadBack e.literals ∧ e.unambiguous = true

/-- An output is faithful. -/
def Output.Faithful (o : Output) : Prop := o.Grammatical ∧ AllReadBack o.literals ∧ o.unambiguous = true

/-- Every output is faithful. -/
def FaithfulOutputs (os : List Output) : Prop :=
  GrammaticalOutputs os ∧ AllReadBack (outputLiterals os) ∧ unambiguousOutputs os = true

section

variable {base inner lower upper operand left right type e : Expr} {es : List Expr} {os : List Output}
  {o : Output} {id : Ident} {span nameSpan : Span}

-- Every lemma below opens these, so their equations are made here, once.
attribute [local simp] Expr.Grammatical Expr.literals Expr.unambiguous

@[simp] theorem faithfulExprs_cons : FaithfulExprs (e :: es) ↔ e.Faithful ∧ FaithfulExprs es := by
  simp only [FaithfulExprs, Expr.Faithful, GrammaticalExprs, exprLiterals, allReadBack_append,
    unambiguousExprs, Bool.and_eq_true]
  grind

@[simp] theorem faithfulOutputs_cons : FaithfulOutputs (o :: os) ↔ o.Faithful ∧ FaithfulOutputs os := by
  simp only [FaithfulOutputs, Output.Faithful, GrammaticalOutputs, outputLiterals, allReadBack_append,
    unambiguousOutputs, Bool.and_eq_true]
  grind

theorem Expr.Faithful.name (h : (Expr.name id).Faithful) : IsName id.name := h.1

theorem Expr.Faithful.int {v : Int} (h : (Expr.int v span).Faithful) : 0 ≤ v ∧ v ≤ LongWord.greatest := h.1

theorem Expr.Faithful.float {v : Float} (h : (Expr.float v span).Faithful) : (Literal.float v).ReadsBack :=
  h.2.1 _ (.head _)

theorem Expr.Faithful.array (h : (Expr.array es span).Faithful) : FaithfulExprs es := h

theorem Expr.Faithful.arrayType (h : (Expr.arrayType es base span).Faithful) :
    es ≠ [] ∧ FaithfulExprs es ∧ (base.isName || base.isBound) = true ∧ base.Faithful := by
  simp only [Expr.Faithful, Expr.Grammatical, Expr.literals, allReadBack_append, Expr.unambiguous,
    Bool.and_eq_true] at h
  grind [FaithfulExprs, Expr.Faithful]

theorem Expr.Faithful.upperBound (h : (Expr.upperBound upper span).Faithful) :
    upper.isBinary = false ∧ upper.startsWithBound = false ∧ upper.endsWithBound = false ∧
      upper.Faithful := by
  simp only [Expr.Faithful, Expr.Grammatical, Expr.literals, Expr.unambiguous, Bool.and_eq_true,
    Bool.not_eq_true'] at h
  grind [Expr.Faithful]

theorem Expr.Faithful.closedBound (h : (Expr.closedBound lower upper span).Faithful) :
    (lower.isBinary = false ∧ lower.startsWithBound = false ∧ lower.Faithful) ∧
      upper.isBinary = false ∧ upper.endsWithBound = false ∧ upper.Faithful := by
  simp only [Expr.Faithful, Expr.Grammatical, Expr.literals, allReadBack_append, Expr.unambiguous,
    Bool.and_eq_true, Bool.not_eq_true'] at h
  grind [Expr.Faithful]

theorem Expr.Faithful.index {optional : Bool} (h : (Expr.index base inner optional span).Faithful) :
    base.isOperator = false ∧ base.Faithful ∧ inner.Faithful := by
  simp only [Expr.Faithful, Expr.Grammatical, Expr.literals, allReadBack_append, Expr.unambiguous,
    Bool.and_eq_true, Bool.not_eq_true'] at h
  grind [Expr.Faithful]

theorem Expr.Faithful.property {name : String} (h : (Expr.property base name nameSpan span).Faithful) :
    base.isOperator = false ∧ base.Faithful ∧ IsName name := by
  simp only [Expr.Faithful, Expr.Grammatical, Expr.literals, Expr.unambiguous, Bool.and_eq_true,
    Bool.not_eq_true'] at h
  grind [Expr.Faithful]

theorem Expr.Faithful.unary {op : UnaryOp} (h : (Expr.unary op operand span).Faithful) :
    op.IsWritten ∧ operand.Faithful := by
  simp only [Expr.Faithful, Expr.Grammatical, Expr.literals, Expr.unambiguous] at h
  grind [Expr.Faithful]

theorem Expr.Faithful.binary {op : BinaryOp} (h : (Expr.binary op left right span).Faithful) :
    (op = .lessThan → left.isOperator = false → left.endsWithLengths = false) ∧
      left.Faithful ∧ right.Faithful := by
  simp only [Expr.Faithful, Expr.Grammatical, Expr.literals, allReadBack_append, Expr.unambiguous,
    Bool.and_eq_true, Bool.not_eq_true', Bool.and_eq_false_iff, decide_eq_false_iff_not,
    Bool.not_eq_false'] at h
  grind [Expr.Faithful]

theorem Expr.Faithful.call {explicit : Bool} (h : (Expr.call id es explicit os span).Faithful) :
    IsName id.name ∧ FaithfulExprs es ∧ (explicit = false → os = []) ∧ FaithfulOutputs os := by
  simp only [Expr.Faithful, Expr.Grammatical, Expr.literals, allReadBack_append, Expr.unambiguous,
    Bool.and_eq_true] at h
  grind [FaithfulExprs, FaithfulOutputs]

theorem Expr.Faithful.not_decl : ¬ (Expr.decl type id span).Faithful := fun h => h.1

/-- A target is a declaration, whose type does not run into the name, or it can be assigned. -/
theorem Expr.FaithfulTarget.cases (h : e.FaithfulTarget) :
    (∃ type id span, e = .decl type id span ∧ type.Faithful ∧ type.endsWithLengths = false ∧
      IsName id.name) ∨ e.isAssignable = true ∧ e.Faithful := by
  obtain ⟨grammatical, literals, clear⟩ := h
  cases e with
  | decl type id span =>
    simp only [Expr.unambiguous, Bool.and_eq_true, Bool.not_eq_true'] at clear
    exact .inl ⟨type, id, span, rfl, ⟨grammatical.1, literals, clear.2⟩, clear.1, grammatical.2⟩
  | _ => exact .inr ⟨grammatical.1, grammatical.2, literals, clear⟩

theorem Output.Faithful.target (h : (Output.target e span).Faithful) : e.FaithfulTarget := by
  obtain ⟨grammatical, literals, clear⟩ := h
  refine ⟨?_, literals, clear⟩
  cases e <;> exact grammatical

end

/-- An expression that can be printed: a faithful one, or a declaration. -/
def Expr.Printable : Expr → Prop
  | .decl type id _ => type.Faithful ∧ IsName id.name
  | e => e.Faithful

theorem Expr.Faithful.printable {e : Expr} (h : e.Faithful) : e.Printable := by
  cases e with
  | decl => exact absurd h Expr.Faithful.not_decl
  | _ => exact h

theorem Expr.FaithfulTarget.printable {e : Expr} (h : e.FaithfulTarget) : e.Printable := by
  rcases h.cases with ⟨type, id, span, rfl, faithful, -, isName⟩ | ⟨-, faithful⟩
  · exact ⟨faithful, isName⟩
  · exact faithful.printable

/-- A statement that was read and can be read again from its lines. -/
def Stmt.Faithful (s : Stmt) : Prop := s.Grammatical ∧ AllReadBack s.literals ∧ s.unambiguous = true

/-- Every statement is faithful. -/
def FaithfulStmts (ss : List Stmt) : Prop :=
  GrammaticalStmts ss ∧ AllReadBack (stmtLiterals ss) ∧ unambiguousStmts ss = true

/-- The statements of a block are faithful. -/
def Block.Faithful (b : Block) : Prop := FaithfulStmts b.statements

/-- Every clause is faithful. -/
def FaithfulClauses (cs : List Clause) : Prop :=
  GrammaticalClauses cs ∧ AllReadBack (clauseLiterals cs) ∧ unambiguousClauses cs = true

/-- The body without a condition is faithful. -/
def FaithfulOtherwise (b : Option Block) : Prop :=
  GrammaticalOtherwise b ∧ AllReadBack (otherwiseLiterals b) ∧ unambiguousOtherwise b = true

theorem Block.faithful_iff {b : Block} :
    b.Faithful ↔ b.Grammatical ∧ AllReadBack b.literals ∧ b.unambiguous = true := by
  cases b
  rfl

section

variable {type value target condition start stop : Expr} {ids inputs outputs : List Ident} {id : Ident}
  {body : Block} {clauses : List Clause} {otherwise : Option Block} {s : Stmt} {ss : List Stmt}
  {span header : Span}

attribute [local simp] Stmt.Grammatical Stmt.literals Stmt.unambiguous

@[simp] theorem faithfulStmts_cons : FaithfulStmts (s :: ss) ↔ s.Faithful ∧ FaithfulStmts ss := by
  simp only [FaithfulStmts, Stmt.Faithful, GrammaticalStmts, stmtLiterals, allReadBack_append,
    unambiguousStmts, Bool.and_eq_true]
  grind

@[simp] theorem faithfulClauses_cons :
    FaithfulClauses (.mk condition body :: clauses) ↔
      condition.Faithful ∧ body.Faithful ∧ FaithfulClauses clauses := by
  simp only [FaithfulClauses, Expr.Faithful, Block.faithful_iff, GrammaticalClauses, clauseLiterals,
    allReadBack_append, unambiguousClauses, Bool.and_eq_true]
  grind

theorem FaithfulOtherwise.some (h : FaithfulOtherwise (some body)) : body.Faithful := Block.faithful_iff.2 h

theorem Stmt.Faithful.io {isOutput : Bool} (h : (Stmt.io isOutput type ids span).Faithful) :
    type.Faithful ∧ type.endsWithLengths = false ∧ ids ≠ [] ∧ AllNames ids := by
  simp only [Stmt.Faithful, Stmt.Grammatical, Stmt.literals, Stmt.unambiguous, Bool.and_eq_true,
    Bool.not_eq_true'] at h
  grind [Expr.Faithful]

theorem Stmt.Faithful.decl (h : (Stmt.decl type id header span).Faithful) :
    type.Faithful ∧ type.endsWithLengths = false ∧ IsName id.name := by
  simp only [Stmt.Faithful, Stmt.Grammatical, Stmt.literals, Stmt.unambiguous, Bool.and_eq_true,
    Bool.not_eq_true'] at h
  grind [Expr.Faithful]

theorem Stmt.Faithful.assign (h : (Stmt.assign target value span).Faithful) :
    target.FaithfulTarget ∧ value.Faithful := by
  simp only [Stmt.Faithful, Stmt.Grammatical, Stmt.literals, allReadBack_append, Stmt.unambiguous,
    Bool.and_eq_true] at h
  grind [Expr.Faithful, Expr.FaithfulTarget]

theorem Stmt.Faithful.macroDef (h : (Stmt.macroDef id inputs outputs body header span).Faithful) :
    IsName id.name ∧ AllNames inputs ∧ AllNames outputs ∧ body.Faithful := by
  simp only [Stmt.Faithful, Stmt.Grammatical, Stmt.literals, Stmt.unambiguous] at h
  grind [Block.faithful_iff]

theorem Stmt.Faithful.call (h : (Stmt.call value span).Faithful) : value.isCall = true ∧ value.Faithful :=
  ⟨h.1.1, h.1.2, h.2⟩

theorem Stmt.Faithful.expr (h : (Stmt.expr value span).Faithful) : value.isCall = false ∧ value.Faithful :=
  ⟨h.1.1, h.1.2, h.2⟩

theorem Stmt.Faithful.branch (h : (Stmt.branch clauses otherwise span).Faithful) :
    clauses ≠ [] ∧ FaithfulClauses clauses ∧ FaithfulOtherwise otherwise := by
  simp only [Stmt.Faithful, Stmt.Grammatical, Stmt.literals, allReadBack_append, Stmt.unambiguous,
    Bool.and_eq_true] at h
  grind [FaithfulClauses, FaithfulOtherwise]

theorem Stmt.Faithful.loop {noUnroll : Bool} (h : (Stmt.loop id start stop noUnroll body span).Faithful) :
    IsName id.name ∧ start.Faithful ∧ stop.Faithful ∧ body.Faithful := by
  simp only [Stmt.Faithful, Stmt.Grammatical, Stmt.literals, allReadBack_append, Stmt.unambiguous,
    Bool.and_eq_true] at h
  grind [Expr.Faithful, Block.faithful_iff]

theorem Stmt.Faithful.static (h : (Stmt.static ids body span).Faithful) : AllNames ids ∧ body.Faithful := by
  simp only [Stmt.Faithful, Stmt.Grammatical, Stmt.literals, Stmt.unambiguous] at h
  grind [Block.faithful_iff]

theorem Stmt.Faithful.assert (h : (Stmt.assert condition span).Faithful) : condition.Faithful := h

theorem Stmt.Faithful.includeFile {path : List UInt8} (h : (Stmt.includeFile path span).Faithful) :
    (Literal.path path).ReadsBack :=
  h.2.1 _ (.head _)

theorem Stmt.Faithful.block (h : (Stmt.block body).Faithful) : body.Faithful := Block.faithful_iff.2 h

end

end SignalLang.Tree
