import SignalLang.Proofs.Tree.Reading

/-!
# Reading printed statements

The tokens of faithful statements are read as those statements, up to spans.
-/

namespace SignalLang.Tree

open Parse
open Lexeme (mark)

variable {s : Stream} {rest : List Lexeme} {fuel : Nat}

/-! ## Names -/

/-- Names divided by commas are read up to what is no comma. -/
theorem reads_identList (ids : List Ident) (nonempty : ids ≠ [])
    (here : s.lexemes = identLexemes ids ++ rest) (last : nextKind rest ≠ .comma)
    (enough : 16 * (identLexemes ids ++ rest).length ≤ fuel) :
    Reads (identList fuel) s (fun ids' => ids'.map Ident.bare = ids.map Ident.bare) rest := by
  induction ids generalizing s fuel with
  | nil => exact absurd rfl nonempty
  | cons id ids ih =>
    simp only [identLexemes, List.map_cons, commaLexemes_cons, List.cons_append, List.nil_append,
      List.length_cons] at here enough
    obtain ⟨fuel, rfl⟩ := Nat.exists_eq_add_of_le' (show 1 ≤ fuel by omega)
    unfold identList
    refine (reads_ident here).bind fun id' t like left => ?_
    cases ids with
    | nil =>
      have left : t.lexemes = rest := left
      exact .not_accept (left ▸ last) (.pure (by simp [like]) left)
    | cons next ids =>
      refine .accept left rfl (by decide) fun u left => ?_
      have fuelLeft : 16 * (identLexemes (next :: ids) ++ rest).length ≤ fuel := by
        simp only [identLexemes, List.map_cons, commaTail, List.cons_append, List.length_cons,
          List.length_append] at enough ⊢
        omega
      refine (ih (by simp) left fuelLeft).bind fun ids' v likes left => ?_
      exact .pure (by rw [List.map_cons, List.map_cons, like, likes]) left

/-- Names before a token that is looked for first, so that there need be none. -/
theorem reads_optionalIdents {β : Type} {good : β → Prop} {last : List Lexeme} {f : List Ident → Parse β}
    (close : TokenKind) (ids : List Ident) (here : s.lexemes = identLexemes ids ++ rest)
    (closed : nextKind rest = close) (notComma : close ≠ .comma) (notName : close ≠ .ident)
    (enough : 16 * (identLexemes ids ++ rest).length ≤ fuel)
    (next : ∀ ids' t, ids'.map Ident.bare = ids.map Ident.bare → t.lexemes = rest →
      Reads (f ids') t good last) :
    Reads (if decide (nextKind s.lexemes = close) = true then pure [] >>= f else identList fuel >>= f) s good
      last := by
  cases ids with
  | nil =>
    have here : s.lexemes = rest := here
    rw [if_pos (by simp [here, closed]), pure_bind]
    exact next [] s rfl here
  | cons id ids =>
    have first : nextKind s.lexemes = .ident := by
      rw [here, identLexemes, List.map_cons, commaLexemes_cons]
      rfl
    rw [if_neg (by simp [first, notName.symm])]
    exact (reads_identList (id :: ids) (by simp) here (closed ▸ notComma) enough).bind next

/-! ## Dispatch -/

/-- The first token of a statement. -/
def startsStmt : TokenKind → Bool
  | .kwInput | .kwOutput | .kwMacro | .kwIf | .kwFor | .kwStatic | .kwAssert | .kwReturn | .kwInclude
  | .leftBrace => true
  | kind => startsExpr kind

theorem startsStmt_of_startsExpr {kind : TokenKind} (h : startsExpr kind = true) :
    startsStmt kind = true := by
  cases kind <;> first | rfl | cases h

theorem Expr.FaithfulTarget.head_lexemes {e : Expr} (h : e.FaithfulTarget) :
    ∃ l ls, e.lexemes = l :: ls ∧ startsExpr l.kind = true := by
  rcases h.cases with ⟨type, id, span, rfl, faithful, -⟩ | ⟨-, faithful⟩
  · obtain ⟨l, ls, same, starts, -⟩ := type.head_lexemes faithful
    exact ⟨l, ls ++ [id.lexeme], by simp [Expr.lexemes, same], starts⟩
  · obtain ⟨l, ls, same, starts, -⟩ := e.head_lexemes faithful
    exact ⟨l, ls, same, starts⟩

theorem Stmt.head_lexemes {s : Stmt} (h : s.Faithful) :
    ∃ l ls, s.lexemes = l :: ls ∧ startsStmt l.kind = true := by
  have ofExpr : ∀ {e : Expr} (tail), (∃ l ls, e.lexemes = l :: ls ∧ startsExpr l.kind = true) →
      ∃ l ls, e.lexemes ++ tail = l :: ls ∧ startsStmt l.kind = true := by
    rintro e tail ⟨l, ls, same, starts⟩
    exact ⟨l, ls ++ tail, by rw [same]; rfl, startsStmt_of_startsExpr starts⟩
  have ofFaithful : ∀ {e : Expr} (tail), e.Faithful →
      ∃ l ls, e.lexemes ++ tail = l :: ls ∧ startsStmt l.kind = true := fun {e} tail h => by
    obtain ⟨l, ls, same, starts, -⟩ := e.head_lexemes h
    exact ofExpr tail ⟨l, ls, same, starts⟩
  cases s with
  | io isOutput => exact ⟨_, _, rfl, by cases isOutput <;> rfl⟩
  | decl => exact ofFaithful _ h.decl.1
  | assign target value =>
    obtain ⟨l, ls, same, starts⟩ := ofExpr (mark .assign :: value.lexemes ++ [mark .semicolon])
      h.assign.1.head_lexemes
    exact ⟨l, ls, by rw [← same]; simp [Stmt.lexemes], starts⟩
  | call => exact ofFaithful _ h.call.2
  | expr => exact ofFaithful _ h.expr.2
  | branch clauses =>
    obtain ⟨⟨condition, body⟩, clauses, rfl⟩ := List.exists_cons_of_ne_nil h.branch.1
    exact ⟨mark .kwIf, _, rfl, rfl⟩
  | block b =>
    obtain ⟨statements, span⟩ := b
    exact ⟨_, _, rfl, rfl⟩
  | macroDef | loop | static | assert | ret | includeFile => exact ⟨_, _, rfl, rfl⟩

/-- The tokens of a statement are read as the statement. A branch ends where no `else` follows. -/
def StmtReads (stmt : Stmt) : Prop :=
  ∀ s rest fuel, s.lexemes = stmt.lexemes ++ rest → 16 * (stmt.lexemes ++ rest).length + 8 ≤ fuel →
    nextKind rest ≠ .kwElse →
    Reads (statement fuel) s (fun r => ∃ stmt', r = some stmt' ∧ stmt'.bare = stmt.bare) rest

/-- A statement that starts with an expression. -/
theorem StmtReads.of_simple {stmt : Stmt} (starts : ∃ l ls, stmt.lexemes = l :: ls ∧ startsExpr l.kind = true)
    (h : ∀ s rest fuel, s.lexemes = stmt.lexemes ++ rest → 16 * (stmt.lexemes ++ rest).length + 7 ≤ fuel →
      Reads (simpleStmt fuel) s (fun stmt' => stmt'.bare = stmt.bare) rest) : StmtReads stmt := by
  intro s rest fuel here enough _
  obtain ⟨fuel, rfl⟩ := Nat.exists_eq_add_of_le' (Nat.le_trans (Nat.le_add_left 8 _) enough)
  obtain ⟨l, ls, same, starts⟩ := starts
  have kind : nextKind s.lexemes = l.kind := by rw [here, same]; rfl
  have read : Reads (some <$> simpleStmt (fuel + 7)) s
      (fun r => ∃ stmt', r = some stmt' ∧ stmt'.bare = stmt.bare) rest :=
    (h s rest (fuel + 7) here (by omega)).map fun stmt' like => ⟨stmt', rfl, like⟩
  unfold statement
  refine .peek ?_
  rw [s.kind_peek, kind]
  generalize l.kind = k at starts
  cases k with
  | ident | intLiteral | floatLiteral | leftParen | leftBracket | less | minus | kwNot | kwBNot => exact read
  | _ => cases starts

section

variable {type value target condition start stop : Expr} {ids inputs outputs : List Ident} {id : Ident}
  {body : Block} {clauses : List Clause} {otherwise : Option Block} {span header : Span}

/-- An expression is read where a semicolon, a brace, a word or a sign of assignment follows. -/
theorem reads_expression (faithful : value.Faithful) (here : s.lexemes = value.lexemes ++ rest)
    (enough : 16 * (value.lexemes ++ rest).length + 5 ≤ fuel) (closed : closes (nextKind rest) = true)
    (apart : startsBase (nextKind rest) = false) : Reads (expression fuel) s (IsLike value) rest :=
  faithful.atBinary s rest fuel here enough closed fun _ => apart

/-- The type of a declaration is read where a name follows. -/
theorem reads_type (faithful : type.Faithful) (apart : type.endsWithLengths = false)
    (here : s.lexemes = type.lexemes ++ rest) (enough : 16 * (type.lexemes ++ rest).length + 5 ≤ fuel)
    (name : nextKind rest = .ident) : Reads (expression fuel) s (IsLike type) rest :=
  faithful.atBinary s rest fuel here enough (by rw [name]; rfl) fun lengths => by simp [apart] at lengths

/-! ## Statements of one line -/

theorem reads_declStmt (faithful : type.Faithful) (apart : type.endsWithLengths = false) :
    StmtReads (.decl type id header span) := by
  obtain ⟨l, ls, same, starts, -⟩ := type.head_lexemes faithful
  refine .of_simple ⟨l, ls ++ [id.lexeme, mark .semicolon], by simp [Stmt.lexemes, same], starts⟩ ?_
  intro s rest fuel here enough
  simp only [Stmt.lexemes, List.append_assoc, List.cons_append, List.nil_append] at here enough
  unfold simpleStmt
  refine .peek ?_
  refine (reads_type faithful apart here (by omega) rfl).bind fun type' t like left => .check ?_
  rw [left]
  refine (reads_ident left).bind fun id' u likeId left => ?_
  refine .not_accept (by simp [left]) (.expect left rfl (by decide) fun v left => ?_)
  exact .spanFrom fun span => .pure (by simp [Stmt.bare, show type'.bare = type.bare from like, likeId]) left

/-- The value of an assignment and the semicolon behind it. -/
theorem reads_assignTo {target' : Expr} {first : Token} (faithful : value.Faithful)
    (like : target'.bare = target.bare)
    (here : s.lexemes = value.lexemes ++ mark .semicolon :: rest)
    (enough : 16 * (value.lexemes ++ mark .semicolon :: rest).length + 5 ≤ fuel) :
    Reads (simpleStmt.assignTo fuel first target') s
      (fun stmt' => stmt'.bare = (Stmt.assign target value span).bare) rest := by
  unfold simpleStmt.assignTo
  refine (reads_expression faithful here enough rfl rfl).bind fun value' t likeValue left => ?_
  refine .expect left rfl (by decide) fun u left => .spanFrom fun span => .pure ?_ left
  simp [Stmt.bare, like, show value'.bare = value.bare from likeValue]

theorem reads_assign (isTarget : target.FaithfulTarget) (faithful : value.Faithful) :
    StmtReads (.assign target value span) := by
  obtain ⟨l, ls, same, starts⟩ := isTarget.head_lexemes
  refine .of_simple ⟨l, _, by simp only [Stmt.lexemes, same, List.cons_append]; rfl, starts⟩ ?_
  intro s rest fuel here enough
  simp only [Stmt.lexemes, List.append_assoc, List.cons_append, List.nil_append] at here enough
  unfold simpleStmt
  refine .peek ?_
  rcases isTarget.cases with ⟨type, id, span', rfl, faithful', apart, -⟩ | ⟨assignable, faithful'⟩
  · simp only [Expr.lexemes, List.append_assoc, List.cons_append, List.nil_append] at here enough
    refine (reads_type faithful' apart here (by omega) rfl).bind fun type' t like left => .check ?_
    rw [left]
    refine (reads_ident left).bind fun id' u likeId left => .accept left rfl (by decide) fun v left => ?_
    refine reads_assignTo faithful (by simp [Expr.bare, show type'.bare = type.bare from like, likeId]) left ?_
    simp only [List.length_append, List.length_cons] at enough ⊢
    omega
  · refine (reads_expression faithful' here (by omega) rfl rfl).bind fun target' t like left => .check ?_
    simp only [left, nextKind_cons, kind_mark, reduceCtorEq, decide_false, Bool.false_eq_true, if_false]
    refine .accept left rfl (by decide) fun u left => ?_
    rw [if_pos rfl, if_pos (isAssignable_of_like like assignable)]
    refine reads_assignTo faithful like left ?_
    simp only [List.length_append, List.length_cons] at enough ⊢
    omega

theorem isCall_of_like {e e' : Expr} (like : IsLike e e') : e'.isCall = e.isCall := by
  have bare : ∀ e : Expr, e.bare.isCall = e.isCall := fun e => by cases e <;> rfl
  rw [← bare e', show e'.bare = e.bare from like, bare]

/-- An expression and a semicolon are a call or another expression. -/
theorem reads_exprLine {stmt : Stmt} (faithful : value.Faithful)
    (same : stmt.lexemes = value.lexemes ++ [mark .semicolon])
    (isCall : value.isCall = true → ∀ value' span, IsLike value value' → (Stmt.call value' span).bare = stmt.bare)
    (isOther : value.isCall = false → ∀ value' span, IsLike value value' →
      (Stmt.expr value' span).bare = stmt.bare) : StmtReads stmt := by
  obtain ⟨l, ls, first, starts, -⟩ := value.head_lexemes faithful
  refine .of_simple ⟨l, ls ++ [mark .semicolon], by rw [same, first]; rfl, starts⟩ ?_
  intro s rest fuel here enough
  rw [same, List.append_assoc] at here enough
  unfold simpleStmt
  refine .peek ?_
  refine (reads_expression faithful here (by omega) rfl rfl).bind fun value' t like left => .check ?_
  simp only [left, List.cons_append, List.nil_append, nextKind_cons, kind_mark, reduceCtorEq, decide_false,
    Bool.false_eq_true, if_false]
  refine .not_accept (by simp [left]) ?_
  simp only [Bool.false_eq_true, if_false]
  refine .expect left rfl (by decide) fun u left => ?_
  cases kind : value'.isCall with
  | true =>
    cases value' with
    | call => exact .spanFrom fun span => .pure (isCall (isCall_of_like like ▸ kind) _ _ like) left
    | _ => cases kind
  | false =>
    have read : Reads (do return Stmt.expr value' (← spanFrom s.peek)) u (fun stmt' => stmt'.bare = stmt.bare)
        rest := .spanFrom fun span => .pure (isOther (isCall_of_like like ▸ kind) _ _ like) left
    cases value' with
    | call => cases kind
    | _ => exact read

theorem reads_callStmt (isCall : value.isCall = true) (faithful : value.Faithful) :
    StmtReads (.call value span) :=
  reads_exprLine faithful rfl (fun _ value' _ like => by simp [Stmt.bare, show value'.bare = value.bare from like])
    fun other => by simp [isCall] at other

theorem reads_exprStmt (other : value.isCall = false) (faithful : value.Faithful) :
    StmtReads (.expr value span) :=
  reads_exprLine faithful rfl (fun isCall => by simp [other] at isCall)
    fun _ value' _ like => by simp [Stmt.bare, show value'.bare = value.bare from like]

/-- A statement that its first token announces. -/
theorem StmtReads.of_keyword {stmt : Stmt} (parser : Nat → Parse Stmt) (first : TokenKind)
    (dispatch : ∀ s fuel, nextKind s.lexemes = first →
      (statement (fuel + 1)).run s = (some <$> parser fuel).run s)
    (starts : nextKind stmt.lexemes = first) (nonempty : stmt.lexemes ≠ [])
    (h : ∀ s rest fuel, s.lexemes = stmt.lexemes ++ rest → 16 * (stmt.lexemes ++ rest).length + 7 ≤ fuel →
      nextKind rest ≠ .kwElse → Reads (parser fuel) s (fun stmt' => stmt'.bare = stmt.bare) rest) :
    StmtReads stmt := by
  intro s rest fuel here enough notElse
  obtain ⟨fuel, rfl⟩ := Nat.exists_eq_add_of_le' (Nat.le_trans (Nat.le_add_left 8 _) enough)
  obtain ⟨l, ls, same⟩ := List.exists_cons_of_ne_nil nonempty
  have kind : nextKind s.lexemes = first := by
    rw [here, ← starts, same]
    rfl
  have read : Reads (some <$> parser (fuel + 7)) s
      (fun r => ∃ stmt', r = some stmt' ∧ stmt'.bare = stmt.bare) rest :=
    (h s rest (fuel + 7) here (by omega) notElse).map fun stmt' like => ⟨stmt', rfl, like⟩
  obtain ⟨r, t, run, like, left⟩ := read
  exact ⟨r, t, (dispatch s (fuel + 7) kind).trans run, like, left⟩

theorem reads_io {isOutput : Bool} (faithful : type.Faithful) (apart : type.endsWithLengths = false)
    (nonempty : ids ≠ []) : StmtReads (.io isOutput type ids span) := by
  refine .of_keyword ioDecl (if isOutput then .kwOutput else .kwInput) ?_ rfl (by simp [Stmt.lexemes]) ?_
  · intro s fuel kind
    unfold statement
    rw [run_bind_ok run_peek, s.kind_peek, kind]
    cases isOutput <;> rfl
  intro s rest fuel here enough _
  have names : nextKind (identLexemes ids ++ mark .semicolon :: rest) = .ident := by
    obtain ⟨id, ids, rfl⟩ := List.exists_cons_of_ne_nil nonempty
    simp [identLexemes, commaLexemes_cons, Ident.lexeme]
  simp only [Stmt.lexemes, List.append_assoc, List.cons_append, List.nil_append, List.length_cons,
    List.length_append] at here enough
  have word : s.peek.kind = if isOutput then .kwOutput else .kwInput := by rw [s.kind_peek, here]; rfl
  unfold ioDecl
  refine .advance here (by cases isOutput <;> decide) fun t left => ?_
  refine (reads_type faithful apart left ?_ names).bind fun type' u like left => ?_
  · simp only [List.length_append, List.length_cons]
    omega
  refine (reads_identList ids nonempty left (by simp) ?_).bind fun ids' v likes left => ?_
  · simp only [List.length_append, List.length_cons]
    omega
  refine .expect left rfl (by decide) fun w left => .spanFrom fun span => .pure ?_ left
  cases isOutput <;> simp [Stmt.bare, word, show type'.bare = type.bare from like, likes]

theorem reads_assert (faithful : condition.Faithful) : StmtReads (.assert condition span) := by
  refine .of_keyword assertStmt .kwAssert ?_ rfl (by simp [Stmt.lexemes]) ?_
  · intro s fuel kind
    unfold statement
    rw [run_bind_ok run_peek, s.kind_peek, kind]
  intro s rest fuel here enough _
  simp only [Stmt.lexemes, List.append_assoc, List.cons_append, List.nil_append, List.length_cons,
    List.length_append] at here enough
  unfold assertStmt
  refine .advance here (by decide) fun t left => ?_
  refine (reads_expression faithful left ?_ rfl rfl).bind fun condition' u like left => ?_
  · simp only [List.length_append, List.length_cons]
    omega
  refine .expect left rfl (by decide) fun v left => .spanFrom fun span => .pure ?_ left
  simp [Stmt.bare, show condition'.bare = condition.bare from like]

theorem reads_ret : StmtReads (.ret span) := by
  intro s rest fuel here enough _
  obtain ⟨fuel, rfl⟩ := Nat.exists_eq_add_of_le' (Nat.le_trans (Nat.le_add_left 8 _) enough)
  unfold statement
  refine .peek ?_
  rw [s.kind_peek, here]
  refine .advance here (by decide) fun t left => .expect left rfl (by decide) fun u left => ?_
  exact .spanFrom fun span => .pure ⟨_, rfl, rfl⟩ left

theorem reads_includeFile {path : List UInt8} (back : (Literal.path path).ReadsBack) :
    StmtReads (.includeFile path span) := by
  refine .of_keyword (fun _ => includeStmt) .kwInclude ?_ rfl (by simp [Stmt.lexemes]) ?_
  · intro s fuel kind
    unfold statement
    rw [run_bind_ok run_peek, s.kind_peek, kind]
  intro s rest fuel here _ _
  unfold includeStmt
  refine .advance here (by decide) fun t left => .peek ?_
  have text : t.peek.lexeme = Text.quoteBytes path := congrArg Lexeme.text (t.toLexeme_peek left)
  refine .expect left rfl (by decide) fun u left => ?_
  rw [text, show Text.unquote? (Text.quoteBytes path) = some path from back]
  exact .expect left rfl (by decide) fun v left => .spanFrom fun span => .pure rfl left

/-! ## Blocks -/

/-- The tokens of a block are read as the block. -/
def BlockReads (b : Block) : Prop :=
  ∀ s rest fuel, s.lexemes = b.lexemes ++ rest → 16 * (b.lexemes ++ rest).length + 6 ≤ fuel →
    Reads (block fuel) s (fun b' => b'.bare = b.bare) rest

theorem nextKind_block (b : Block) (rest : List Lexeme) : nextKind (b.lexemes ++ rest) = .leftBrace := by
  cases b
  rfl

/-- No `else` and no end of the file stands where a statement starts. -/
theorem nextKind_stmts {ss : List Stmt} (faithful : FaithfulStmts ss) (last : nextKind rest ≠ .kwElse) :
    nextKind (stmtLexemes ss ++ rest) ≠ .kwElse := by
  cases ss with
  | nil => exact last
  | cons stmt ss =>
    rw [faithfulStmts_cons] at faithful
    obtain ⟨l, ls, same, starts⟩ := Stmt.head_lexemes faithful.1
    simp only [stmtLexemes, same, List.cons_append, nextKind_cons]
    intro h
    rw [h] at starts
    cases starts

/-- Statements are read up to a closing brace. -/
theorem reads_statementList (ss : List Stmt) (faithful : FaithfulStmts ss) (each : ∀ stmt ∈ ss, StmtReads stmt)
    (here : s.lexemes = stmtLexemes ss ++ rest) (last : nextKind rest = .rightBrace)
    (enough : 16 * (stmtLexemes ss ++ rest).length + 9 ≤ fuel) :
    Reads (statementList fuel) s (fun ss' => bareStmts ss' = bareStmts ss) rest := by
  induction ss generalizing s fuel with
  | nil =>
    obtain ⟨fuel, rfl⟩ := Nat.exists_eq_add_of_le' (Nat.le_trans (Nat.le_add_left 9 _) enough)
    have here : s.lexemes = rest := here
    unfold statementList
    refine .check (.atEnd ?_)
    rw [if_pos (by simp [here, last])]
    exact .pure rfl here
  | cons stmt ss ih =>
    obtain ⟨fuel, rfl⟩ := Nat.exists_eq_add_of_le' (Nat.le_trans (Nat.le_add_left 9 _) enough)
    rw [faithfulStmts_cons] at faithful
    obtain ⟨l, ls, same, starts⟩ := Stmt.head_lexemes faithful.1
    simp only [stmtLexemes, List.append_assoc] at here enough
    have first : nextKind s.lexemes = l.kind := by rw [here, same]; rfl
    have inside : (decide (l.kind = .rightBrace) || decide (l.kind = .endOfFile)) = false := by
      generalize l.kind = k at starts
      cases k <;> first | rfl | cases starts
    unfold statementList
    refine .check (.atEnd ?_)
    rw [if_neg (by rw [first, inside]; decide)]
    have notElse : nextKind (stmtLexemes ss ++ rest) ≠ .kwElse := nextKind_stmts faithful.2 (by simp [last])
    refine (each stmt (.head _) s _ (fuel + 8) here (by omega) notElse).bind fun r t like left => ?_
    obtain ⟨stmt', rfl, like⟩ := like
    have fuelLeft : 16 * (stmtLexemes ss ++ rest).length + 9 ≤ fuel + 8 := by
      rw [List.length_append, same, List.length_cons] at enough
      omega
    refine (ih faithful.2 (fun x hx => each x (.tail _ hx)) left fuelLeft).bind fun ss' u likes left => ?_
    exact .pure (by simp [bareStmts, like, likes]) left

theorem reads_block (faithful : body.Faithful) (each : ∀ stmt ∈ body.statements, StmtReads stmt) :
    BlockReads body := by
  intro s rest fuel here enough
  obtain ⟨fuel, rfl⟩ := Nat.exists_eq_add_of_le' (Nat.le_trans (Nat.le_add_left 6 _) enough)
  obtain ⟨statements, span⟩ := body
  simp only [Block.lexemes, List.append_assoc, List.cons_append, List.nil_append, List.length_cons,
    List.length_append] at here enough
  unfold block
  refine .peek (.expect here rfl (by decide) fun t left => ?_)
  refine (reads_statementList statements faithful each left rfl ?_).bind fun ss' u likes left => ?_
  · simp only [List.length_append, List.length_cons]
    omega
  refine .expect left rfl (by decide) fun v left => .spanFrom fun span => .pure ?_ left
  simp [Block.bare, likes]

/-! ## Statements with a body -/

theorem reads_blockStmt (reads : BlockReads body) : StmtReads (.block body) := by
  intro s rest fuel here enough _
  obtain ⟨fuel, rfl⟩ := Nat.exists_eq_add_of_le' (Nat.le_trans (Nat.le_add_left 8 _) enough)
  have kind : nextKind s.lexemes = .leftBrace := by rw [here]; exact nextKind_block body rest
  unfold statement
  refine .peek ?_
  rw [s.kind_peek, kind]
  refine (reads s rest (fuel + 7) here ?_).map fun b' like => ⟨_, rfl, by simp [Stmt.bare, like]⟩
  simp only [Stmt.lexemes] at enough
  omega

theorem reads_static (reads : BlockReads body) : StmtReads (.static ids body span) := by
  refine .of_keyword static .kwStatic ?_ rfl (by simp [Stmt.lexemes]) ?_
  · intro s fuel kind
    conv => lhs; unfold statement
    rw [run_bind_ok run_peek, s.kind_peek, kind]
  intro s rest fuel here enough _
  obtain ⟨fuel, rfl⟩ := Nat.exists_eq_add_of_le' (Nat.le_trans (Nat.le_add_left 7 _) enough)
  simp only [Stmt.lexemes, List.append_assoc, List.cons_append, List.length_cons, List.length_append] at here enough
  unfold static
  refine .advance here (by decide) fun t left => .check ?_
  refine reads_optionalIdents .leftBrace ids left (nextKind_block body rest) (by decide) (by decide) ?_
    fun ids' u likes left => ?_
  · simp only [List.length_append]
    omega
  refine (reads u rest _ left ?_).bind fun body' v like left => ?_
  · simp only [List.length_append]
    omega
  exact .spanFrom fun span => .pure (by simp [Stmt.bare, likes, like]) left

theorem reads_macroInputs (here : s.lexemes = mark .leftParen :: (identLexemes inputs ++ mark .rightParen :: rest))
    (enough : 16 * (identLexemes inputs ++ mark .rightParen :: rest).length ≤ fuel) :
    Reads (macroInputs fuel) s (fun ids => ids.map Ident.bare = inputs.map Ident.bare) rest := by
  unfold macroInputs
  refine .expect here rfl (by decide) fun t left => .check ?_
  refine reads_optionalIdents .rightParen inputs left rfl (by decide) (by decide) enough fun ids u likes left => ?_
  exact .expect left rfl (by decide) fun v left => .pure likes left

/-- The tokens of the outputs of a macro definition. -/
def macroOutputLexemes : List Ident → List Lexeme
  | [] => []
  | [o] => [mark .colon, o.lexeme]
  | os => mark .colon :: mark .leftParen :: identLexemes os ++ [mark .rightParen]

theorem signatureLexemes_eq : signatureLexemes id inputs outputs =
    mark .kwMacro :: id.lexeme :: mark .leftParen ::
      (identLexemes inputs ++ mark .rightParen :: macroOutputLexemes outputs) := by
  match outputs with
  | [] | [_] | _ :: _ :: _ => rfl

theorem reads_macroOutputs (here : s.lexemes = macroOutputLexemes outputs ++ rest)
    (last : nextKind rest ≠ .colon) (enough : 16 * (macroOutputLexemes outputs ++ rest).length ≤ fuel) :
    Reads (macroOutputs fuel) s (fun ids => ids.map Ident.bare = outputs.map Ident.bare) rest := by
  unfold macroOutputs
  match outputs, here, enough with
  | [], here, _ =>
    have here : s.lexemes = rest := here
    exact .not_accept (here ▸ last) (.pure rfl here)
  | [o], here, _ =>
    refine .accept here rfl (by decide) fun t left => .not_accept (by simp [left, Ident.lexeme]) ?_
    exact (reads_ident left).bind fun o' u like left => .pure (by simp [like]) left
  | o :: p :: os, here, enough =>
    refine .accept here rfl (by decide) fun t left => .accept left rfl (by decide) fun u left => .check ?_
    have left : u.lexemes = identLexemes (o :: p :: os) ++ mark .rightParen :: rest :=
      left.trans (List.append_assoc ..)
    refine reads_optionalIdents .rightParen (o :: p :: os) left rfl (by decide) (by decide) ?_
      fun ids v likes left => ?_
    · simp only [macroOutputLexemes, List.cons_append, List.append_assoc, List.nil_append,
        List.length_cons] at enough
      omega
    exact .expect left rfl (by decide) fun w left => .pure likes left

theorem reads_macroDef (reads : BlockReads body) :
    StmtReads (.macroDef id inputs outputs body header span) := by
  refine .of_keyword macroDef .kwMacro ?_ rfl (by simp [Stmt.lexemes, signatureLexemes]) ?_
  · intro s fuel kind
    conv => lhs; unfold statement
    rw [run_bind_ok run_peek, s.kind_peek, kind]
  intro s rest fuel here enough _
  obtain ⟨fuel, rfl⟩ := Nat.exists_eq_add_of_le' (Nat.le_trans (Nat.le_add_left 7 _) enough)
  simp only [Stmt.lexemes, signatureLexemes_eq, List.append_assoc, List.cons_append, List.length_cons,
    List.length_append] at here enough
  unfold macroDef
  refine .advance here (by decide) fun t left => (reads_ident left).bind fun id' u likeId left => ?_
  refine (reads_macroInputs left ?_).bind fun ins v likeIns left => ?_
  · simp only [List.length_append, List.length_cons]
    omega
  refine (reads_macroOutputs left (by rw [nextKind_block]; decide) ?_).bind fun outs w likeOuts left => ?_
  · simp only [List.length_append]
    omega
  refine .spanFrom fun header => (reads w rest _ left ?_).bind fun body' x like left => ?_
  · simp only [List.length_append]
    omega
  exact .spanFrom fun span => .pure (by simp [Stmt.bare, likeId, likeIns, likeOuts, like]) left

theorem reads_loop {noUnroll : Bool} (faithfulStart : start.Faithful) (faithfulStop : stop.Faithful)
    (reads : BlockReads body) : StmtReads (.loop id start stop noUnroll body span) := by
  refine .of_keyword loop .kwFor ?_ rfl (by simp [Stmt.lexemes]) ?_
  · intro s fuel kind
    conv => lhs; unfold statement
    rw [run_bind_ok run_peek, s.kind_peek, kind]
  intro s rest fuel here enough _
  obtain ⟨fuel, rfl⟩ := Nat.exists_eq_add_of_le' (Nat.le_trans (Nat.le_add_left 7 _) enough)
  simp only [Stmt.lexemes, List.append_assoc, List.cons_append, List.length_cons, List.length_append] at here enough
  have follows : closes (nextKind ((if noUnroll then [mark .kwNoUnroll] else []) ++ (body.lexemes ++ rest))) = true ∧
      startsBase (nextKind ((if noUnroll then [mark .kwNoUnroll] else []) ++ (body.lexemes ++ rest))) = false := by
    cases noUnroll with
    | true => exact ⟨rfl, rfl⟩
    | false =>
      simp only [Bool.false_eq_true, if_false, List.nil_append, nextKind_block]
      exact ⟨rfl, rfl⟩
  unfold loop
  refine .advance here (by decide) fun t left => (reads_ident left).bind fun id' u likeId left => ?_
  refine .expect left rfl (by decide) fun v left => ?_
  refine (reads_expression faithfulStart left ?_ rfl rfl).bind fun start' w likeStart left => ?_
  · simp only [List.length_append, List.length_cons]
    omega
  refine .expect left rfl (by decide) fun x left => ?_
  refine (reads_expression faithfulStop left ?_ follows.1 follows.2).bind fun stop' y likeStop left => ?_
  · simp only [List.length_append]
    omega
  have finish : ∀ z, z.lexemes = body.lexemes ++ rest →
      Reads (do
        let body ← block (fuel + 6)
        return Stmt.loop id' start' stop' noUnroll body (← spanFrom s.peek)) z
        (fun stmt' => stmt'.bare = (Stmt.loop id start stop noUnroll body span).bare) rest := by
    intro z left
    refine (reads z rest _ left ?_).bind fun body' x like left => ?_
    · simp only [List.length_append]
      omega
    refine .spanFrom fun span => .pure ?_ left
    simp [Stmt.bare, likeId, show start'.bare = start.bare from likeStart,
      show stop'.bare = stop.bare from likeStop, like]
  cases noUnroll with
  | true => exact .accept left rfl (by decide) finish
  | false =>
    have left : y.lexemes = body.lexemes ++ rest := left
    exact .not_accept (by rw [left, nextKind_block]; decide) (finish y left)

/-! ## Branches -/

/-- The condition and the body of a clause are read. -/
def ClauseReads : Clause → Prop
  | .mk condition body => condition.Faithful ∧ BlockReads body

/-- Conditions and bodies are read up to where no `else` follows. -/
theorem reads_clauseList (clauses : List Clause) {body : Block} (faithful : condition.Faithful)
    (reads : BlockReads body) (each : ∀ c ∈ clauses, ClauseReads c)
    (lastReads : ∀ b, otherwise = some b → BlockReads b)
    (here : s.lexemes = condition.lexemes ++ (body.lexemes ++ (clauseLexemes clauses ++
      (otherwiseLexemes otherwise ++ rest))))
    (last : nextKind rest ≠ .kwElse)
    (enough : 16 * (condition.lexemes ++ (body.lexemes ++ (clauseLexemes clauses ++
      (otherwiseLexemes otherwise ++ rest)))).length + 7 ≤ fuel) :
    Reads (clauseList fuel) s
      (fun r => bareClauses r.1 = bareClauses (.mk condition body :: clauses) ∧
        bareOtherwise r.2 = bareOtherwise otherwise) rest := by
  induction clauses generalizing s fuel condition body with
  | nil =>
    obtain ⟨fuel, rfl⟩ := Nat.exists_eq_add_of_le' (Nat.le_trans (Nat.le_add_left 7 _) enough)
    unfold clauseList
    refine (reads_expression faithful here (by omega) (by rw [nextKind_block]; rfl)
      (by rw [nextKind_block]; rfl)).bind fun condition' t like left => ?_
    rw [List.length_append] at enough
    refine (reads t _ _ left (by omega)).bind fun body' u likeBody left => ?_
    cases otherwise with
    | none =>
      have left : u.lexemes = rest := left
      refine .not_accept (left ▸ last) (.pure ⟨?_, rfl⟩ left)
      simp [bareClauses, show condition'.bare = condition.bare from like, likeBody]
    | some b =>
      simp only [clauseLexemes, otherwiseLexemes, List.nil_append, List.cons_append, List.length_append,
        List.length_cons] at left enough
      refine .accept left rfl (by decide) fun v left => ?_
      refine .not_accept (by rw [left, nextKind_block]; decide) ?_
      refine (lastReads b rfl v rest _ left ?_).bind fun b' w likeLast left => .pure ⟨?_, ?_⟩ left
      · simp only [List.length_append]
        omega
      · simp [bareClauses, show condition'.bare = condition.bare from like, likeBody]
      · simp [bareOtherwise, likeLast]
  | cons clause clauses ih =>
    obtain ⟨fuel, rfl⟩ := Nat.exists_eq_add_of_le' (Nat.le_trans (Nat.le_add_left 7 _) enough)
    obtain ⟨next, nextBody⟩ := clause
    obtain ⟨faithfulNext, readsNext⟩ := each _ (.head _)
    unfold clauseList
    refine (reads_expression faithful here (by omega) (by rw [nextKind_block]; rfl)
      (by rw [nextKind_block]; rfl)).bind fun condition' t like left => ?_
    rw [List.length_append] at enough
    refine (reads t _ _ left (by omega)).bind fun body' u likeBody left => ?_
    simp only [clauseLexemes, List.cons_append, List.append_assoc, List.length_append,
      List.length_cons] at left enough
    refine .accept left rfl (by decide) fun v left => .accept left rfl (by decide) fun w left => ?_
    refine (ih faithfulNext readsNext (fun c hc => each c (.tail _ hc)) left ?_).bind
      fun r x likes left => .pure ⟨?_, likes.2⟩ left
    · simp only [List.length_append]
      omega
    · simp [bareClauses, show condition'.bare = condition.bare from like, likeBody, likes.1]

theorem reads_branch (nonempty : clauses ≠ []) (each : ∀ c ∈ clauses, ClauseReads c)
    (lastReads : ∀ b, otherwise = some b → BlockReads b) : StmtReads (.branch clauses otherwise span) := by
  obtain ⟨⟨condition, body⟩, clauses, rfl⟩ := List.exists_cons_of_ne_nil nonempty
  obtain ⟨faithful, reads⟩ := each _ (.head _)
  refine .of_keyword branch .kwIf ?_ rfl (by simp [Stmt.lexemes, clauseLexemes]) ?_
  · intro s fuel kind
    conv => lhs; unfold statement
    rw [run_bind_ok run_peek, s.kind_peek, kind]
  intro s rest fuel here enough notElse
  obtain ⟨fuel, rfl⟩ := Nat.exists_eq_add_of_le' (Nat.le_trans (Nat.le_add_left 7 _) enough)
  simp only [Stmt.lexemes, clauseLexemes, List.cons_append, List.tail_cons, List.append_assoc,
    List.length_cons] at here enough
  unfold branch
  refine .advance here (by decide) fun t left => ?_
  refine (reads_clauseList clauses faithful reads (fun c hc => each c (.tail _ hc)) lastReads left notElse
    (by omega)).bind fun r u likes left => ?_
  obtain ⟨clauses', otherwise'⟩ := r
  exact .spanFrom fun span => .pure (by simp [Stmt.bare, likes.1, likes.2]) left

end

/-! ## All statements -/

mutual

theorem Stmt.reads : (stmt : Stmt) → stmt.Faithful → StmtReads stmt
  | .io .., h => reads_io h.io.1 h.io.2.1 h.io.2.2.1
  | .decl .., h => reads_declStmt h.decl.1 h.decl.2.1
  | .assign .., h => reads_assign h.assign.1 h.assign.2
  | .macroDef _ _ _ body _ _, h => reads_macroDef (body.reads h.macroDef.2.2.2)
  | .call .., h => reads_callStmt h.call.1 h.call.2
  | .expr .., h => reads_exprStmt h.expr.1 h.expr.2
  | .branch clauses otherwise _, h =>
    reads_branch h.branch.1 (clauses_read clauses h.branch.2.1) (otherwise_reads otherwise h.branch.2.2)
  | .loop _ _ _ _ body _, h => reads_loop h.loop.2.1 h.loop.2.2.1 (body.reads h.loop.2.2.2)
  | .static _ body _, h => reads_static (body.reads h.static.2)
  | .assert .., h => reads_assert h.assert
  | .ret _, _ => reads_ret
  | .includeFile .., h => reads_includeFile h.includeFile
  | .block body, h => reads_blockStmt (body.reads h.block)

theorem Block.reads : (b : Block) → b.Faithful → BlockReads b
  | .mk statements _, h => reads_block h (stmts_read statements h)

theorem stmts_read : (ss : List Stmt) → FaithfulStmts ss → ∀ stmt ∈ ss, StmtReads stmt
  | [], _ => by simp
  | stmt :: ss, h => by
    rw [faithfulStmts_cons] at h
    exact List.forall_mem_cons.2 ⟨stmt.reads h.1, stmts_read ss h.2⟩

theorem clauses_read : (cs : List Clause) → FaithfulClauses cs → ∀ c ∈ cs, ClauseReads c
  | [], _ => by simp
  | .mk condition body :: cs, h => by
    rw [faithfulClauses_cons] at h
    exact List.forall_mem_cons.2 ⟨⟨h.1, body.reads h.2.1⟩, clauses_read cs h.2.2⟩

theorem otherwise_reads : (b : Option Block) → FaithfulOtherwise b → ∀ body, b = some body → BlockReads body
  | none, _ => by simp
  | some body, h => by
    rintro _ ⟨⟩
    exact body.reads h.some

end

end SignalLang.Tree
