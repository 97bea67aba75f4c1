import SignalLang.Proofs.Tree.Faithful
import SignalLang.Proofs.Tree.Literals
import SignalLang.Proofs.Tree.Parsers

/-!
# Reading printed expressions

The tokens of a faithful expression are read as that expression. Fuel is counted against the tokens that
are left: a parser that is given sixteen for each of them, and a few for the calls it makes before it reads
the next one, never runs out.
-/

namespace SignalLang.Tree

open Parse
open Lexeme (mark)

/-! ## What may follow -/

/-- Whether a token continues no chain of indexes, properties and calls. -/
def settles : TokenKind → Bool
  | .leftParen | .leftBracket | .dot | .colon => false
  | _ => true

/-- Whether a token continues no expression. -/
def closes (kind : TokenKind) : Bool := settles kind && (binaryOp? kind).isNone

/-- Whether a token behind lengths in brackets starts the base of an array type. -/
def startsBase : TokenKind → Bool
  | .ident | .leftParen | .less => true
  | _ => false

/-- Whether a token starts an expression. -/
def startsExpr : TokenKind → Bool
  | .ident | .intLiteral | .floatLiteral | .leftParen | .leftBracket | .less | .minus | .kwNot | .kwBNot =>
    true
  | _ => false

/-- The first token of an expression. -/
theorem Expr.head_lexemes : (e : Expr) → e.Faithful →
    ∃ l ls, e.lexemes = l :: ls ∧ startsExpr l.kind = true ∧
      (e.isOperator = false → unaryOp? l.kind = none)
  | .name id, _ => ⟨_, _, rfl, rfl, fun _ => rfl⟩
  | .int .., _ => ⟨_, _, rfl, rfl, fun _ => rfl⟩
  | .float .., _ => ⟨_, _, rfl, rfl, fun _ => rfl⟩
  | .array .., _ => ⟨_, _, rfl, rfl, fun _ => rfl⟩
  | .arrayType dims base _, h => by
    obtain ⟨d, ds, rfl⟩ := List.exists_cons_of_ne_nil h.arrayType.1
    exact ⟨mark .leftBracket, _, by
      simp only [Expr.lexemes, exprLexemes, List.flatMap_cons, List.cons_append]; rfl, rfl, fun _ => rfl⟩
  | .openBound _, _ => ⟨_, _, rfl, rfl, fun _ => rfl⟩
  | .upperBound .., _ => ⟨_, _, rfl, rfl, fun _ => rfl⟩
  | .closedBound .., _ => ⟨_, _, rfl, rfl, fun _ => rfl⟩
  | .index base .., h => by
    obtain ⟨l, ls, same, starts, notUnary⟩ := base.head_lexemes h.index.2.1
    exact ⟨l, _, by simp only [Expr.lexemes, same, List.cons_append]; rfl, starts,
      fun _ => notUnary h.index.1⟩
  | .property base .., h => by
    obtain ⟨l, ls, same, starts, notUnary⟩ := base.head_lexemes h.property.2.1
    exact ⟨l, _, by simp only [Expr.lexemes, same, List.cons_append]; rfl, starts,
      fun _ => notUnary h.property.1⟩
  | .unary op operand _, h => by
    refine ⟨_, _, rfl, ?_, by simp [Expr.isOperator]⟩
    rcases h.unary.1.cases with rfl | rfl | rfl <;> rfl
  | .binary op left right _, h => by
    obtain ⟨l, ls, same, starts, -⟩ := left.head_lexemes h.binary.2.1
    cases operator : left.isOperator with
    | true =>
      exact ⟨mark .leftParen, _, by simp only [Expr.lexemes, operandLexemes, operator, if_true, List.cons_append]; rfl,
        rfl, by simp [Expr.isOperator]⟩
    | false =>
      exact ⟨l, _, by simp only [Expr.lexemes, operandLexemes, operator, same, List.cons_append]; rfl, starts,
        by simp [Expr.isOperator]⟩
  | .call .., _ => ⟨_, _, rfl, rfl, fun _ => rfl⟩
  | .decl .., h => absurd h Expr.Faithful.not_decl

/-! ## Statements about one expression -/

/-- An expression is read without its spans. -/
abbrev IsLike (e : Expr) : Expr → Prop := fun e' => e'.bare = e.bare

/-- What follows an expression does not turn lengths at its end into an array type. -/
def Expr.EndsBefore (e : Expr) (rest : List Lexeme) : Prop :=
  e.endsWithLengths = true → startsBase (nextKind rest) = false

/-- The tokens of an expression are read where a whole expression stands. -/
def AtBinary (e : Expr) : Prop :=
  ∀ s rest fuel, s.lexemes = e.lexemes ++ rest → 16 * (e.lexemes ++ rest).length + 5 ≤ fuel →
    closes (nextKind rest) = true → e.EndsBefore rest → Reads (binary 0 fuel) s (IsLike e) rest

/-- The tokens of an expression are read where an operand stands. -/
def AtUnary (e : Expr) : Prop :=
  ∀ s rest fuel, s.lexemes = e.lexemes ++ rest → 16 * (e.lexemes ++ rest).length + 4 ≤ fuel →
    settles (nextKind rest) = true → e.EndsBefore rest → Reads (unary fuel) s (IsLike e) rest

/-- The tokens of an expression are read where no operator, index, property or call may stand. -/
def AtPrimary (e : Expr) : Prop :=
  ∀ s rest fuel, s.lexemes = e.lexemes ++ rest → 16 * (e.lexemes ++ rest).length + 3 ≤ fuel →
    Reads (primary fuel) s (IsLike e) rest

/-- Lengths in brackets may stand at the front of some tokens, but nothing that could be the base of an
array type stands behind them. -/
def NoBase (ls : List Lexeme) : Prop :=
  ∀ s fuel dims s', s.lexemes = ls → 16 * ls.length + 1 ≤ fuel →
    (arrayDims fuel).run s = (.ok (some dims), s') → startsBase s'.peek.kind = false

/-- The tokens of an expression are read up to where further indexes and properties may follow. -/
def Chained (e : Expr) : Prop :=
  ∀ s rest fuel start, s.lexemes = e.lexemes ++ rest → 16 * (e.lexemes ++ rest).length + 3 ≤ fuel →
    nextKind rest ≠ .colon → (e.endsWithLengths = true → NoBase rest) →
    ∃ e' s' fuel', e'.bare = e.bare ∧ s'.lexemes = rest ∧ 16 * rest.length + 1 ≤ fuel' ∧
      (primary fuel >>= fun base => postfixes start base fuel).run s = (postfixes start e' fuel').run s'

/-! ## From the inside out -/

variable {s : Stream} {rest : List Lexeme} {fuel : Nat} {e : Expr} {start : Token}

theorem postfixes_stop (e : Expr) (settled : settles (nextKind s.lexemes) = true) (enough : 1 ≤ fuel) :
    Reads (postfixes start e fuel) s (· = e) s.lexemes := by
  obtain ⟨fuel, rfl⟩ := Nat.exists_eq_add_of_le' enough
  unfold postfixes
  refine .peek ?_
  rw [s.kind_peek]
  split
  · rename_i paren
    rw [paren] at settled
    cases settled
  · rename_i bracket
    rw [bracket] at settled
    cases settled
  · rename_i dot
    rw [dot] at settled
    cases settled
  · exact .pure rfl rfl

theorem binaryTail_stop (least : Nat) (e : Expr) (last : binaryOp? (nextKind s.lexemes) = none)
    (enough : 1 ≤ fuel) : Reads (binaryTail least e fuel) s (· = e) s.lexemes := by
  obtain ⟨fuel, rfl⟩ := Nat.exists_eq_add_of_le' enough
  rw [binaryTail]
  refine .peek ?_
  simp only [s.kind_peek, last]
  exact .pure rfl rfl

theorem settles_of_closes {kind : TokenKind} (h : closes kind = true) :
    settles kind = true ∧ binaryOp? kind = none := by
  simpa [closes] using h

theorem noBase_of_kind (settled : settles (nextKind rest) = true) (none : startsBase (nextKind rest) = false) :
    NoBase rest := by
  intro s fuel dims s' here enough run
  obtain ⟨fuel, rfl⟩ := Nat.exists_eq_add_of_le' (Nat.le_trans (Nat.le_add_left 1 _) enough)
  have notBracket : nextKind s.lexemes ≠ .leftBracket := by
    rw [here]
    intro h
    rw [h] at settled
    cases settled
  have read : Reads (arrayDims (fuel + 1)) s (· = some []) s.lexemes := by
    rw [arrayDims]
    exact .not_accept notBracket (.pure rfl rfl)
  obtain ⟨-, left⟩ := read.result run
  rw [s'.kind_peek, left, here]
  exact none

theorem AtUnary.of_chained (faithful : e.Faithful) (plain : e.isOperator = false) (h : Chained e) :
    AtUnary e := by
  intro s rest fuel here enough settled ends
  obtain ⟨fuel, rfl⟩ := Nat.exists_eq_add_of_le' (Nat.le_trans (Nat.le_add_left 4 _) enough)
  obtain ⟨l, ls, same, -, notUnary⟩ := e.head_lexemes faithful
  have first : nextKind s.lexemes = l.kind := by rw [here, same]; rfl
  have notColon : nextKind rest ≠ .colon := fun h => by rw [h] at settled; cases settled
  obtain ⟨e', s', fuel', like, left, enough', run⟩ := h s rest (fuel + 3) s.peek here (by omega) notColon
    fun lengths => noBase_of_kind settled (ends lengths)
  have done : Reads (postfixes s.peek e' fuel') s' (IsLike e) rest := by
    rw [← left] at settled
    exact left ▸ (postfixes_stop e' settled (by omega)).mono fun a same => same ▸ like
  unfold unary
  refine .peek ?_
  simp only [s.kind_peek, first, notUnary plain]
  obtain ⟨a, t, run', isLike, left'⟩ := done
  exact ⟨a, t, run.trans run', isLike, left'⟩

/-- An operand stands where a whole expression may stand, whatever operators may follow it there. -/
theorem binary_of_unary (fuel : Nat) {least : Nat} (h : Reads (unary fuel) s (IsLike e) rest)
    (closed : closes (nextKind rest) = true) (enough : 1 ≤ fuel) :
    Reads (binary least (fuel + 1)) s (IsLike e) rest := by
  unfold binary
  refine h.bind fun e' s' like left => ?_
  have last : binaryOp? (nextKind s'.lexemes) = none := left ▸ (settles_of_closes closed).2
  exact left ▸ (binaryTail_stop least e' last enough).mono fun a same => same ▸ like

theorem AtBinary.of_unary (h : AtUnary e) : AtBinary e := by
  intro s rest fuel here enough closed ends
  obtain ⟨fuel, rfl⟩ := Nat.exists_eq_add_of_le' (Nat.le_trans (Nat.le_add_left 5 _) enough)
  exact binary_of_unary (fuel + 4)
    (h s rest (fuel + 4) here (by omega) (settles_of_closes closed).1 ends) closed (by omega)

/-- An expression in parentheses. -/
theorem primary_paren (fuel : Nat) (h : AtBinary e)
    (here : s.lexemes = mark .leftParen :: e.lexemes ++ mark .rightParen :: rest)
    (enough : 16 * (mark .leftParen :: e.lexemes ++ mark .rightParen :: rest).length + 3 ≤ fuel) :
    Reads (primary fuel) s (IsLike e) rest := by
  obtain ⟨fuel, rfl⟩ := Nat.exists_eq_add_of_le' (Nat.le_trans (Nat.le_add_left 3 _) enough)
  simp only [List.cons_append, List.length_cons, List.length_append] at enough
  unfold primary
  refine .peek ?_
  simp only [s.kind_peek, here, List.cons_append, nextKind_cons, kind_mark]
  refine .advance here (by decide) fun s' left => ?_
  refine (h s' (mark .rightParen :: rest) (fuel + 2) left ?_ rfl fun _ => rfl).bind fun e' t like left => ?_
  · simp only [List.length_append, List.length_cons]
    omega
  exact .expect left rfl (by decide) fun _ left => .pure like left

/-- An operand, in parentheses if it is an operator itself. -/
theorem unary_operand (fuel : Nat) (whole : AtBinary e) (plain : e.isOperator = false → AtUnary e)
    (here : s.lexemes = operandLexemes e e.lexemes ++ rest)
    (enough : 16 * (operandLexemes e e.lexemes ++ rest).length + 4 ≤ fuel)
    (settled : settles (nextKind rest) = true) (ends : e.isOperator = false → e.EndsBefore rest) :
    Reads (unary fuel) s (IsLike e) rest := by
  cases operator : e.isOperator with
  | false =>
    simp only [operandLexemes, operator] at here enough
    exact plain operator s rest fuel here enough settled (ends operator)
  | true =>
    simp only [operandLexemes, operator, if_true, List.append_assoc, List.cons_append,
      List.nil_append] at here enough
    obtain ⟨fuel, rfl⟩ := Nat.exists_eq_add_of_le' (Nat.le_trans (Nat.le_add_left 4 _) enough)
    unfold unary
    refine .peek ?_
    simp only [s.kind_peek, here, nextKind_cons, kind_mark, unaryOp?]
    refine (primary_paren (fuel + 3) whole here ?_).bind fun e' s' like left => ?_
    · simp only [List.cons_append, List.length_cons, List.length_append] at enough ⊢
      omega
    rw [← left] at settled
    exact left ▸ (postfixes_stop e' settled (by omega)).mono fun a same => same ▸ like

section

variable {base inner operand left right type : Expr} {es : List Expr} {os : List Output} {id : Ident}
  {span nameSpan : Span}

theorem atUnary_unary {op : UnaryOp} (written : op.IsWritten) (whole : AtBinary operand)
    (plain : operand.isOperator = false → AtUnary operand) : AtUnary (.unary op operand span) := by
  intro s rest fuel here enough settled ends
  simp only [Expr.lexemes, List.cons_append] at here enough
  obtain ⟨fuel, rfl⟩ := Nat.exists_eq_add_of_le' (Nat.le_trans (Nat.le_add_left 4 _) enough)
  have known : unaryOp? (nextKind s.lexemes) = some op := by rw [here]; exact written
  have inside : (mark op.token).kind ≠ .endOfFile := by
    rcases written.cases with rfl | rfl | rfl <;> decide
  unfold unary
  refine .peek ?_
  simp only [s.kind_peek, known]
  refine .advance here inside fun s' left => ?_
  refine (unary_operand (fuel + 3) whole plain left ?_ settled ?_).bind fun e' t like left => ?_
  · simp only [List.length_cons] at enough
    omega
  · intro operator lengths
    exact ends (by simp [Expr.endsWithLengths, operator, lengths])
  exact .spanOf fun span => .pure (by simp [IsLike, Expr.bare, like]) left

theorem settles_token (op : BinaryOp) : settles op.token = true := by cases op <;> rfl

theorem binaryOp?_token (op : BinaryOp) : binaryOp? op.token = some op := by cases op <;> rfl

theorem startsBase_token {op : BinaryOp} (h : op ≠ .lessThan) : startsBase op.token = false := by
  cases op <;> first | rfl | exact absurd rfl h

theorem atBinary_binary {op : BinaryOp}
    (apart : op = .lessThan → left.isOperator = false → left.endsWithLengths = false)
    (wholeLeft : AtBinary left) (plainLeft : left.isOperator = false → AtUnary left)
    (wholeRight : AtBinary right) (plainRight : right.isOperator = false → AtUnary right) :
    AtBinary (.binary op left right span) := by
  intro s rest fuel here enough closed ends
  simp only [Expr.lexemes, List.append_assoc, List.cons_append] at here enough
  obtain ⟨fuel, rfl⟩ := Nat.exists_eq_add_of_le' (Nat.le_trans (Nat.le_add_left 5 _) enough)
  unfold binary
  refine (unary_operand (fuel + 4) wholeLeft plainLeft here (by omega) (settles_token op) ?_).bind
    fun left' s' likeLeft behindLeft => ?_
  · intro operator lengths
    by_cases less : op = .lessThan
    · rw [apart less operator] at lengths
      cases lengths
    · exact startsBase_token less
  simp only [List.length_append, List.length_cons] at enough
  unfold binaryTail
  refine .peek ?_
  simp only [s'.kind_peek, behindLeft, nextKind_cons, kind_mark, binaryOp?_token, Nat.not_lt_zero, if_false]
  refine .advance behindLeft (by cases op <;> decide) fun t behindSign => ?_
  obtain ⟨settled, -⟩ := settles_of_closes closed
  refine (binary_of_unary (fuel + 2) (unary_operand _ wholeRight plainRight behindSign ?_ settled ?_)
    closed (by omega)).bind fun right' u likeRight behindRight => ?_
  · simp only [List.length_append]
    omega
  · intro operator lengths
    exact ends (by simp [Expr.endsWithLengths, operator, lengths])
  have last : binaryOp? (nextKind u.lexemes) = none := behindRight ▸ (settles_of_closes closed).2
  exact behindRight ▸ (binaryTail_stop 0 _ last (by omega)).mono fun a same => by
    simp [same, IsLike, Expr.bare, likeLeft, likeRight]

/-! ## Lists -/

theorem mem_faithful {e : Expr} (h : FaithfulExprs es) (mem : e ∈ es) : e.Faithful := by
  induction es with
  | nil => cases mem
  | cons f es ih =>
    rw [faithfulExprs_cons] at h
    rcases List.mem_cons.1 mem with rfl | mem
    · exact h.1
    · exact ih h.2 mem

/-- A comma and the items behind it, if there are any. -/
def commaTail : List (List Lexeme) → List Lexeme
  | [] => []
  | item :: items => mark .comma :: commaLexemes (item :: items)

theorem commaLexemes_cons (item : List Lexeme) (items : List (List Lexeme)) :
    commaLexemes (item :: items) = item ++ commaTail items := by
  cases items with
  | nil => simp [commaLexemes, commaTail]
  | cons next items => rfl

/-- Items divided by commas, up to a closing token. -/
def listOf {α : Type} (close : TokenKind) (item : Nat → Parse α) : Nat → Parse (List α)
  | 0 => do fail (← peek) .tooDeep
  | fuel + 1 => do
    if (← check close) || (← atEnd) then return []
    let a ← item fuel
    if ← accept .comma then return a :: (← listOf close item fuel) else return [a]

theorem exprList_eq (close : TokenKind) (fuel : Nat) : exprList close fuel = listOf close (binary 0) fuel := by
  induction fuel with
  | zero => rfl
  | succ fuel ih =>
    unfold exprList listOf
    rw [ih]

theorem outputList_eq (fuel : Nat) : outputList fuel = listOf .rightParen output fuel := by
  induction fuel with
  | zero => rfl
  | succ fuel ih =>
    unfold outputList listOf
    rw [ih]

/-- An item of a list is read where a comma or the closing token follows. -/
structure ItemReads {α : Type} (close : TokenKind) (item : Nat → Parse α) (lexemes : α → List Lexeme)
    (bare : α → α) (a : α) : Prop where
  first : ∃ l ls, lexemes a = l :: ls ∧ l.kind ≠ close ∧ l.kind ≠ .endOfFile
  reads : ∀ s rest fuel, s.lexemes = lexemes a ++ rest → 16 * (lexemes a ++ rest).length + 6 ≤ fuel →
    nextKind rest = .comma ∨ nextKind rest = close → Reads (item fuel) s (fun a' => bare a' = bare a) rest

theorem reads_listOf {α : Type} {close : TokenKind} {item : Nat → Parse α} {lexemes : α → List Lexeme}
    {bare : α → α} (notComma : close ≠ .comma) (items : List α)
    (each : ∀ a ∈ items, ItemReads close item lexemes bare a)
    (here : s.lexemes = commaLexemes (items.map lexemes) ++ rest) (last : nextKind rest = close)
    (enough : 16 * (commaLexemes (items.map lexemes) ++ rest).length + 7 ≤ fuel) :
    Reads (listOf close item fuel) s (fun items' => items'.map bare = items.map bare) rest := by
  induction items generalizing s fuel with
  | nil =>
    obtain ⟨fuel, rfl⟩ := Nat.exists_eq_add_of_le' (Nat.le_trans (Nat.le_add_left 7 _) enough)
    have closed : nextKind s.lexemes = close := by rw [here, ← last]; rfl
    unfold listOf
    refine .check (.atEnd ?_)
    rw [if_pos (by simp [closed])]
    exact .pure rfl here
  | cons a items ih =>
    obtain ⟨fuel, rfl⟩ := Nat.exists_eq_add_of_le' (Nat.le_trans (Nat.le_add_left 7 _) enough)
    rw [List.map_cons, commaLexemes_cons, List.append_assoc] at here enough
    obtain ⟨⟨l, ls, same, notClose, notEnd⟩, reads⟩ := each a (.head _)
    have first : nextKind s.lexemes = l.kind := by rw [here, same]; rfl
    have next : nextKind (commaTail (items.map lexemes) ++ rest) = .comma ∨
        nextKind (commaTail (items.map lexemes) ++ rest) = close := by
      cases items with
      | nil => exact .inr last
      | cons b items => exact .inl rfl
    unfold listOf
    refine .check (.atEnd ?_)
    rw [if_neg (by simp [first, notClose, notEnd])]
    refine (reads s _ (fuel + 6) here (by omega) next).bind fun a' t like behind => ?_
    cases items with
    | nil =>
      refine .not_accept ?_ (.pure (by simp [like]) behind)
      rw [behind, List.map_nil, commaTail, List.nil_append, last]
      exact notComma
    | cons b items =>
      refine .accept behind rfl (by decide) fun u left => ?_
      have fuelLeft : 16 * (commaLexemes ((b :: items).map lexemes) ++ rest).length + 7 ≤ fuel + 6 := by
        simp only [List.map_cons, commaTail, List.length_append, List.length_cons] at enough ⊢
        omega
      refine (ih (fun c hc => each c (.tail _ hc)) left fuelLeft).bind fun items' v likes left => ?_
      exact .pure (by rw [List.map_cons, List.map_cons, like, likes]) left

/-- A token that closes a list of expressions. -/
def IsClose (kind : TokenKind) : Prop := kind = .rightParen ∨ kind = .rightBracket

/-- Expressions are items of the lists of both kinds. -/
theorem AtBinary.item {close : TokenKind} (isClose : IsClose close) (faithful : e.Faithful) (h : AtBinary e) :
    ItemReads close (binary 0) Expr.lexemes Expr.bare e where
  first := by
    obtain ⟨l, ls, same, starts, -⟩ := e.head_lexemes faithful
    refine ⟨l, ls, same, ?_, ?_⟩
    · rintro rfl
      rcases isClose with h | h <;> rw [h] at starts <;> cases starts
    · intro h
      rw [h] at starts
      cases starts
  reads s rest fuel here enough next := by
    have follows : closes (nextKind rest) = true ∧ startsBase (nextKind rest) = false := by
      rcases next with h | h
      · rw [h]
        exact ⟨rfl, rfl⟩
      · rcases isClose with rfl | rfl <;> rw [h] <;> exact ⟨rfl, rfl⟩
    exact h s rest fuel here (by omega) follows.1 fun _ => follows.2

/-- Expressions divided by commas are read up to the closing token. -/
theorem reads_exprList {close : TokenKind} (isClose : IsClose close) (es : List Expr)
    (faithful : FaithfulExprs es) (each : ∀ e ∈ es, AtBinary e)
    (here : s.lexemes = commaLexemes (es.map Expr.lexemes) ++ rest) (last : nextKind rest = close)
    (enough : 16 * (commaLexemes (es.map Expr.lexemes) ++ rest).length + 7 ≤ fuel) :
    Reads (exprList close fuel) s (fun es' => bareExprs es' = bareExprs es) rest := by
  have notComma : close ≠ .comma := by rcases isClose with rfl | rfl <;> decide
  simp only [exprList_eq, bareExprs_eq]
  exact reads_listOf notComma es (fun e he => (each e he).item isClose (mem_faithful faithful he)) here last
    enough

/-- Lengths in brackets are read up to what is no further one. -/
theorem reads_arrayDims (dims : List Expr) (each : ∀ e ∈ dims, AtBinary e)
    (here : s.lexemes = (dims.map Expr.lexemes).flatMap
      (fun d => mark .leftBracket :: d ++ [mark .rightBracket]) ++ rest)
    (last : nextKind rest ≠ .leftBracket)
    (enough : 16 * ((dims.map Expr.lexemes).flatMap
      (fun d => mark .leftBracket :: d ++ [mark .rightBracket]) ++ rest).length + 1 ≤ fuel) :
    Reads (arrayDims fuel) s (fun r => ∃ dims', r = some dims' ∧ bareExprs dims' = bareExprs dims) rest := by
  induction dims generalizing s fuel with
  | nil =>
    obtain ⟨fuel, rfl⟩ := Nat.exists_eq_add_of_le' (Nat.le_trans (Nat.le_add_left 1 _) enough)
    have here : s.lexemes = rest := here
    unfold arrayDims
    exact .not_accept (here ▸ last) (.pure ⟨[], rfl, rfl⟩ here)
  | cons d dims ih =>
    obtain ⟨fuel, rfl⟩ := Nat.exists_eq_add_of_le' (Nat.le_trans (Nat.le_add_left 1 _) enough)
    simp only [List.map_cons, List.flatMap_cons, List.append_assoc, List.cons_append, List.nil_append,
      List.length_cons, List.length_append] at here enough
    unfold arrayDims
    refine .accept here rfl (by decide) fun t left => ?_
    refine (each d (.head _) t _ fuel left ?_ rfl fun _ => rfl).bind fun d' u like left => ?_
    · simp only [List.length_append, List.length_cons]
      omega
    refine .accept left rfl (by decide) fun v left => ?_
    refine (ih (fun e he => each e (.tail _ he)) (by simpa using left) ?_).bind fun r w likes left => ?_
    · simp only [List.length_append, List.cons_append]
      omega
    obtain ⟨dims', rfl, likes⟩ := likes
    exact .pure ⟨d' :: dims', rfl, by simp [bareExprs, like, likes]⟩ left

/-! ## Lengths that belong to no array type -/

/-- The brackets of an index or of an array with one item add nothing that could be a base. -/
theorem noBase_bracket (whole : AtBinary inner) (h : NoBase rest) :
    NoBase (mark .leftBracket :: inner.lexemes ++ mark .rightBracket :: rest) := by
  intro s fuel dims s' here enough run
  obtain ⟨fuel, rfl⟩ := Nat.exists_eq_add_of_le' (Nat.le_trans (Nat.le_add_left 1 _) enough)
  simp only [List.cons_append, List.length_append, List.length_cons] at here enough
  obtain ⟨dim, t, runDim, -, left⟩ := whole s.advance (mark .rightBracket :: rest) fuel
    (s.lexemes_advance here (by decide)) (by simp only [List.length_append, List.length_cons]; omega) rfl
    fun _ => rfl
  have next : nextKind t.lexemes = .rightBracket := by rw [left]; rfl
  unfold arrayDims at run
  rw [run_bind_ok (run_accept (by rw [here]; rfl)), if_pos rfl, run_bind_ok runDim,
    run_bind_ok (run_accept next), if_pos rfl, run_bind] at run
  cases inside : (arrayDims fuel).run t.advance with
  | mk r u =>
    rw [inside] at run
    match r, inside, run with
    | .error _, _, run => cases run
    | .ok none, _, run => cases run
    | .ok (some dims'), inside, run =>
      cases run
      exact h t.advance fuel dims' _ (t.lexemes_advance left (by decide)) (by omega) inside

/-- A bracket that is not closed behind the first expression holds no length. -/
theorem noBase_other (whole : AtBinary inner) (closed : closes (nextKind rest) = true)
    (apart : startsBase (nextKind rest) = false) (other : nextKind rest ≠ .rightBracket) :
    NoBase (mark .leftBracket :: inner.lexemes ++ rest) := by
  intro s fuel dims s' here enough run
  obtain ⟨fuel, rfl⟩ := Nat.exists_eq_add_of_le' (Nat.le_trans (Nat.le_add_left 1 _) enough)
  simp only [List.cons_append, List.length_append, List.length_cons] at here enough
  obtain ⟨dim, t, runDim, -, left⟩ := whole s.advance rest fuel (s.lexemes_advance here (by decide))
    (by simp only [List.length_append]; omega) closed fun _ => apart
  unfold arrayDims at run
  rw [run_bind_ok (run_accept (by rw [here]; rfl)), if_pos rfl, run_bind_ok runDim,
    run_bind_ok (run_not_accept (left ▸ other)), if_neg (by decide)] at run
  cases run

/-- No expression starts with a closing bracket. -/
theorem run_binary_bracket (least fuel : Nat) (here : nextKind s.lexemes = .rightBracket) :
    ∃ e s', (binary least fuel).run s = (.error e, s') := by
  have atPrimary : ∀ fuel, ∃ e s', (primary fuel).run s = (.error e, s') := by
    rintro (_ | fuel)
    · exact ⟨_, _, rfl⟩
    · unfold primary
      rw [run_bind_ok run_peek]
      simp only [s.kind_peek, here]
      exact ⟨_, _, rfl⟩
  have atUnary : ∀ fuel, ∃ e s', (unary fuel).run s = (.error e, s') := by
    rintro (_ | fuel)
    · exact ⟨_, _, rfl⟩
    · obtain ⟨e, t, failed⟩ := atPrimary fuel
      unfold unary
      rw [run_bind_ok run_peek]
      simp only [s.kind_peek, here, unaryOp?]
      exact ⟨e, t, run_bind_error failed⟩
  cases fuel with
  | zero => exact ⟨_, _, rfl⟩
  | succ fuel =>
    obtain ⟨e, t, failed⟩ := atUnary fuel
    unfold binary
    exact ⟨e, t, run_bind_error failed⟩

/-- Brackets with nothing between them hold no length. -/
theorem noBase_empty : NoBase (mark .leftBracket :: mark .rightBracket :: rest) := by
  intro s fuel dims s' here enough run
  obtain ⟨fuel, rfl⟩ := Nat.exists_eq_add_of_le' (Nat.le_trans (Nat.le_add_left 1 _) enough)
  obtain ⟨e, t, failed⟩ := run_binary_bracket 0 fuel (s := s.advance)
    (by rw [s.lexemes_advance here (by decide)]; rfl)
  unfold arrayDims at run
  rw [run_bind_ok (run_accept (by rw [here]; rfl)), if_pos rfl, run_bind_error failed] at run
  cases run

/-- A point is no base. -/
theorem noBase_dot : NoBase (mark .dot :: rest) := by
  intro s fuel dims s' here enough run
  obtain ⟨fuel, rfl⟩ := Nat.exists_eq_add_of_le' (Nat.le_trans (Nat.le_add_left 1 _) enough)
  unfold arrayDims at run
  rw [run_bind_ok (run_not_accept (by rw [here]; simp)), if_neg (by decide)] at run
  cases run
  rw [s.kind_peek, here]
  rfl

/-- Without a base there is no array type. -/
theorem run_arrayType_none (fuel : Nat) {ls : List Lexeme} (h : NoBase ls) (here : s.lexemes = ls)
    (enough : 16 * ls.length + 2 ≤ fuel) (type : Expr) (s' : Stream) :
    (arrayType fuel).run s ≠ (.ok (some type), s') := by
  obtain ⟨fuel, rfl⟩ := Nat.exists_eq_add_of_le' (Nat.le_trans (Nat.le_add_left 2 _) enough)
  intro run
  unfold arrayType at run
  rw [run_bind_ok run_peek, run_bind] at run
  cases inside : (arrayDims (fuel + 1)).run s with
  | mk r t =>
    rw [inside] at run
    match r, inside, run with
    | .error _, _, run => cases run
    | .ok none, _, run => cases run
    | .ok (some dims), inside, run =>
      have none := h s (fuel + 1) dims t here (by omega) inside
      simp only [run_bind_ok run_peek] at run
      split at run
      · rename_i kind
        rw [kind] at none
        cases none
      · rename_i kind
        rw [kind] at none
        cases none
      · rename_i kind
        rw [kind] at none
        cases none
      · cases run

/-! ## Literals, names, arrays and types -/

theorem atPrimary_name : AtPrimary (.name id) := by
  intro s rest fuel here enough
  obtain ⟨fuel, rfl⟩ := Nat.exists_eq_add_of_le' (Nat.le_trans (Nat.le_add_left 3 _) enough)
  have here : s.lexemes = id.lexeme :: rest := here
  have text : s.peek.lexeme = id.name := congrArg Lexeme.text (s.toLexeme_peek here)
  unfold primary
  refine .peek ?_
  simp only [s.kind_peek, here, nextKind_cons, Ident.lexeme]
  refine .advance here (by simp [Ident.lexeme]) fun t left => .spanOf fun span => .pure ?_ left
  simp [IsLike, Expr.bare, Ident.bare, text]

theorem atPrimary_int {v : Int} (nonneg : 0 ≤ v) (bounded : v ≤ LongWord.greatest) :
    AtPrimary (.int v span) := by
  intro s rest fuel here enough
  obtain ⟨fuel, rfl⟩ := Nat.exists_eq_add_of_le' (Nat.le_trans (Nat.le_add_left 3 _) enough)
  have here : s.lexemes = ⟨.intLiteral, toString v⟩ :: rest := here
  have text : s.peek.lexeme = toString v := congrArg Lexeme.text (s.toLexeme_peek here)
  unfold primary
  refine .peek ?_
  simp only [s.kind_peek, here, nextKind_cons]
  refine .advance here (by simp) fun t left => ?_
  simp only [text, intValue?_toString nonneg bounded]
  exact .spanOf fun span => .pure rfl left

theorem atPrimary_float {v : Float} (back : (Literal.float v).ReadsBack) : AtPrimary (.float v span) := by
  intro s rest fuel here enough
  obtain ⟨fuel, rfl⟩ := Nat.exists_eq_add_of_le' (Nat.le_trans (Nat.le_add_left 3 _) enough)
  have here : s.lexemes = ⟨.floatLiteral, floatText v⟩ :: rest := here
  have text : s.peek.lexeme = floatText v := congrArg Lexeme.text (s.toLexeme_peek here)
  unfold primary
  refine .peek ?_
  simp only [s.kind_peek, here, nextKind_cons]
  refine .advance here (by simp) fun t left => ?_
  simp only [text, back.2]
  exact .spanOf fun span => .pure rfl left

/-- A less-than sign starts a type bound. -/
theorem reads_primary_bound {good : Expr → Prop} (here : nextKind s.lexemes = .less)
    (h : Reads (typeBound fuel) s good rest) : Reads (primary (fuel + 1)) s good rest := by
  unfold primary
  refine .peek ?_
  simp only [s.kind_peek, here]
  exact h

theorem atPrimary_openBound : AtPrimary (.openBound span) := by
  intro s rest fuel here enough
  obtain ⟨fuel, rfl⟩ := Nat.exists_eq_add_of_le' (Nat.le_trans (Nat.le_add_left 3 _) enough)
  refine reads_primary_bound (by rw [here]; rfl) ?_
  unfold typeBound
  refine .advance here (by decide) fun t left => .check ?_
  rw [left]
  exact .expect left rfl (by decide) fun u left => .spanFrom fun span => .pure rfl left

/-- The first side of a type bound does not start with its end. -/
theorem not_greater_of_startsExpr {ls : List Lexeme} (faithful : e.Faithful)
    (here : s.lexemes = e.lexemes ++ ls) : (nextKind s.lexemes = .greater) = False := by
  obtain ⟨l, ls, same, starts, -⟩ := e.head_lexemes faithful
  rw [here, same, List.cons_append, nextKind_cons, eq_iff_iff, iff_false]
  intro h
  rw [h] at starts
  cases starts

theorem atPrimary_upperBound (faithful : inner.Faithful) (plain : AtUnary inner) :
    AtPrimary (.upperBound inner span) := by
  intro s rest fuel here enough
  obtain ⟨fuel, rfl⟩ := Nat.exists_eq_add_of_le' (Nat.le_trans (Nat.le_add_left 3 _) enough)
  simp only [Expr.lexemes, List.cons_append, List.append_assoc, List.nil_append, List.length_cons,
    List.length_append] at here enough
  refine reads_primary_bound (by rw [here]; rfl) ?_
  unfold typeBound
  refine .advance here (by decide) fun t left => .check ?_
  simp only [not_greater_of_startsExpr faithful left, decide_false, Bool.false_eq_true, if_false]
  refine (plain t _ (fuel + 1) left ?_ rfl fun _ => rfl).bind fun upper' u like left => ?_
  · simp only [List.length_append, List.length_cons]
    omega
  refine .not_accept (by simp [left]) ?_
  refine .expect left rfl (by decide) fun v left => .spanFrom fun span => .pure ?_ left
  simp [IsLike, Expr.bare, like]

theorem atPrimary_closedBound {lower upper : Expr} (faithful : lower.Faithful) (plainLower : AtUnary lower)
    (plainUpper : AtUnary upper) : AtPrimary (.closedBound lower upper span) := by
  intro s rest fuel here enough
  obtain ⟨fuel, rfl⟩ := Nat.exists_eq_add_of_le' (Nat.le_trans (Nat.le_add_left 3 _) enough)
  simp only [Expr.lexemes, List.cons_append, List.append_assoc, List.nil_append, List.length_cons,
    List.length_append] at here enough
  refine reads_primary_bound (by rw [here]; rfl) ?_
  unfold typeBound
  refine .advance here (by decide) fun t left => .check ?_
  simp only [not_greater_of_startsExpr faithful left, decide_false, Bool.false_eq_true, if_false]
  refine (plainLower t _ (fuel + 1) left ?_ rfl fun _ => rfl).bind fun lower' u likeLower left => ?_
  · simp only [List.length_append, List.length_cons]
    omega
  refine .accept left rfl (by decide) fun v left => ?_
  refine (plainUpper v _ (fuel + 1) left ?_ rfl fun _ => rfl).bind fun upper' w likeUpper left => ?_
  · simp only [List.length_append, List.length_cons]
    omega
  refine .expect left rfl (by decide) fun x left => .spanFrom fun span => .pure ?_ left
  simp [IsLike, Expr.bare, likeLower, likeUpper]

/-! ## Chains -/

/-- What is read at once may be followed by indexes and properties. -/
theorem Chained.of_primary
    (h : ∀ s rest fuel, s.lexemes = e.lexemes ++ rest → 16 * (e.lexemes ++ rest).length + 3 ≤ fuel →
      (e.endsWithLengths = true → NoBase rest) → Reads (primary fuel) s (IsLike e) rest) : Chained e := by
  intro s rest fuel start here enough _ ends
  obtain ⟨e', s', run, like, left⟩ := h s rest fuel here enough ends
  rw [List.length_append] at enough
  exact ⟨e', s', fuel, like, left, by omega, run_bind_ok run⟩

theorem AtPrimary.chained (h : AtPrimary e) : Chained e :=
  .of_primary fun s rest fuel here enough _ => h s rest fuel here enough

/-- The front of an array is none of an array type. -/
theorem noBase_array (each : ∀ e ∈ es, AtBinary e)
    (ends : (Expr.array es span).endsWithLengths = true → NoBase rest) :
    NoBase ((Expr.array es span).lexemes ++ rest) := by
  simp only [Expr.lexemes, exprLexemes_eq, List.append_assoc, List.cons_append, List.nil_append]
  cases es with
  | nil => exact noBase_empty
  | cons e es =>
    cases es with
    | nil => exact noBase_bracket (each e (.head _)) (ends rfl)
    | cons f es =>
      simp only [List.map_cons, commaLexemes, List.append_assoc, List.cons_append]
      exact noBase_other (each e (.head _)) rfl rfl (by simp)

theorem chained_array (faithful : FaithfulExprs es) (each : ∀ e ∈ es, AtBinary e) :
    Chained (.array es span) := by
  refine .of_primary fun s rest fuel here enough ends => ?_
  obtain ⟨fuel, rfl⟩ := Nat.exists_eq_add_of_le' (Nat.le_trans (Nat.le_add_left 3 _) enough)
  have noType := run_arrayType_none (s := s) (fuel + 2) (noBase_array each ends) here (by omega)
  simp only [Expr.lexemes, exprLexemes_eq, List.append_assoc, List.cons_append, List.nil_append,
    List.length_cons, List.length_append] at here enough
  unfold primary
  refine .peek ?_
  simp only [s.kind_peek, here, nextKind_cons, kind_mark]
  have none : Reads (attempt (arrayType (fuel + 2))) s (· = none) s.lexemes :=
    ⟨_, _, run_attempt_none noType, rfl, rfl⟩
  refine none.bind fun r t isNone same => ?_
  subst isNone
  refine .advance (same.trans here) (by decide) fun u left => ?_
  refine (reads_exprList (.inr rfl) es faithful each left rfl ?_).bind fun es' v likes left => ?_
  · simp only [List.length_append, List.length_cons]
    omega
  refine .expect left rfl (by decide) fun w left => .spanFrom fun span => .pure ?_ left
  simp [IsLike, Expr.bare, likes]

theorem chained_arrayType (nonempty : es ≠ []) (each : ∀ e ∈ es, AtBinary e)
    (simple : (base.isName || base.isBound) = true) (atBase : AtPrimary base) :
    Chained (.arrayType es base span) := by
  refine .of_primary fun s rest fuel here enough ends => ?_
  obtain ⟨fuel, rfl⟩ := Nat.exists_eq_add_of_le' (Nat.le_trans (Nat.le_add_left 3 _) enough)
  simp only [Expr.lexemes, exprLexemes_eq, List.append_assoc] at here enough
  have first : nextKind s.lexemes = .leftBracket := by
    obtain ⟨d, ds, rfl⟩ := List.exists_cons_of_ne_nil nonempty
    rw [here]
    rfl
  obtain ⟨l, ls, same, kind⟩ : ∃ l ls, base.lexemes = l :: ls ∧ (l.kind = .ident ∨ l.kind = .less) := by
    cases base with
    | name id => exact ⟨_, _, rfl, .inl rfl⟩
    | openBound _ | upperBound _ _ | closedBound _ _ _ => exact ⟨_, _, rfl, .inr rfl⟩
    | _ => cases simple
  have read : Reads (arrayType (fuel + 2)) s
      (fun r => ∃ type, r = some type ∧ IsLike (.arrayType es base span) type) rest := by
    unfold arrayType
    refine .peek ?_
    refine (reads_arrayDims es each here ?_ (by omega)).bind fun r t likes left => ?_
    · rw [same, List.cons_append, nextKind_cons]
      rcases kind with kind | kind <;> simp [kind]
    obtain ⟨dims', rfl, likes⟩ := likes
    have fuelLeft : 16 * (base.lexemes ++ rest).length + 3 ≤ fuel + 1 := by
      obtain ⟨d, ds, rfl⟩ := List.exists_cons_of_ne_nil nonempty
      simp only [List.map_cons, List.flatMap_cons, List.cons_append, List.length_cons,
        List.length_append] at enough ⊢
      omega
    have behind : Reads (do return some (.arrayType dims' (← primary (fuel + 1)) (← spanFrom s.peek))) t
        (fun r => ∃ type, r = some type ∧ IsLike (.arrayType es base span) type) rest :=
      (atBase t rest (fuel + 1) left fuelLeft).bind fun base' u like left =>
        .spanFrom fun span => .pure ⟨_, rfl, by simp [IsLike, Expr.bare, likes, like]⟩ left
    refine .peek ?_
    rw [t.kind_peek, left, same, List.cons_append, nextKind_cons]
    rcases kind with kind | kind <;> rw [kind] <;> exact behind
  obtain ⟨r, t, run, ⟨type, rfl, like⟩, left⟩ := read
  unfold primary
  refine .peek ?_
  simp only [s.kind_peek, first]
  have found : Reads (attempt (arrayType (fuel + 2))) s (· = some type) rest :=
    ⟨_, _, run_attempt_some run, rfl, left⟩
  refine found.bind fun r u same left => ?_
  subst same
  exact .pure like left

/-! ## Indexes, properties and calls -/

/-- A chain goes on with `ext`, which one call of the parser of chains reads. -/
theorem Chained.extend (chained : Chained base) (ext : List Lexeme) (same : e.lexemes = base.lexemes ++ ext)
    (nonempty : ext ≠ []) (notColon : nextKind ext ≠ .colon)
    (noBase : ∀ rest, (e.endsWithLengths = true → NoBase rest) → base.endsWithLengths = true →
      NoBase (ext ++ rest))
    (step : ∀ t rest fuel start base', IsLike base base' → t.lexemes = ext ++ rest →
      16 * (ext ++ rest).length ≤ fuel → nextKind rest ≠ .colon →
      ∃ e' u, IsLike e e' ∧ u.lexemes = rest ∧
        (postfixes start base' (fuel + 1)).run t = (postfixes start e' fuel).run u) : Chained e := by
  intro s rest fuel start here enough other ends
  obtain ⟨l, ls, rfl⟩ := List.exists_cons_of_ne_nil nonempty
  rw [same, List.append_assoc] at here enough
  obtain ⟨base', t, fuel', like, left, enough', run⟩ := chained s _ fuel start here enough notColon
    (noBase rest ends)
  obtain ⟨fuel', rfl⟩ := Nat.exists_eq_add_of_le' (Nat.le_trans (Nat.le_add_left 1 _) enough')
  obtain ⟨e', u, like', left', run'⟩ := step t rest fuel' start base' like left (by omega) other
  refine ⟨e', u, fuel', like', left', ?_, run.trans run'⟩
  simp only [List.cons_append, List.length_cons, List.length_append] at enough'
  omega

/-- The tokens behind the expression of an index. -/
def indexEnd (optional : Bool) : List Lexeme :=
  if optional then [mark .question, mark .rightBracket] else [mark .rightBracket]

theorem nextKind_indexEnd (optional : Bool) (rest : List Lexeme) :
    closes (nextKind (indexEnd optional ++ rest)) = true ∧
      startsBase (nextKind (indexEnd optional ++ rest)) = false := by
  cases optional <;> exact ⟨rfl, rfl⟩

/-- The end of an index is read. -/
theorem run_indexEnd {β : Type} {optional : Bool} (here : s.lexemes = indexEnd optional ++ rest)
    (f : Bool → Parse β) :
    ∃ t, t.lexemes = rest ∧
      (accept .question >>= fun o => expect .rightBracket >>= fun _ => f o).run s = (f optional).run t := by
  cases optional with
  | true =>
    have left := s.lexemes_advance here (by decide)
    refine ⟨s.advance.advance, s.advance.lexemes_advance left (by decide), ?_⟩
    rw [run_bind_ok (run_accept (by rw [here]; rfl)), run_bind_ok (run_expect (by rw [left]; rfl))]
  | false =>
    refine ⟨s.advance, s.lexemes_advance here (by decide), ?_⟩
    rw [run_bind_ok (run_not_accept (by rw [here]; simp [indexEnd])),
      run_bind_ok (run_expect (by rw [here]; rfl))]

theorem chained_index {optional : Bool} (chained : Chained base) (whole : AtBinary inner) :
    Chained (.index base inner optional span) := by
  refine chained.extend (mark .leftBracket :: inner.lexemes ++ indexEnd optional) ?_ (by simp)
    (by simp) ?_ ?_
  · simp only [Expr.lexemes, List.append_assoc, indexEnd]
  · intro rest ends lengths
    cases optional with
    | true => 
      have other : NoBase (mark .leftBracket :: inner.lexemes ++ (indexEnd true ++ rest)) :=
        noBase_other whole rfl rfl (by simp [indexEnd])
      simpa [indexEnd] using other
    | false => simpa [indexEnd] using noBase_bracket whole (ends (by simp [Expr.endsWithLengths, lengths]))
  · intro t rest fuel start base' like here enough _
    simp only [List.cons_append, List.append_assoc, List.length_cons, List.length_append] at here enough
    obtain ⟨closed, apart⟩ := nextKind_indexEnd optional rest
    obtain ⟨inner', u, runInner, likeInner, left⟩ := whole t.advance _ fuel
      (t.lexemes_advance here (by decide)) (by simp only [List.length_append]; omega) closed fun _ => apart
    obtain ⟨v, last, runEnd⟩ := run_indexEnd left fun o => do
      postfixes start (.index base' inner' o (← spanFrom start)) fuel
    refine ⟨.index base' inner' optional (v.spanFrom start), v, ?_, last, ?_⟩
    · simp [IsLike, Expr.bare, like, likeInner]
    conv => lhs; unfold postfixes
    rw [run_bind_ok run_peek, t.kind_peek, here, nextKind_cons, kind_mark]
    simp only [run_bind_ok run_advance, run_bind_ok runInner]
    exact runEnd

theorem chained_property {name : String} (chained : Chained base) :
    Chained (.property base name nameSpan span) := by
  refine chained.extend [mark .dot, ⟨.ident, name⟩] rfl (by simp) (by simp) ?_ ?_
  · intro rest _ _
    exact noBase_dot
  · intro t rest fuel start base' like here enough _
    have left := t.lexemes_advance here (by decide)
    have text : t.advance.peek.lexeme = name := congrArg Lexeme.text (t.advance.toLexeme_peek left)
    refine ⟨.property base' name (t.advance.peek.span t.advance.advance.file)
      (t.advance.advance.spanFrom start), t.advance.advance,
      ?_, t.advance.lexemes_advance left (by simp), ?_⟩
    · simp [IsLike, Expr.bare, like]
    conv => lhs; unfold postfixes
    rw [run_bind_ok run_peek, t.kind_peek, here, List.cons_append, nextKind_cons, kind_mark]
    simp only [run_bind_ok run_advance, run_bind_ok run_peek]
    rw [run_bind_ok (run_expect (by rw [left]; rfl)), text]
    rfl

/-! ## Calls -/

theorem Expr.isAssignable_bare : (e : Expr) → e.bare.isAssignable = e.isAssignable
  | .index base _ _ _ => by
    have same := base.isAssignable_bare
    cases base <;> simp_all [Expr.bare, Expr.isAssignable]
  | .name _ | .int .. | .float .. | .array .. | .arrayType .. | .openBound _ | .upperBound ..
  | .closedBound .. | .property .. | .unary .. | .binary .. | .call .. | .decl .. => rfl

theorem isAssignable_of_like {e' : Expr} (like : IsLike e e') (h : e.isAssignable = true) :
    e'.isAssignable = true := by
  rw [← e'.isAssignable_bare, show e'.bare = e.bare from like, e.isAssignable_bare, h]

theorem item_inline : ItemReads .rightParen output Output.lexemes Output.bare (.inline span) where
  first := ⟨_, _, rfl, by decide, by decide⟩
  reads s rest fuel here enough _ := by
    obtain ⟨fuel, rfl⟩ := Nat.exists_eq_add_of_le' (Nat.le_trans (Nat.le_add_left 6 _) enough)
    unfold output
    refine .peek ?_
    rw [if_pos (by rw [s.kind_peek, here]; rfl)]
    exact .advance here (by decide) fun t left => .spanOf fun span => .pure rfl left

theorem reads_ident (here : s.lexemes = id.lexeme :: rest) :
    Reads ident s (fun id' => id'.bare = id.bare) rest := by
  have text : s.peek.lexeme = id.name := congrArg Lexeme.text (s.toLexeme_peek here)
  unfold ident
  refine .peek (.expect here rfl (by decide) fun t left => .spanOf fun span => .pure ?_ left)
  simp [Ident.bare, text]

/-- The first token of an expression is not the word for an output. -/
theorem first_of_faithful (faithful : e.Faithful) :
    ∃ l ls, e.lexemes = l :: ls ∧ l.kind ≠ .rightParen ∧ l.kind ≠ .endOfFile ∧ l.kind ≠ .kwInline := by
  obtain ⟨l, ls, same, starts, -⟩ := e.head_lexemes faithful
  refine ⟨l, ls, same, ?_, ?_, ?_⟩ <;> intro h <;> rw [h] at starts <;> cases starts

/-- An output that is a declaration: its type, and its name behind it. -/
theorem item_decl {targetSpan : Span} (faithful : type.Faithful) (apart : type.endsWithLengths = false)
    (whole : AtBinary type) :
    ItemReads .rightParen output Output.lexemes Output.bare (.target (.decl type id span) targetSpan) := by
  obtain ⟨l, ls, same, notClose, notEnd, notInline⟩ := first_of_faithful faithful
  refine ⟨⟨l, ls ++ [id.lexeme], by simp [Output.lexemes, Expr.lexemes, same], notClose, notEnd⟩, ?_⟩
  intro s rest fuel here enough _
  obtain ⟨fuel, rfl⟩ := Nat.exists_eq_add_of_le' (Nat.le_trans (Nat.le_add_left 6 _) enough)
  simp only [Output.lexemes, Expr.lexemes, List.append_assoc, List.cons_append, List.nil_append] at here enough
  have first : nextKind s.lexemes = l.kind := by rw [here, same]; rfl
  unfold output
  refine .peek ?_
  rw [if_neg (by rw [s.kind_peek, first]; exact notInline)]
  refine (whole s _ (fuel + 5) here (by omega) rfl fun lengths => by simp [apart] at lengths).bind
    fun type' t like left => ?_
  refine .check ?_
  rw [left]
  have decl : Reads (declFrom type') t (fun e => e.bare = (Expr.decl type id span).bare) rest := by
    unfold declFrom
    refine (reads_ident left).bind fun id' v likeId left => .pure ?_ left
    simp [Expr.bare, like, likeId]
  refine decl.bind fun e' u like' left => ?_
  simp only [isAssignable_of_like like' rfl, if_true]
  exact .pure (by simp [Output.bare, like']) left

/-- An output that can be assigned. -/
theorem item_target {targetSpan : Span} (faithful : e.Faithful) (assignable : e.isAssignable = true)
    (whole : AtBinary e) :
    ItemReads .rightParen output Output.lexemes Output.bare (.target e targetSpan) := by
  obtain ⟨l, ls, same, notClose, notEnd, notInline⟩ := first_of_faithful faithful
  refine ⟨⟨l, ls, same, notClose, notEnd⟩, fun s rest fuel here enough next => ?_⟩
  obtain ⟨fuel, rfl⟩ := Nat.exists_eq_add_of_le' (Nat.le_trans (Nat.le_add_left 6 _) enough)
  simp only [Output.lexemes] at here enough
  have first : nextKind s.lexemes = l.kind := by rw [here, same]; rfl
  have follows : closes (nextKind rest) = true ∧ startsBase (nextKind rest) = false ∧
      nextKind rest ≠ .ident := by
    rcases next with h | h <;> rw [h] <;> exact ⟨rfl, rfl, by decide⟩
  unfold output
  refine .peek ?_
  rw [if_neg (by rw [s.kind_peek, first]; exact notInline)]
  refine (whole s _ (fuel + 5) here (by omega) follows.1 fun _ => follows.2.1).bind fun e' t like left => ?_
  refine .check ?_
  rw [left]
  simp only [follows.2.2, decide_false, Bool.false_eq_true, if_false, pure_bind]
  rw [if_pos (isAssignable_of_like like assignable)]
  exact .pure (by simp [Output.bare, show e'.bare = e.bare from like]) left

theorem reads_callSpan {β : Type} {good : β → Prop} {callee : Ident} {f : Span → Parse β}
    (next : ∀ span, Reads (f span) s good rest) : Reads (call.callSpan callee >>= f) s good rest :=
  next _

/-- The inputs of a call and its outputs are read behind the name of the macro. -/
theorem reads_call {explicit : Bool} {id' : Ident} (likeId : id'.bare = id.bare)
    (faithful : (Expr.call id es explicit os span).Faithful) (inputs : ∀ e ∈ es, AtBinary e)
    (outputs : ∀ o ∈ os, ItemReads .rightParen output Output.lexemes Output.bare o)
    (here : s.lexemes = (Expr.call id es explicit os span).lexemes.tail ++ rest)
    (enough : 16 * ((Expr.call id es explicit os span).lexemes.tail ++ rest).length ≤ fuel)
    (notColon : nextKind rest ≠ .colon) :
    Reads (call id' fuel) s (IsLike (.call id es explicit os span)) rest := by
  obtain ⟨-, inputs', noOutputs, -⟩ := faithful.call
  simp only [Expr.lexemes, exprLexemes_eq, outputLexemes_eq, List.tail_cons, List.cons_append,
    List.append_assoc, List.length_cons, List.length_append] at here enough
  obtain ⟨fuel, rfl⟩ := Nat.exists_eq_add_of_le' (show 1 ≤ fuel by omega)
  unfold call
  refine .advance here (by decide) fun t left => ?_
  refine (reads_exprList (.inl rfl) es inputs' inputs left rfl ?_).bind fun es' u likes left => ?_
  · simp only [List.length_append, List.length_cons]
    omega
  refine .expect left rfl (by decide) fun v left => ?_
  cases explicit with
  | false =>
    have left : v.lexemes = rest := left
    refine .check (.peekSecond fun second _ => ?_)
    rw [left, if_neg (by simp [notColon])]
    refine reads_callSpan fun span => .pure ?_ left
    simp [IsLike, Expr.bare, likeId, likes, noOutputs rfl, bareOutputs]
  | true =>
    simp only [if_true, List.cons_append, List.append_assoc, List.nil_append, List.length_cons,
      List.length_append] at left enough
    refine .check (.peekSecond fun second isSecond => ?_)
    have paren : second.kind = .leftParen := by
      rw [left] at isSecond
      rcases isSecond with h | h
      · exact h
      · cases h
    rw [left, if_pos (by simp [paren])]
    refine .advance left (by decide) fun w left => .advance left (by decide) fun x left => ?_
    have listed : Reads (outputList fuel) x (fun os' => os'.map Output.bare = os.map Output.bare)
        (mark .rightParen :: rest) := by
      rw [outputList_eq]
      refine reads_listOf (by decide) os outputs left rfl ?_
      simp only [List.length_append, List.length_cons]
      omega
    refine listed.bind fun os' y likes' left => ?_
    refine .expect left rfl (by decide) fun z left => reads_callSpan fun span => .pure ?_ left
    simp [IsLike, Expr.bare, likeId, likes, bareOutputs_eq, likes']

theorem chained_call {explicit : Bool} (faithful : (Expr.call id es explicit os span).Faithful)
    (inputs : ∀ e ∈ es, AtBinary e)
    (outputs : ∀ o ∈ os, ItemReads .rightParen output Output.lexemes Output.bare o) :
    Chained (.call id es explicit os span) := by
  have callee : AtPrimary (.name id) := atPrimary_name
  refine callee.chained.extend (Expr.call id es explicit os span).lexemes.tail rfl (by simp [Expr.lexemes])
    (by simp [Expr.lexemes]) (fun _ _ lengths => by cases lengths) ?_
  intro t rest fuel start base' like here enough notColon
  obtain ⟨id', rfl, likeId⟩ : ∃ id', base' = .name id' ∧ id'.bare = id.bare := by
    cases base' with
    | name id' => exact ⟨id', rfl, by simpa [IsLike, Expr.bare] using like⟩
    | _ => simp [IsLike, Expr.bare] at like
  obtain ⟨call', u, run, likeCall, left⟩ := reads_call likeId faithful inputs outputs here enough notColon
  refine ⟨call', u, likeCall, left, ?_⟩
  conv => lhs; unfold postfixes
  rw [run_bind_ok run_peek, t.kind_peek, here]
  exact run_bind_ok run

end

/-! ## All expressions -/

/-- An expression is read in every place where its printed form can stand. -/
structure IsReadable (e : Expr) : Prop where
  whole : AtBinary e
  plain : e.isBinary = false → AtUnary e
  chained : e.isOperator = false → Chained e
  base : (e.isName || e.isBound) = true → AtPrimary e

namespace IsReadable

theorem operand (h : IsReadable e) : e.isOperator = false → AtUnary e := fun plain =>
  h.plain (by
    cases e with
    | binary => cases plain
    | _ => rfl)

theorem of_unary (h : AtUnary e) (operator : e.isOperator = true) : IsReadable e where
  whole := .of_unary h
  plain _ := h
  chained plain := by rw [operator] at plain; cases plain
  base simple := by
    cases e with
    | unary | binary => cases simple
    | _ => cases operator

theorem of_binary (h : AtBinary e) (binary : e.isBinary = true) : IsReadable e where
  whole := h
  plain plain := by rw [binary] at plain; cases plain
  chained plain := by
    cases e with
    | binary => cases plain
    | _ => cases binary
  base simple := by
    cases e with
    | binary => cases simple
    | _ => cases binary

theorem of_chained (faithful : e.Faithful) (plain : e.isOperator = false) (h : Chained e)
    (base : (e.isName || e.isBound) = true → AtPrimary e) : IsReadable e :=
  have atUnary := AtUnary.of_chained faithful plain h
  ⟨.of_unary atUnary, fun _ => atUnary, fun _ => h, base⟩

theorem of_primary (faithful : e.Faithful) (plain : e.isOperator = false) (h : AtPrimary e) :
    IsReadable e :=
  of_chained faithful plain h.chained fun _ => h

end IsReadable

/-- The expression is readable or, if it is a declaration, its type is. -/
def Expr.Readable : Expr → Prop
  | .decl type _ _ => IsReadable type
  | e => IsReadable e

theorem Expr.Readable.of_faithful (h : e.Readable) (faithful : e.Faithful) : IsReadable e := by
  cases e with
  | decl => exact absurd faithful Expr.Faithful.not_decl
  | _ => exact h

mutual

theorem Expr.readable : (e : Expr) → e.Printable → e.Readable
  | .name _, h => IsReadable.of_primary h rfl atPrimary_name
  | .int .., h => IsReadable.of_primary h rfl (atPrimary_int h.int.1 h.int.2)
  | .float .., h => IsReadable.of_primary h rfl (atPrimary_float h.float)
  | .array items _, h =>
    IsReadable.of_chained h rfl (chained_array h.array (exprs_readable items h.array)) nofun
  | .arrayType dims base _, h => by
    obtain ⟨nonempty, dims', simple, base'⟩ := h.arrayType
    have atBase := ((base.readable base'.printable).of_faithful base').base simple
    exact IsReadable.of_chained h rfl
      (chained_arrayType nonempty (exprs_readable dims dims') simple atBase) nofun
  | .openBound _, h => IsReadable.of_primary h rfl atPrimary_openBound
  | .upperBound upper _, h => by
    obtain ⟨plain, -, -, upper'⟩ := h.upperBound
    have readable := (upper.readable upper'.printable).of_faithful upper'
    exact IsReadable.of_primary h rfl (atPrimary_upperBound upper' (readable.plain plain))
  | .closedBound lower upper _, h => by
    obtain ⟨⟨plainLower, -, lower'⟩, plainUpper, -, upper'⟩ := h.closedBound
    have readableLower := (lower.readable lower'.printable).of_faithful lower'
    have readableUpper := (upper.readable upper'.printable).of_faithful upper'
    exact IsReadable.of_primary h rfl
      (atPrimary_closedBound lower' (readableLower.plain plainLower) (readableUpper.plain plainUpper))
  | .index base inner _ _, h => by
    obtain ⟨plain, base', inner'⟩ := h.index
    have readable := (base.readable base'.printable).of_faithful base'
    have whole := ((inner.readable inner'.printable).of_faithful inner').whole
    exact IsReadable.of_chained h rfl (chained_index (readable.chained plain) whole) nofun
  | .property base _ _ _, h => by
    obtain ⟨plain, base', -⟩ := h.property
    have readable := (base.readable base'.printable).of_faithful base'
    exact IsReadable.of_chained h rfl (chained_property (readable.chained plain)) nofun
  | .unary _ operand _, h => by
    obtain ⟨written, operand'⟩ := h.unary
    have readable := (operand.readable operand'.printable).of_faithful operand'
    exact IsReadable.of_unary (atUnary_unary written readable.whole readable.operand) rfl
  | .binary _ left right _, h => by
    obtain ⟨apart, left', right'⟩ := h.binary
    have readableLeft := (left.readable left'.printable).of_faithful left'
    have readableRight := (right.readable right'.printable).of_faithful right'
    exact IsReadable.of_binary (atBinary_binary apart readableLeft.whole readableLeft.operand
      readableRight.whole readableRight.operand) rfl
  | .call _ inputs _ outputs _, h =>
    IsReadable.of_chained h rfl (chained_call h (exprs_readable inputs h.call.2.1)
      (outputs_readable outputs h.call.2.2.2)) nofun
  | .decl type _ _, h => (type.readable h.1.printable).of_faithful h.1

theorem exprs_readable : (es : List Expr) → FaithfulExprs es → ∀ e ∈ es, AtBinary e
  | [], _ => by simp
  | e :: es, h => by
    rw [faithfulExprs_cons] at h
    exact List.forall_mem_cons.2
      ⟨((e.readable h.1.printable).of_faithful h.1).whole, exprs_readable es h.2⟩

theorem Output.readable : (o : Output) → o.Faithful →
    ItemReads .rightParen output Output.lexemes Output.bare o
  | .inline _, _ => item_inline
  | .target target _, h => by
    have readable := target.readable h.target.printable
    rcases h.target.cases with ⟨type, id, span, rfl, faithful, apart, -⟩ | ⟨assignable, faithful⟩
    · exact item_decl faithful apart (show IsReadable type from readable).whole
    · exact item_target faithful assignable (readable.of_faithful faithful).whole

theorem outputs_readable : (os : List Output) → FaithfulOutputs os →
    ∀ o ∈ os, ItemReads .rightParen output Output.lexemes Output.bare o
  | [], _ => by simp
  | o :: os, h => by
    rw [faithfulOutputs_cons] at h
    exact List.forall_mem_cons.2 ⟨o.readable h.1, outputs_readable os h.2⟩

end

/-- A faithful expression is read as itself, up to spans, where a whole expression stands. -/
theorem Expr.Faithful.atBinary (h : e.Faithful) : AtBinary e :=
  ((e.readable h.printable).of_faithful h).whole

end SignalLang.Tree
