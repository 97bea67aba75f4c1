import SignalLang.Proofs.Tree.Layout

/-!
# Parsers run within their bounds

On a listing every parser of expressions and statements needs no more calls within calls than a fixed number
for each token that is left: with any larger bound it does the same. What it returns is laid out between the
tokens it has read, and there is at least one of those wherever a caller counts on it.
-/

namespace SignalLang.Tree

open Parse

namespace Listing

/-- A bound is enough for the tokens from one on, and a number of calls before the next one is read. -/
def Enough (l : Listing) (i calls fuel : Nat) : Prop := 16 * (l.body.length - i) + calls ≤ fuel

variable {l : Listing} {i j calls calls' fuel : Nat}

theorem not_enough (h : l.Enough i (calls + 1) 0) : False := by
  unfold Enough at h
  omega

/-- A call that stands at the same token. -/
theorem Enough.same (h : l.Enough i calls (fuel + 1)) (fewer : calls' < calls) : l.Enough i calls' fuel := by
  unfold Enough at *
  omega

/-- A call behind a token that was read. -/
theorem Enough.later (h : l.Enough i calls (fuel + 1)) (lt : i < j) (fits : j ≤ l.body.length)
    (few : calls' ≤ calls + 15) : l.Enough j calls' fuel := by
  unfold Enough at *
  omega

/-- What is enough from one token on is enough from a later one. -/
theorem Enough.weaken (h : l.Enough i calls fuel) (le : i ≤ j) (fewer : calls' ≤ calls) :
    l.Enough j calls' fuel := by
  unfold Enough at *
  omega

end Listing

variable {l : Listing} {i j fuel fuel' least : Nat} {β : Type}

/-! ## Expressions -/

theorem runs_ident : Runs l ident ident i fun id j => l.Laid i j id.node :=
  .peek (.expect (by decide) fun _ _ => .spanOf (.pure (.token l i)))

theorem Listing.Laid.decl {type : Expr} {name : Ident} {k : Nat} (isType : l.Laid i j type.node)
    (isName : l.Laid j k name.node) : l.Laid i k (Expr.decl type name (type.span.union name.span)).node := by
  rw [Expr.node, ← type.span_node]
  exact isType.join isName (Nat.le_refl j)

theorem runs_declFrom {type : Expr} (isType : l.Laid i j type.node) :
    Runs l (declFrom type) (declFrom type) j fun e k => l.Laid i k e.node :=
  runs_ident.bind fun _ _ _ _ isName => .pure (isType.decl isName)

theorem Runs.callSpan {callee : Ident} {f g : Span → Parse β} {goal : β → Nat → Prop}
    (next : Runs l (f (callee.span.union ((l.token j).span l.file)))
      (g (callee.span.union ((l.token j).span l.file))) (j + 1) goal) :
    Runs l (call.callSpan callee >>= f) (call.callSpan callee >>= g) (j + 1) goal := by
  refine .of_le fun fits => .step (Nat.le_refl _) fits (fun m => ?_) next
  show (Except.ok ((l.at m (j + 1)).previous.elim callee.span _), l.at m (j + 1)) = _
  rw [Listing.previous_at fits]
  rfl

/-- What each parser of expressions does with two bounds that are both enough. -/
structure ExprsRun (l : Listing) (fuel fuel' : Nat) : Prop where
  -- The numbers follow the longest chain of calls at one token: `outputList`, `output`, `binary`, `unary`,
  -- `primary`, `arrayType`, `arrayDims`.
  binary {i least : Nat} : l.Enough i 5 fuel →
    Runs l (binary least fuel) (binary least fuel') i fun e j => l.Laid i j e.node
  binaryTail {i j least : Nat} {left : Expr} : l.Enough j 1 fuel → l.Laid i j left.node →
    Runs l (binaryTail least left fuel) (binaryTail least left fuel') j fun e k => l.Laid i k e.node
  unary {i : Nat} : l.Enough i 4 fuel → Runs l (unary fuel) (unary fuel') i fun e j => l.Laid i j e.node
  postfixes {i j : Nat} {base : Expr} : l.Enough j 2 fuel → l.Laid i j base.node →
    Runs l (postfixes (l.token i) base fuel) (postfixes (l.token i) base fuel') j fun e k => l.Laid i k e.node
  call {i j : Nat} {callee : Ident} : l.Enough j 1 fuel → (l.token j).kind = .leftParen →
    l.Laid i j callee.node → Runs l (call callee fuel) (call callee fuel') j fun e k => j < k ∧ l.Laid i k e.node
  exprList {i : Nat} {close : TokenKind} : l.Enough i 6 fuel →
    Runs l (exprList close fuel) (exprList close fuel') i fun es j => l.LaidAll i j (exprNodes es)
  outputList {i : Nat} : l.Enough i 7 fuel →
    Runs l (outputList fuel) (outputList fuel') i fun os j => l.LaidAll i j (outputNodes os)
  output {i : Nat} : l.Enough i 6 fuel → Runs l (output fuel) (output fuel') i fun o j => l.Laid i j o.node
  primary {i : Nat} : l.Enough i 3 fuel → Runs l (primary fuel) (primary fuel') i fun e j => l.Laid i j e.node
  arrayType {i : Nat} : l.Enough i 2 fuel → (l.token i).kind = .leftBracket →
    Runs l (arrayType fuel) (arrayType fuel') i fun r j => ∀ e, r = some e → l.Laid i j e.node
  arrayDims {i : Nat} : l.Enough i 1 fuel → Runs l (arrayDims fuel) (arrayDims fuel') i fun r j =>
    ∀ dims, r = some dims → l.LaidAll i j (exprNodes dims) ∧ ((l.token i).kind = .leftBracket → i < j)
  typeBound {i : Nat} : l.Enough i 1 fuel → (l.token i).kind = .less →
    Runs l (typeBound fuel) (typeBound fuel') i fun e j => l.Laid i j e.node

namespace ExprsRun

theorem binary_succ (h : ExprsRun l fuel fuel') (enough : l.Enough i 5 (fuel + 1)) :
    Runs l (Tree.binary least (fuel + 1)) (Tree.binary least (fuel' + 1)) i fun e j => l.Laid i j e.node := by
  rw [Tree.binary, Tree.binary]
  refine (h.unary (enough.same (by decide))).bind fun left j _ fits isLeft => ?_
  exact h.binaryTail (enough.later isLeft.spans.lt fits (by decide)) isLeft

theorem binaryTail_succ (h : ExprsRun l fuel fuel') {left : Expr} (enough : l.Enough j 1 (fuel + 1))
    (isLeft : l.Laid i j left.node) :
    Runs l (Tree.binaryTail least left (fuel + 1)) (Tree.binaryTail least left (fuel' + 1)) j
      fun e k => l.Laid i k e.node := by
  rw [Tree.binaryTail, Tree.binaryTail]
  refine .peek ?_
  split
  · exact .pure isLeft
  · rename_i op isOp
    split
    · exact .pure isLeft
    · refine .advance (fun isEnd => by rw [isEnd] at isOp; cases isOp) fun lt => ?_
      refine (h.binary (enough.later (Nat.lt_succ_self j) lt (by decide))).bind fun right k _ fits isRight => ?_
      have past := Nat.lt_of_succ_lt isRight.spans.lt
      refine h.binaryTail (enough.later past fits (by decide)) ?_
      rw [Expr.node, ← left.span_node, ← right.span_node]
      exact isLeft.join isRight (Nat.le_succ j)

theorem unary_succ (h : ExprsRun l fuel fuel') (enough : l.Enough i 4 (fuel + 1)) :
    Runs l (Tree.unary (fuel + 1)) (Tree.unary (fuel' + 1)) i fun e j => l.Laid i j e.node := by
  rw [Tree.unary, Tree.unary]
  refine .peek ?_
  split
  · rename_i op isOp
    refine .advance (fun isEnd => by rw [isEnd] at isOp; cases isOp) fun lt => ?_
    refine (h.unary (enough.later (Nat.lt_succ_self i) lt (by decide))).bind fun operand j _ _ isOperand => ?_
    refine .spanOf (.pure ?_)
    rw [Expr.node, ← operand.span_node]
    exact isOperand.behind
  · refine (h.primary (enough.same (by decide))).bind fun base j _ fits isBase => ?_
    exact h.postfixes (enough.later isBase.spans.lt fits (by decide)) isBase

theorem postfixes_succ (h : ExprsRun l fuel fuel') {base : Expr} (enough : l.Enough j 2 (fuel + 1))
    (isBase : l.Laid i j base.node) :
    Runs l (Tree.postfixes (l.token i) base (fuel + 1)) (Tree.postfixes (l.token i) base (fuel' + 1)) j
      fun e k => l.Laid i k e.node := by
  have lt := isBase.spans.lt
  unfold Tree.postfixes
  refine .peek ?_
  split
  case h_1 isParen =>
    split
    · refine (h.call (enough.same (by decide)) isParen isBase).bind fun e k _ fits read => ?_
      exact h.postfixes (enough.later read.1 fits (by decide)) read.2
    · exact .pure isBase
  case h_2 isBracket =>
    refine .advance (Listing.more isBracket (by decide)) fun lt' => ?_
    refine (h.binary (enough.later (Nat.lt_succ_self j) lt' (by decide))).bind fun index k _ _ isIndex => ?_
    have past := isIndex.spans.lt
    have next (optional : Bool) {b : Nat} (le : k ≤ b) : Runs l
        (do
          expect .rightBracket
          Tree.postfixes (l.token i) (.index base index optional (← spanFrom (l.token i))) fuel)
        (do
          expect .rightBracket
          Tree.postfixes (l.token i) (.index base index optional (← spanFrom (l.token i))) fuel') b
        fun e k => l.Laid i k e.node := by
      refine .expect (by decide) fun fits _ => .spanFrom (by omega) ?_
      refine h.postfixes (enough.later (by omega) fits (by decide)) ?_
      have parts : l.LaidAll i (b + 1) [base.node, index.node] :=
        .cons (Nat.le_refl i) isBase (.cons (Nat.le_succ j) isIndex (.nil (by omega)))
      exact .cover (by omega) parts
    exact .accept (by decide) (fun _ _ => next true (Nat.le_succ k)) fun _ => next false (Nat.le_refl k)
  case h_3 isDot =>
    refine .advance (Listing.more isDot (by decide)) fun _ => .peek ?_
    refine .expect (by decide) fun fits _ => .spanOf (.spanFrom (by omega) ?_)
    refine h.postfixes (enough.later (by omega) fits (by decide)) ?_
    have parts : l.LaidAll i (j + 1 + 1) [base.node, .mk ((l.token (j + 1)).span l.file) []] :=
      .cons (Nat.le_refl i) isBase (.cons (Nat.le_succ j) (.token l (j + 1)) (.nil (Nat.le_refl _)))
    exact .cover (by omega) parts
  case h_4 => exact .pure isBase

theorem call_succ (h : ExprsRun l fuel fuel') {callee : Ident} (enough : l.Enough j 1 (fuel + 1))
    (isParen : (l.token j).kind = .leftParen) (isCallee : l.Laid i j callee.node) :
    Runs l (Tree.call callee (fuel + 1)) (Tree.call callee (fuel' + 1)) j
      fun e k => j < k ∧ l.Laid i k e.node := by
  rw [Tree.call, Tree.call]
  refine .advance (Listing.more isParen (by decide)) fun lt => ?_
  refine (h.exprList (enough.later (Nat.lt_succ_self j) lt (by decide))).bind fun inputs a le _ areInputs => ?_
  refine .expect (by decide) fun _ _ => ?_
  have callOf {explicit : Bool} {outputs : List Output} {k : Nat} (le : j ≤ k)
      (parts : l.LaidAll j (k + 1) (exprNodes inputs ++ outputNodes outputs)) :
      l.Laid i (k + 1)
        (Expr.call callee inputs explicit outputs (callee.span.union ((l.token k).span l.file))).node :=
    -- Not the text from token `i` on: the name may stand in parentheses there.
    isCallee.joinToken le parts
  have alone : Runs l (do return Expr.call callee inputs false [] (← call.callSpan callee))
      (do return Expr.call callee inputs false [] (← call.callSpan callee)) (a + 1)
      fun e k => j < k ∧ l.Laid i k e.node := by
    refine .callSpan (.pure ⟨by omega, callOf (by omega) ?_⟩)
    exact (areInputs.append (.nil (Nat.le_succ a))).widen (Nat.le_succ j) (Nat.le_refl _)
  refine .checkSecond (by decide) (fun _ isColon => ?_) alone (fun _ => rfl) (fun _ => rfl)
  split
  · rename_i isSecond
    have isParen' : (l.token (a + 1 + 1)).kind = .leftParen := by simpa using isSecond
    refine .advance (Listing.more isColon (by decide)) fun _ => ?_
    refine .advance (Listing.more isParen' (by decide)) fun fits => ?_
    refine (h.outputList (enough.later (by omega) fits (by decide))).bind fun outputs b le' _ areOutputs => ?_
    refine .expect (by decide) fun _ _ => .callSpan (.pure ⟨by omega, callOf (by omega) ?_⟩)
    have behind : l.LaidAll a (b + 1) (outputNodes outputs) := areOutputs.widen (by omega) (Nat.le_succ b)
    exact (areInputs.append behind).widen (Nat.le_succ j) (Nat.le_refl _)
  · exact alone

theorem exprList_succ (h : ExprsRun l fuel fuel') {close : TokenKind} (enough : l.Enough i 6 (fuel + 1)) :
    Runs l (Tree.exprList close (fuel + 1)) (Tree.exprList close (fuel' + 1)) i
      fun es j => l.LaidAll i j (exprNodes es) := by
  rw [Tree.exprList, Tree.exprList]
  refine .check (.atEnd ?_)
  split
  · exact .pure (.nil (Nat.le_refl i))
  · refine (h.binary (enough.same (by decide))).bind fun e j _ _ isExpr => ?_
    refine .accept (by decide) (fun fits _ => ?_) fun _ => .pure (.single isExpr)
    have past := isExpr.spans.lt
    refine (h.exprList (enough.later (by omega) fits (by decide))).bind fun es k _ _ areExprs => .pure ?_
    exact .cons (Nat.le_refl i) isExpr (areExprs.widen (Nat.le_succ j) (Nat.le_refl k))

theorem outputList_succ (h : ExprsRun l fuel fuel') (enough : l.Enough i 7 (fuel + 1)) :
    Runs l (Tree.outputList (fuel + 1)) (Tree.outputList (fuel' + 1)) i
      fun os j => l.LaidAll i j (outputNodes os) := by
  rw [Tree.outputList, Tree.outputList]
  refine .check (.atEnd ?_)
  split
  · exact .pure (.nil (Nat.le_refl i))
  · refine (h.output (enough.same (by decide))).bind fun o j _ _ isOutput => ?_
    refine .accept (by decide) (fun fits _ => ?_) fun _ => .pure (.single isOutput)
    have past := isOutput.spans.lt
    refine (h.outputList (enough.later (by omega) fits (by decide))).bind fun os k _ _ areOutputs => .pure ?_
    exact .cons (Nat.le_refl i) isOutput (areOutputs.widen (Nat.le_succ j) (Nat.le_refl k))

theorem output_succ (h : ExprsRun l fuel fuel') (enough : l.Enough i 6 (fuel + 1)) :
    Runs l (Tree.output (fuel + 1)) (Tree.output (fuel' + 1)) i fun o j => l.Laid i j o.node := by
  rw [Tree.output, Tree.output]
  refine .peek ?_
  split
  · rename_i isInline
    exact .advance (Listing.more isInline (by decide)) fun _ => .spanOf (.pure (.token l i))
  · have assignable {target : Expr} {j : Nat} (isTarget : l.Laid i j target.node) : Runs l
        (if target.isAssignable then pure (Output.target target target.span)
          else Parse.fail (l.token i) .invalidOutput)
        (if target.isAssignable then pure (Output.target target target.span)
          else Parse.fail (l.token i) .invalidOutput) j fun o j => l.Laid i j o.node := by
      split
      · refine .pure ?_
        rw [Output.node, ← target.span_node]
        exact isTarget.same
      · exact .fail nofun
    refine (h.binary (enough.same (by decide))).bind fun e j _ _ isExpr => .check ?_
    split
    · exact (runs_declFrom isExpr).bind fun target k _ _ isTarget => assignable isTarget
    · exact assignable isExpr

theorem primary_succ (h : ExprsRun l fuel fuel') (enough : l.Enough i 3 (fuel + 1)) :
    Runs l (Tree.primary (fuel + 1)) (Tree.primary (fuel' + 1)) i fun e j => l.Laid i j e.node := by
  rw [Tree.primary, Tree.primary]
  refine .peek ?_
  split
  case h_1 isInt =>
    refine .advance (Listing.more isInt (by decide)) fun _ => ?_
    split
    · exact .spanOf (.pure (.token l i))
    · exact .fail nofun
  case h_2 isFloat =>
    refine .advance (Listing.more isFloat (by decide)) fun _ => ?_
    split
    · exact .spanOf (.pure (.token l i))
    · exact .fail nofun
  case h_3 isName =>
    exact .advance (Listing.more isName (by decide)) fun _ => .spanOf (.pure (.token l i))
  case h_4 isParen =>
    refine .advance (Listing.more isParen (by decide)) fun lt => ?_
    refine (h.binary (enough.later (Nat.lt_succ_self i) lt (by decide))).bind fun e j _ _ isExpr => ?_
    exact .expect (by decide) fun _ _ => .pure (isExpr.widen (Nat.le_succ i) (Nat.le_succ j))
  case h_5 isBracket =>
    refine (Runs.attempt (h.arrayType (enough.same (by decide)) isBracket)).bind fun found j _ _ read => ?_
    obtain ⟨rfl, rfl⟩ | ⟨type, rfl, isType⟩ := read
    · -- It is no array type, so the bracket is read again, as that of an array.
      refine .advance (Listing.more isBracket (by decide)) fun lt => ?_
      refine (h.exprList (enough.later (Nat.lt_succ_self _) lt (by decide))).bind fun items k _ _ areItems => ?_
      refine .expect (by decide) fun _ _ => .spanFrom (by omega) (.pure ?_)
      exact .cover (by omega) (areItems.widen (Nat.le_succ _) (Nat.le_succ k))
    · exact .pure (isType type rfl)
  case h_6 isLess => exact h.typeBound (enough.same (by decide)) isLess
  case h_7 => exact .fail nofun

theorem arrayType_succ (h : ExprsRun l fuel fuel') (enough : l.Enough i 2 (fuel + 1))
    (isBracket : (l.token i).kind = .leftBracket) :
    Runs l (Tree.arrayType (fuel + 1)) (Tree.arrayType (fuel' + 1)) i
      fun r j => ∀ e, r = some e → l.Laid i j e.node := by
  rw [Tree.arrayType, Tree.arrayType]
  refine .peek ((h.arrayDims (enough.same (by decide))).bind fun found j _ fits read => ?_)
  cases found with
  | none => exact .pure nofun
  | some dims =>
    obtain ⟨areDims, past⟩ := read dims rfl
    have base : Runs l (do
        let base ← Tree.primary fuel
        return some (Expr.arrayType dims base (← spanFrom (l.token i)))) (do
        let base ← Tree.primary fuel'
        return some (Expr.arrayType dims base (← spanFrom (l.token i)))) j
        fun r j => ∀ e, r = some e → l.Laid i j e.node := by
      have past := past isBracket
      refine (h.primary (enough.later past fits (by decide))).bind fun base k le _ isBase => ?_
      refine .spanFrom (by omega) (.pure ?_)
      rintro _ ⟨⟩
      exact .cover (by omega) (areDims.append (.single isBase))
    refine .peek ?_
    split
    · exact base
    · exact base
    · exact base
    · exact .pure nofun

theorem arrayDims_succ (h : ExprsRun l fuel fuel') (enough : l.Enough i 1 (fuel + 1)) :
    Runs l (Tree.arrayDims (fuel + 1)) (Tree.arrayDims (fuel' + 1)) i fun r j =>
      ∀ dims, r = some dims → l.LaidAll i j (exprNodes dims) ∧ ((l.token i).kind = .leftBracket → i < j) := by
  rw [Tree.arrayDims, Tree.arrayDims]
  refine .accept (by decide) (fun lt _ => ?_) fun other => .pure ?_
  · refine (h.binary (enough.later (Nat.lt_succ_self i) lt (by decide))).bind fun dim j _ _ isDim => ?_
    refine .accept (by decide) (fun fits _ => ?_) fun _ => .pure nofun
    have past := isDim.spans.lt
    refine (h.arrayDims (enough.later (by omega) fits (by decide))).bind fun found k _ _ read => .pure ?_
    intro dims same
    obtain ⟨rest, isRest, rfl⟩ := Option.map_eq_some_iff.1 same
    have areRest : l.LaidAll j k (exprNodes rest) := (read rest isRest).1.widen (Nat.le_succ j) (Nat.le_refl k)
    exact ⟨.cons (Nat.le_succ i) isDim areRest, fun _ => by omega⟩
  · rintro _ ⟨⟩
    exact ⟨.nil (Nat.le_refl i), fun same => absurd same other⟩

theorem typeBound_succ (h : ExprsRun l fuel fuel') (enough : l.Enough i 1 (fuel + 1))
    (isLess : (l.token i).kind = .less) :
    Runs l (Tree.typeBound (fuel + 1)) (Tree.typeBound (fuel' + 1)) i fun e j => l.Laid i j e.node := by
  rw [Tree.typeBound, Tree.typeBound]
  refine .advance (Listing.more isLess (by decide)) fun lt => .check ?_
  split
  · exact .expect (by decide) fun _ _ => .spanFrom (by omega) (.pure (.cover (by omega) (.nil (by omega))))
  · refine (h.unary (enough.later (Nat.lt_succ_self i) lt (by decide))).bind fun first j _ _ isFirst => ?_
    have past := isFirst.spans.lt
    refine .accept (by decide) (fun fits _ => ?_) fun _ => ?_
    · refine (h.unary (enough.later (by omega) fits (by decide))).bind fun second k _ _ isSecond => ?_
      refine .expect (by decide) fun _ _ => .spanFrom (by omega) (.pure ?_)
      have parts : l.LaidAll i (k + 1) [first.node, second.node] :=
        .cons (Nat.le_succ i) isFirst (.cons (Nat.le_succ j) isSecond (.nil (Nat.le_succ k)))
      exact .cover (by omega) parts
    · refine .expect (by decide) fun _ _ => .spanFrom (by omega) (.pure ?_)
      exact .cover (by omega) ((Listing.LaidAll.single isFirst).widen (Nat.le_succ i) (Nat.le_succ j))

end ExprsRun

/-- Two bounds that are both enough make no difference to any parser of expressions. -/
theorem exprsRun (le : fuel ≤ fuel') : ExprsRun l fuel fuel' := by
  induction fuel generalizing fuel' with
  | zero => constructor <;> exact fun enough => absurd enough Listing.not_enough
  | succ fuel ih =>
    obtain ⟨fuel', rfl⟩ := Nat.exists_eq_add_of_lt le
    have h := ih (Nat.le_add_right fuel fuel')
    exact {
      binary := h.binary_succ
      binaryTail := h.binaryTail_succ
      unary := h.unary_succ
      postfixes := h.postfixes_succ
      call := h.call_succ
      exprList := h.exprList_succ
      outputList := h.outputList_succ
      output := h.output_succ
      primary := h.primary_succ
      arrayType := h.arrayType_succ
      arrayDims := h.arrayDims_succ
      typeBound := h.typeBound_succ }

/-! ## Statements -/

section

variable {goal : β → Nat → Prop} (le : fuel ≤ fuel')

include le

theorem runs_expression (enough : l.Enough i 5 fuel) :
    Runs l (expression fuel) (expression fuel') i fun e j => l.Laid i j e.node :=
  (exprsRun le).binary enough

theorem runs_identList (enough : l.Enough i 1 fuel) :
    Runs l (identList fuel) (identList fuel') i fun ids j => l.LaidAll i j (ids.map Ident.node) := by
  induction fuel generalizing fuel' i with
  | zero => exact absurd enough Listing.not_enough
  | succ fuel ih =>
    obtain ⟨fuel', rfl⟩ := Nat.exists_eq_add_of_lt le
    rw [identList, identList]
    refine runs_ident.bind fun id j _ _ isId => ?_
    refine .accept (by decide) (fun fits _ => ?_) fun _ => .pure (.single isId)
    have past := isId.spans.lt
    refine (ih (Nat.le_add_right fuel fuel') (enough.later (by omega) fits (by decide))).bind
      fun ids k _ _ areIds => .pure ?_
    exact .cons (Nat.le_refl i) isId (areIds.widen (Nat.le_succ j) (Nat.le_refl k))

/-- Names before a token that is looked for first. -/
theorem runs_optionalIdents (enough : l.Enough i 1 fuel) {f g : List Ident → Parse β} {none : Bool}
    (next : ∀ ids j, i ≤ j → j ≤ l.body.length → l.LaidAll i j (ids.map Ident.node) →
      Runs l (f ids) (g ids) j goal) :
    Runs l (if none = true then pure [] >>= f else identList fuel >>= f)
      (if none = true then pure [] >>= g else identList fuel' >>= g) i goal := by
  split
  · have none : Runs l (pure []) (pure []) i fun ids j => l.LaidAll i j (ids.map Ident.node) :=
      .pure (.nil (Nat.le_refl i))
    exact none.bind next
  · exact (runs_identList le enough).bind next

theorem runs_ioDecl (enough : l.Enough i 5 fuel) (more : (l.token i).kind ≠ .endOfFile) :
    Runs l (ioDecl fuel) (ioDecl fuel') i fun s j => l.Laid i j s.node := by
  refine .advance more fun _ => ?_
  refine (runs_expression le (enough.weaken (Nat.le_succ i) (by decide))).bind fun type j past _ isType => ?_
  refine (runs_identList le (enough.weaken (by omega) (by decide))).bind fun names k _ _ areNames => ?_
  refine .expect (by decide) fun _ _ => .spanFrom (by omega) (.pure ?_)
  exact .cover (by omega) (.cons (Nat.le_succ i) isType (areNames.widen (Nat.le_refl j) (Nat.le_succ k)))

theorem runs_assertStmt (enough : l.Enough i 5 fuel) (more : (l.token i).kind ≠ .endOfFile) :
    Runs l (assertStmt fuel) (assertStmt fuel') i fun s j => l.Laid i j s.node := by
  refine .advance more fun _ => ?_
  refine (runs_expression le (enough.weaken (Nat.le_succ i) (by decide))).bind fun e j _ _ isCondition => ?_
  refine .expect (by decide) fun _ _ => .spanFrom (by omega) (.pure ?_)
  exact .cover (by omega) ((Listing.LaidAll.single isCondition).widen (Nat.le_succ i) (Nat.le_succ j))

theorem runs_assignTo (enough : l.Enough j 5 fuel) {target : Expr} (isTarget : l.Laid i j target.node)
    {k : Nat} (past : j ≤ k) :
    Runs l (simpleStmt.assignTo fuel (l.token i) target) (simpleStmt.assignTo fuel' (l.token i) target) k
      fun s k => l.Laid i k s.node := by
  have lt := isTarget.spans.lt
  refine (runs_expression le (enough.weaken past (by decide))).bind fun value a _ _ isValue => ?_
  refine .expect (by decide) fun _ _ => .spanFrom (by omega) (.pure ?_)
  have parts : l.LaidAll i (a + 1) [target.node, value.node] :=
    .cons (Nat.le_refl i) isTarget (.cons past isValue (.nil (Nat.le_succ a)))
  exact .cover (by omega) parts

theorem runs_simpleStmt (enough : l.Enough i 5 fuel) :
    Runs l (simpleStmt fuel) (simpleStmt fuel') i fun s j => l.Laid i j s.node := by
  refine .peek ((runs_expression le enough).bind fun e j before _ isExpr => .check ?_)
  have lt := isExpr.spans.lt
  split
  · refine runs_ident.bind fun name k before' _ isName => ?_
    have isDecl := isExpr.decl isName
    refine .accept (by decide) (fun _ _ => ?_) fun _ => ?_
    · exact runs_assignTo le (enough.weaken (Nat.le_trans before before') (by decide)) isDecl (Nat.le_succ k)
    · refine .expect (by decide) fun _ _ => .spanFrom (by omega) (.pure ?_)
      exact .cover (by omega) ((Listing.LaidAll.single isDecl).widen (Nat.le_refl i) (Nat.le_succ k))
  · refine .accept (by decide) (fun _ _ => ?_) fun _ => .expect (by decide) fun _ _ => ?_
    · show Runs l (if e.isAssignable then _ else _) (if e.isAssignable then _ else _) _ _
      split
      · exact runs_assignTo le (enough.weaken before (by decide)) isExpr (Nat.le_succ j)
      · exact .fail nofun
    · have parts := (Listing.LaidAll.single isExpr).widen (Nat.le_refl i) (Nat.le_succ j)
      split
      · exact .spanFrom (by omega) (.pure (.cover (by omega) parts))
      · exact .spanFrom (by omega) (.pure (.cover (by omega) parts))

theorem runs_macroInputs (enough : l.Enough i 1 fuel) :
    Runs l (macroInputs fuel) (macroInputs fuel') i fun ids j => l.LaidAll i j (ids.map Ident.node) := by
  refine .expect (by decide) fun _ _ => .check ?_
  refine runs_optionalIdents le (enough.weaken (Nat.le_succ i) (by decide)) fun ids j _ _ areIds => ?_
  exact .expect (by decide) fun _ _ => .pure (areIds.widen (Nat.le_succ i) (Nat.le_succ j))

theorem runs_macroOutputs (enough : l.Enough i 1 fuel) :
    Runs l (macroOutputs fuel) (macroOutputs fuel') i fun ids j => l.LaidAll i j (ids.map Ident.node) := by
  refine .accept (by decide) (fun _ _ => .accept (by decide) (fun _ _ => .check ?_) fun _ => ?_) fun _ => ?_
  · refine runs_optionalIdents le (enough.weaken (by omega) (by decide)) fun ids j _ _ areIds => ?_
    exact .expect (by decide) fun _ _ => .pure (areIds.widen (by omega) (Nat.le_succ j))
  · exact runs_ident.bind fun id j _ _ isId =>
      .pure ((Listing.LaidAll.single isId).widen (Nat.le_succ i) (Nat.le_refl j))
  · exact .pure (.nil (Nat.le_refl i))

end

theorem runs_includeStmt (more : (l.token i).kind ≠ .endOfFile) :
    Runs l includeStmt includeStmt i fun s j => l.Laid i j s.node := by
  refine .advance more fun _ => .peek (.expect (by decide) fun _ _ => ?_)
  split
  · exact .fail nofun
  · exact .expect (by decide) fun _ _ => .spanFrom (by omega) (.pure (.cover (by omega) (.nil (by omega))))

/-- What each parser of statements does with two bounds that are both enough. -/
structure StmtsRun (l : Listing) (fuel fuel' : Nat) : Prop where
  statement {i : Nat} : l.Enough i 6 fuel → Runs l (statement fuel) (statement fuel') i
    fun r j => i < j ∧ l.LaidAll i j (stmtNodes r.toList)
  block {i : Nat} : l.Enough i 1 fuel → Runs l (block fuel) (block fuel') i fun b j => l.Laid i j b.node
  statementList {i : Nat} : l.Enough i 7 fuel →
    Runs l (statementList fuel) (statementList fuel') i fun ss j => l.LaidAll i j (stmtNodes ss)
  macroDef {i : Nat} : l.Enough i 1 fuel → (l.token i).kind ≠ .endOfFile →
    Runs l (macroDef fuel) (macroDef fuel') i fun s j => l.Laid i j s.node
  branch {i : Nat} : l.Enough i 1 fuel → (l.token i).kind ≠ .endOfFile →
    Runs l (branch fuel) (branch fuel') i fun s j => l.Laid i j s.node
  clauseList {i : Nat} : l.Enough i 6 fuel → Runs l (clauseList fuel) (clauseList fuel') i
    fun r j => l.LaidAll i j (clauseNodes r.1 ++ otherwiseNodes r.2)
  loop {i : Nat} : l.Enough i 1 fuel → (l.token i).kind ≠ .endOfFile →
    Runs l (loop fuel) (loop fuel') i fun s j => l.Laid i j s.node
  static {i : Nat} : l.Enough i 1 fuel → (l.token i).kind ≠ .endOfFile →
    Runs l (static fuel) (static fuel') i fun s j => l.Laid i j s.node

namespace StmtsRun

theorem statement_succ (le : fuel ≤ fuel') (h : StmtsRun l fuel fuel') (enough : l.Enough i 6 (fuel + 1)) :
    Runs l (Tree.statement (fuel + 1)) (Tree.statement (fuel' + 1)) i
      fun r j => i < j ∧ l.LaidAll i j (stmtNodes r.toList) := by
  have here : l.Enough i 5 fuel := enough.same (by decide)
  have one : l.Enough i 1 fuel := enough.same (by decide)
  have single {p q : Parse Stmt} (run : Runs l p q i fun s j => l.Laid i j s.node) :
      Runs l (some <$> p) (some <$> q) i fun r j => i < j ∧ l.LaidAll i j (stmtNodes r.toList) :=
    run.map fun s j _ _ isStmt => ⟨isStmt.spans.lt, .single isStmt⟩
  rw [Tree.statement, Tree.statement]
  refine .peek ?_
  split
  case h_1 isInput => exact single (runs_ioDecl le here (Listing.more isInput (by decide)))
  case h_2 isOutput => exact single (runs_ioDecl le here (Listing.more isOutput (by decide)))
  case h_3 isMacro => exact single (h.macroDef one (Listing.more isMacro (by decide)))
  case h_4 isIf => exact single (h.branch one (Listing.more isIf (by decide)))
  case h_5 isFor => exact single (h.loop one (Listing.more isFor (by decide)))
  case h_6 isStatic => exact single (h.static one (Listing.more isStatic (by decide)))
  case h_7 isAssert => exact single (runs_assertStmt le here (Listing.more isAssert (by decide)))
  case h_8 isReturn =>
    refine .advance (Listing.more isReturn (by decide)) fun _ => .expect (by decide) fun _ _ => ?_
    exact .spanFrom (by omega) (.pure ⟨by omega, .single (.cover (by omega) (.nil (by omega)))⟩)
  case h_9 isInclude => exact single (runs_includeStmt (Listing.more isInclude (by decide)))
  case h_10 => exact (h.block one).map fun b j _ _ isBlock => ⟨isBlock.spans.lt, .single isBlock⟩
  case h_11 isSemicolon =>
    exact .advance (Listing.more isSemicolon (by decide)) fun _ =>
      .pure ⟨Nat.lt_succ_self i, .nil (Nat.le_succ i)⟩
  case h_12 => exact single (runs_simpleStmt le here)

theorem block_succ (h : StmtsRun l fuel fuel') (enough : l.Enough i 1 (fuel + 1)) :
    Runs l (Tree.block (fuel + 1)) (Tree.block (fuel' + 1)) i fun b j => l.Laid i j b.node := by
  rw [Tree.block, Tree.block]
  refine .peek (.expect (by decide) fun lt _ => ?_)
  refine (h.statementList (enough.later (Nat.lt_succ_self i) lt (by decide))).bind fun ss j _ _ areStmts => ?_
  refine .expect (by decide) fun _ _ => .spanFrom (by omega) (.pure ?_)
  exact .cover (by omega) (areStmts.widen (Nat.le_succ i) (Nat.le_succ j))

theorem statementList_succ (h : StmtsRun l fuel fuel') (enough : l.Enough i 7 (fuel + 1)) :
    Runs l (Tree.statementList (fuel + 1)) (Tree.statementList (fuel' + 1)) i
      fun ss j => l.LaidAll i j (stmtNodes ss) := by
  rw [Tree.statementList, Tree.statementList]
  refine .check (.atEnd ?_)
  split
  · exact .pure (.nil (Nat.le_refl i))
  · refine (h.statement (enough.same (by decide))).bind fun first j _ fits read => ?_
    refine (h.statementList (enough.later read.1 fits (by decide))).bind fun ss k _ _ areStmts => .pure ?_
    rw [stmtNodes_append]
    exact read.2.append areStmts

theorem macroDef_succ (le : fuel ≤ fuel') (h : StmtsRun l fuel fuel') (enough : l.Enough i 1 (fuel + 1))
    (more : (l.token i).kind ≠ .endOfFile) :
    Runs l (Tree.macroDef (fuel + 1)) (Tree.macroDef (fuel' + 1)) i fun s j => l.Laid i j s.node := by
  rw [Tree.macroDef, Tree.macroDef]
  refine .advance more fun lt => runs_ident.bind fun name a _ fits isName => ?_
  have inside : l.Enough a 1 fuel := enough.later isName.spans.lt.le fits (by decide)
  refine (runs_macroInputs le inside).bind fun inputs b before fits areInputs => ?_
  refine (runs_macroOutputs le (inside.weaken before (by decide))).bind fun outputs c before' _ areOutputs => ?_
  have past := isName.spans.lt
  refine .spanFrom (by omega) ((h.block (inside.weaken (by omega) (by decide))).bind fun body d _ _ isBody => ?_)
  refine .spanFrom (by omega) (.pure ?_)
  have signature : l.LaidAll i c (name.node :: (inputs.map Ident.node ++ outputs.map Ident.node)) :=
    .cons (Nat.le_succ i) isName (areInputs.append areOutputs)
  have parts : l.LaidAll i d [.mk (l.cover i c) _, body.node] :=
    .cons (Nat.le_refl i) (.cover (by omega) signature) (.single isBody)
  exact .cover (by omega) parts

theorem branch_succ (h : StmtsRun l fuel fuel') (enough : l.Enough i 1 (fuel + 1))
    (more : (l.token i).kind ≠ .endOfFile) :
    Runs l (Tree.branch (fuel + 1)) (Tree.branch (fuel' + 1)) i fun s j => l.Laid i j s.node := by
  rw [Tree.branch, Tree.branch]
  refine .advance more fun lt => ?_
  refine (h.clauseList (enough.later (Nat.lt_succ_self i) lt (by decide))).bind fun r j _ _ areClauses => ?_
  refine .spanFrom (by omega) (.pure ?_)
  exact .cover (by omega) (areClauses.widen (Nat.le_succ i) (Nat.le_refl j))

theorem clauseList_succ (le : fuel ≤ fuel') (h : StmtsRun l fuel fuel') (enough : l.Enough i 6 (fuel + 1)) :
    Runs l (Tree.clauseList (fuel + 1)) (Tree.clauseList (fuel' + 1)) i
      fun r j => l.LaidAll i j (clauseNodes r.1 ++ otherwiseNodes r.2) := by
  rw [Tree.clauseList, Tree.clauseList]
  refine (runs_expression le (enough.same (by decide))).bind fun condition a _ fits isCondition => ?_
  have inside : l.Enough a 6 fuel := enough.later isCondition.spans.lt fits (by decide)
  refine (h.block (inside.weaken (Nat.le_refl a) (by decide))).bind fun body b before fits isBody => ?_
  have clause {k : Nat} {ns : List Node} (rest : l.LaidAll b k ns) :
      l.LaidAll i k (condition.node :: body.node :: ns) :=
    .cons (Nat.le_refl i) isCondition (.cons (Nat.le_refl a) isBody rest)
  refine .accept (by decide) (fun _ _ => .accept (by decide) (fun _ _ => ?_) fun _ => ?_) fun _ => ?_
  · refine (h.clauseList (inside.weaken (by omega) (by decide))).bind fun r k _ _ areClauses => .pure ?_
    exact clause (areClauses.widen (by omega) (Nat.le_refl k))
  · refine (h.block (inside.weaken (by omega) (by decide))).bind fun last k _ _ isLast => .pure ?_
    exact clause ((Listing.LaidAll.single isLast).widen (Nat.le_succ b) (Nat.le_refl k))
  · exact .pure (clause (.nil (Nat.le_refl b)))

theorem loop_succ (le : fuel ≤ fuel') (h : StmtsRun l fuel fuel') (enough : l.Enough i 1 (fuel + 1))
    (more : (l.token i).kind ≠ .endOfFile) :
    Runs l (Tree.loop (fuel + 1)) (Tree.loop (fuel' + 1)) i fun s j => l.Laid i j s.node := by
  rw [Tree.loop, Tree.loop]
  refine .advance more fun _ => runs_ident.bind fun counter a _ _ isCounter => .expect (by decide) fun fits _ => ?_
  have past := isCounter.spans.lt
  have inside : l.Enough (a + 1) 5 fuel := enough.later (by omega) fits (by decide)
  refine (runs_expression le inside).bind fun lower b before _ isLower => .expect (by decide) fun _ _ => ?_
  refine (runs_expression le (inside.weaken (by omega) (by decide))).bind fun upper c before' _ isUpper => ?_
  have next (noUnroll : Bool) {k : Nat} (before : c ≤ k) : Runs l (do
      let body ← Tree.block fuel
      return Stmt.loop counter lower upper noUnroll body (← spanFrom (l.token i))) (do
      let body ← Tree.block fuel'
      return Stmt.loop counter lower upper noUnroll body (← spanFrom (l.token i))) k
      fun s j => l.Laid i j s.node := by
    refine (h.block (inside.weaken (by omega) (by decide))).bind fun body d _ _ isBody => ?_
    refine .spanFrom (by omega) (.pure ?_)
    have parts : l.LaidAll i d [counter.node, lower.node, upper.node, body.node] :=
      .cons (Nat.le_succ i) isCounter (.cons (Nat.le_succ a) isLower
        (.cons (Nat.le_succ b) isUpper (.cons before isBody (.nil (Nat.le_refl d)))))
    exact .cover (by omega) parts
  exact .accept (by decide) (fun _ _ => next true (Nat.le_succ c)) fun _ => next false (Nat.le_refl c)

theorem static_succ (le : fuel ≤ fuel') (h : StmtsRun l fuel fuel') (enough : l.Enough i 1 (fuel + 1))
    (more : (l.token i).kind ≠ .endOfFile) :
    Runs l (Tree.static (fuel + 1)) (Tree.static (fuel' + 1)) i fun s j => l.Laid i j s.node := by
  rw [Tree.static, Tree.static]
  refine .advance more fun lt => .check ?_
  have inside : l.Enough (i + 1) 1 fuel := enough.later (Nat.lt_succ_self i) lt (by decide)
  refine runs_optionalIdents le inside fun exports a before _ areExports => ?_
  refine (h.block (inside.weaken before (by decide))).bind fun body b _ _ isBody => ?_
  refine .spanFrom (by omega) (.pure ?_)
  exact .cover (by omega) ((areExports.append (.single isBody)).widen (Nat.le_succ i) (Nat.le_refl b))

end StmtsRun

/-- Two bounds that are both enough make no difference to any parser of statements. -/
theorem stmtsRun (le : fuel ≤ fuel') : StmtsRun l fuel fuel' := by
  induction fuel generalizing fuel' with
  | zero => constructor <;> exact fun enough => absurd enough Listing.not_enough
  | succ fuel ih =>
    obtain ⟨fuel', rfl⟩ := Nat.exists_eq_add_of_lt le
    have le := Nat.le_add_right fuel fuel'
    have h := ih le
    exact {
      statement := h.statement_succ le
      block := h.block_succ
      statementList := h.statementList_succ
      macroDef := h.macroDef_succ le
      branch := h.branch_succ
      clauseList := h.clauseList_succ le
      loop := h.loop_succ le
      static := h.static_succ le }

end SignalLang.Tree
