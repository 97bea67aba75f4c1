import SignalLang.Proofs.Tree.Faithful
import SignalLang.Proofs.Tree.Parsers
import SignalLang.Proofs.Token.Scanning

/-!
# What was read is grammatical

Every tree that a parser returns is grammatical, on any stream whose names are those of scanned tokens. The
parsers call each other with less fuel, so this is shown of all of them at once, by induction on fuel.
-/

namespace SignalLang

/-! ## Scanned tokens -/

/-- The text of a name token is a name. -/
def Token.IsScanned (t : Token) : Prop := t.kind = .ident → IsName t.lexeme

namespace Token

theorem kind_numberItem (c : Char) (cs : List Char) : (numberItem c cs).kind ≠ some .ident := by
  have either (p : Prop) [Decidable p] :
      some (if p then TokenKind.floatLiteral else .intLiteral) ≠ some .ident := by split <;> simp
  unfold numberItem
  split
  · split
    · simp [Item.token]
    · exact either _
  · exact either _

theorem kind_pairItem {second : Char} {pair alone : TokenKind} {cs : List Char} (notPair : pair ≠ .ident)
    (notAlone : alone ≠ .ident) : (pairItem second pair alone cs).kind ≠ some .ident := by
  unfold pairItem
  split
  · simpa [Item.token] using notPair
  · simpa [Item.single] using notAlone

/-- Only a letter or an underscore starts a name. -/
theorem kind_itemAt_of_not_letter {c : Char} {cs : List Char} {item : Item}
    (other : ¬ (Text.isLetter c = true ∨ c = '_')) (h : itemAt c cs = .ok item) : item.kind ≠ some .ident := by
  unfold itemAt at h
  split at h
  case h_26 =>
    split at h
    · cases h
      exact kind_numberItem _ cs
    · cases h
      simp [Item.single]
  case h_14 =>
    cases h
    split
    · exact kind_numberItem _ cs
    · simp [Item.single]
  case h_16 => 
    split at h
    · cases h
      simp
    · split at h
      · cases h
        simp
      · cases h
    · cases h
      simp [Item.single]
  case h_15 | h_17 | h_18 =>
    cases h
    exact kind_pairItem (by decide) (by decide)
  case h_19 | h_20 =>
    cases h
    split
    · simp [Item.token]
    · exact kind_pairItem (by decide) (by decide)
  case h_21 =>
    split at h
    · cases h
      simp [Item.token]
    · cases h
  all_goals
    cases h
    simp [Item.single]

/-- Only words are names. -/
theorem isName_of_itemAt {c : Char} {cs : List Char} {n : Nat}
    (h : itemAt c cs = .ok ⟨some .ident, n⟩) : IsName (String.ofList (c :: cs.take n)) := by
  by_cases start : Text.isLetter c = true ∨ c = '_'
  · rw [itemAt_of_letter start] at h
    simp only [Item.token, Except.ok.injEq, Item.mk.injEq, Option.some.injEq] at h
    obtain ⟨isName, rfl⟩ := h
    have word : cs.take (cs.takeWhile isNamePart).length = cs.takeWhile isNamePart :=
      (List.prefix_iff_eq_take.1 (List.takeWhile_prefix _)).symm
    rw [word]
    exact ⟨c, _, rfl, start, fun d hd => List.all_eq_true.1 List.all_takeWhile d hd, isName⟩
  · exact absurd rfl (kind_itemAt_of_not_letter start h)

/-- Scanning takes one item from the front. -/
theorem scanFrom_cons {p : Cursor} {c : Char} {rest : List Char} {tokens : List Token}
    (scanned : scanFrom p (c :: rest) = .ok tokens) :
    ∃ item tail, itemAt c rest = .ok item ∧
      scanFrom (p.pass item.kind (c :: rest.take item.extra)) (rest.drop item.extra) = .ok tail ∧
      ∀ t ∈ tokens, t ∈ tail ∨ some t.kind = item.kind ∧ t.lexeme = String.ofList (c :: rest.take item.extra) := by
  rw [scanFrom] at scanned
  cases isItem : itemAt c rest with
  | error fault => simp [isItem] at scanned
  | ok item =>
    simp only [isItem] at scanned
    cases isTail : scanFrom (p.pass item.kind (c :: rest.take item.extra)) (rest.drop item.extra) with
    | error e => simp [isTail] at scanned
    | ok tail =>
      refine ⟨item, tail, rfl, isTail, fun t ht => ?_⟩
      simp only [isTail] at scanned
      cases isKind : item.kind with
      | none =>
        simp only [isKind] at scanned
        cases scanned
        exact .inl ht
      | some kind =>
        simp only [isKind] at scanned
        cases scanned
        rcases List.mem_cons.1 ht with rfl | ht
        · exact .inr ⟨rfl, rfl⟩
        · exact .inl ht

theorem isScanned_of_scanFrom (n : Nat) {p : Cursor} {cs : List Char} {tokens : List Token}
    (size : cs.length ≤ n) (scanned : scanFrom p cs = .ok tokens) : ∀ t ∈ tokens, t.IsScanned := by
  induction n generalizing p cs tokens with
  | zero =>
    rw [List.eq_nil_of_length_eq_zero (Nat.le_zero.1 size), scanFrom] at scanned
    cases scanned
    intro t ht isName
    rw [List.mem_singleton.1 ht] at isName
    cases isName
  | succ n ih =>
    cases cs with
    | nil => exact ih (by simp) scanned
    | cons c rest =>
      obtain ⟨item, tail, isItem, isTail, from'⟩ := scanFrom_cons scanned
      intro t ht
      rcases from' t ht with ht | ⟨kind, lexeme⟩
      · refine ih ?_ isTail t ht
        simp only [List.length_cons, List.length_drop] at size ⊢
        omega
      · intro isName
        obtain ⟨kind', extra⟩ := item
        cases kind.symm.trans (congrArg some isName)
        rw [lexeme]
        exact isName_of_itemAt isItem

theorem isScanned_of_scan {source : String} {tokens : List Token} (scanned : scan source = .ok tokens) :
    ∀ t ∈ tokens, t.IsScanned :=
  isScanned_of_scanFrom _ (Nat.le_refl _) scanned

end Token

namespace Tree

open Parse

/-! ## Parsers that keep what was scanned -/

/-- The names that are left to be read are those of scanned tokens. -/
def Stream.IsScanned (s : Stream) : Prop := ∀ t ∈ s.rest, t.IsScanned

theorem Stream.IsScanned.peek {s : Stream} (h : s.IsScanned) : s.peek.IsScanned := by
  unfold Stream.peek
  cases rest : s.rest with
  | nil => intro isName; cases isName
  | cons t ts => exact h t (by rw [rest]; exact .head _)

theorem Stream.IsScanned.advance {s : Stream} (h : s.IsScanned) : s.advance.IsScanned := by
  unfold Stream.advance
  split
  · exact h
  · exact fun t ht => h t (List.mem_of_mem_tail ht)

variable {α β : Type} {p : Parse α} {f : α → Parse β} {s : Stream} {good : α → Prop} {good' : β → Prop}
  {kind : TokenKind} {token : Token}

/-- Every result of a parser on a scanned stream is good, and what it leaves is scanned. -/
def Meets (p : Parse α) (s : Stream) (good : α → Prop) : Prop :=
  s.IsScanned → ∀ a s', p.run s = (.ok a, s') → good a ∧ s'.IsScanned

/-- Every result of a parser is good. -/
def Ensures (p : Parse α) (good : α → Prop) : Prop := ∀ s, Meets p s good

namespace Meets

protected theorem pure {a : α} (h : good a) : Meets (pure a) s good := by
  rintro scanned _ _ ⟨⟩
  exact ⟨h, scanned⟩

protected theorem bind (first : Meets p s good) (next : ∀ a s', good a → Meets (f a) s' good') :
    Meets (p >>= f) s good' := by
  intro scanned b s'' run
  rw [run_bind] at run
  split at run
  · rename_i a s' runFirst
    obtain ⟨isGood, scanned'⟩ := first scanned a s' runFirst
    exact next a s' isGood scanned' b s'' run
  · cases run

theorem map {g : α → β} (h : Meets p s good) (next : ∀ a, good a → good' (g a)) :
    Meets (g <$> p) s good' := by
  rw [← bind_pure_comp]
  exact h.bind fun a _ isGood => .pure (next a isGood)

theorem fail {fault : Fault} : Meets (fail token fault : Parse α) s good := by
  rintro _ _ _ ⟨⟩

theorem peek {f : Token → Parse β} (next : s.peek.IsScanned → Meets (f s.peek) s good') :
    Meets (Parse.peek >>= f) s good' :=
  fun scanned => next scanned.peek scanned

theorem peekSecond {f : Token → Parse β} (next : ∀ t, Meets (f t) s good') :
    Meets (Parse.peekSecond >>= f) s good' := next _

theorem advance {f : Token → Parse β} (next : s.peek.IsScanned → Meets (f s.peek) s.advance good') :
    Meets (Parse.advance >>= f) s good' :=
  fun scanned => next scanned.peek scanned.advance

theorem expect {f : Unit → Parse β} (next : s.peek.kind = kind → Meets (f ()) s.advance good') :
    Meets (Parse.expect kind >>= f) s good' := by
  intro scanned b s' run
  by_cases same : nextKind s.lexemes = kind
  · rw [run_bind_ok (run_expect same)] at run
    exact next (s.kind_peek.trans same) scanned.advance b s' run
  · rw [run_bind_error (run_not_expect same)] at run
    cases run

theorem check {f : Bool → Parse β} (next : ∀ b, Meets (f b) s good') :
    Meets (Parse.check kind >>= f) s good' := next _

theorem atEnd {f : Bool → Parse β} (next : ∀ b, Meets (f b) s good') :
    Meets (Parse.atEnd >>= f) s good' := next _

theorem accept {f : Bool → Parse β} (yes : s.peek.kind = kind → Meets (f true) s.advance good')
    (no : s.peek.kind ≠ kind → Meets (f false) s good') : Meets (Parse.accept kind >>= f) s good' := by
  intro scanned b s' run
  by_cases same : nextKind s.lexemes = kind
  · rw [run_bind_ok (run_accept same)] at run
    exact yes (s.kind_peek.trans same) scanned.advance b s' run
  · rw [run_bind_ok (run_not_accept same)] at run
    exact no (fun h => same (s.kind_peek.symm.trans h)) scanned b s' run

theorem spanOf {f : Span → Parse β} (next : ∀ span, Meets (f span) s good') :
    Meets (Parse.spanOf token >>= f) s good' := next _

theorem spanFrom {f : Span → Parse β} (next : ∀ span, Meets (f span) s good') :
    Meets (Parse.spanFrom token >>= f) s good' := next _

/-- What an attempt finds is what the parser finds. -/
theorem attempt {p : Parse (Option α)} {good : α → Prop} (h : Meets p s fun r => ∀ a, r = some a → good a) :
    Meets (Parse.attempt p) s fun r => ∀ a, r = some a → good a := by
  intro scanned r s' run
  cases found : p.run s with
  | mk result s'' =>
    by_cases finds : ∃ a, result = .ok (some a)
    · obtain ⟨a, rfl⟩ := finds
      rw [run_attempt_some found] at run
      cases run
      exact h scanned _ _ found
    · rw [run_attempt_none fun a t same => finds ⟨a, congrArg Prod.fst (found.symm.trans same)⟩] at run
      cases run
      exact ⟨fun a same => (nomatch same), scanned⟩

end Meets

theorem ensures_tooDeep : Ensures (do fail (← Parse.peek) .tooDeep : Parse α) good :=
  fun _ => .peek fun _ => .fail

/-! ## Expressions -/

/-- What each parser of expressions returns with a bound on its depth. -/
structure ExprsGrammatical (fuel : Nat) : Prop where
  binary (least : Nat) : Ensures (binary least fuel) Expr.Grammatical
  binaryTail (least : Nat) {left : Expr} : left.Grammatical →
    Ensures (binaryTail least left fuel) Expr.Grammatical
  unary : Ensures (unary fuel) Expr.Grammatical
  postfixes (start : Token) {base : Expr} : base.Grammatical →
    Ensures (postfixes start base fuel) Expr.Grammatical
  call {callee : Ident} : IsName callee.name → Ensures (call callee fuel) Expr.Grammatical
  exprList (close : TokenKind) : Ensures (exprList close fuel) GrammaticalExprs
  outputList : Ensures (outputList fuel) GrammaticalOutputs
  output : Ensures (output fuel) Output.Grammatical
  primary : Ensures (primary fuel) Expr.Grammatical
  arrayType {s : Stream} : s.peek.kind = .leftBracket →
    Meets (arrayType fuel) s fun r => ∀ e, r = some e → e.Grammatical
  arrayDims (s : Stream) : Meets (arrayDims fuel) s fun r =>
    ∀ dims, r = some dims → GrammaticalExprs dims ∧ (s.peek.kind = .leftBracket → dims ≠ [])
  typeBound : Ensures (typeBound fuel) Expr.Grammatical

section

variable {fuel : Nat} {callee : Ident} {base left : Expr}

theorem ensures_ident : Ensures ident fun id => IsName id.name := fun _ =>
  .peek fun scanned => .expect fun same => .spanOf fun _ => .pure (scanned same)

theorem isWritten_of_unaryOp? {kind : TokenKind} {op : UnaryOp} (h : unaryOp? kind = some op) :
    op.IsWritten := by
  unfold unaryOp? at h
  split at h <;> cases h <;> rfl

theorem intValue?_bounds {lexeme : String} {v : Int} (h : intValue? lexeme = some v) :
    0 ≤ v ∧ v ≤ LongWord.greatest := by
  unfold intValue? at h
  obtain ⟨n, -, h⟩ := Option.bind_eq_some_iff.1 h
  split at h
  · rename_i fits
    cases h
    unfold LongWord.inRange at fits
    simp at fits
    omega
  · cases h

theorem output_target {e : Expr} (assignable : e.isAssignable = true) (h : e.Grammatical) :
    (Output.target e e.span).Grammatical := by
  cases e with
  | decl => cases h
  | _ => exact ⟨assignable, h⟩

namespace ExprsGrammatical

theorem binary_succ (h : ExprsGrammatical fuel) (least : Nat) :
    Ensures (Tree.binary least (fuel + 1)) Expr.Grammatical := by
  intro s
  rw [Tree.binary]
  exact (h.unary s).bind fun left s' isLeft => h.binaryTail least isLeft s'

theorem binaryTail_succ (h : ExprsGrammatical fuel) (least : Nat) (isLeft : left.Grammatical) :
    Ensures (Tree.binaryTail least left (fuel + 1)) Expr.Grammatical := by
  intro s
  rw [Tree.binaryTail]
  refine .peek fun _ => ?_
  split
  · exact .pure isLeft
  · split
    · exact .pure isLeft
    · refine .advance fun _ => (h.binary _ _).bind fun right s' isRight => ?_
      refine h.binaryTail least ?_ s'
      exact ⟨isLeft, isRight⟩

theorem unary_succ (h : ExprsGrammatical fuel) : Ensures (Tree.unary (fuel + 1)) Expr.Grammatical := by
  intro s
  rw [Tree.unary]
  refine .peek fun _ => ?_
  split
  · rename_i op isOp
    refine .advance fun _ => (h.unary _).bind fun operand s' isOperand => .spanOf fun _ => .pure ?_
    exact ⟨isWritten_of_unaryOp? isOp, isOperand⟩
  · exact (h.primary s).bind fun base s' isBase => h.postfixes _ isBase s'

theorem postfixes_succ (h : ExprsGrammatical fuel) (start : Token) (isBase : base.Grammatical) :
    Ensures (Tree.postfixes start base (fuel + 1)) Expr.Grammatical := by
  intro s
  unfold Tree.postfixes
  refine .peek fun _ => ?_
  split
  · split
    · exact (h.call isBase s).bind fun e s' isCall => h.postfixes start isCall s'
    · exact .pure isBase
  · refine .advance fun _ => (h.binary 0 _).bind fun index s' isIndex => ?_
    have next (optional : Bool) (t : Stream) : Meets (do
        Parse.expect .rightBracket
        Tree.postfixes start (.index base index optional (← Parse.spanFrom start)) fuel) t
        Expr.Grammatical := by
      refine .expect fun _ => .spanFrom fun span => h.postfixes start ?_ _
      exact ⟨isBase, isIndex⟩
    exact .accept (fun _ => next true _) (fun _ => next false _)
  · refine .advance fun _ => .peek fun scanned => .expect fun same => .spanOf fun _ => .spanFrom fun _ => ?_
    refine h.postfixes start ?_ _
    exact ⟨isBase, scanned same⟩
  · exact .pure isBase

theorem call_succ (h : ExprsGrammatical fuel) (isName : IsName callee.name) :
    Ensures (Tree.call callee (fuel + 1)) Expr.Grammatical := by
  intro s
  rw [Tree.call]
  refine .advance fun _ => (h.exprList _ _).bind fun inputs s' areInputs => .expect fun _ => ?_
  refine .check fun _ => .peekSecond fun _ => ?_
  split
  · refine .advance fun _ => .advance fun _ => (h.outputList _).bind fun outputs t areOutputs => ?_
    refine .expect fun _ => ?_
    exact .pure ⟨isName, areInputs, nofun, areOutputs⟩
  · exact .pure ⟨isName, areInputs, fun _ => rfl, trivial⟩

theorem exprList_succ (h : ExprsGrammatical fuel) (close : TokenKind) :
    Ensures (Tree.exprList close (fuel + 1)) GrammaticalExprs := by
  intro s
  rw [Tree.exprList]
  refine .check fun _ => .atEnd fun _ => ?_
  split
  · exact .pure trivial
  · refine (h.binary 0 s).bind fun e s' isExpr => .accept (fun _ => ?_) fun _ => .pure ⟨isExpr, trivial⟩
    exact (h.exprList close _).bind fun es _ areExprs => .pure ⟨isExpr, areExprs⟩

theorem outputList_succ (h : ExprsGrammatical fuel) :
    Ensures (Tree.outputList (fuel + 1)) GrammaticalOutputs := by
  intro s
  rw [Tree.outputList]
  refine .check fun _ => .atEnd fun _ => ?_
  split
  · exact .pure trivial
  · refine (h.output s).bind fun o s' isOutput => .accept (fun _ => ?_) fun _ => .pure ⟨isOutput, trivial⟩
    exact (h.outputList _).bind fun os _ areOutputs => .pure ⟨isOutput, areOutputs⟩

theorem output_succ (h : ExprsGrammatical fuel) : Ensures (Tree.output (fuel + 1)) Output.Grammatical := by
  intro s
  rw [Tree.output]
  refine .peek fun _ => ?_
  split
  · exact .advance fun _ => .spanOf fun _ => .pure trivial
  · refine (h.binary 0 s).bind fun e s' isExpr => .check fun isDecl => ?_
    cases isDecl with
    | true =>
      have decl : Meets (declFrom e) s'
          fun target => ∃ name span, target = .decl e name span ∧ IsName name.name :=
        (ensures_ident s').bind fun name _ isName => .pure ⟨name, _, rfl, isName⟩
      refine decl.bind fun target t isTarget => ?_
      obtain ⟨name, span, rfl, isName⟩ := isTarget
      exact .pure ⟨isExpr, isName⟩
    | false =>
      show Meets (if e.isAssignable then pure (.target e e.span) else Parse.fail s.peek .invalidOutput) s'
        Output.Grammatical
      split
      · rename_i assignable
        exact .pure (output_target assignable isExpr)
      · exact .fail

theorem primary_succ (h : ExprsGrammatical fuel) : Ensures (Tree.primary (fuel + 1)) Expr.Grammatical := by
  intro s
  rw [Tree.primary]
  refine .peek fun scanned => ?_
  split
  case h_1 =>
    refine .advance fun _ => ?_
    split
    · rename_i v isValue
      exact .spanOf fun _ => .pure (intValue?_bounds isValue)
    · exact .fail
  case h_2 =>
    refine .advance fun _ => ?_
    split
    · exact .spanOf fun _ => .pure trivial
    · exact .fail
  case h_3 isName => exact .advance fun _ => .spanOf fun _ => .pure (scanned isName)
  case h_4 => exact .advance fun _ => (h.binary 0 _).bind fun e s' isExpr => .expect fun _ => .pure isExpr
  case h_5 isBracket =>
    refine (Meets.attempt (h.arrayType isBracket)).bind fun found s' isFound => ?_
    split
    · rename_i type
      exact .pure (isFound type rfl)
    · refine .advance fun _ => (h.exprList _ _).bind fun items t areItems => .expect fun _ => ?_
      exact .spanFrom fun _ => .pure areItems
  case h_6 => exact h.typeBound s
  case h_7 => exact .fail

theorem arrayType_succ (h : ExprsGrammatical fuel) (isBracket : s.peek.kind = .leftBracket) :
    Meets (Tree.arrayType (fuel + 1)) s fun r => ∀ e, r = some e → e.Grammatical := by
  rw [Tree.arrayType]
  refine .peek fun _ => (h.arrayDims s).bind fun found s' isFound => ?_
  split
  · exact .pure nofun
  · rename_i dims
    obtain ⟨areDims, nonempty⟩ := isFound dims rfl
    refine .peek fun _ => ?_
    have base : Meets (do
        let base ← Tree.primary fuel
        return some (Expr.arrayType dims base (← Parse.spanFrom s.peek))) s'
        fun r => ∀ e, r = some e → e.Grammatical := by
      refine (h.primary s').bind fun base t isBase => .spanFrom fun _ => .pure ?_
      rintro _ ⟨⟩
      exact ⟨nonempty isBracket, areDims, isBase⟩
    split
    · exact base
    · exact base
    · exact base
    · exact .pure nofun

theorem arrayDims_succ (h : ExprsGrammatical fuel) (s : Stream) : Meets (Tree.arrayDims (fuel + 1)) s fun r =>
    ∀ dims, r = some dims → GrammaticalExprs dims ∧ (s.peek.kind = .leftBracket → dims ≠ []) := by
  rw [Tree.arrayDims]
  refine .accept (fun _ => ?_) fun other => .pure ?_
  · refine (h.binary 0 _).bind fun dim s' isDim => .accept (fun _ => ?_) fun _ => .pure nofun
    refine (h.arrayDims _).bind fun found _ areDims => .pure fun dims same => ?_
    obtain ⟨rest, isRest, rfl⟩ := Option.map_eq_some_iff.1 same
    exact ⟨⟨isDim, (areDims rest isRest).1⟩, fun _ => List.cons_ne_nil _ _⟩
  · rintro _ ⟨⟩
    exact ⟨trivial, fun same => absurd same other⟩

theorem typeBound_succ (h : ExprsGrammatical fuel) :
    Ensures (Tree.typeBound (fuel + 1)) Expr.Grammatical := by
  intro s
  rw [Tree.typeBound]
  refine .advance fun _ => .check fun _ => ?_
  split
  · exact .expect fun _ => .spanFrom fun _ => .pure trivial
  · refine (h.unary _).bind fun first s' isFirst => .accept (fun _ => ?_) fun _ => ?_
    · refine (h.unary _).bind fun second t isSecond => .expect fun _ => .spanFrom fun _ => .pure ?_
      exact ⟨isFirst, isSecond⟩
    · exact .expect fun _ => .spanFrom fun _ => .pure isFirst

end ExprsGrammatical

/-- Every expression that is read is grammatical. -/
theorem exprsGrammatical (fuel : Nat) : ExprsGrammatical fuel := by
  induction fuel with
  | zero =>
    constructor
    all_goals
      intros
      first | exact ensures_tooDeep | exact ensures_tooDeep _
  | succ fuel h =>
    exact {
      binary := h.binary_succ
      binaryTail := fun least _ => h.binaryTail_succ least
      unary := h.unary_succ
      postfixes := fun start _ => h.postfixes_succ start
      call := h.call_succ
      exprList := h.exprList_succ
      outputList := h.outputList_succ
      output := h.output_succ
      primary := h.primary_succ
      arrayType := h.arrayType_succ
      arrayDims := h.arrayDims_succ
      typeBound := h.typeBound_succ }

end

/-! ## Statements -/

/-- What each parser of statements returns with a bound on its depth. -/
structure StmtsGrammatical (fuel : Nat) : Prop where
  statement : Ensures (statement fuel) fun r => GrammaticalStmts r.toList
  block : Ensures (block fuel) Block.Grammatical
  statementList : Ensures (statementList fuel) GrammaticalStmts
  macroDef : Ensures (macroDef fuel) Stmt.Grammatical
  branch : Ensures (branch fuel) Stmt.Grammatical
  clauseList : Ensures (clauseList fuel) fun r =>
    r.1 ≠ [] ∧ GrammaticalClauses r.1 ∧ GrammaticalOtherwise r.2
  loop : Ensures (loop fuel) Stmt.Grammatical
  static : Ensures (static fuel) Stmt.Grammatical

section

variable {fuel : Nat}

theorem ensures_expression (fuel : Nat) : Ensures (expression fuel) Expr.Grammatical :=
  (exprsGrammatical fuel).binary 0

theorem ensures_identList (fuel : Nat) : Ensures (identList fuel) fun ids => ids ≠ [] ∧ AllNames ids := by
  induction fuel with
  | zero => exact ensures_tooDeep
  | succ fuel ih =>
    intro s
    rw [identList]
    refine (ensures_ident s).bind fun id s' isName => .accept (fun _ => ?_) fun _ => .pure ?_
    · refine (ih _).bind fun ids t areNames => .pure ⟨List.cons_ne_nil _ _, ?_⟩
      exact List.forall_mem_cons.2 ⟨isName, areNames.2⟩
    · exact ⟨List.cons_ne_nil _ _, List.forall_mem_singleton.2 isName⟩

theorem grammaticalStmts_append {xs ys : List Stmt} (first : GrammaticalStmts xs)
    (next : GrammaticalStmts ys) : GrammaticalStmts (xs ++ ys) := by
  induction xs with
  | nil => exact next
  | cons x xs ih => exact ⟨first.1, ih first.2⟩

theorem ensures_ioDecl (fuel : Nat) : Ensures (ioDecl fuel) Stmt.Grammatical := fun _ =>
  .advance fun _ => (ensures_expression fuel _).bind fun _ _ isType =>
    (ensures_identList fuel _).bind fun _ _ areNames =>
      .expect fun _ => .spanFrom fun _ => .pure ⟨isType, areNames⟩

theorem ensures_assertStmt (fuel : Nat) : Ensures (assertStmt fuel) Stmt.Grammatical := fun _ =>
  .advance fun _ => (ensures_expression fuel _).bind fun _ _ isCondition =>
    .expect fun _ => .spanFrom fun _ => .pure isCondition

theorem ensures_includeStmt : Ensures includeStmt Stmt.Grammatical := by
  refine fun s => .advance fun _ => .peek fun _ => .expect fun _ => ?_
  split
  · exact .fail
  · exact .expect fun _ => .spanFrom fun _ => .pure trivial

theorem grammaticalTarget {e : Expr} (assignable : e.isAssignable = true) (h : e.Grammatical) :
    e.GrammaticalTarget := by
  cases e with
  | decl => cases h
  | _ => exact ⟨assignable, h⟩

theorem ensures_assignTo (fuel : Nat) {start : Token} {target : Expr} (h : target.GrammaticalTarget) :
    Ensures (simpleStmt.assignTo fuel start target) Stmt.Grammatical := fun s =>
  (ensures_expression fuel s).bind fun _ _ isValue =>
    .expect fun _ => .spanFrom fun _ => .pure ⟨h, isValue⟩

theorem ensures_simpleStmt (fuel : Nat) : Ensures (simpleStmt fuel) Stmt.Grammatical := by
  refine fun s => .peek fun _ => (ensures_expression fuel s).bind fun e s' isExpr => .check fun named => ?_
  split
  · refine (ensures_ident s').bind fun name t isName => .accept (fun _ => ?_) fun _ => ?_
    · refine ensures_assignTo fuel ?_ _
      exact ⟨isExpr, isName⟩
    · exact .expect fun _ => .spanFrom fun _ => .pure ⟨isExpr, isName⟩
  · refine .accept (fun _ => ?_) fun _ => .expect fun _ => ?_
    · show Meets (if e.isAssignable then _ else _) _ _
      split
      · rename_i assignable
        exact ensures_assignTo fuel (grammaticalTarget assignable isExpr) _
      · exact .fail
    · split
      · exact .spanFrom fun _ => .pure ⟨rfl, isExpr⟩
      · rename_i other
        refine .spanFrom fun _ => .pure ⟨?_, isExpr⟩
        cases e with
        | call callee inputs explicit outputs span => exact absurd rfl (other _ _ _ _ _)
        | _ => rfl

/-- Names before a token that is looked for first. -/
theorem meets_optionalIdents {f : List Ident → Parse β} (none : Bool)
    (next : ∀ ids s', AllNames ids → Meets (f ids) s' good') :
    Meets (if none = true then pure [] >>= f else identList fuel >>= f) s good' := by
  split
  · exact Meets.bind (.pure (List.forall_mem_nil _)) next
  · exact (ensures_identList fuel s).bind fun ids s' areNames => next ids s' areNames.2

theorem ensures_macroInputs (fuel : Nat) : Ensures (macroInputs fuel) AllNames :=
  fun _ => .expect fun _ => .check fun none =>
    meets_optionalIdents none fun _ _ areNames => .expect fun _ => .pure areNames

theorem ensures_macroOutputs (fuel : Nat) : Ensures (macroOutputs fuel) AllNames := by
  refine fun s => .accept (fun _ => .accept (fun _ => .check fun none => ?_) fun _ => ?_) fun _ => ?_
  · exact meets_optionalIdents none fun ids s' areNames => .expect fun _ => .pure areNames
  · exact (ensures_ident _).bind fun id _ isName => .pure (List.forall_mem_singleton.2 isName)
  · exact .pure (List.forall_mem_nil _)

namespace StmtsGrammatical

theorem statement_succ (h : StmtsGrammatical fuel) :
    Ensures (Tree.statement (fuel + 1)) fun r => GrammaticalStmts r.toList := by
  have single {p : Parse Stmt} (each : Ensures p Stmt.Grammatical) (s : Stream) :
      Meets (some <$> p) s fun r => GrammaticalStmts r.toList :=
    (each s).map fun stmt isStmt => ⟨isStmt, trivial⟩
  intro s
  rw [Tree.statement]
  refine .peek fun _ => ?_
  split
  case h_1 | h_2 => exact single (ensures_ioDecl fuel) s
  case h_3 => exact single h.macroDef s
  case h_4 => exact single h.branch s
  case h_5 => exact single h.loop s
  case h_6 => exact single h.static s
  case h_7 => exact single (ensures_assertStmt fuel) s
  case h_8 => exact .advance fun _ => .expect fun _ => .spanFrom fun _ => .pure ⟨trivial, trivial⟩
  case h_9 => exact single ensures_includeStmt s
  case h_10 => exact (h.block s).map fun b isBlock => ⟨isBlock, trivial⟩
  case h_11 => exact .advance fun _ => .pure trivial
  case h_12 => exact single (ensures_simpleStmt fuel) s

theorem block_succ (h : StmtsGrammatical fuel) : Ensures (Tree.block (fuel + 1)) Block.Grammatical := by
  intro s
  rw [Tree.block]
  exact .peek fun _ => .expect fun _ => (h.statementList _).bind fun stmts _ areStmts =>
    .expect fun _ => .spanFrom fun _ => .pure areStmts

theorem statementList_succ (h : StmtsGrammatical fuel) :
    Ensures (Tree.statementList (fuel + 1)) GrammaticalStmts := by
  intro s
  rw [Tree.statementList]
  refine .check fun _ => .atEnd fun _ => ?_
  split
  · exact .pure trivial
  · exact (h.statement s).bind fun first s' isFirst => (h.statementList s').bind fun stmts _ areStmts =>
      .pure (grammaticalStmts_append isFirst areStmts)

theorem macroDef_succ (h : StmtsGrammatical fuel) : Ensures (Tree.macroDef (fuel + 1)) Stmt.Grammatical := by
  intro s
  rw [Tree.macroDef]
  refine .advance fun _ => (ensures_ident _).bind fun name _ isName => ?_
  refine (ensures_macroInputs fuel _).bind fun inputs _ areInputs => ?_
  refine (ensures_macroOutputs fuel _).bind fun outputs _ areOutputs => .spanFrom fun _ => ?_
  exact (h.block _).bind fun body _ isBody => .spanFrom fun _ => .pure ⟨isName, areInputs, areOutputs, isBody⟩

theorem branch_succ (h : StmtsGrammatical fuel) : Ensures (Tree.branch (fuel + 1)) Stmt.Grammatical := by
  intro s
  rw [Tree.branch]
  exact .advance fun _ => (h.clauseList _).bind fun r _ areClauses => .spanFrom fun _ => .pure areClauses

theorem clauseList_succ (h : StmtsGrammatical fuel) : Ensures (Tree.clauseList (fuel + 1)) fun r =>
    r.1 ≠ [] ∧ GrammaticalClauses r.1 ∧ GrammaticalOtherwise r.2 := by
  intro s
  rw [Tree.clauseList]
  refine (ensures_expression fuel s).bind fun condition _ isCondition => ?_
  refine (h.block _).bind fun body _ isBody => .accept (fun _ => .accept (fun _ => ?_) fun _ => ?_) fun _ => ?_
  · refine (h.clauseList _).bind fun r _ areClauses => .pure ⟨List.cons_ne_nil _ _, ?_, areClauses.2.2⟩
    exact ⟨isCondition, isBody, areClauses.2.1⟩
  · exact (h.block _).bind fun last _ isLast =>
      .pure ⟨List.cons_ne_nil _ _, ⟨isCondition, isBody, trivial⟩, isLast⟩
  · exact .pure ⟨List.cons_ne_nil _ _, ⟨isCondition, isBody, trivial⟩, trivial⟩

theorem loop_succ (h : StmtsGrammatical fuel) : Ensures (Tree.loop (fuel + 1)) Stmt.Grammatical := by
  intro s
  rw [Tree.loop]
  refine .advance fun _ => (ensures_ident _).bind fun counter _ isCounter => .expect fun _ => ?_
  refine (ensures_expression fuel _).bind fun lower _ isLower => .expect fun _ => ?_
  refine (ensures_expression fuel _).bind fun upper _ isUpper => ?_
  have next (noUnroll : Bool) (t : Stream) : Meets (do
      let body ← Tree.block fuel
      return Stmt.loop counter lower upper noUnroll body (← Parse.spanFrom s.peek)) t Stmt.Grammatical :=
    (h.block t).bind fun body _ isBody => .spanFrom fun _ => .pure ⟨isCounter, isLower, isUpper, isBody⟩
  exact .accept (fun _ => next true _) fun _ => next false _

theorem static_succ (h : StmtsGrammatical fuel) : Ensures (Tree.static (fuel + 1)) Stmt.Grammatical := by
  intro s
  rw [Tree.static]
  refine .advance fun _ => .check fun none => meets_optionalIdents none fun exports _ areNames => ?_
  exact (h.block _).bind fun body _ isBody => .spanFrom fun _ => .pure ⟨areNames, isBody⟩

end StmtsGrammatical

/-- Every statement that is read is grammatical. -/
theorem stmtsGrammatical (fuel : Nat) : StmtsGrammatical fuel := by
  induction fuel with
  | zero => constructor <;> exact ensures_tooDeep
  | succ fuel h =>
    exact {
      statement := h.statement_succ
      block := h.block_succ
      statementList := h.statementList_succ
      macroDef := h.macroDef_succ
      branch := h.branch_succ
      clauseList := h.clauseList_succ
      loop := h.loop_succ
      static := h.static_succ }

/-! ## Files -/

/-- The statements of a file without errors are grammatical. -/
theorem topLevel_grammatical (steps : Nat) {stmts : List Stmt} {final : Stream} (scanned : s.IsScanned)
    (read : topLevel fuel steps s = (stmts, [], final)) : GrammaticalStmts stmts := by
  induction steps generalizing s stmts with
  | zero =>
    cases read
    trivial
  | succ steps ih =>
    unfold topLevel at read
    split at read
    · cases read
      trivial
    · split at read
      · rename_i stmt s' run
        obtain ⟨isStmt, scanned'⟩ := (stmtsGrammatical fuel).statement s scanned _ _ run
        cases rest : topLevel fuel steps s' with
        | mk stmts' r =>
          obtain ⟨errors, final'⟩ := r
          rw [rest] at read
          cases read
          exact grammaticalStmts_append isStmt (ih scanned' rest)
      · cases read

/-- The file that is read from scanned tokens without errors is grammatical. -/
theorem parse_grammatical {file : Int} {tokens : List Token} {f : File} (scanned : ∀ t ∈ tokens, t.IsScanned)
    (read : parse file tokens = ⟨f, []⟩) : GrammaticalStmts f.statements := by
  unfold parse at read
  cases top : topLevel (16 * (tokens.length + 1)) (tokens.length + 1) ⟨file, none, tokens⟩ with
  | mk stmts r =>
    obtain ⟨errors, final⟩ := r
    simp only [top] at read
    cases read
    have scanned : Stream.IsScanned ⟨file, none, tokens⟩ := scanned
    exact topLevel_grammatical _ scanned top

end

end Tree

end SignalLang
