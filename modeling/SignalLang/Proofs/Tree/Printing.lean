import SignalLang.Proofs.Tree.Faithful
import SignalLang.Proofs.Tree.Literals

/-!
# The tokens of printed trees

The text of a faithful tree is scanned into the tokens of the tree. An expression may be followed by any
text that breaks names and numbers, except that an angle bracket must not follow one that ends with a type
bound.
-/

namespace SignalLang.Tree

open Token (Scans breaks)
open Lexeme (mark)

variable {rest : List Char} {ls : List Lexeme}

/-! ## Expressions -/

theorem exprTexts_eq (es : List Expr) : exprTexts es = es.map Expr.text := by
  induction es with
  | nil => rfl
  | cons e es ih => rw [exprTexts, ih, List.map_cons]

theorem outputTexts_eq (os : List Output) : outputTexts os = os.map Output.text := by
  induction os with
  | nil => rfl
  | cons o os ih => rw [outputTexts, ih, List.map_cons]

theorem operandText_eq (e : Expr) (text : String) :
    operandText e text = if e.isOperator then "(" ++ text ++ ")" else text := by
  cases e <;> rfl

/-- The first character of an expression. -/
theorem Expr.head_text : (e : Expr) → e.Faithful →
    ∃ c cs, e.text.toList = c :: cs ∧ c ≠ '=' ∧ (c = '<' → e.startsWithBound = true)
  | .name id, h => by
    obtain ⟨c, cs, same, -, notLess, notEqual⟩ := Token.head_of_isName h.name
    exact ⟨c, cs, same, notEqual, fun less => absurd less notLess⟩
  | .int v _, h => by
    obtain ⟨d, ds, digits⟩ := List.exists_cons_of_ne_nil (Nat.toDigits_ne_nil (n := v.toNat) (b := 10))
    have digit : d.isDigit = true := isDigit_of_mem_digits (digits ▸ List.Mem.head _)
    refine ⟨d, ds, by rw [Expr.text, toList_toString_int h.int.1, digits], ?_, ?_⟩ <;> rintro rfl <;>
      exact absurd digit (by decide)
  | .float v _, h => by
    obtain ⟨d, ds, fraction, exponent, same, digits, -⟩ := isFloat_floatText h.float.1
    have digit : d.isDigit = true := digits d (.head _)
    refine ⟨d, _, same, ?_, ?_⟩ <;> rintro rfl <;> exact absurd digit (by decide)
  | .array items _, _ => ⟨'[', _, by simp [Expr.text]; rfl, by decide, by simp⟩
  | .arrayType dims base _, h => by
    obtain ⟨some, -⟩ := h.arrayType
    obtain ⟨d, ds, rfl⟩ := List.exists_cons_of_ne_nil some
    exact ⟨'[', _, by simp [Expr.text, exprTexts]; rfl, by decide, by simp⟩
  | .openBound _, _ => ⟨'<', _, by simp [Expr.text]; rfl, by decide, fun _ => rfl⟩
  | .upperBound upper _, _ => ⟨'<', _, by simp [Expr.text]; rfl, by decide, fun _ => rfl⟩
  | .closedBound lower upper _, _ => ⟨'<', _, by simp [Expr.text]; rfl, by decide, fun _ => rfl⟩
  | .index base inner optional _, h => by
    obtain ⟨c, cs, same, notEqual, bound⟩ := base.head_text h.index.2.1
    exact ⟨c, _, by simp [Expr.text, same]; rfl, notEqual, bound⟩
  | .property base _ _ _, h => by
    obtain ⟨c, cs, same, notEqual, bound⟩ := base.head_text h.property.2.1
    exact ⟨c, _, by simp [Expr.text, same]; rfl, notEqual, bound⟩
  | .unary op operand _, h => by
    rcases h.unary.1.cases with rfl | rfl | rfl
    · exact ⟨'-', _, by simp [Expr.text, UnaryOp.text]; rfl, by decide, by simp⟩
    · exact ⟨'n', _, by simp [Expr.text, UnaryOp.text]; rfl, by decide, by simp⟩
    · exact ⟨'b', _, by simp [Expr.text, UnaryOp.text]; rfl, by decide, by simp⟩
  | .binary op left right _, h => by
    obtain ⟨c, cs, same, notEqual, bound⟩ := left.head_text h.binary.2.1
    cases operator : left.isOperator with
    | true => exact ⟨'(', _, by simp [Expr.text, operandText_eq, operator]; rfl, by decide, by simp⟩
    | false =>
      refine ⟨c, _, by simp [Expr.text, operandText_eq, operator, same]; rfl, notEqual, ?_⟩
      simpa [Expr.startsWithBound, operator] using bound
  | .call callee inputs explicit outputs _, h => by
    obtain ⟨c, cs, same, -, notLess, notEqual⟩ := Token.head_of_isName h.call.1
    exact ⟨c, _, by simp [Expr.text, same]; rfl, notEqual, fun less => absurd less notLess⟩
  | .decl .., h => absurd h Expr.Faithful.not_decl

/-- A text is scanned into tokens wherever something stands behind it that does not continue it. -/
def ScansTo (text : String) (endsWithBound : Bool) (lexemes : List Lexeme) : Prop :=
  ∀ rest ls, breaks rest = true → (endsWithBound = true → rest.head? ≠ some '>') → Scans rest ls →
    Scans (text.toList ++ rest) (lexemes ++ ls)

/-- The text of an expression is scanned into its tokens. -/
def Expr.Scanned (e : Expr) : Prop := ScansTo e.text e.endsWithBound e.lexemes

theorem ScansTo.item {text : String} {bound : Bool} {lexemes : List Lexeme} (h : ScansTo text bound lexemes) :
    ScansTo text true lexemes :=
  fun rest ls stop notBound tail => h rest ls stop (fun _ => notBound rfl) tail

/-- An operand in parentheses, or one that needs none. -/
theorem Expr.Scanned.operand {e : Expr} (h : e.Scanned) :
    ScansTo (operandText e e.text) (!e.isOperator && e.endsWithBound) (operandLexemes e e.lexemes) := by
  intro rest ls stop bound tail
  rw [operandText_eq, operandLexemes]
  cases operator : e.isOperator with
  | true =>
    have inner := h (')' :: rest) (mark .rightParen :: ls) rfl (by simp) (.single rfl rfl tail)
    have opened : Scans ('(' :: _) (mark .leftParen :: _) := .single rfl rfl inner
    simpa using opened
  | false => simpa using h rest ls stop (by simpa [operator] using bound) tail

/-- Texts divided by commas. -/
theorem scansTo_commas {α : Type} {text : α → String} {lexemes : α → List Lexeme} :
    (items : List α) → (∀ a ∈ items, ScansTo (text a) true (lexemes a)) →
    ScansTo (", ".intercalate (items.map text)) true (commaLexemes (items.map lexemes))
  | [], _ => fun _ _ _ _ tail => tail
  | [a], each => by simpa [commaLexemes] using each a (.head _)
  | a :: b :: items, each => by
    intro rest ls stop bound tail
    have others := scansTo_commas (b :: items) (fun c hc => each c (.tail _ hc)) rest ls stop bound tail
    have comma : Scans (',' :: ' ' :: _) (mark .comma :: _) := .single rfl rfl (.space others)
    have first := each a (.head _) _ _ rfl (by simp) comma
    simpa [String.intercalate_cons_cons, commaLexemes] using first

/-- Lengths in brackets. -/
theorem scans_lengths (dims : List Expr) (each : ∀ d ∈ dims, d.Scanned) (tail : Scans rest ls) :
    Scans ((String.join ((dims.map Expr.text).map fun d => "[" ++ d ++ "]")).toList ++ rest)
      ((dims.map Expr.lexemes).flatMap (fun d => mark .leftBracket :: d ++ [mark .rightBracket]) ++ ls) := by
  induction dims with
  | nil => simpa using tail
  | cons d dims ih =>
    have others := ih fun e he => each e (.tail _ he)
    have inner := each d (.head _) (']' :: _) (mark .rightBracket :: _) rfl (by simp) (.single rfl rfl others)
    have opened : Scans ('[' :: _) (mark .leftBracket :: _) := .single rfl rfl inner
    simpa using opened

section

variable {base inner lower upper operand left right type e : Expr} {es : List Expr} {os : List Output}
  {id : Ident} {span nameSpan : Span}

attribute [local simp] Expr.text Expr.lexemes

theorem scanned_array (each : ∀ e ∈ es, e.Scanned) : (Expr.array es span).Scanned := by
  intro rest ls stop _ tail
  have inner := scansTo_commas es (fun e he => (each e he).item) (']' :: rest) (mark .rightBracket :: ls)
    rfl (by simp) (.single rfl rfl tail)
  have opened : Scans ('[' :: _) (mark .leftBracket :: _) := .single rfl rfl inner
  simpa [exprTexts_eq, exprLexemes_eq] using opened

theorem scanned_arrayType (each : ∀ d ∈ es, d.Scanned) (simple : (base.isName || base.isBound) = true)
    (scanned : base.Scanned) : (Expr.arrayType es base span).Scanned := by
  intro rest ls stop bound tail
  have ends : base.endsWithBound = base.isBound := by cases base <;> first | rfl | cases simple
  have behind := scanned rest ls stop (ends ▸ bound) tail
  have front := scans_lengths es each behind
  simpa [exprTexts_eq, exprLexemes_eq] using front

theorem scanned_openBound : (Expr.openBound span).Scanned := fun rest ls stop bound tail => by
  have opened : Scans ('<' :: _) (mark .less :: _) :=
    .less (by simp) (by simp) (Scans.greater stop (bound rfl) tail)
  simpa using opened

/-- The opening bracket of a type bound. -/
theorem scans_less_side (faithful : e.Faithful) (start : e.startsWithBound = false)
    (tail : Scans (e.text.toList ++ rest) ls) :
    Scans ('<' :: (e.text.toList ++ rest)) (mark .less :: ls) := by
  obtain ⟨c, cs, same, notEqual, less⟩ := e.head_text faithful
  have notLess : c ≠ '<' := fun h => by simp [less h] at start
  exact .less (by simp [same, notLess]) (by simp [same, notEqual]) tail

theorem scanned_upperBound (faithful : (Expr.upperBound upper span).Faithful) (scanned : upper.Scanned) :
    (Expr.upperBound upper span).Scanned := by
  obtain ⟨-, start, ends, upper'⟩ := faithful.upperBound
  intro rest ls stop bound tail
  have inner := scanned ('>' :: rest) _ rfl (by simp [ends]) (.greater stop (bound rfl) tail)
  simpa using scans_less_side upper' start inner

theorem scanned_closedBound (faithful : (Expr.closedBound lower upper span).Faithful)
    (scannedLower : lower.Scanned) (scannedUpper : upper.Scanned) :
    (Expr.closedBound lower upper span).Scanned := by
  obtain ⟨⟨-, start, lower'⟩, -, ends, -⟩ := faithful.closedBound
  intro rest ls stop bound tail
  have second := scannedUpper ('>' :: rest) _ rfl (by simp [ends]) (.greater stop (bound rfl) tail)
  have comma : Scans (',' :: ' ' :: _) (mark .comma :: _) := .single rfl rfl (.space second)
  have first := scannedLower _ _ rfl (by simp) comma
  simpa using scans_less_side lower' start first

theorem scanned_index {optional : Bool} (scanned : base.Scanned) (scannedInner : inner.Scanned) :
    (Expr.index base inner optional span).Scanned := by
  intro rest ls stop _ tail
  have close : Scans (']' :: rest) (mark .rightBracket :: ls) := .single rfl rfl tail
  cases optional with
  | true =>
    have question : Scans ('?' :: _) (mark .question :: _) := .single rfl rfl close
    have bracket : Scans ('[' :: _) (mark .leftBracket :: _) :=
      .single rfl rfl (scannedInner _ _ rfl (by simp) question)
    simpa using scanned _ _ rfl (by simp) bracket
  | false =>
    have bracket : Scans ('[' :: _) (mark .leftBracket :: _) :=
      .single rfl rfl (scannedInner _ _ rfl (by simp) close)
    simpa using scanned _ _ rfl (by simp) bracket

theorem scanned_property {name : String} (isName : IsName name) (scanned : base.Scanned) :
    (Expr.property base name nameSpan span).Scanned := by
  intro rest ls stop _ tail
  obtain ⟨c, cs, same, notDigit, -⟩ := Token.head_of_isName isName
  have dot : Scans ('.' :: (name.toList ++ rest)) (mark .dot :: ⟨.ident, name⟩ :: ls) :=
    .dot (by simp [same, notDigit]) (.name isName stop tail)
  have front := scanned _ _ (Token.breaks_dot isName) (by simp) dot
  simpa using front

theorem scanned_unary {op : UnaryOp} (written : op.IsWritten) (scanned : operand.Scanned) :
    (Expr.unary op operand span).Scanned := by
  intro rest ls stop bound tail
  have behind := scanned.operand rest ls stop bound tail
  rcases written.cases with rfl | rfl | rfl
  · have minus : Scans ('-' :: _) (mark .minus :: _) := .single rfl rfl behind
    simpa [UnaryOp.text, UnaryOp.token] using minus
  · have word := Scans.keyword .kwNot (by decide) rfl (.space behind)
    simpa [UnaryOp.text, UnaryOp.token, TokenKind.text] using word
  · have word := Scans.keyword .kwBNot (by decide) rfl (.space behind)
    simpa [UnaryOp.text, UnaryOp.token, TokenKind.text] using word

theorem scanned_binary {op : BinaryOp} (scannedLeft : left.Scanned) (scannedRight : right.Scanned) :
    (Expr.binary op left right span).Scanned := by
  intro rest ls stop bound tail
  have second := scannedRight.operand rest ls stop bound tail
  have sign := Scans.binaryOp op (.space second)
  have first := scannedLeft.operand (' ' :: _) _ rfl (by simp) (.space sign)
  simpa using first

theorem scanned_call {explicit : Bool} (isName : IsName id.name) (inputs : ∀ e ∈ es, e.Scanned)
    (outputs : ∀ o ∈ os, ScansTo o.text true o.lexemes) : (Expr.call id es explicit os span).Scanned := by
  intro rest ls stop _ tail
  -- the front of a call, whatever stands behind its inputs
  have front : ∀ {rest ls}, Scans rest ls →
      Scans (id.name.toList ++ '(' :: ((", ".intercalate (es.map Expr.text)).toList ++ ')' :: rest))
        (id.lexeme :: mark .leftParen :: (commaLexemes (es.map Expr.lexemes) ++ mark .rightParen :: ls)) := by
    intro rest ls tail
    have items := scansTo_commas es (fun e he => (inputs e he).item) (')' :: rest) (mark .rightParen :: ls)
      rfl (by simp) (.single rfl rfl tail)
    have opened : Scans ('(' :: _) (mark .leftParen :: _) := .single rfl rfl items
    exact .name isName rfl opened
  cases explicit with
  | false => simpa [exprTexts_eq, exprLexemes_eq] using front tail
  | true =>
    have items := scansTo_commas os outputs (')' :: rest) (mark .rightParen :: ls) rfl (by simp)
      (.single rfl rfl tail)
    have opened : Scans ('(' :: _) (mark .leftParen :: _) := .single rfl rfl items
    have colon : Scans (':' :: _) (mark .colon :: _) := .single rfl rfl opened
    simpa [exprTexts_eq, exprLexemes_eq, outputTexts_eq, outputLexemes_eq]
      using front colon

theorem scanned_decl (isName : IsName id.name) (scanned : type.Scanned) :
    (Expr.decl type id span).Scanned := by
  intro rest ls stop _ tail
  have front := scanned (' ' :: _) _ rfl (by simp) (.space (.name isName stop tail))
  simpa [Ident.lexeme] using front

end

mutual

theorem Expr.scanned : (e : Expr) → e.Printable → e.Scanned
  | .name _, h => fun _ _ stop _ tail => .name h.name stop tail
  | .int .., h => fun _ _ stop _ tail => scans_int h.int.1 stop tail
  | .float .., h => fun _ _ stop _ tail => scans_isFloat (isFloat_floatText h.float.1) stop tail
  | .array items _, h => scanned_array (exprs_scanned items h.array)
  | .arrayType dims base _, h =>
    scanned_arrayType (exprs_scanned dims h.arrayType.2.1) h.arrayType.2.2.1
      (base.scanned h.arrayType.2.2.2.printable)
  | .openBound _, _ => scanned_openBound
  | .upperBound upper _, h => scanned_upperBound h (upper.scanned h.upperBound.2.2.2.printable)
  | .closedBound lower upper _, h =>
    scanned_closedBound h (lower.scanned h.closedBound.1.2.2.printable)
      (upper.scanned h.closedBound.2.2.2.printable)
  | .index base inner _ _, h =>
    scanned_index (base.scanned h.index.2.1.printable) (inner.scanned h.index.2.2.printable)
  | .property base _ _ _, h => scanned_property h.property.2.2 (base.scanned h.property.2.1.printable)
  | .unary _ operand _, h => scanned_unary h.unary.1 (operand.scanned h.unary.2.printable)
  | .binary _ left right _, h =>
    scanned_binary (left.scanned h.binary.2.1.printable) (right.scanned h.binary.2.2.printable)
  | .call _ inputs _ outputs _, h =>
    scanned_call h.call.1 (exprs_scanned inputs h.call.2.1) (outputs_scanned outputs h.call.2.2.2)
  | .decl type _ _, h => scanned_decl h.2 (type.scanned h.1.printable)

theorem exprs_scanned : (es : List Expr) → FaithfulExprs es → ∀ e ∈ es, e.Scanned
  | [], _ => by simp
  | e :: es, h => by
    rw [faithfulExprs_cons] at h
    exact List.forall_mem_cons.2 ⟨e.scanned h.1.printable, exprs_scanned es h.2⟩

theorem Output.scanned : (o : Output) → o.Faithful → ScansTo o.text true o.lexemes
  | .inline _, _ => fun _ _ stop _ tail => .keyword .kwInline (by decide) stop tail
  | .target target _, h => (target.scanned h.target.printable).item

theorem outputs_scanned : (os : List Output) → FaithfulOutputs os → ∀ o ∈ os, ScansTo o.text true o.lexemes
  | [], _ => by simp
  | o :: os, h => by
    rw [faithfulOutputs_cons] at h
    exact List.forall_mem_cons.2 ⟨o.scanned h.1, outputs_scanned os h.2⟩

end

theorem Expr.Faithful.scanned {e : Expr} (h : e.Faithful) : e.Scanned := e.scanned h.printable

/-! ## Statements -/

theorem toString_string (text : String) : toString text = text := rfl

theorem scans_indented {depth : Nat} {text : String} (h : Scans (text.toList ++ '\n' :: rest) ls) :
    Scans ((indented depth text).toList ++ rest) ls := by
  have line := Scans.spaces (4 * depth) h
  simpa [indented] using line

theorem scansTo_identNames {ids : List Ident} (h : AllNames ids) :
    ScansTo (identNames ids) true (identLexemes ids) :=
  scansTo_commas ids fun id hid _ _ stop _ tail => .name (h id hid) stop tail

/-- The lines of a statement are scanned into its tokens. -/
def Stmt.Scanned (s : Stmt) : Prop :=
  ∀ depth rest ls, Scans rest ls → Scans ((s.lines depth).toList ++ rest) (s.lexemes ++ ls)

/-- The lines of a block are scanned into the tokens between its braces. -/
def Block.Scanned (b : Block) : Prop :=
  ∀ depth rest ls, Scans rest ls →
    Scans ((b.lines depth).toList ++ rest) (stmtLexemes b.statements ++ ls)

theorem Block.lexemes_eq (b : Block) :
    b.lexemes = mark .leftBrace :: stmtLexemes b.statements ++ [mark .rightBrace] := by
  cases b
  rfl

/-- A block behind a line that opens it. -/
theorem Block.Scanned.braces {b : Block} (h : b.Scanned) (depth : Nat) (tail : Scans rest ls) :
    Scans ('\x7b' :: '\n' :: ((b.lines (depth + 1)).toList ++ ((indented depth "\x7d").toList ++ rest)))
      (b.lexemes ++ ls) := by
  have close : Scans ((indented depth "\x7d").toList ++ rest) (mark .rightBrace :: ls) :=
    scans_indented (.single rfl rfl (.newline tail))
  have opened : Scans ('\x7b' :: _) (mark .leftBrace :: _) :=
    .single rfl rfl (.newline (h (depth + 1) _ _ close))
  simpa [Block.lexemes_eq] using opened

section

variable {type value target condition start stop : Expr} {ids inputs outputs : List Ident} {id : Ident}
  {body : Block} {clauses : List Clause} {otherwise : Option Block} {span header : Span}

attribute [local simp] Stmt.lines Stmt.lexemes

theorem scanned_io {isOutput : Bool} (scanned : type.Scanned) (names : AllNames ids) :
    (Stmt.io isOutput type ids span).Scanned := by
  intro depth rest ls tail
  have list := scansTo_identNames names (';' :: '\n' :: rest) (mark .semicolon :: ls) rfl (by simp)
    (.single rfl rfl (.newline tail))
  have behind := scanned (' ' :: _) _ rfl (by simp) (.space list)
  cases isOutput with
  | true =>
    have word := Scans.keyword .kwOutput (by decide) rfl (.space behind)
    exact scans_indented (by simpa [toString_string, TokenKind.text] using word)
  | false =>
    have word := Scans.keyword .kwInput (by decide) rfl (.space behind)
    exact scans_indented (by simpa [toString_string, TokenKind.text] using word)

theorem scanned_declStmt (scanned : type.Scanned) (isName : IsName id.name) :
    (Stmt.decl type id header span).Scanned := by
  intro depth rest ls tail
  have close : Scans (';' :: '\n' :: rest) (mark .semicolon :: ls) := .single rfl rfl (.newline tail)
  have line := scanned (' ' :: _) _ rfl (by simp) (.space (.name isName rfl close))
  exact scans_indented (by simpa [toString_string, Ident.lexeme] using line)

theorem scanned_assign (scannedTarget : target.Scanned) (scannedValue : value.Scanned) :
    (Stmt.assign target value span).Scanned := by
  intro depth rest ls tail
  have behind := scannedValue (';' :: '\n' :: rest) (mark .semicolon :: ls) rfl (by simp)
    (.single rfl rfl (.newline tail))
  have sign : Scans ('=' :: ' ' :: _) (mark .assign :: _) := .single rfl rfl (.space behind)
  have line := scannedTarget (' ' :: _) _ rfl (by simp) (.space sign)
  exact scans_indented (by simpa [toString_string] using line)

/-- An expression and a semicolon on a line. -/
theorem scans_exprLine {depth : Nat} (scanned : value.Scanned) (tail : Scans rest ls) :
    Scans ((indented depth (value.text ++ ";")).toList ++ rest)
      (value.lexemes ++ mark .semicolon :: ls) := by
  have line := scanned (';' :: '\n' :: rest) (mark .semicolon :: ls) rfl (by simp)
    (.single rfl rfl (.newline tail))
  exact scans_indented (by simpa using line)

theorem scanned_callStmt (scanned : value.Scanned) : (Stmt.call value span).Scanned :=
  fun _ _ _ tail => by simpa using scans_exprLine scanned tail

theorem scanned_exprStmt (scanned : value.Scanned) : (Stmt.expr value span).Scanned :=
  fun _ _ _ tail => by simpa using scans_exprLine scanned tail

theorem scans_signature (isName : IsName id.name) (ins : AllNames inputs) (outs : AllNames outputs)
    (tail : Scans rest ls) :
    Scans ((signatureText id inputs outputs).toList ++ ' ' :: rest)
      (signatureLexemes id inputs outputs ++ ls) := by
  -- the front of a signature, whatever stands behind its inputs
  have front : ∀ {rest ls}, Scans rest ls →
      Scans (TokenKind.kwMacro.text.toList ++ ' ' :: (id.name.toList ++ '(' ::
          ((identNames inputs).toList ++ ')' :: rest)))
        (mark .kwMacro :: id.lexeme :: mark .leftParen :: (identLexemes inputs ++ mark .rightParen :: ls)) := by
    intro rest ls tail
    have list := scansTo_identNames ins (')' :: rest) (mark .rightParen :: ls) rfl (by simp)
      (.single rfl rfl tail)
    have opened : Scans ('(' :: _) (mark .leftParen :: _) := .single rfl rfl list
    exact .keyword _ (by decide) rfl (.space (.name isName rfl opened))
  have space : Scans (' ' :: rest) ls := .space tail
  match outputs, outs with
  | [], _ => simpa [signatureText, signatureLexemes, TokenKind.text] using front space
  | [o], outs =>
    have name := Scans.name (outs o (.head _)) rfl space
    have colon : Scans (':' :: ' ' :: _) (mark .colon :: _) := .single rfl rfl (.space name)
    simpa [signatureText, signatureLexemes, TokenKind.text, Ident.lexeme] using front colon
  | o :: p :: os, outs =>
    have list := scansTo_identNames outs (')' :: ' ' :: rest) (mark .rightParen :: ls) rfl (by simp)
      (.single rfl rfl space)
    have opened : Scans ('(' :: _) (mark .leftParen :: _) := .single rfl rfl list
    have colon : Scans (':' :: ' ' :: _) (mark .colon :: _) := .single rfl rfl (.space opened)
    simpa [signatureText, signatureLexemes, TokenKind.text] using front colon

theorem scanned_macroDef (isName : IsName id.name) (ins : AllNames inputs) (outs : AllNames outputs)
    (scanned : body.Scanned) : (Stmt.macroDef id inputs outputs body header span).Scanned := by
  intro depth rest ls tail
  have line := scans_signature isName ins outs (scanned.braces depth tail)
  rw [Stmt.lines, String.toList_append, String.toList_append, List.append_assoc, List.append_assoc]
  exact scans_indented (by simpa using line)

theorem scanned_loop {noUnroll : Bool} (isName : IsName id.name) (scannedStart : start.Scanned)
    (scannedStop : stop.Scanned) (scanned : body.Scanned) :
    (Stmt.loop id start stop noUnroll body span).Scanned := by
  intro depth rest ls tail
  have block := scanned.braces depth tail
  -- the front of a loop, whatever stands behind its limits
  have front : ∀ {rest ls}, Scans rest ls →
      Scans (TokenKind.kwFor.text.toList ++ ' ' :: (id.name.toList ++ ' ' :: '=' :: ' ' ::
          (start.text.toList ++ ' ' :: (TokenKind.kwTo.text.toList ++ ' ' ::
            (stop.text.toList ++ ' ' :: rest)))))
        (mark .kwFor :: id.lexeme :: mark .assign ::
          (start.lexemes ++ mark .kwTo :: (stop.lexemes ++ ls))) := by
    intro rest ls tail
    have upper := scannedStop (' ' :: rest) ls rfl (by simp) (.space tail)
    have word := Scans.keyword .kwTo (by decide) rfl (.space upper)
    have lower := scannedStart (' ' :: _) _ rfl (by simp) (.space word)
    have sign : Scans ('=' :: ' ' :: _) (mark .assign :: _) := .single rfl rfl (.space lower)
    exact .keyword _ (by decide) rfl (.space (.name isName rfl (.space sign)))
  rw [Stmt.lines, String.toList_append, String.toList_append, List.append_assoc, List.append_assoc]
  cases noUnroll with
  | true =>
    have word := Scans.keyword .kwNoUnroll (by decide) rfl (.space block)
    exact scans_indented (by simpa [toString_string, TokenKind.text] using front word)
  | false => exact scans_indented (by simpa [toString_string, TokenKind.text] using front block)

theorem scanned_static (names : AllNames ids) (scanned : body.Scanned) :
    (Stmt.static ids body span).Scanned := by
  intro depth rest ls tail
  have block := scanned.braces depth tail
  rw [Stmt.lines, String.toList_append, String.toList_append, List.append_assoc, List.append_assoc]
  cases ids with
  | nil =>
    have word := Scans.keyword .kwStatic (by decide) rfl (.space block)
    exact scans_indented (by simpa [identLexemes, commaLexemes, TokenKind.text] using word)
  | cons first others =>
    have list := scansTo_identNames names (' ' :: _) _ rfl (by simp) (.space block)
    have word := Scans.keyword .kwStatic (by decide) rfl (.space list)
    exact scans_indented (by simpa [TokenKind.text] using word)

theorem scanned_assert (scanned : condition.Scanned) : (Stmt.assert condition span).Scanned := by
  intro depth rest ls tail
  have behind := scanned (';' :: '\n' :: rest) (mark .semicolon :: ls) rfl (by simp)
    (.single rfl rfl (.newline tail))
  have word := Scans.keyword .kwAssert (by decide) rfl (.space behind)
  exact scans_indented (by simpa [toString_string, TokenKind.text] using word)

theorem scanned_ret : (Stmt.ret span).Scanned := by
  intro depth rest ls tail
  have close : Scans (';' :: '\n' :: rest) (mark .semicolon :: ls) := .single rfl rfl (.newline tail)
  have word := Scans.keyword .kwReturn (by decide) rfl close
  exact scans_indented (by simpa [TokenKind.text] using word)

theorem scanned_includeFile {path : List UInt8} : (Stmt.includeFile path span).Scanned := by
  intro depth rest ls tail
  have close : Scans (';' :: '\n' :: rest) (mark .semicolon :: ls) := .single rfl rfl (.newline tail)
  have quoted := scans_quoteBytes path close
  have word := Scans.keyword .kwInclude (by decide) rfl (.space quoted)
  exact scans_indented (by simpa [TokenKind.text] using word)

theorem scanned_block (scanned : body.Scanned) : (Stmt.block body).Scanned := by
  intro depth rest ls tail
  rw [Stmt.lines, String.toList_append, String.toList_append, List.append_assoc, List.append_assoc]
  exact scans_indented (by simpa using scanned.braces depth tail)

/-- A condition of a faithful branch and its body are scanned. -/
def Clause.Scanned : Clause → Prop
  | .mk condition body => condition.Scanned ∧ body.Scanned

/-- What follows the statements of a clause: its closing brace, the other clauses and the last body. -/
theorem scans_clauses (depth : Nat) (each : ∀ c ∈ clauses, c.Scanned)
    (last : ∀ body, otherwise = some body → body.Scanned) (tail : Scans rest ls) :
    Scans ((clauseLines depth "\x7d else if " clauses).toList ++ ((otherwiseLines depth otherwise).toList ++
        ((indented depth "\x7d").toList ++ rest)))
      (mark .rightBrace :: (clauseLexemes clauses ++ (otherwiseLexemes otherwise ++ ls))) := by
  induction clauses with
  | nil =>
    cases otherwise with
    | none =>
      have close : Scans ((indented depth "\x7d").toList ++ rest) (mark .rightBrace :: ls) :=
        scans_indented (.single rfl rfl (.newline tail))
      simpa [clauseLines, otherwiseLines, clauseLexemes, otherwiseLexemes] using close
    | some body =>
      have block := (last body rfl).braces depth tail
      have word := Scans.keyword .kwElse (by decide) rfl (.space block)
      have close : Scans ('\x7d' :: ' ' :: _) (mark .rightBrace :: _) := .single rfl rfl (.space word)
      rw [clauseLines, String.toList_empty, List.nil_append, otherwiseLines, String.toList_append, List.append_assoc]
      exact scans_indented (by simpa [clauseLexemes, otherwiseLexemes, TokenKind.text] using close)
  | cons clause clauses ih =>
    obtain ⟨condition, body⟩ := clause
    obtain ⟨scannedCondition, scannedBody⟩ := each _ (.head _)
    have behind := scannedBody (depth + 1) _ _ (ih fun c hc => each c (.tail _ hc))
    have brace : Scans ('\x7b' :: '\n' :: _) (mark .leftBrace :: _) := .single rfl rfl (.newline behind)
    have front := scannedCondition (' ' :: _) _ rfl (by simp) (.space brace)
    have wordIf := Scans.keyword .kwIf (by decide) rfl (.space front)
    have wordElse := Scans.keyword .kwElse (by decide) rfl (.space wordIf)
    have close : Scans ('\x7d' :: ' ' :: _) (mark .rightBrace :: _) := .single rfl rfl (.space wordElse)
    rw [clauseLines, String.toList_append, String.toList_append, List.append_assoc, List.append_assoc]
    exact scans_indented (by simpa [clauseLexemes, Block.lexemes_eq, TokenKind.text] using close)

theorem scanned_branch (nonempty : clauses ≠ []) (each : ∀ c ∈ clauses, c.Scanned)
    (last : ∀ body, otherwise = some body → body.Scanned) :
    (Stmt.branch clauses otherwise span).Scanned := by
  intro depth rest ls tail
  obtain ⟨⟨condition, body⟩, clauses, rfl⟩ := List.exists_cons_of_ne_nil nonempty
  obtain ⟨scannedCondition, scannedBody⟩ := each _ (.head _)
  have others := scans_clauses depth (fun c hc => each c (.tail _ hc)) last tail
  have brace : Scans ('\x7b' :: '\n' :: _) (mark .leftBrace :: _) :=
    .single rfl rfl (.newline (scannedBody (depth + 1) _ _ others))
  have front := scannedCondition (' ' :: _) _ rfl (by simp) (.space brace)
  have word := Scans.keyword .kwIf (by decide) rfl (.space front)
  rw [Stmt.lines, clauseLines]
  simp only [String.toList_append, List.append_assoc]
  exact scans_indented (by
    simpa [clauseLexemes, Block.lexemes_eq, TokenKind.text] using word)

end

mutual

theorem Stmt.scanned : (s : Stmt) → s.Faithful → s.Scanned
  | .io .., h => scanned_io h.io.1.scanned h.io.2.2.2
  | .decl .., h => scanned_declStmt h.decl.1.scanned h.decl.2.2
  | .assign target _ _, h => scanned_assign (target.scanned h.assign.1.printable) h.assign.2.scanned
  | .macroDef _ _ _ body _ _, h =>
    scanned_macroDef h.macroDef.1 h.macroDef.2.1 h.macroDef.2.2.1 (body.scanned h.macroDef.2.2.2)
  | .call .., h => scanned_callStmt h.call.2.scanned
  | .expr .., h => scanned_exprStmt h.expr.2.scanned
  | .branch clauses otherwise _, h =>
    scanned_branch h.branch.1 (clauses_scanned clauses h.branch.2.1)
      (otherwise_scanned otherwise h.branch.2.2)
  | .loop _ _ _ _ body _, h =>
    scanned_loop h.loop.1 h.loop.2.1.scanned h.loop.2.2.1.scanned (body.scanned h.loop.2.2.2)
  | .static _ body _, h => scanned_static h.static.1 (body.scanned h.static.2)
  | .assert .., h => scanned_assert h.assert.scanned
  | .ret _, _ => scanned_ret
  | .includeFile .., _ => scanned_includeFile
  | .block body, h => scanned_block (body.scanned h.block)

theorem Block.scanned : (b : Block) → b.Faithful → b.Scanned
  | .mk statements _, h => fun depth _ _ tail => scans_stmts statements h depth tail

theorem scans_stmts : (ss : List Stmt) → FaithfulStmts ss → ∀ depth {rest ls}, Scans rest ls →
    Scans ((stmtLines depth ss).toList ++ rest) (stmtLexemes ss ++ ls)
  | [], _, _, _, _, tail => tail
  | s :: ss, h, depth, rest, ls, tail => by
    rw [faithfulStmts_cons] at h
    have first := s.scanned h.1 depth _ _ (scans_stmts ss h.2 depth tail)
    simpa [stmtLines, stmtLexemes] using first

theorem clauses_scanned : (cs : List Clause) → FaithfulClauses cs → ∀ c ∈ cs, c.Scanned
  | [], _ => by simp
  | .mk condition body :: cs, h => by
    rw [faithfulClauses_cons] at h
    exact List.forall_mem_cons.2 ⟨⟨h.1.scanned, body.scanned h.2.1⟩, clauses_scanned cs h.2.2⟩

theorem otherwise_scanned : (b : Option Block) → FaithfulOtherwise b → ∀ body, b = some body → body.Scanned
  | none, _ => by simp
  | some body, h => by
    rintro _ ⟨⟩
    exact body.scanned h.some

end

/-- The text of a faithful file is scanned into its tokens. -/
theorem scan_text {f : File} (h : FaithfulStmts f.statements) :
    ∃ tokens, Token.scan f.text = .ok tokens ∧
      tokens.map Token.toLexeme = stmtLexemes f.statements ++ [.ending] := by
  have scanned := scans_stmts f.statements h 0 .nil
  rw [List.append_nil] at scanned
  exact scanned {}

end SignalLang.Tree
