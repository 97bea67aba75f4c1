import SignalLang.Proofs.Tree.Grammar
import SignalLang.Proofs.Tree.Printing
import SignalLang.Proofs.Tree.Statements
import SignalLang.Tree.Outline

/-!
# Printing and reading again

The text of a file that was read is read as the same file, up to spans, if the file is unambiguous: the
printer puts parentheses around the operands of operators and nowhere else. What was read is grammatical, so
an unambiguous file is printed as its tokens (`scan_text`), and from these each statement is read back
(`stmts_read`).
-/

namespace SignalLang.Tree

variable {fuel : Nat} {s : Stream}

/-- The tokens of a file are read as its statements, with one step for each of them. -/
theorem topLevel_reads (ss : List Stmt) (faithful : FaithfulStmts ss) {steps : Nat}
    (here : s.lexemes = stmtLexemes ss ++ [.ending])
    (enough : 16 * ((stmtLexemes ss).length + 1) + 8 ≤ fuel) (room : (stmtLexemes ss).length < steps) :
    ∃ ss' final, topLevel fuel steps s = (ss', [], final) ∧ bareStmts ss' = bareStmts ss := by
  induction ss generalizing s steps with
  | nil =>
    obtain ⟨steps, rfl⟩ := Nat.exists_eq_add_of_le' (show 1 ≤ steps by omega)
    have ended : s.atEnd = true := by rw [s.atEnd_eq, here]; rfl
    exact ⟨[], s, by rw [topLevel, if_pos ended], rfl⟩
  | cons stmt ss ih =>
    rw [faithfulStmts_cons] at faithful
    obtain ⟨l, ls, same, starts⟩ := Stmt.head_lexemes faithful.1
    obtain ⟨steps, rfl⟩ := Nat.exists_eq_add_of_le' (show 1 ≤ steps by omega)
    have going : s.atEnd = false := by
      rw [s.atEnd_eq, here, stmtLexemes, same]
      refine decide_eq_false fun ended => ?_
      rw [show l.kind = .endOfFile from ended] at starts
      cases starts
    simp only [stmtLexemes, List.append_assoc, List.length_append] at here enough room
    have size : 0 < stmt.lexemes.length := List.length_pos_iff.2 (by simp [same])
    have last : nextKind (stmtLexemes ss ++ [.ending]) ≠ .kwElse := nextKind_stmts faithful.2 (by decide)
    obtain ⟨r, s', run, ⟨stmt', rfl, like⟩, left⟩ :=
      Stmt.reads stmt faithful.1 s _ fuel here
        (by simp only [List.length_append, List.length_singleton]; omega) last
    have roomLeft : (stmtLexemes ss).length < steps := by omega
    obtain ⟨ss', final, rest, likes⟩ := ih faithful.2 left (by omega) roomLeft
    refine ⟨stmt' :: ss', final, ?_, by rw [bareStmts, bareStmts, like, likes]⟩
    rw [topLevel, if_neg (by simp [going]), run]
    simp only [rest]
    rfl

/-- Tokens of a faithful file are read as the file, up to spans. -/
theorem parse_reads {f : File} (faithful : FaithfulStmts f.statements) {file : Int} {tokens : List Token}
    (here : tokens.map Token.toLexeme = stmtLexemes f.statements ++ [.ending]) :
    ∃ f', parse file tokens = ⟨f', []⟩ ∧ f'.bare = f.bare := by
  have size := congrArg List.length here
  simp only [List.length_map, List.length_append, List.length_singleton] at size
  have start : (Stream.mk file none tokens).lexemes = stmtLexemes f.statements ++ [.ending] := here
  have room : (stmtLexemes f.statements).length < tokens.length + 1 := by omega
  have enough : 16 * ((stmtLexemes f.statements).length + 1) + 8 ≤ 16 * (tokens.length + 1) := by omega
  obtain ⟨ss, final, read, likes⟩ := topLevel_reads f.statements faithful start enough room
  refine ⟨⟨ss, final.spanFrom (Stream.mk file none tokens).peek⟩, ?_, ?_⟩
  · simp only [parse, read]
  · simp only [File.bare, likes]

/-- The text of an unambiguous file is read as the file, up to spans. -/
theorem text_reads_back {source : String} {file : Int} {tokens : List Token} {f : File}
    (scanned : Token.scan source = .ok tokens) (read : parse file tokens = ⟨f, []⟩)
    (unambiguous : f.unambiguous = true) (literals : AllReadBack f.literals) :
    ∃ tokens' f', Token.scan f.text = .ok tokens' ∧ parse file tokens' = ⟨f', []⟩ ∧ f'.bare = f.bare := by
  have faithful : FaithfulStmts f.statements :=
    ⟨parse_grammatical (Token.isScanned_of_scan scanned) read, literals, unambiguous⟩
  obtain ⟨tokens', scanned', here⟩ := scan_text faithful
  obtain ⟨f', read', like⟩ := parse_reads faithful here
  exact ⟨tokens', f', scanned', read', like⟩

/-- What is checked of a text that is read without errors holds of the file. -/
theorem reads_of_any (source : String) (check : File → Bool)
    (h : (Token.scan source).toOption.any
      (fun tokens => decide ((parse 0 tokens).errors = []) && check (parse 0 tokens).file) = true) :
    ∃ tokens f, Token.scan source = .ok tokens ∧ parse 0 tokens = ⟨f, []⟩ ∧ check f = true := by
  cases scanned : Token.scan source with
  | error e => simp [scanned, Except.toOption] at h
  | ok tokens =>
    simp only [scanned, Except.toOption, Option.any_some, Bool.and_eq_true, decide_eq_true_eq] at h
    exact ⟨tokens, (parse 0 tokens).file, rfl, by rw [← h.1], h.2⟩

/-- Whether a literal is a path that can be read back. -/
def Literal.isKeptPath : Literal → Bool
  | .float _ => false
  | .path bytes => Text.unquote? (Text.quoteBytes bytes) = some bytes

theorem allReadBack_of_isKeptPath {ls : List Literal} (h : ls.all Literal.isKeptPath = true) :
    AllReadBack ls := by
  intro l mem
  have kept := List.all_eq_true.1 h l mem
  cases l with
  | float v => cases kept
  | path bytes =>
    have same : Text.unquote? (Text.quoteBytes bytes) = some bytes := by
      simpa [Literal.isKeptPath] using kept
    exact same

/-- A file with an include, a macro, a branch and an array of types is read back. -/
theorem text_reads_back_macro :
    let source := "include \"lib/a.ns\"; macro Up(x): y \x7b [2][3]<0, 9> y = x;\n" ++
      "if not (x < 2) \x7b y[0][1] = -x + 2 * x; \x7d \x7d Up(1):(INT z);"
    ∃ tokens f, Token.scan source = .ok tokens ∧ parse 0 tokens = ⟨f, []⟩ ∧ f.unambiguous = true ∧
      AllReadBack f.literals ∧ ∃ tokens' f', Token.scan f.text = .ok tokens' ∧
        parse 0 tokens' = ⟨f', []⟩ ∧ f'.bare = f.bare := by
  intro source
  obtain ⟨tokens, f, scanned, read, checked⟩ := reads_of_any source
    (fun f => f.unambiguous && f.literals.all Literal.isKeptPath) (by decide +kernel)
  obtain ⟨unambiguous, kept⟩ := Bool.and_eq_true_iff.1 checked
  have literals := allReadBack_of_isKeptPath kept
  exact ⟨tokens, f, scanned, read, unambiguous, literals, text_reads_back scanned read unambiguous literals⟩

/-- The parts of a file in order. -/
def File.parts (f : File) : List Part := f.outline.map Entry.part

/-- The parentheses under an index are not printed, so the text is read as another file. -/
theorem text_not_read_back :
    ∃ tokens f tokens' f', Token.scan "(a + b)[0];" = .ok tokens ∧ parse 0 tokens = ⟨f, []⟩ ∧
      Token.scan f.text = .ok tokens' ∧ parse 0 tokens' = ⟨f', []⟩ ∧ f'.bare ≠ f.bare := by
  obtain ⟨tokens, f, scanned, read, rereads⟩ := reads_of_any "(a + b)[0];"
    (fun f => (Token.scan f.text).toOption.any fun tokens => decide ((parse 0 tokens).errors = []) &&
      decide ((parse 0 tokens).file.bare.parts ≠ f.bare.parts)) (by decide +kernel)
  obtain ⟨tokens', f', scanned', read', differ⟩ := reads_of_any _
    (fun f' => decide (f'.bare.parts ≠ f.bare.parts)) rereads
  refine ⟨tokens, f, tokens', f', scanned, read, scanned', read', fun same => ?_⟩
  exact of_decide_eq_true differ (congrArg File.parts same)

end SignalLang.Tree
