import Mathlib.Data.List.Induction
import SignalLang.Proofs.Token.Pieces

/-!
# Lines and columns of tokens

The line of a place is counted by the newlines before it, its column by the characters since the last of
them. Scanning counts newlines in gaps only, so a token has its line and its column exactly when no token
before it holds a newline (`isPlaced_iff`). A string literal can hold one behind a backslash.
-/

namespace SignalLang.Token

/-- The characters of a text that end at or before a byte. -/
def charsBefore : List Char → Nat → List Char
  | [], _ => []
  | c :: cs, offset => if c.utf8Size ≤ offset then c :: charsBefore cs (offset - c.utf8Size) else []

/-- The line of a byte of a text. -/
def lineAt (source : String) (offset : Nat) : Nat := 1 + (charsBefore source.toList offset).count '\n'

/-- The column of a byte of a text, in characters. -/
def columnAt (source : String) (offset : Nat) : Nat :=
  1 + ((charsBefore source.toList offset).reverse.takeWhile (· ≠ '\n')).length

/-- A token has the line and the column of its first byte. -/
def IsPlaced (source : String) (t : Token) : Prop :=
  t.line = lineAt source t.offset ∧ t.column = columnAt source t.offset

instance (source : String) (t : Token) : Decidable (IsPlaced source t) := inferInstanceAs (Decidable (_ ∧ _))

/-- The newlines in the lexemes of tokens. -/
def newlines (tokens : List Token) : Nat := (tokens.flatMap fun t => t.lexeme.toList).count '\n'

variable {cs : List Char} {pieces : List Piece} {p : Cursor} {t : Token} {source : String}

theorem charsBefore_append (before after : List Char) :
    charsBefore (before ++ after) (String.utf8Len before) = before := by
  induction before with
  | nil =>
    cases after with
    | nil => rfl
    | cons c after =>
      have positive := c.utf8Size_pos
      rw [List.nil_append, charsBefore, if_neg (by simp only [String.utf8Len_nil]; omega)]
  | cons c before ih =>
    rw [List.cons_append, charsBefore, String.utf8Len_cons, if_pos (Nat.le_add_left _ _), Nat.add_sub_cancel, ih]

theorem newlines_eq_zero_iff {tokens : List Token} :
    newlines tokens = 0 ↔ ∀ t ∈ tokens, '\n' ∉ t.lexeme.toList := by
  induction tokens with
  | nil => simp [newlines]
  | cons t tokens ih =>
    rw [List.forall_mem_cons, ← ih, ← List.count_eq_zero]
    simp [newlines]

/-! ## Counting -/

namespace Cursor

theorem line_foldl_skip (p : Cursor) (cs : List Char) : (cs.foldl skip p).line = p.line := by
  induction cs generalizing p with
  | nil => rfl
  | cons c cs ih => exact ih _

theorem line_foldl_step (p : Cursor) (cs : List Char) :
    (cs.foldl step p).line = p.line + cs.count '\n' := by
  induction cs generalizing p with
  | nil => rfl
  | cons c cs ih =>
    rw [List.foldl_cons, ih, List.count_cons]
    by_cases newline : c = '\n'
    · simp only [step, newline, if_true, BEq.rfl]
      omega
    · simp [step, skip, newline]

/-- The line grows with the newlines of gaps; those in tokens are missing. -/
theorem line_passAll (p : Cursor) (pieces : List Piece) :
    (p.passAll pieces).line + newlines (placed p pieces) = p.line + (chars pieces).count '\n' := by
  induction pieces generalizing p with
  | nil => rfl
  | cons piece pieces ih =>
    have here : (p.pass piece.kind piece.text).line + newlines (piece.tokenAt p).toList =
        p.line + piece.text.count '\n' := by
      cases kind : piece.kind with
      | none => simp [pass, Piece.tokenAt, kind, newlines, line_foldl_step]
      | some k => simp [pass, Piece.tokenAt, kind, newlines, line_foldl_skip]
    have behind := ih (p.pass piece.kind piece.text)
    have split : newlines (placed p (piece :: pieces)) =
        newlines (piece.tokenAt p).toList + newlines (placed (p.pass piece.kind piece.text) pieces) := by
      simp [newlines, placed]
    rw [passAll, split, chars_cons, List.count_append]
    omega

theorem foldl_skip_eq (p : Cursor) (single : '\n' ∉ cs) : cs.foldl skip p = cs.foldl step p := by
  induction cs generalizing p with
  | nil => rfl
  | cons c cs ih =>
    have notNewline : c ≠ '\n' := fun same => single (same ▸ List.mem_cons_self)
    rw [List.foldl_cons, List.foldl_cons, ih _ fun later => single (List.mem_cons_of_mem _ later), step,
      if_neg notNewline]

/-- Where no token holds a newline, all characters are counted alike. -/
theorem passAll_eq (p : Cursor) (pieces : List Piece)
    (single : ∀ t ∈ placed p pieces, '\n' ∉ t.lexeme.toList) : p.passAll pieces = (chars pieces).foldl step p := by
  induction pieces generalizing p with
  | nil => rfl
  | cons piece pieces ih =>
    have here : p.pass piece.kind piece.text = piece.text.foldl step p := by
      cases kind : piece.kind with
      | none => rfl
      | some k =>
        have isToken : piece.tokenAt p = some _ := congrArg (Option.map _) kind
        have first := single _ (List.mem_append_left _ (Option.mem_toList.2 isToken))
        exact foldl_skip_eq p (by simpa using first)
    rw [passAll, ih _ fun t later => single t (List.mem_append_right _ later), here, chars_cons, List.foldl_append]

theorem column_foldl_step (cs : List Char) :
    (cs.foldl step {}).column = 1 + (cs.reverse.takeWhile (· ≠ '\n')).length := by
  induction cs using List.reverseRecOn with
  | nil => rfl
  | append_singleton cs c ih =>
    rw [List.foldl_append, List.foldl_cons, List.foldl_nil, List.reverse_append, List.reverse_singleton,
      List.singleton_append, List.takeWhile_cons]
    by_cases newline : c = '\n'
    · simp [step, newline]
    · simp only [step, newline, if_false, skip, ih, decide_true, ne_eq, not_false_eq_true, if_true,
        List.length_cons]
      omega

end Cursor

/-! ## Places -/

/-- A token stands behind the pieces that hold the tokens before it: it is the next piece, or the end of the file. -/
theorem exists_piece (pieces : List Piece) (p : Cursor) (before : List Token) {after : List Token}
    (same : placed p pieces ++ [ending (p.passAll pieces)] = before ++ t :: after) :
    ∃ read left, pieces = read ++ left ∧ placed p read = before ∧
      (left = [] ∧ t = ending (p.passAll read) ∨
        ∃ piece left', left = piece :: left' ∧ piece.tokenAt (p.passAll read) = some t) := by
  induction pieces generalizing p before with
  | nil =>
    obtain ⟨rfl, rfl, -⟩ : before = [] ∧ t = ending p ∧ after = [] := by
      cases before with
      | nil => simpa [placed, Cursor.passAll, eq_comm] using same
      | cons b before => simp [placed] at same
    exact ⟨[], [], rfl, rfl, .inl ⟨rfl, rfl⟩⟩
  | cons piece pieces ih =>
    rw [placed, List.append_assoc] at same
    cases isToken : piece.tokenAt p with
    | none =>
      rw [isToken] at same
      obtain ⟨read, left, rfl, rfl, here⟩ := ih _ before same
      exact ⟨piece :: read, left, rfl, by simp [placed, isToken], here⟩
    | some u =>
      rw [isToken, Option.toList_some, List.singleton_append] at same
      cases before with
      | nil =>
        cases (List.cons.inj same).1
        exact ⟨[], piece :: pieces, rfl, rfl, .inr ⟨piece, pieces, rfl, isToken⟩⟩
      | cons b before =>
        obtain ⟨rfl, behind⟩ := List.cons.inj same
        obtain ⟨read, left, rfl, rfl, here⟩ := ih _ before behind
        exact ⟨piece :: read, left, rfl, by simp [placed, isToken], here⟩

/-- A scanned token has the place that the pieces before it lead to. -/
theorem exists_before (pieces : List Piece) (p : Cursor) (before : List Token) {after : List Token}
    (same : placed p pieces ++ [ending (p.passAll pieces)] = before ++ t :: after) :
    ∃ read left, pieces = read ++ left ∧ placed p read = before ∧ t.line = (p.passAll read).line ∧
      t.column = (p.passAll read).column ∧ t.offset = (p.passAll read).offset := by
  obtain ⟨read, left, whole, earlier, ⟨-, rfl⟩ | ⟨piece, -, -, here⟩⟩ := exists_piece pieces p before same
  · exact ⟨read, left, whole, earlier, rfl, rfl, rfl⟩
  · obtain ⟨-, -, line, column, offset⟩ := Piece.tokenAt_eq_some here
    exact ⟨read, left, whole, earlier, line, column, offset⟩

/-- A token has the line and the column of its first byte exactly when no token before it holds a newline. -/
theorem isPlaced_iff {before after : List Token} (scanned : scan source = .ok (before ++ t :: after)) :
    IsPlaced source t ↔ ∀ u ∈ before, '\n' ∉ u.lexeme.toList := by
  obtain ⟨pieces, cuts, same⟩ := scan_ok_iff.1 scanned
  obtain ⟨read, left, rfl, rfl, line, column, offset⟩ := exists_before pieces {} before same.symm
  have chars : charsBefore source.toList t.offset = chars read := by
    rw [offset, Cursor.offset_passAll, cuts.text, chars_append, List.append_assoc]
    simpa using charsBefore_append (chars read) (chars left)
  have counted : (Cursor.passAll {} read).line + newlines (placed {} read) = 1 + (Token.chars read).count '\n' :=
    Cursor.line_passAll {} read
  rw [← newlines_eq_zero_iff, IsPlaced, lineAt, columnAt, chars, line, column]
  constructor
  · rintro ⟨right, -⟩
    omega
  · intro none
    refine ⟨by omega, ?_⟩
    rw [Cursor.passAll_eq {} read (newlines_eq_zero_iff.1 none), Cursor.column_foldl_step]

/-- Behind a comment over two lines, a blank of two bytes, a string and a tab. -/
theorem isPlaced_iff_comment :
    let source := "/*é\n*/ é\n \"é\" \tb"
    let before : List Token := [⟨.ident, "é", 2, 4, 8⟩, ⟨.stringLiteral, "\"é\"", 3, 2, 12⟩]
    let t : Token := ⟨.ident, "b", 3, 7, 18⟩
    scan source = .ok (before ++ t :: [⟨.endOfFile, "", 3, 8, 19⟩]) ∧
      (IsPlaced source t ↔ ∀ u ∈ before, '\n' ∉ u.lexeme.toList) ∧ IsPlaced source t := by
  intro source before t
  have scanned : scan source = .ok (before ++ t :: [⟨.endOfFile, "", 3, 8, 19⟩]) := by decide +kernel
  exact ⟨scanned, isPlaced_iff scanned, by decide +kernel⟩

/-- A newline that a backslash takes into a string starts no line. -/
theorem not_isPlaced_escaped_newline :
    let source := "\"\\\n\" a"
    let t : Token := ⟨.ident, "a", 1, 6, 5⟩
    scan source = .ok [⟨.stringLiteral, "\"\\\n\"", 1, 1, 0⟩, t, ⟨.endOfFile, "", 1, 7, 6⟩] ∧
      ¬ IsPlaced source t ∧ lineAt source t.offset = 2 ∧ columnAt source t.offset = 3 := by
  decide +kernel

end SignalLang.Token
