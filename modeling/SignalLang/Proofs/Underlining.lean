import SignalLang.Problem
import SignalLang.Proofs.Token.Endings
import SignalLang.Proofs.Token.Places
import SignalLang.Proofs.Tree.Literals

/-!
# Carets under tokens

A problem at a token quotes the token's line with a row of carets. `told` is that text: the line on which the token
stands, and carets behind as many blanks as there are characters before the token on its line.

Where no token before holds a newline, the text that is rendered has as many carets as the lexeme has bytes. It has as
many as the lexeme has characters exactly when, besides, every character of the lexeme is a single byte (`render_iff`).
-/

namespace SignalLang.Token

open Problem (gutter repeated)

/-! ### Lines of a text -/

/-- The characters behind the last newline. -/
def lastLine (cs : List Char) : List Char := (cs.reverse.takeWhile (· ≠ '\n')).reverse

/-- The characters before a byte on its line. -/
def lineBefore (source : String) (offset : Nat) : List Char := lastLine (charsBefore source.toList offset)

/-- The characters from a byte on, up to the end of its line. -/
def lineBehind (source : String) (offset : Nat) : List Char :=
  (source.toList.drop (charsBefore source.toList offset).length).takeWhile (· ≠ '\n')

/-- The line of a byte, without trailing returns. -/
def lineText (source : String) (offset : Nat) : String :=
  Library.dropTrailingReturns (String.ofList (lineBefore source offset ++ lineBehind source offset))

theorem columnAt_eq (source : String) (offset : Nat) :
    columnAt source offset = 1 + (lineBefore source offset).length := by
  simp [columnAt, lineBefore, lastLine]

/-- What follows a line starts with a newline. -/
theorem dropWhile_newline (cs : List Char) :
    cs.dropWhile (· ≠ '\n') = [] ∨ ∃ rest, cs.dropWhile (· ≠ '\n') = '\n' :: rest := by
  induction cs with
  | nil => exact .inl rfl
  | cons c cs ih =>
    by_cases newline : c = '\n'
    · exact .inr ⟨cs, by simp [newline]⟩
    · rwa [List.dropWhile_cons_of_pos (by simpa using newline)]

/-- What stands before the last line ends with a newline. -/
theorem exists_append_lastLine (cs : List Char) :
    ∃ ended, cs = ended ++ lastLine cs ∧ (ended = [] ∨ ∃ ended', ended = ended' ++ ['\n']) := by
  refine ⟨(cs.reverse.dropWhile (· ≠ '\n')).reverse, ?_, ?_⟩
  · rw [lastLine, ← List.reverse_append, List.takeWhile_append_dropWhile, List.reverse_reverse]
  · rcases dropWhile_newline cs.reverse with none | ⟨rest, behind⟩
    · exact .inl (List.reverse_eq_nil_iff.2 none)
    · exact .inr ⟨rest.reverse, by rw [behind, List.reverse_cons]⟩

theorem newline_not_mem_lastLine (cs : List Char) : '\n' ∉ lastLine cs := by
  rw [lastLine, List.mem_reverse]
  exact not_mem_takeWhile rfl

theorem length_splitOn (cs : List Char) : (cs.splitOn '\n').length = cs.count '\n' + 1 := by
  induction cs with
  | nil => rfl
  | cons c cs ih =>
    rw [List.splitOn_cons_eq_if_modifyHead, List.count_cons]
    split <;> simp_all

/-- A line is found behind the newlines before it. -/
theorem splitOn_getElem? {ended line behind : List Char} (start : ended = [] ∨ ∃ ended', ended = ended' ++ ['\n'])
    (single : '\n' ∉ line) (stop : behind = [] ∨ ∃ behind', behind = '\n' :: behind') :
    ((ended ++ line ++ behind).splitOn '\n')[ended.count '\n']? = some line := by
  have front : ((line ++ behind).splitOn '\n')[0]? = some line := by
    rcases stop with rfl | ⟨behind, rfl⟩
    · rw [List.append_nil, List.splitOn_eq_singleton single]
      rfl
    · rw [List.splitOn_append_cons_self_of_not_mem single]
      rfl
  rcases start with rfl | ⟨ended, rfl⟩
  · exact front
  · have count : (ended ++ ['\n']).count '\n' = (ended.splitOn '\n').length := by
      rw [length_splitOn, List.count_append]
      rfl
    rw [count, List.append_assoc, List.append_assoc, List.singleton_append, List.splitOn_append_cons_self,
      List.getElem?_append_right (Nat.le_refl _), Nat.sub_self]
    exact front

theorem charsBefore_prefix (cs : List Char) (offset : Nat) : charsBefore cs offset <+: cs := by
  induction cs generalizing offset with
  | nil => exact List.prefix_refl _
  | cons c cs ih =>
    rw [charsBefore]
    split
    · exact (List.prefix_cons_inj c).2 (ih _)
    · exact List.nil_prefix

/-- The line of a byte is found by its number. -/
theorem line?_lineAt {lib : Library} {file : Nat} {source : String} (content : lib.contentOf file = source)
    (offset : Nat) : lib.line? file (lineAt source offset : Nat) = some (lineText source offset) := by
  obtain ⟨left, text⟩ := charsBefore_prefix source.toList offset
  obtain ⟨ended, read, start⟩ := exists_append_lastLine (charsBefore source.toList offset)
  have behind : lineBehind source offset = left.takeWhile (· ≠ '\n') := by
    rw [lineBehind]
    generalize charsBefore source.toList offset = front at text ⊢
    rw [← text, List.drop_left]
  have single : '\n' ∉ lineBefore source offset ++ lineBehind source offset := by
    rw [List.mem_append, not_or, behind]
    exact ⟨newline_not_mem_lastLine _, not_mem_takeWhile rfl⟩
  have whole : source.toList =
      ended ++ (lineBefore source offset ++ lineBehind source offset) ++ left.dropWhile (· ≠ '\n') := by
    rw [behind, lineBefore, ← List.append_assoc, ← read, List.append_assoc, List.takeWhile_append_dropWhile, text]
  have number : ((lineAt source offset : Nat) : Int).toNat - 1 = ended.count '\n' := by
    rw [lineAt, read, List.count_append, List.count_eq_zero.2 (newline_not_mem_lastLine _)]
    omega
  have first : ¬((lineAt source offset : Nat) : Int) < 1 := by
    rw [lineAt]
    omega
  rw [Library.line?, if_neg first, number, Library.linesOf, content, List.getElem?_map, whole,
    splitOn_getElem? start single (dropWhile_newline left)]
  rfl

/-- Only what stands behind the last other character is dropped. -/
theorem exists_dropTrailingReturns {text : List Char} (last : text.getLast? ≠ some '\r') (behind : List Char) :
    ∃ rest, Library.dropTrailingReturns (String.ofList (text ++ behind)) = String.ofList (text ++ rest) := by
  have kept : text.reverse.dropWhile (· = '\r') = text.reverse := by
    rw [← List.head?_reverse] at last
    cases front : text.reverse with
    | nil => rfl
    | cons c cs =>
      rw [front, List.head?_cons] at last
      exact List.dropWhile_cons_of_neg (by simpa using last)
  refine ⟨(behind.reverse.dropWhile (· = '\r')).reverse, ?_⟩
  simp only [Library.dropTrailingReturns, String.toList_ofList, List.reverse_append, List.dropWhile_append, kept]
  split
  · rename_i none
    simp [List.isEmpty_iff.1 none]
  · simp

/-! ### Where a token stands -/

variable {source : String} {pieces : List Piece} {before after : List Token} {t : Token}

theorem Cuts.getLast?_ne_return {cs rest : List Char} (h : Cuts cs pieces rest) :
    ∀ piece ∈ pieces, piece.kind ≠ none → piece.text.getLast? ≠ some '\r' := by
  induction h with
  | here => exact nofun
  | piece item _ ih =>
    intro piece mem token
    rcases List.mem_cons.1 mem with rfl | mem
    · exact Token.getLast?_ne_return item token
    · exact ih piece mem token

/-- A token with the text around it. Its line lacks the newlines that tokens before it hold, and its column is right
where they hold none. -/
structure Around (source : String) (before : List Token) (t : Token) (read behind : List Char) : Prop where
  text : source.toList = read ++ t.lexeme.toList ++ behind
  read : charsBefore source.toList t.offset = read
  line : t.line + newlines before = lineAt source t.offset
  column : newlines before = 0 → t.column = columnAt source t.offset
  nonempty : t.lexeme.toList ≠ []
  last : t.lexeme.toList.getLast? ≠ some '\r'

theorem exists_around (scanned : scan source = .ok (before ++ t :: after)) (some : t.kind ≠ .endOfFile) :
    ∃ read behind, Around source before t read behind := by
  obtain ⟨pieces, cuts, same⟩ := scan_ok_iff.1 scanned
  obtain ⟨read, left', rfl, rfl, ⟨-, rfl⟩ | ⟨piece, left, rfl, here⟩⟩ := exists_piece pieces {} before same.symm
  · exact absurd rfl some
  obtain ⟨kind, lexeme, line, column, offset⟩ := Piece.tokenAt_eq_some here
  have mem : piece ∈ read ++ piece :: left := by simp
  have text : source.toList = chars read ++ piece.text ++ chars left := by
    rw [cuts.text]
    simp
  have front : charsBefore source.toList t.offset = chars read := by
    rw [offset, Cursor.offset_passAll, text, List.append_assoc]
    simpa using charsBefore_append (chars read) (piece.text ++ chars left)
  have counted : (Cursor.passAll {} read).line + newlines (placed {} read) = 1 + (chars read).count '\n' :=
    Cursor.line_passAll {} read
  refine ⟨chars read, chars left, by simpa [lexeme] using text, front, ?_, fun none => ?_, ?_, ?_⟩
  · rw [line, counted, lineAt, front]
  · rw [column, columnAt, front, Cursor.passAll_eq {} read (newlines_eq_zero_iff.1 none), Cursor.column_foldl_step]
  · simpa [lexeme] using (cuts.isSound piece mem).1
  · simpa [lexeme] using cuts.getLast?_ne_return piece mem (by simp [kind])

/-- The line holds what is before the token, the token and what is behind it. -/
theorem Around.exists_lineText {read behind : List Char} (h : Around source before t read behind)
    (single : '\n' ∉ t.lexeme.toList) :
    ∃ rest, lineText source t.offset = String.ofList (lineBefore source t.offset ++ t.lexeme.toList ++ rest) := by
  have rest : lineBehind source t.offset = t.lexeme.toList ++ behind.takeWhile (· ≠ '\n') := by
    rw [lineBehind, h.read, h.text, List.append_assoc, List.drop_left, List.takeWhile_append_of_pos]
    intro c mem
    simpa using fun same : c = '\n' => single (same ▸ mem)
  have last : (lineBefore source t.offset ++ t.lexeme.toList).getLast? ≠ some '\r' := by
    rw [List.getLast?_append_of_ne_nil _ h.nonempty]
    exact h.last
  rw [lineText, rest, ← List.append_assoc]
  exact exists_dropTrailingReturns last _

/-! ### What is rendered -/

/-- The line of a token with carets, which start under the token. -/
def quoted (source : String) (t : Token) (carets : Nat) : String :=
  s!"   |\n{gutter (lineAt source t.offset)}| {lineText source t.offset}\n   | " ++
    repeated ' ' (lineBefore source t.offset).length ++ repeated '^' carets ++ "\n"

/-- A problem at a token as it is told: where it is, its line and carets under it. -/
def told (name source : String) (kind : Problem.Kind) (caption : String) (t : Token) (carets : Nat) : String :=
  s!"error[{kind.name}]: {caption}\n" ++ s!"  --> {name}:{lineAt source t.offset}:{columnAt source t.offset}\n" ++
    quoted source t carets

variable {lib : Library} {name : String} {file : Nat}

theorem render_error (known : lib.files[file]? = some ⟨name, source⟩) (kind : Problem.Kind) (caption : String) :
    (Problem.error kind (t.span file) caption).render lib =
      s!"error[{kind.name}]: {caption}\n" ++ s!"  --> {name}:" ++ (toString t.line ++ (":" ++ (s!"{t.column}\n" ++
        (lib.line? file t.line).elim "" (Problem.quotedLine · (t.span file))))) := by
  have number : ¬(file : Int) < 0 := Int.not_lt.2 (Int.natCast_nonneg file)
  have found : lib.nameOf file = name := by
    rw [Library.nameOf, Library.file?, if_neg number, Int.toNat_natCast, known]
    rfl
  have written : (t.span file).isBuiltin = false := decide_eq_false number
  have place : Problem.place lib ⟨t.span file, .error, caption⟩ =
      "  --> " ++ (name ++ ":" ++ toString t.line ++ ":" ++ toString t.column) ++ "\n" ++
        (lib.line? file t.line).elim "" (Problem.quotedLine · (t.span file)) := by
    rw [Problem.place, if_neg (by simp [written]), Library.describe, if_neg (by simp [written])]
    show _ ++ (lib.nameOf file ++ _ ++ _ ++ _ ++ _) ++ _ ++ _ = _
    rw [found]
    rfl
  show "error[" ++ kind.name ++ "]: " ++ caption ++ "\n" ++ Problem.place lib ⟨t.span file, .error, caption⟩ = _
  rw [place]
  simp only [String.append_assoc, toString]

theorem told_eq (kind : Problem.Kind) (caption : String) (carets : Nat) :
    told name source kind caption t carets =
      s!"error[{kind.name}]: {caption}\n" ++ s!"  --> {name}:" ++ (toString (lineAt source t.offset) ++
        (":" ++ (s!"{columnAt source t.offset}\n" ++ quoted source t carets))) := by
  simp only [told, String.append_assoc, toString]

theorem length_le_utf8Len (cs : List Char) : cs.length ≤ String.utf8Len cs := by
  induction cs with
  | nil => exact Nat.le_refl _
  | cons c cs ih =>
    have positive := c.utf8Size_pos
    rw [List.length_cons, String.utf8Len_cons]
    omega

theorem utf8Len_eq_length_iff {cs : List Char} : String.utf8Len cs = cs.length ↔ ∀ c ∈ cs, c.utf8Size = 1 := by
  induction cs with
  | nil => simp
  | cons c cs ih =>
    have positive := c.utf8Size_pos
    have least := length_le_utf8Len cs
    rw [List.forall_mem_cons, ← ih, String.utf8Len_cons, List.length_cons]
    omega

/-- The carets are as many as the lexeme has bytes: the line holds the lexeme, so none is cut off. -/
theorem carets_span {front rest : List Char} (some : t.lexeme.toList ≠ []) (column : t.column = 1 + front.length) :
    Problem.carets (String.ofList (front ++ t.lexeme.toList ++ rest)).utf8ByteSize (t.span file) =
      (((1 + front.length : Nat) : Int), (t.lexeme.utf8ByteSize : Int)) := by
  have bytes : (String.ofList (front ++ t.lexeme.toList ++ rest)).utf8ByteSize =
      String.utf8Len front + t.lexeme.utf8ByteSize + String.utf8Len rest := by
    rw [String.utf8ByteSize_ofList, String.utf8Len_append, String.utf8Len_append, String.utf8Len_toList]
  have before := length_le_utf8Len front
  have positive : 0 < t.lexeme.utf8ByteSize := by
    rw [← String.utf8Len_toList]
    exact Nat.pos_of_ne_zero fun none => some (String.utf8Len_eq_zero.1 none)
  have kept : min (max (t.column : Int) 1) ((String.ofList (front ++ t.lexeme.toList ++ rest)).utf8ByteSize + 1) =
      t.column := by omega
  have wide : (t.column + t.lexeme.utf8ByteSize : Int) > t.column := by omega
  have width : (t.column + t.lexeme.utf8ByteSize : Int) - t.column = t.lexeme.utf8ByteSize := by omega
  simp only [Problem.carets, span, start, kept, true_and, if_pos wide, width]
  rw [if_neg (by omega), column]

theorem quotedLine_eq {rest : List Char} (some : t.lexeme.toList ≠ []) (line : t.line = lineAt source t.offset)
    (column : t.column = columnAt source t.offset)
    (text : lineText source t.offset = String.ofList (lineBefore source t.offset ++ t.lexeme.toList ++ rest)) :
    Problem.quotedLine (lineText source t.offset) (t.span file) = quoted source t t.lexeme.utf8ByteSize := by
  have carets : Problem.carets (lineText source t.offset).utf8ByteSize (t.span file) =
      (((1 + (lineBefore source t.offset).length : Nat) : Int), (t.lexeme.utf8ByteSize : Int)) := by
    rw [text]
    exact carets_span some (column.trans (columnAt_eq source t.offset))
  have blanks : ((1 + (lineBefore source t.offset).length : Nat) : Int) - 1 =
      (lineBefore source t.offset).length := by omega
  have number : (t.span file).start.line = lineAt source t.offset := congrArg Nat.cast line
  simp only [Problem.quotedLine, quoted, carets, number, blanks, String.append_assoc, toString]

/-- Behind tokens without a newline, a problem is told with a caret for each byte of the lexeme. -/
theorem render_eq (scanned : scan source = .ok (before ++ t :: after)) (some : t.kind ≠ .endOfFile)
    (single : '\n' ∉ t.lexeme.toList) (known : lib.files[file]? = .some ⟨name, source⟩) (kind : Problem.Kind)
    (caption : String) (plain : newlines before = 0) :
    (Problem.error kind (t.span file) caption).render lib =
      told name source kind caption t t.lexeme.utf8ByteSize := by
  obtain ⟨read, behind, around⟩ := exists_around scanned some
  obtain ⟨rest, text⟩ := around.exists_lineText single
  have line : t.line = lineAt source t.offset := by
    have := around.line
    omega
  have column := around.column plain
  have content : lib.contentOf file = source := by
    rw [Library.contentOf, Library.file?, if_neg (Int.not_lt.2 (Int.natCast_nonneg file)), Int.toNat_natCast, known]
    rfl
  rw [render_error known, told_eq, ← quotedLine_eq around.nonempty line column text, line, column,
    line?_lineAt content]
  rfl

/-- The number in front of a colon can be read back. -/
theorem eq_of_toString_append {m n : Nat} {s u : String} (same : toString m ++ (":" ++ s) = toString n ++ (":" ++ u)) :
    m = n := by
  have digits (k : Nat) (rest : String) :
      (toString k ++ (":" ++ rest)).toList.takeWhile Char.isDigit = Nat.toDigits 10 k := by
    have text : (toString k ++ (":" ++ rest)).toList = Nat.toDigits 10 k ++ ':' :: rest.toList := by
      rw [String.toList_append, String.toList_append]
      exact congrArg (· ++ _) Nat.toList_repr
    rw [text, List.takeWhile_append_of_pos fun c => Tree.isDigit_of_mem_digits, List.takeWhile_cons_of_neg (by decide),
      List.append_nil]
  rw [← Nat.ofDigitChars_ten_toDigits (n := m), ← digits m s, same, digits, Nat.ofDigitChars_ten_toDigits]

theorem told_inj {kind : Problem.Kind} {caption : String} {m n : Nat}
    (same : told name source kind caption t m = told name source kind caption t n) : m = n := by
  have sizes := congrArg String.length same
  simp only [told, quoted, String.length_append, repeated, toString, String.length_ofList, List.length_replicate,
    Int.toNat_natCast] at sizes
  omega

/-- A problem at a token is told with a caret for each character of the lexeme exactly when no token before it holds a
newline and each character of the lexeme is one byte; the line holds the lexeme behind the blanks. -/
theorem render_iff (scanned : scan source = .ok (before ++ t :: after)) (some : t.kind ≠ .endOfFile)
    (single : '\n' ∉ t.lexeme.toList) (known : lib.files[file]? = .some ⟨name, source⟩) (kind : Problem.Kind)
    (caption : String) :
    let rendered := (Problem.error kind (t.span file) caption).render lib
    ((∀ u ∈ before, '\n' ∉ u.lexeme.toList) → rendered = told name source kind caption t t.lexeme.utf8ByteSize) ∧
    (rendered = told name source kind caption t t.lexeme.length ↔
      (∀ u ∈ before, '\n' ∉ u.lexeme.toList) ∧ ∀ c ∈ t.lexeme.toList, c.utf8Size = 1) ∧
    ∃ rest, lineText source t.offset = String.ofList (lineBefore source t.offset ++ t.lexeme.toList ++ rest) := by
  intro rendered
  obtain ⟨read, behind, around⟩ := exists_around scanned some
  have bytes : t.lexeme.utf8ByteSize = t.lexeme.length ↔ ∀ c ∈ t.lexeme.toList, c.utf8Size = 1 := by
    rw [← utf8Len_eq_length_iff, String.utf8Len_toList, String.length_toList]
  rw [← newlines_eq_zero_iff, ← bytes]
  have plainly := render_eq scanned some single known kind caption
  refine ⟨plainly, ⟨fun same => ?_, fun ⟨plain, width⟩ => ?_⟩, around.exists_lineText single⟩
  · have plain : newlines before = 0 := by
      have line := around.line
      rw [show rendered = _ from render_error known kind caption, told_eq] at same
      have := eq_of_toString_append ((String.append_right_inj _).1 same)
      omega
    exact ⟨plain, told_inj ((plainly plain).symm.trans same)⟩
  · rw [show rendered = _ from plainly plain, width]

/-- Behind a comment over two lines and a string, with a blank of two bytes on the line. -/
theorem render_iff_comment :
    let source := "/*é\n*/ é\n \"é\" \tbc\r\n"
    let before : List Token := [⟨.ident, "é", 2, 4, 8⟩, ⟨.stringLiteral, "\"é\"", 3, 2, 12⟩]
    let t : Token := ⟨.ident, "bc", 3, 7, 18⟩
    let rendered := (Problem.error .noEntityWithName (t.span 0) "bc").render { files := #[⟨"a", source⟩] }
    scan source = .ok (before ++ t :: [⟨.endOfFile, "", 4, 1, 22⟩]) ∧
      rendered = told "a" source .noEntityWithName "bc" t t.lexeme.length ∧
      rendered = "error[no_entity_with_name]: bc\n  --> a:3:7\n   |\n  3|  \"é\" \tbc\n   |       ^^\n" := by
  intro source before t rendered
  have scanned : scan source = .ok (before ++ t :: [⟨.endOfFile, "", 4, 1, 22⟩]) := by decide +kernel
  have known : ({ files := #[⟨"a", source⟩] } : Library).files[0]? = some ⟨"a", source⟩ := rfl
  have all := render_iff scanned (by decide) (by decide +kernel) known .noEntityWithName "bc"
  exact ⟨scanned, all.2.1.2 (by simp [before, t, Char.utf8Size]), by decide +kernel⟩

/-- Letters of two bytes are underlined twice. -/
theorem render_two_bytes :
    let source := "größe = 1;\n"
    let t : Token := ⟨.ident, "größe", 1, 1, 0⟩
    let rendered := (Problem.error .noEntityWithName (t.span 0) "größe").render { files := #[⟨"a", source⟩] }
    scan source = .ok [t, ⟨.assign, "=", 1, 7, 8⟩, ⟨.intLiteral, "1", 1, 9, 10⟩, ⟨.semicolon, ";", 1, 10, 11⟩,
        ⟨.endOfFile, "", 2, 1, 13⟩] ∧
      rendered ≠ told "a" source .noEntityWithName "größe" t t.lexeme.length ∧
      rendered = "error[no_entity_with_name]: größe\n  --> a:1:1\n   |\n  1| größe = 1;\n   | ^^^^^^^\n" := by
  decide +kernel

end SignalLang.Token
