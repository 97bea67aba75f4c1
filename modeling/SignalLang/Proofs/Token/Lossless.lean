import SignalLang.Proofs.Token.Pieces

/-!
# Scanning loses nothing

The lexemes of a scanned text stand in it where their tokens say, one behind the other, and what is between
them is blanks and closed comments. All places are counted in bytes.
-/

namespace SignalLang.Token

/-- The byte behind a token. -/
def stop (t : Token) : Nat := t.offset + t.lexeme.utf8ByteSize

/-- The bytes of a text are those of the source from an offset on. -/
def Stands (source text : String) (offset : Nat) : Prop :=
  source.toByteArray.extract offset (offset + text.utf8ByteSize) = text.toByteArray

/-- A byte that lies in a blank or a comment, which no token touches. -/
def InGap (source : String) (tokens : List Token) (i : Nat) : Prop :=
  ∃ (gap : String) (start : Nat), IsGap gap.toList ∧ Stands source gap start ∧
    start ≤ i ∧ i < start + gap.utf8ByteSize ∧
    ∀ t ∈ tokens, t.stop ≤ start ∨ start + gap.utf8ByteSize ≤ t.offset

/-- The tokens of a text keep all of it but blanks and comments. -/
structure Lossless (source : String) (tokens : List Token) : Prop where
  /-- The last token and no other is the end of the file, and all others have a lexeme. -/
  ends : ∃ body last, tokens = body ++ [last] ∧ last.kind = .endOfFile ∧ last.lexeme = "" ∧
    last.offset = source.utf8ByteSize ∧ ∀ t ∈ body, t.kind ≠ .endOfFile ∧ t.lexeme ≠ ""
  /-- A lexeme is the text at its token. -/
  stands : ∀ t ∈ tokens, Stands source t.lexeme t.offset
  /-- A token ends before the next one starts. -/
  ordered : tokens.Pairwise fun t u => t.stop ≤ u.offset
  /-- What is in no token is a blank or in a comment. -/
  covered : ∀ i < source.utf8ByteSize, (∃ t ∈ tokens, t.offset ≤ i ∧ i < t.stop) ∨ InGap source tokens i

variable {source : String} {pieces before after : List Piece} {p : Cursor}

theorem stands_append (before text after : String) :
    Stands (before ++ text ++ after) text before.utf8ByteSize := by
  have inner := @ByteArray.extract_append_size_add before.toByteArray (text.toByteArray ++ after.toByteArray) 0
    text.utf8ByteSize
  rw [Stands, String.toByteArray_append, String.toByteArray_append, ByteArray.append_assoc]
  rw [Nat.add_zero] at inner
  exact inner.trans (ByteArray.extract_append_eq_left rfl)

/-- A piece of a text stands behind the pieces before it. -/
theorem stands_piece {piece : Piece} (cuts : Cuts source.toList (before ++ piece :: after) []) :
    Stands source (String.ofList piece.text) (String.utf8Len (chars before)) := by
  have text : source = String.ofList (chars before) ++ String.ofList piece.text ++ String.ofList (chars after) := by
    rw [← String.ofList_append, ← String.ofList_append, ← source.ofList_toList, cuts.text]
    simp
  have stands := stands_append (String.ofList (chars before)) (String.ofList piece.text) (String.ofList (chars after))
  rwa [← text, String.utf8ByteSize_ofList] at stands

theorem bounds_of_mem_placed {t : Token} (mem : t ∈ placed p pieces) :
    p.offset ≤ t.offset ∧ t.stop ≤ p.offset + String.utf8Len (chars pieces) := by
  obtain ⟨before, piece, after, rfl, isToken⟩ := mem_placed_iff.1 mem
  obtain ⟨-, lexeme, -, -, offset⟩ := Piece.tokenAt_eq_some isToken
  simp only [stop, lexeme, offset, Cursor.offset_passAll, String.utf8ByteSize_ofList, chars_append, chars_cons,
    String.utf8Len_append]
  omega

theorem pairwise_placed (p : Cursor) (pieces : List Piece) :
    (placed p pieces).Pairwise fun t u => t.stop ≤ u.offset := by
  induction pieces generalizing p with
  | nil => exact .nil
  | cons piece pieces ih =>
    refine List.pairwise_append.2 ⟨?_, ih _, ?_⟩
    · cases piece.tokenAt p with
      | none => exact .nil
      | some t => exact List.pairwise_singleton _ _
    · intro t first u later
      obtain ⟨-, lexeme, -, -, offset⟩ := Piece.tokenAt_eq_some (Option.mem_toList.1 first)
      have behind := (bounds_of_mem_placed later).1
      rw [Cursor.offset_pass] at behind
      rw [stop, lexeme, offset, String.utf8ByteSize_ofList]
      exact behind

/-- Every byte lies in a piece. -/
theorem exists_piece_at (pieces : List Piece) (i : Nat) (inside : i < String.utf8Len (chars pieces)) :
    ∃ before piece after, pieces = before ++ piece :: after ∧ String.utf8Len (chars before) ≤ i ∧
      i < String.utf8Len (chars before) + String.utf8Len piece.text := by
  induction pieces generalizing i with
  | nil => cases inside
  | cons piece pieces ih =>
    rw [chars_cons, String.utf8Len_append] at inside
    by_cases here : i < String.utf8Len piece.text
    · exact ⟨[], piece, pieces, rfl, Nat.zero_le i, by simpa using here⟩
    · obtain ⟨before, found, after, rfl, low, high⟩ := ih (i - String.utf8Len piece.text) (by omega)
      refine ⟨piece :: before, found, after, rfl, ?_, ?_⟩ <;> rw [chars_cons, String.utf8Len_append] <;> omega

/-- The bytes of a gap are in no token. -/
theorem apart_of_gap {piece : Piece} (gap : piece.kind = none) {t : Token}
    (mem : t ∈ placed {} (before ++ piece :: after)) :
    t.stop ≤ String.utf8Len (chars before) ∨
      String.utf8Len (chars before) + String.utf8Len piece.text ≤ t.offset := by
  rw [placed_append, placed, Piece.tokenAt, gap] at mem
  rcases List.mem_append.1 mem with mem | mem
  · have bounds := (bounds_of_mem_placed mem).2
    simp only [Nat.zero_add] at bounds
    exact .inl bounds
  · have bounds := (bounds_of_mem_placed (by simpa using mem)).1
    simp only [Cursor.offset_pass, Cursor.offset_passAll, Nat.zero_add] at bounds
    exact .inr bounds

theorem covered_of_cuts (cuts : Cuts source.toList pieces []) {i : Nat} (inside : i < source.utf8ByteSize) :
    (∃ t ∈ placed {} pieces, t.offset ≤ i ∧ i < t.stop) ∨
      InGap source (placed {} pieces ++ [ending (Cursor.passAll {} pieces)]) i := by
  have size : String.utf8Len (chars pieces) = source.utf8ByteSize := by
    rw [← String.utf8Len_toList, cuts.text, List.append_nil]
  obtain ⟨before, piece, after, rfl, low, high⟩ := exists_piece_at pieces i (size ▸ inside)
  rcases (cuts.isSound piece (by simp)).2 with ⟨kind, isKind, -⟩ | ⟨gap, isGap⟩
  · have isToken : piece.tokenAt (Cursor.passAll {} before) = some _ := congrArg (Option.map _) isKind
    refine .inl ⟨_, mem_placed_iff.2 ⟨before, piece, after, rfl, isToken⟩, ?_⟩
    simp only [stop, Cursor.offset_passAll, String.utf8ByteSize_ofList, Nat.zero_add]
    exact ⟨low, high⟩
  · refine .inr ⟨String.ofList piece.text, String.utf8Len (chars before), by simpa using isGap,
      stands_piece cuts, low, by rwa [String.utf8ByteSize_ofList], fun t mem => ?_⟩
    rw [String.utf8ByteSize_ofList]
    rcases List.mem_append.1 mem with mem | mem
    · exact apart_of_gap gap mem
    · rw [List.mem_singleton.1 mem]
      right
      simp only [ending, Cursor.offset_passAll, Nat.zero_add, chars_append, chars_cons, String.utf8Len_append]
      omega

theorem lossless_of_cuts (cuts : Cuts source.toList pieces []) :
    Lossless source (placed {} pieces ++ [ending (Cursor.passAll {} pieces)]) where
  ends := by
    refine ⟨_, _, rfl, rfl, rfl, ?_, fun t mem => ?_⟩
    · simp only [ending, Cursor.offset_passAll, Nat.zero_add]
      rw [← String.utf8Len_toList, cuts.text, List.append_nil]
    · obtain ⟨before, piece, after, rfl, isToken⟩ := mem_placed_iff.1 mem
      obtain ⟨isKind, lexeme, -⟩ := Piece.tokenAt_eq_some isToken
      obtain ⟨nonempty, ⟨kind, same, notEnd⟩ | ⟨none, -⟩⟩ := cuts.isSound piece (by simp)
      · cases isKind.symm.trans same
        exact ⟨notEnd, by rw [lexeme]; simpa using nonempty⟩
      · cases isKind.symm.trans none
  stands := by
    intro t mem
    rcases List.mem_append.1 mem with mem | mem
    · obtain ⟨before, piece, after, rfl, isToken⟩ := mem_placed_iff.1 mem
      obtain ⟨-, lexeme, -, -, offset⟩ := Piece.tokenAt_eq_some isToken
      rw [lexeme, offset, Cursor.offset_passAll, Nat.zero_add]
      exact stands_piece cuts
    · rw [List.mem_singleton.1 mem]
      simp [Stands, ending]
  ordered := by
    refine List.pairwise_append.2 ⟨pairwise_placed _ _, List.pairwise_singleton _ _, fun t mem u last => ?_⟩
    rw [List.mem_singleton.1 last, ending, Cursor.offset_passAll]
    exact (bounds_of_mem_placed mem).2
  covered := by
    intro i inside
    rcases covered_of_cuts cuts inside with ⟨t, mem, bounds⟩ | gap
    · exact .inl ⟨t, List.mem_append_left _ mem, bounds⟩
    · exact .inr gap

theorem lossless_of_scan {tokens : List Token} (scanned : scan source = .ok tokens) : Lossless source tokens := by
  obtain ⟨pieces, cuts, rfl⟩ := scan_ok_iff.1 scanned
  exact lossless_of_cuts cuts

/-- Scanning loses nothing, and fails exactly where it comes to stand at a string literal or a block comment
that is never closed. -/
theorem scan_lossless (source : String) :
    (∀ tokens, scan source = .ok tokens → Lossless source tokens) ∧
      ((∃ e, scan source = .error e) ↔
        ∃ rest, Reaches source.toList rest ∧ (UnclosedString rest ∨ UnclosedComment rest)) :=
  ⟨fun _ => lossless_of_scan, scan_error_iff⟩

/-- A comment in a comment and a quote in a string. -/
theorem scan_lossless_nested :
    let source := "é/* /* \" */ // */\"\\\"\"// \n\t"
    ∃ tokens, scan source = .ok tokens ∧ Lossless source tokens := by
  intro source
  have scanned : scan source = .ok [⟨.ident, "é", 1, 1, 0⟩, ⟨.stringLiteral, "\"\\\"\"", 1, 18, 18⟩,
      ⟨.endOfFile, "", 2, 2, 27⟩] := by decide +kernel
  exact ⟨_, scanned, (scan_lossless source).1 _ scanned⟩

end SignalLang.Token
