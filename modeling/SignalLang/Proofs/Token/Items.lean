import SignalLang.Token.Scan

/-!
# What an item can be

Comments and string literals are said here by their own rules, without a count of characters: block
comments nest, and a backslash in a string takes the next character along. The item at the front of a text
is a token, a blank, a line comment or a block comment (`text_of_itemAt`), and there is none exactly where a
string or a block comment is never closed (`itemAt_error_iff`).
-/

namespace SignalLang.Token

variable {c : Char} {cs rest text : List Char} {n : Nat}

/-! ## Block comments -/

/-- Whether a text starts with the mark that opens or the one that closes a block comment. -/
def startsMark : List Char → Bool
  | '/' :: '*' :: _ | '*' :: '/' :: _ => true
  | _ => false

/-- What follows the opening mark of a block comment, up to and with its closing mark. -/
inductive Enclosed : List Char → Prop
  | close : Enclosed ['*', '/']
  | nested {inner rest : List Char} : Enclosed inner → Enclosed rest → Enclosed ('/' :: '*' :: (inner ++ rest))
  | char {c : Char} {rest : List Char} : startsMark (c :: rest) = false → Enclosed rest → Enclosed (c :: rest)

/-- A block comment in which every comment it holds is closed. -/
def IsBlockComment (text : List Char) : Prop := ∃ inner, text = '/' :: '*' :: inner ∧ Enclosed inner

/-- A comment up to the end of its line. -/
def IsLineComment (text : List Char) : Prop := ∃ body, text = '/' :: '/' :: body ∧ '\n' ∉ body

/-- A text that closes as many comments as `depth` says, one after the other. -/
def Closes : Nat → List Char → Prop
  | 0, text => text = []
  | depth + 1, text => ∃ first behind, text = first ++ behind ∧ Enclosed first ∧ Closes depth behind

/-- Two characters tell whether a mark stands at the front. -/
theorem startsMark_congr (c d : Char) (ds es : List Char) :
    startsMark (c :: d :: ds) = startsMark (c :: d :: es) := by
  unfold startsMark
  split <;> split <;> simp_all

theorem Enclosed.exists_cons (h : Enclosed text) : ∃ d ds, text = d :: ds := by
  cases h <;> exact ⟨_, _, rfl⟩

theorem commentSize_char (depth : Nat) (plain : startsMark (c :: cs) = false) :
    commentSize (depth + 1) (c :: cs) = (commentSize (depth + 1) cs).map (· + 1) := by
  rw [commentSize]
  · rintro ds rfl rfl
    cases plain
  · rintro ds rfl rfl
    cases plain

/-- The text that is counted closes the comments that were open. -/
theorem closes_of_commentSize (depth : Nat) (cs : List Char) :
    ∀ n, commentSize depth cs = some n → Closes depth (cs.take n) := by
  fun_induction commentSize depth cs with
  | case1 cs =>
    rintro _ ⟨⟩
    rfl
  | case2 depth => exact nofun
  | case3 depth rest ih =>
    intro n size
    obtain ⟨m, counted, rfl⟩ := Option.map_eq_some_iff.1 size
    obtain ⟨inner, _, text, isInner, outer, behind, rfl, isOuter, closed⟩ := ih m counted
    refine ⟨'/' :: '*' :: (inner ++ outer), behind, ?_, .nested isInner isOuter, closed⟩
    simp [text]
  | case4 depth rest ih =>
    intro n size
    obtain ⟨m, counted, rfl⟩ := Option.map_eq_some_iff.1 size
    exact ⟨['*', '/'], rest.take m, by simp, .close, ih m counted⟩
  | case5 depth c rest notOpen notClose ih =>
    intro n size
    obtain ⟨m, counted, rfl⟩ := Option.map_eq_some_iff.1 size
    obtain ⟨first, behind, text, enclosed, closed⟩ := ih m counted
    refine ⟨c :: first, behind, by simp [text], .char ?_ enclosed, closed⟩
    have plain : startsMark (c :: rest) = false := by
      unfold startsMark
      split
      · cases ‹c :: rest = _›
        exact (notOpen _ rfl rfl).elim
      · cases ‹c :: rest = _›
        exact (notClose _ rfl rfl).elim
      · rfl
    -- the second character is the same in the comment and in the whole text
    obtain ⟨d, ds, rfl⟩ := enclosed.exists_cons
    cases rest with
    | nil => simp at text
    | cons e es =>
      cases m with
      | zero => simp at text
      | succ m =>
        rw [List.take_succ_cons] at text
        rw [← (List.cons.inj text).1, startsMark_congr c e ds es, plain]

theorem commentSize_of_enclosed (h : Enclosed text) :
    ∀ depth rest, commentSize (depth + 1) (text ++ rest) = (commentSize depth rest).map (· + text.length) := by
  induction h with
  | close =>
    intro depth rest
    simp [commentSize]
  | @nested inner outer _ _ ihInner ihOuter =>
    intro depth rest
    simp only [List.cons_append, commentSize, List.append_assoc, ihInner, ihOuter, Option.map_map,
      List.length_cons, List.length_append]
    congr 1
    funext n
    simp only [Function.comp_apply]
    omega
  | @char c behind plain enclosed ih =>
    intro depth rest
    obtain ⟨d, ds, rfl⟩ := enclosed.exists_cons
    rw [List.cons_append, List.cons_append, commentSize_char depth (startsMark_congr c d _ ds ▸ plain),
      ← List.cons_append, ih, Option.map_map]
    rfl

/-- A block comment is counted exactly where there is one. -/
theorem commentSize_eq_none_iff :
    commentSize 1 cs = none ↔ ∀ text, text <+: '/' :: '*' :: cs → ¬ IsBlockComment text := by
  constructor
  · rintro none _ ⟨rest, same⟩ ⟨inner, rfl, enclosed⟩
    obtain rfl : inner ++ rest = cs := by simpa using same
    simp [commentSize_of_enclosed enclosed, commentSize] at none
  · intro unclosed
    cases size : commentSize 1 cs with
    | none => rfl
    | some n =>
      obtain ⟨first, behind, text, enclosed, rfl⟩ := closes_of_commentSize 1 cs n size
      rw [List.append_nil] at text
      have isPrefix : '/' :: '*' :: first <+: '/' :: '*' :: cs := by
        simpa [← text] using List.take_prefix n cs
      exact absurd ⟨first, rfl, enclosed⟩ (unclosed _ isPrefix)

/-! ## String literals -/

/-- What follows the opening quote of a string, up to and with the closing quote. Only a newline behind a
backslash goes on in the string. -/
inductive Quoted : List Char → Prop
  | close : Quoted ['"']
  | escaped {c : Char} {rest : List Char} : Quoted rest → Quoted ('\\' :: c :: rest)
  | char {c : Char} {rest : List Char} : c ≠ '"' → c ≠ '\n' → c ≠ '\\' → Quoted rest → Quoted (c :: rest)

/-- A string literal with its quotes. -/
def IsStringLiteral (text : List Char) : Prop := ∃ tail, text = '"' :: tail ∧ Quoted tail

theorem quoted_of_stringSize (cs : List Char) : ∀ n, stringSize cs = some n → Quoted (cs.take n) := by
  fun_induction stringSize cs with
  | case1 => exact nofun
  | case2 tail =>
    rintro _ ⟨⟩
    exact .close
  | case3 tail => exact nofun
  | case4 c rest ih =>
    intro n size
    obtain ⟨m, counted, rfl⟩ := Option.map_eq_some_iff.1 size
    exact .escaped (ih m counted)
  | case5 c rest notQuote notNewline notEscape ih =>
    intro n size
    obtain ⟨m, counted, rfl⟩ := Option.map_eq_some_iff.1 size
    have quoted := ih m counted
    refine .char notQuote notNewline ?_ quoted
    -- a backslash at the very end of the text closes nothing
    rintro rfl
    cases rest with
    | nil =>
      rw [List.take_nil] at quoted
      cases quoted
    | cons d ds => exact (notEscape d ds rfl rfl).elim

theorem stringSize_of_quoted (h : Quoted text) : stringSize (text ++ rest) = some text.length := by
  induction h with
  | close => simp [stringSize]
  | escaped _ ih => simp [stringSize, ih]
  | @char c behind notQuote notNewline notBackslash _ ih =>
    rw [List.cons_append, stringSize, ih]
    · rfl
    all_goals simp_all

/-- A string is counted exactly where there is one. -/
theorem stringSize_eq_none_iff :
    stringSize cs = none ↔ ∀ text, text <+: '"' :: cs → ¬ IsStringLiteral text := by
  constructor
  · rintro none _ ⟨rest, same⟩ ⟨tail, rfl, quoted⟩
    obtain rfl : tail ++ rest = cs := by simpa using same
    simp [stringSize_of_quoted quoted] at none
  · intro unclosed
    cases size : stringSize cs with
    | none => rfl
    | some n =>
      have isPrefix : '"' :: cs.take n <+: '"' :: cs := by simpa using List.take_prefix n cs
      exact absurd ⟨_, rfl, quoted_of_stringSize cs n size⟩ (unclosed _ isPrefix)

/-! ## Items -/

/-- What stands between tokens: a blank or a comment. -/
inductive IsGap : List Char → Prop
  | blank {c : Char} : c ∈ [' ', '\t', '\r', '\n'] → IsGap [c]
  | lineComment {text : List Char} : IsLineComment text → IsGap text
  | blockComment {text : List Char} : IsBlockComment text → IsGap text

/-- A string literal starts here and is closed neither on its line nor behind an escaped newline. -/
def UnclosedString (text : List Char) : Prop :=
  text.head? = some '"' ∧ ∀ literal, literal <+: text → ¬ IsStringLiteral literal

/-- A block comment starts here and is never closed. -/
def UnclosedComment (text : List Char) : Prop :=
  ['/', '*'] <+: text ∧ ∀ comment, comment <+: text → ¬ IsBlockComment comment

/-- The class of an item that is a token; the end of the file is no item. -/
def Item.IsToken (item : Item) : Prop := ∃ kind, item.kind = some kind ∧ kind ≠ .endOfFile

theorem ofWord_ne_endOfFile (word : String) : TokenKind.ofWord word ≠ .endOfFile := by
  unfold TokenKind.ofWord
  cases found : TokenKind.keywords.find? (·.text = word) with
  | none => simp
  | some kind =>
    rintro rfl
    exact absurd (List.mem_of_find?_eq_some found) (by decide)

theorem isToken_pairItem {second : Char} {pair alone : TokenKind} (isPair : pair ≠ .endOfFile)
    (isAlone : alone ≠ .endOfFile) : (pairItem second pair alone cs).IsToken := by
  unfold pairItem
  split
  · exact ⟨pair, rfl, isPair⟩
  · exact ⟨alone, rfl, isAlone⟩

theorem isToken_decimalItem : (decimalItem c cs).IsToken := by
  have either (p : Prop) [Decidable p] :
      (if p then TokenKind.floatLiteral else .intLiteral) ≠ .endOfFile := by split <;> simp
  exact ⟨_, rfl, either _⟩

theorem isToken_numberItem : (numberItem c cs).IsToken := by
  unfold numberItem
  split
  · split
    · exact ⟨.intLiteral, rfl, by simp⟩
    · exact isToken_decimalItem
  · exact isToken_decimalItem

theorem isGap_lineComment : IsGap ('/' :: '/' :: cs.takeWhile (· ≠ '\n')) := by
  refine .lineComment ⟨_, rfl, fun newline => ?_⟩
  simpa using List.all_eq_true.1 List.all_takeWhile _ newline

/-- The item at the front of a text is a token, a blank or a comment. -/
theorem itemAt_ok {item : Item} (h : itemAt c cs = .ok item) :
    item.IsToken ∨ item.kind = none ∧ IsGap (c :: cs.take item.extra) := by
  unfold itemAt at h
  split at h
  case h_14 =>
    cases h
    left
    split
    · exact isToken_numberItem
    · exact ⟨_, rfl, by simp⟩
  case h_15 | h_17 | h_18 =>
    cases h
    exact .inl (isToken_pairItem (by simp) (by simp))
  case h_16 =>
    split at h
    · rename_i rest
      cases h
      have taken : rest.take (rest.takeWhile (· ≠ '\n')).length = rest.takeWhile (· ≠ '\n') :=
        (List.prefix_iff_eq_take.1 (List.takeWhile_prefix _)).symm
      refine .inr ⟨rfl, ?_⟩
      rw [Nat.add_comm, List.take_succ_cons, taken]
      exact isGap_lineComment
    · rename_i rest
      split at h
      · rename_i n size
        cases h
        obtain ⟨first, behind, text, enclosed, rfl⟩ := closes_of_commentSize 1 rest n size
        rw [List.append_nil] at text
        refine .inr ⟨rfl, .blockComment ⟨first, ?_, enclosed⟩⟩
        rw [Nat.add_comm, List.take_succ_cons, text]
      · cases h
    · cases h
      exact .inl ⟨_, rfl, by simp⟩
  case h_19 | h_20 =>
    cases h
    left
    split
    · exact ⟨_, rfl, by simp⟩
    · exact isToken_pairItem (by simp) (by simp)
  case h_21 =>
    split at h
    · cases h
      exact .inl ⟨_, rfl, by simp⟩
    · cases h
  case h_22 | h_23 | h_24 | h_25 =>
    cases h
    exact .inr ⟨rfl, .blank (by simp)⟩
  case h_26 =>
    split at h
    · cases h
      exact .inl isToken_numberItem
    · split at h
      · cases h
        exact .inl ⟨_, rfl, ofWord_ne_endOfFile _⟩
      · cases h
        exact .inl ⟨_, rfl, by simp⟩
  all_goals
    cases h
    exact .inl ⟨_, rfl, by simp⟩

/-- There is no item exactly where a string or a block comment is never closed. -/
theorem itemAt_error_iff {fault : ScanFault} :
    itemAt c cs = .error fault ↔
      fault = .unterminatedString ∧ UnclosedString (c :: cs) ∨
        fault = .unterminatedComment ∧ UnclosedComment (c :: cs) := by
  constructor
  · intro h
    unfold itemAt at h
    split at h
    case h_16 =>
      split at h
      · cases h
      · split at h
        · cases h
        · rename_i size
          cases h
          exact .inr ⟨rfl, by simp, commentSize_eq_none_iff.1 size⟩
      · cases h
    case h_21 =>
      split at h
      · cases h
      · rename_i size
        cases h
        exact .inl ⟨rfl, rfl, stringSize_eq_none_iff.1 size⟩
    case h_26 =>
      split at h
      · cases h
      · split at h <;> cases h
    all_goals cases h
  · rintro (⟨rfl, start, unclosed⟩ | ⟨rfl, start, unclosed⟩)
    · obtain rfl : c = '"' := by simpa using start
      simp [itemAt, stringSize_eq_none_iff.2 unclosed]
    · obtain ⟨rest, same⟩ := start
      obtain ⟨rfl, rfl⟩ : '/' = c ∧ '*' :: rest = cs := by simpa using same
      simp [itemAt, commentSize_eq_none_iff.2 unclosed]

end SignalLang.Token
