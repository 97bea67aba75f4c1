import SignalLang.Proofs.Tree.Views

/-!
# Scanning printed text

`Scans` says which tokens a text consists of, wherever it stands. Its lemmas put one item in front of a
text: a token is the item there when what follows does not continue it, and `breaks` says that of a text
which can follow any token but the first half of a longer operator.
-/

namespace SignalLang.Token

/-- The tokens of a text, up to their places. -/
def Scans (cs : List Char) (ls : List Lexeme) : Prop :=
  ∀ p, ∃ tokens, scanFrom p cs = .ok tokens ∧ tokens.map toLexeme = ls

variable {c : Char} {cs rest : List Char} {ls : List Lexeme} {kind : TokenKind}

namespace Scans

protected theorem nil : Scans [] [.ending] :=
  fun p => ⟨[⟨.endOfFile, "", p.line, p.column, p.offset⟩], by rw [scanFrom], rfl⟩

theorem token (item : itemAt c (cs ++ rest) = .ok (.token kind cs.length)) (tail : Scans rest ls) :
    Scans (c :: cs ++ rest) (⟨kind, String.ofList (c :: cs)⟩ :: ls) := by
  intro p
  obtain ⟨tokens, scanned, same⟩ := tail (p.pass (some kind) (c :: cs))
  refine ⟨⟨kind, String.ofList (c :: cs), p.line, p.column, p.offset⟩ :: tokens, ?_, ?_⟩
  · rw [List.cons_append, scanFrom, item]
    simp only [Item.token, List.take_left', List.drop_left', scanned]
  · simp [same, toLexeme]

theorem blank (item : itemAt c rest = .ok ⟨none, 0⟩) (tail : Scans rest ls) : Scans (c :: rest) ls := by
  intro p
  obtain ⟨tokens, scanned, same⟩ := tail (p.pass none [c])
  refine ⟨tokens, ?_, same⟩
  rw [scanFrom, item]
  simp only [List.take_zero, List.drop_zero, scanned]

theorem space (tail : Scans rest ls) : Scans (' ' :: rest) ls := blank rfl tail

theorem newline (tail : Scans rest ls) : Scans ('\n' :: rest) ls := blank rfl tail

theorem spaces (n : Nat) (tail : Scans rest ls) : Scans (List.replicate n ' ' ++ rest) ls := by
  induction n with
  | zero => exact tail
  | succ n ih => exact space ih

/-- A token of one character. -/
theorem single (item : itemAt c rest = .ok (.single kind)) (text : kind.text = String.ofList [c])
    (tail : Scans rest ls) : Scans (c :: rest) (.mark kind :: ls) := by
  rw [Lexeme.mark, text]
  have item : itemAt c ([] ++ rest) = .ok (.token kind ([] : List Char).length) := item
  exact token item tail

end Scans

/-! ## What may follow a token -/

/-- A text that continues no name and no number before it. -/
def breaks : List Char → Bool
  | [] => true
  | '.' :: c :: _ => !c.isDigit
  | c :: _ => [' ', ',', ';', ')', ']', '[', '(', '?', ':', '>'].contains c

/-- What the first character of such a text can be. -/
theorem head_of_breaks (h : breaks (c :: cs) = true) :
    isNamePart c = false ∧ isDigitPart c = false ∧ c ≠ 'e' ∧ c ≠ 'E' ∧ c ≠ '=' ∧
      isBaseMark c = false := by
  have first : c = '.' ∨ c ∈ [' ', ',', ';', ')', ']', '[', '(', '?', ':', '>'] := by
    unfold breaks at h
    split at h
    · cases ‹c :: cs = []›
    · rename_i same
      cases same
      exact .inl rfl
    · rename_i same
      cases same
      exact .inr (by simpa using h)
  have every : (['.', ' ', ',', ';', ')', ']', '[', '(', '?', ':', '>'].all fun d =>
      decide (isNamePart d = false ∧ isDigitPart d = false ∧ d ≠ 'e' ∧ d ≠ 'E' ∧ d ≠ '=' ∧
        isBaseMark d = false)) = true := by
    decide +kernel
  exact of_decide_eq_true (List.all_eq_true.1 every c (List.mem_cons.2 first))

/-- The characters of a run end where a text breaks. -/
theorem takeWhile_append_breaks {p : Char → Bool} (run : ∀ d ∈ cs, p d = true)
    (stop : ∀ d ds, rest = d :: ds → p d = false) : (cs ++ rest).takeWhile p = cs := by
  rw [List.takeWhile_append_of_pos run]
  cases rest with
  | nil => simp
  | cons d ds => simp [stop d ds rfl]

/-! ## Words -/

theorem not_isDigit_of_isLetter (h : Text.isLetter c = true ∨ c = '_') : c.isDigit = false := by
  rcases h with h | rfl
  · cases digit : c.isDigit with
    | false => rfl
    | true =>
      exfalso
      simp only [Char.isDigit, Bool.and_eq_true, decide_eq_true_eq] at digit
      obtain ⟨low, high⟩ := digit
      have small : c.toNat < 0x80 := Nat.lt_of_le_of_lt high (by decide)
      simp only [Text.isLetter, small, if_true] at h
      have low : 48 ≤ c.val.toNat := low
      have high : c.val.toNat ≤ 57 := high
      rcases Bool.or_eq_true_iff.1 h with upper | lower
      · have l : 65 ≤ c.val.toNat := (of_decide_eq_true upper).1
        omega
      · have l : 97 ≤ c.val.toNat := of_decide_eq_true (Bool.and_eq_true_iff.1 lower).1
        omega
  · rfl

theorem itemAt_of_letter (h : Text.isLetter c = true ∨ c = '_') :
    itemAt c cs = .ok (.token (.ofWord (String.ofList (c :: cs.takeWhile isNamePart)))
      (cs.takeWhile isNamePart).length) := by
  have notDigit := not_isDigit_of_isLetter h
  unfold itemAt
  split
  case h_26 => simp [h, notDigit]
  all_goals exact absurd h (by decide)

/-- A word of name characters is scanned as one token. -/
theorem Scans.word (start : Text.isLetter c = true ∨ c = '_') (parts : ∀ d ∈ cs, isNamePart d = true)
    (stop : breaks rest = true) (tail : Scans rest ls) :
    Scans (c :: cs ++ rest) (⟨.ofWord (String.ofList (c :: cs)), String.ofList (c :: cs)⟩ :: ls) := by
  have run : (cs ++ rest).takeWhile isNamePart = cs :=
    takeWhile_append_breaks parts fun d ds same => (head_of_breaks (same ▸ stop)).1
  exact .token (by rw [itemAt_of_letter start, run]) tail

theorem Scans.name {word : String} (h : IsName word) (stop : breaks rest = true) (tail : Scans rest ls) :
    Scans (word.toList ++ rest) (⟨.ident, word⟩ :: ls) := by
  obtain ⟨c, cs, rfl, start, parts, kind⟩ := h
  rw [String.toList_ofList, ← kind]
  exact .word start parts stop tail

/-- The first character of a name. -/
theorem head_of_isName {word : String} (h : IsName word) :
    ∃ c cs, word.toList = c :: cs ∧ c.isDigit = false ∧ c ≠ '<' ∧ c ≠ '=' := by
  obtain ⟨c, cs, rfl, start, -, -⟩ := h
  refine ⟨c, cs, String.toList_ofList, not_isDigit_of_isLetter start, ?_, ?_⟩
  · rintro rfl
    exact absurd start (by decide)
  · rintro rfl
    exact absurd start (by decide)

theorem breaks_dot {word : String} (h : IsName word) : breaks ('.' :: (word.toList ++ rest)) = true := by
  obtain ⟨c, cs, same, notDigit, -, -⟩ := head_of_isName h
  simp [same, breaks, notDigit]

/-! ## Marks -/

/-- A keyword before a blank or a mark. -/
theorem Scans.keyword (kind : TokenKind) (isKeyword : kind ∈ TokenKind.keywords) (stop : breaks rest = true)
    (tail : Scans rest ls) : Scans (kind.text.toList ++ rest) (.mark kind :: ls) := by
  have shape : ∀ k ∈ TokenKind.keywords, ∃ c cs, k.text = String.ofList (c :: cs) ∧
      (Text.isLetter c = true ∨ c = '_') ∧ (∀ d ∈ cs, isNamePart d = true) ∧
      TokenKind.ofWord (String.ofList (c :: cs)) = k := by
    intro k hk
    simp only [TokenKind.keywords, List.mem_cons, List.not_mem_nil, or_false] at hk
    rcases hk with rfl | rfl | rfl | rfl | rfl | rfl | rfl | rfl | rfl | rfl | rfl | rfl | rfl | rfl | rfl |
      rfl | rfl | rfl | rfl | rfl | rfl | rfl | rfl <;>
      exact ⟨_, _, rfl, by decide +kernel, List.all_eq_true.1 (by decide +kernel), by decide +kernel⟩
  obtain ⟨c, cs, same, start, parts, word⟩ := shape kind isKeyword
  have scanned := Scans.word start parts stop tail
  rw [Lexeme.mark, same, String.toList_ofList]
  rwa [word] at scanned

/-- A binary operator before a blank. -/
theorem Scans.binaryOp (op : BinaryOp) (tail : Scans (' ' :: rest) ls) :
    Scans (op.text.toList ++ ' ' :: rest) (.mark op.token :: ls) := by
  have words : ∀ k ∈ TokenKind.keywords, Scans (k.text.toList ++ ' ' :: rest) (.mark k :: ls) :=
    fun k hk => .keyword k hk rfl tail
  cases op with
  | band => exact words .kwBAnd (by decide)
  | bor => exact words .kwBOr (by decide)
  | bxor => exact words .kwBXor (by decide)
  | and => exact words .kwAnd (by decide)
  | or => exact words .kwOr (by decide)
  | xor => exact words .kwXor (by decide)
  | isIn => exact words .kwIn (by decide)
  | asType => exact words .kwAs (by decide)
  | add | subtract | multiply | divide | modulo | lessThan | greaterThan => exact .single rfl rfl tail
  | power | leftShift | rightShift | equal | notEqual | lessOrEqual | greaterOrEqual =>
    exact .token rfl tail

/-- An opening angle bracket that no other one and no equals sign follows. -/
theorem Scans.less (notLess : rest.head? ≠ some '<') (notEqual : rest.head? ≠ some '=')
    (tail : Scans rest ls) : Scans ('<' :: rest) (.mark .less :: ls) :=
  .single (by simp [itemAt, pairItem, notLess, notEqual]) rfl tail

/-- A closing angle bracket where an expression ends. -/
theorem Scans.greater (stop : breaks rest = true) (notGreater : rest.head? ≠ some '>')
    (tail : Scans rest ls) : Scans ('>' :: rest) (.mark .greater :: ls) := by
  have notEqual : rest.head? ≠ some '=' := by
    intro h
    obtain ⟨cs, rfl⟩ := List.head?_eq_some_iff.1 h
    exact absurd rfl (head_of_breaks stop).2.2.2.2.1
  exact .single (by simp [itemAt, pairItem, notGreater, notEqual]) rfl tail

/-- A point before something that is no digit. -/
theorem Scans.dot (notDigit : rest.head?.any Char.isDigit = false) (tail : Scans rest ls) :
    Scans ('.' :: rest) (.mark .dot :: ls) :=
  .single (by simp [itemAt, notDigit]) rfl tail

/-! ## Numbers -/

theorem itemAt_of_digit (h : c.isDigit = true) : itemAt c cs = .ok (numberItem c cs) := by
  unfold itemAt
  split
  case h_26 => simp [h]
  all_goals exact absurd h (by decide)

theorem digitRun_append {ds : List Char} (digits : ∀ d ∈ ds, d.isDigit = true)
    (stop : ∀ d ds', rest = d :: ds' → isDigitPart d = false) : digitRun (ds ++ rest) = ds.length := by
  rw [digitRun, takeWhile_append_breaks (fun d hd => by simp [isDigitPart, digits d hd]) stop]

/-- A point and digits, or nothing. -/
def IsFraction (cs : List Char) : Prop :=
  cs = [] ∨ ∃ d ds, cs = '.' :: d :: ds ∧ ∀ c ∈ d :: ds, c.isDigit = true

/-- A mark, a sign and digits, or nothing. -/
def IsExponent (cs : List Char) : Prop :=
  cs = [] ∨ ∃ sign ds, cs = 'e' :: sign :: ds ∧ (sign = '+' ∨ sign = '-') ∧ ∀ c ∈ ds, c.isDigit = true

theorem exponentSize_append {exponent : List Char} (h : IsExponent exponent) (stop : breaks rest = true) :
    exponentSize (exponent ++ rest) = exponent.length := by
  rcases h with rfl | ⟨sign, ds, rfl, signs, digits⟩
  · match rest, stop with
    | [], _ => rfl
    | [_], _ => rfl
    | d :: e :: ds, stop =>
      obtain ⟨-, -, notLower, notUpper, -⟩ := head_of_breaks stop
      simp [exponentSize, notLower, notUpper]
  · have run : digitRun (ds ++ rest) = ds.length :=
      digitRun_append digits fun d ds' same => (head_of_breaks (same ▸ stop)).2.1
    simp only [List.cons_append, exponentSize, true_or, if_true, signs, run, List.length_cons]
    omega

theorem fractionSize_of_breaks (stop : breaks rest = true) : fractionSize rest = 0 := by
  match rest, stop with
  | [], _ => rfl
  | [_], _ => simp [fractionSize]
  | d :: e :: ds, stop =>
    by_cases point : d = '.'
    · subst point
      have notDigit : e.isDigit = false := by simpa [breaks] using stop
      simp [fractionSize, notDigit]
    · simp [fractionSize, point]

theorem fractionSize_append {fraction : List Char} (h : IsFraction fraction)
    (stop : breaks rest = true ∨ ∃ cs, rest = 'e' :: cs) :
    fractionSize (fraction ++ rest) = fraction.length := by
  rcases h with rfl | ⟨d, ds, rfl, digits⟩
  · rcases stop with stop | ⟨cs, rfl⟩
    · exact fractionSize_of_breaks stop
    · rfl
  · have run : digitRun (d :: ds ++ rest) = (d :: ds).length := by
      refine digitRun_append digits fun e es same => ?_
      rcases stop with stop | ⟨cs, rfl⟩
      · exact (head_of_breaks (same ▸ stop)).2.1
      · cases same
        rfl
    have first : d.isDigit = true := digits d (.head _)
    have text : '.' :: d :: ds ++ rest = '.' :: d :: (ds ++ rest) := rfl
    rw [text, fractionSize, if_pos first, ← List.cons_append, run]
    simp [Nat.add_comm]

theorem not_isBaseMark_of_isDigit (h : c.isDigit = true) : isBaseMark c = false := by
  cases mark : isBaseMark c with
  | false => rfl
  | true =>
    simp only [isBaseMark, List.contains_eq_mem, List.mem_cons, List.not_mem_nil, or_false,
      decide_eq_true_eq] at mark
    rcases mark with rfl | rfl | rfl | rfl | rfl | rfl <;> exact absurd h (by decide)

/-- A number is scanned as one token, and as a float when it has a fraction or an exponent. -/
theorem Scans.number {ds fraction exponent : List Char} (digits : ∀ d ∈ c :: ds, d.isDigit = true)
    (isFraction : IsFraction fraction) (isExponent : IsExponent exponent) (stop : breaks rest = true)
    (tail : Scans rest ls) :
    Scans (c :: (ds ++ fraction ++ exponent) ++ rest)
      (⟨if fraction = [] ∧ exponent = [] then .intLiteral else .floatLiteral,
        String.ofList (c :: (ds ++ fraction ++ exponent))⟩ :: ls) := by
  refine .token ?_ tail
  have behind : breaks (exponent ++ rest) = true ∨ ∃ cs, exponent ++ rest = 'e' :: cs := by
    rcases isExponent with rfl | ⟨sign, es, rfl, -⟩
    · exact .inl stop
    · exact .inr ⟨_, rfl⟩
  -- behind the digits stands a point, the mark of an exponent or a break, and none is a base mark
  have next : ∀ d ds', fraction ++ (exponent ++ rest) = d :: ds' →
      isDigitPart d = false ∧ isBaseMark d = false := by
    intro d ds' same
    rcases isFraction with rfl | ⟨f, fs, rfl, -⟩
    · rcases behind with stop | ⟨cs, start⟩
      · obtain ⟨-, notDigit, -, -, -, notMark⟩ := head_of_breaks (same ▸ stop : breaks (d :: ds') = true)
        exact ⟨notDigit, notMark⟩
      · cases start.symm.trans same
        decide
    · cases same
      decide
  have whole : digitRun (ds ++ (fraction ++ (exponent ++ rest))) = ds.length :=
    digitRun_append (fun d hd => digits d (.tail _ hd)) fun d ds' same => (next d ds' same).1
  have notBase : numberItem c (ds ++ (fraction ++ (exponent ++ rest))) =
      decimalItem c (ds ++ (fraction ++ (exponent ++ rest))) := by
    match ds, next, digits with
    | [], next, _ =>
      rw [List.nil_append]
      match text : fraction ++ (exponent ++ rest) with
      | [] => rfl
      | d :: ds' => simp [numberItem, (next d ds' text).2]
    | d :: ds', _, digits =>
      simp [numberItem, not_isBaseMark_of_isDigit (digits d (.tail _ (.head _)))]
  have notPoint : c ≠ '.' := by
    rintro rfl
    exact absurd (digits '.' (.head _)) (by decide)
  have shape : ds ++ fraction ++ exponent ++ rest = ds ++ (fraction ++ (exponent ++ rest)) := by simp
  rw [itemAt_of_digit (digits c (.head _)), shape, notBase]
  have behindWhole : (ds ++ (fraction ++ (exponent ++ rest))).drop ds.length =
      fraction ++ (exponent ++ rest) := List.drop_left' rfl
  have behindFraction : (ds ++ (fraction ++ (exponent ++ rest))).drop (ds.length + fraction.length) =
      exponent ++ rest := by rw [← List.drop_drop, behindWhole, List.drop_left' rfl]
  simp only [decimalItem, whole, notPoint, if_false, behindWhole, fractionSize_append isFraction behind,
    behindFraction, exponentSize_append isExponent stop, false_or, Item.token, List.length_append]
  have kinds : (fraction.length > 0 ∨ exponent.length > 0) ↔ ¬ (fraction = [] ∧ exponent = []) := by
    simp only [gt_iff_lt, List.length_pos_iff]
    exact Decidable.not_and_iff_not_or_not.symm
  simp only [kinds, ite_not]

end SignalLang.Token
