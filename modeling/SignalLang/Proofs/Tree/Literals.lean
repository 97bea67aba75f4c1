import SignalLang.Proofs.Token.Scanning

/-!
# The texts of literals

Integers, floats and quoted texts are each written as one token. An integer is read back as itself; that
the conversions of floats and of quoted bytes are inverse to each other is assumed where it is needed.
-/

namespace SignalLang.Tree

open Token (Scans breaks)

variable {rest : List Char} {ls : List Lexeme}

/-! ## Integers -/

theorem isDigit_of_mem_digits {n : Nat} {c : Char} (h : c ∈ Nat.toDigits 10 n) : c.isDigit = true :=
  Nat.isDigit_of_mem_toDigits (by decide) (by decide) h

theorem toList_toString_int {v : Int} (h : 0 ≤ v) : (toString v).toList = Nat.toDigits 10 v.toNat := by
  show v.repr.toList = _
  rw [Int.repr_eq_if, if_pos h, Nat.toList_repr]

theorem scans_int {v : Int} (nonneg : 0 ≤ v) (stop : breaks rest = true) (tail : Scans rest ls) :
    Scans ((toString v).toList ++ rest) (⟨.intLiteral, toString v⟩ :: ls) := by
  obtain ⟨d, ds, digits⟩ := List.exists_cons_of_ne_nil (Nat.toDigits_ne_nil (n := v.toNat) (b := 10))
  have text : (toString v).toList = d :: (ds ++ [] ++ []) := by
    rw [toList_toString_int nonneg, digits, List.append_nil, List.append_nil]
  have isDigits : ∀ c ∈ d :: ds, c.isDigit = true := fun c hc => isDigit_of_mem_digits (digits ▸ hc)
  have isFraction : Token.IsFraction [] := .inl rfl
  have isExponent : Token.IsExponent [] := .inl rfl
  have scanned := Scans.number isDigits isFraction isExponent stop tail
  rw [← text, String.ofList_toList] at scanned
  exact scanned

/-- Only zero starts with the digit zero. -/
theorem head_digits_ne_zero {n : Nat} (positive : 0 < n) : (Nat.toDigits 10 n).head? ≠ some '0' := by
  induction n using Nat.strongRecOn with
  | _ n ih =>
    rw [Nat.toDigits_eq_if (by decide)]
    split
    · simp
      omega
    · have smaller := ih (n / 10) (by omega) (by omega)
      rwa [List.head?_append, Option.or_of_isSome (by simp [Nat.toDigits_ne_nil])]

theorem hexValue?_of_isDigit {c : Char} (h : c.isDigit = true) :
    Text.hexValue? c = some (c.toNat - '0'.toNat) ∧ c.toNat - '0'.toNat < 10 := by
  refine ⟨by simp [Text.hexValue?, h], ?_⟩
  simp only [Char.isDigit, Bool.and_eq_true, decide_eq_true_eq] at h
  have high : c.val.toNat ≤ 57 := h.2
  have zero : '0'.toNat = 48 := rfl
  have value : c.toNat = c.val.toNat := rfl
  omega

theorem numberInBase?_digits (n : Nat) : Text.numberInBase? 10 (Nat.toDigits 10 n) = some n := by
  have fold : ∀ cs (start : Nat), (∀ c ∈ cs, c.isDigit = true) →
      cs.foldl (fun acc c => do
        let n ← acc
        let d ← Text.hexValue? c
        if d < 10 then some (n * 10 + d) else none) (some start) = some (Nat.ofDigitChars 10 cs start) := by
    intro cs
    induction cs with
    | nil => intro start _; simp
    | cons c cs ih =>
      intro start digits
      obtain ⟨value, small⟩ := hexValue?_of_isDigit (digits c (.head _))
      rw [List.foldl_cons, Nat.ofDigitChars_cons, Nat.mul_comm 10, ← ih _ fun d hd => digits d (.tail _ hd)]
      congr 1
      simp only [Option.bind_eq_bind, Option.bind_some, value, small, if_true]
  rw [Text.numberInBase?, if_neg (by simp [Nat.toDigits_ne_nil]),
    fold _ 0 fun c hc => isDigit_of_mem_digits hc, Nat.ofDigitChars_ten_toDigits]

/-- The text of an integer is read as that integer. -/
theorem intValue?_toString {v : Int} (nonneg : 0 ≤ v) (bounded : v ≤ LongWord.greatest) :
    intValue? (toString v) = some v := by
  obtain ⟨n, rfl⟩ := Int.eq_ofNat_of_zero_le nonneg
  have plain : (Nat.toDigits 10 n).filter (· ≠ '_') = Nat.toDigits 10 n :=
    List.filter_eq_self.2 fun c hc => by
      simp only [ne_eq, decide_not, Bool.not_eq_true', decide_eq_false_iff_not]
      rintro rfl
      exact Nat.underscore_not_in_toDigits hc
  have base : Text.baseOf (Nat.toDigits 10 n) = (10, Nat.toDigits 10 n, false) := by
    unfold Text.baseOf
    split
    · rename_i mark cs digits
      rcases Nat.eq_zero_or_pos n with rfl | positive
      · simp at digits
      · exact absurd (by rw [digits]; rfl) (head_digits_ne_zero positive)
    · rfl
  have range : LongWord.inRange (n : Int) = true :=
    LongWord.inRange_iff.2 ⟨Int.le_trans (by decide) nonneg, bounded⟩
  rw [intValue?, toList_toString_int nonneg]
  simp only [Int.toNat_natCast, plain, Text.unsigned?, base, numberInBase?_digits, Option.bind_eq_bind,
    Option.bind_some, range, if_true]

/-! ## Floats -/

/-- Digits with a fraction or an exponent, or both. -/
def IsFloat (cs : List Char) : Prop :=
  ∃ d ds fraction exponent, cs = d :: (ds ++ fraction ++ exponent) ∧ (∀ c ∈ d :: ds, c.isDigit = true) ∧
    Token.IsFraction fraction ∧ Token.IsExponent exponent ∧ ¬ (fraction = [] ∧ exponent = [])

theorem scans_isFloat {text : String} (h : IsFloat text.toList) (stop : breaks rest = true)
    (tail : Scans rest ls) : Scans (text.toList ++ rest) (⟨.floatLiteral, text⟩ :: ls) := by
  obtain ⟨d, ds, fraction, exponent, same, digits, isFraction, isExponent, some⟩ := h
  have scanned := Scans.number digits isFraction isExponent stop tail
  rw [if_neg some, ← same, String.ofList_toList] at scanned
  exact scanned

theorem isDigit_of_mem_replicate {n : Nat} {c : Char} (h : c ∈ List.replicate n '0') : c.isDigit = true := by
  rw [List.eq_of_mem_replicate h]
  rfl

theorem isExponent_exponentText (format : Decimal.NumberFormat) (e : Int) :
    Token.IsExponent (format.exponentText e).toList := by
  refine .inr ⟨if e < 0 then '-' else '+',
    List.replicate (format.exponentWidth - (Nat.toDigits 10 e.natAbs).length) '0' ++
      Nat.toDigits 10 e.natAbs, ?_, ?_, ?_⟩
  · unfold Decimal.NumberFormat.exponentText Decimal.digitChars
    split <;> simp
  · split <;> simp
  · intro c hc
    rcases List.mem_append.1 hc with hc | hc
    · exact isDigit_of_mem_replicate hc
    · exact isDigit_of_mem_digits hc

/-- A number with an exponent. -/
theorem isFloat_scientific (format : Decimal.NumberFormat) (x : Decimal.Scientific) :
    IsFloat (format.scientific x).toList := by
  obtain ⟨d, ds, digits⟩ := List.exists_cons_of_ne_nil (Nat.toDigits_ne_nil (n := x.digits) (b := 10))
  have isDigits : ∀ c ∈ d :: ds, c.isDigit = true := fun c hc => isDigit_of_mem_digits (digits ▸ hc)
  have isExponent := isExponent_exponentText format x.leadingExponent
  have present : (format.exponentText x.leadingExponent).toList ≠ [] := by
    simp [Decimal.NumberFormat.exponentText]
  have first : ∀ c ∈ [d], c.isDigit = true := by simpa using isDigits d (.head _)
  cases ds with
  | nil =>
    refine ⟨d, [], [], _, ?_, first, .inl rfl, isExponent, fun h => present h.2⟩
    simp [Decimal.NumberFormat.scientific, Decimal.digitChars, digits]
  | cons e es =>
    refine ⟨d, [], '.' :: e :: es, _, ?_, first,
      .inr ⟨e, es, rfl, fun c hc => isDigits c (.tail _ hc)⟩, isExponent, fun h => present h.2⟩
    simp [Decimal.NumberFormat.scientific, Decimal.digitChars, digits]

/-- The characters that mark a float. -/
abbrev floatMarks : List Char := ['.', 'e', 'E', 'n']

/-- A text of digits gets a point. -/
theorem isFloat_withPoint_digits {text : String} (some : text.toList ≠ [])
    (digits : ∀ c ∈ text.toList, c.isDigit = true) : IsFloat (Decimal.withPoint floatMarks text).toList := by
  obtain ⟨d, ds, same⟩ := List.exists_cons_of_ne_nil some
  have unmarked : text.toList.any (floatMarks.contains ·) = false := by
    refine List.any_eq_false.2 fun c hc mark => ?_
    have isMark : c ∈ floatMarks := by simpa using mark
    have digit := digits c hc
    simp only [floatMarks, List.mem_cons, List.not_mem_nil, or_false] at isMark
    rcases isMark with rfl | rfl | rfl | rfl <;> exact absurd digit (by decide)
  refine ⟨d, ds, ['.', '0'], [], ?_, same ▸ digits, .inr ⟨'0', [], rfl, List.all_eq_true.1 rfl⟩, .inl rfl, by simp⟩
  rw [Decimal.withPoint, unmarked]
  simp [same]

/-- A text with a point between digits stays as it is. -/
theorem isFloat_withPoint_point {text : String} {f : Char} {fs : List Char} (d : Char) (ds : List Char)
    (same : text.toList = d :: (ds ++ '.' :: f :: fs)) (digits : ∀ c ∈ d :: ds, c.isDigit = true)
    (fraction : ∀ c ∈ f :: fs, c.isDigit = true) :
    IsFloat (Decimal.withPoint floatMarks text).toList := by
  have marked : text.toList.any (floatMarks.contains ·) = true :=
    List.any_eq_true.2 ⟨'.', by simp [same], by decide⟩
  refine ⟨d, ds, '.' :: f :: fs, [], ?_, digits, .inr ⟨f, fs, rfl, fraction⟩, .inl rfl, by simp⟩
  rw [Decimal.withPoint, marked]
  simp [same]

/-- A number without an exponent. -/
theorem isFloat_positional (x : Decimal.Scientific) :
    IsFloat (Decimal.withPoint floatMarks (Decimal.positional x)).toList := by
  have isDigits : ∀ c ∈ Decimal.digitChars x.digits, c.isDigit = true := fun c => isDigit_of_mem_digits
  have some : Decimal.digitChars x.digits ≠ [] := Nat.toDigits_ne_nil
  simp only [Decimal.positional]
  generalize x.leadingExponent + 1 = whole
  split
  · exact isFloat_withPoint_digits (by decide) (List.all_eq_true.1 rfl)
  split
  · have all : ∀ c ∈ List.replicate (-whole).toNat '0' ++ Decimal.digitChars x.digits, c.isDigit = true := by
      intro c hc
      rcases List.mem_append.1 hc with hc | hc
      · exact isDigit_of_mem_replicate hc
      · exact isDigits c hc
    obtain ⟨f, fs, same⟩ := List.exists_cons_of_ne_nil
      (show List.replicate (-whole).toNat '0' ++ Decimal.digitChars x.digits ≠ [] by simp [some])
    exact isFloat_withPoint_point '0' [] (by simp [same]) (List.all_eq_true.1 rfl) (same ▸ all)
  split
  · refine isFloat_withPoint_digits (by simp [some]) ?_
    rw [String.toList_ofList]
    intro c hc
    rcases List.mem_append.1 hc with hc | hc
    · exact isDigits c hc
    · exact isDigit_of_mem_replicate hc
  · obtain ⟨d, ds, front⟩ := List.exists_cons_of_ne_nil
      (show (Decimal.digitChars x.digits).take whole.toNat ≠ [] by
        simp only [ne_eq, List.take_eq_nil_iff, some, or_false]
        omega)
    obtain ⟨f, fs, back⟩ := List.exists_cons_of_ne_nil
      (show (Decimal.digitChars x.digits).drop whole.toNat ≠ [] by
        simp only [ne_eq, List.drop_eq_nil_iff]
        omega)
    exact isFloat_withPoint_point d ds (by simp [front, back])
      (fun c hc => isDigits c (List.mem_of_mem_take (front ▸ hc)))
      (fun c hc => isDigits c (List.mem_of_mem_drop (back ▸ hc)))

/-- A number that can be written without a sign is written as a float. -/
theorem isFloat_floatText {v : Float} (h : ∃ x, Decimal.decodeDouble v = .finite false x) :
    IsFloat (floatText v).toList := by
  obtain ⟨x, decoded⟩ := h
  have text : Decimal.text v = Decimal.general.lay (Decimal.shortest x) := by
    simp [Decimal.text, decoded, Decimal.NumberFormat.render]
  rw [floatText, text, Decimal.NumberFormat.lay]
  split
  · have isFloat := isFloat_scientific Decimal.general (Decimal.shortest x)
    have marked : (Decimal.general.scientific (Decimal.shortest x)).toList.any (floatMarks.contains ·) =
        true :=
      List.any_eq_true.2 ⟨'e', by
        simp [Decimal.NumberFormat.scientific, Decimal.NumberFormat.exponentText], by decide⟩
    rwa [Decimal.withPoint, if_pos marked]
  · exact isFloat_positional _

/-! ## Quoted texts -/

/-- A character that stands for itself between quotes. -/
def IsPlain (c : Char) : Prop := c ≠ '"' ∧ c ≠ '\n' ∧ c ≠ '\\'

/-- A plain character, or an escape of which only the first character need not be plain. -/
def IsPiece (cs : List Char) : Prop :=
  (∃ c, cs = [c] ∧ IsPlain c) ∨ ∃ c ds, cs = '\\' :: c :: ds ∧ ∀ d ∈ ds, IsPlain d

theorem stringSize_plain {cs : List Char} (h : ∀ c ∈ cs, IsPlain c) :
    Token.stringSize (cs ++ rest) = (Token.stringSize rest).map (· + cs.length) := by
  induction cs with
  | nil => simp
  | cons c cs ih =>
    obtain ⟨notQuote, notNewline, notBackslash⟩ := h c (.head _)
    rw [List.cons_append, Token.stringSize, ih fun d hd => h d (.tail _ hd), Option.map_map]
    · rfl
    all_goals simp_all

theorem stringSize_piece {cs : List Char} (h : IsPiece cs) :
    Token.stringSize (cs ++ rest) = (Token.stringSize rest).map (· + cs.length) := by
  rcases h with ⟨c, rfl, plain⟩ | ⟨c, ds, rfl, plain⟩
  · exact stringSize_plain (by simpa using plain)
  · rw [List.cons_append, List.cons_append, Token.stringSize, stringSize_plain plain, Option.map_map]
    rfl

theorem isPlain_of_mem_digits {n : Nat} {c : Char} (h : c ∈ Nat.toDigits 16 n) : IsPlain c := by
  induction n using Nat.strongRecOn with
  | _ n ih =>
    have plain (d : Nat) : IsPlain d.digitChar := by simp [IsPlain]
    rw [Nat.toDigits_eq_if (by decide)] at h
    split at h
    · rw [List.mem_singleton.1 h]
      exact plain n
    · rcases List.mem_append.1 h with h | h
      · exact ih (n / 16) (by omega) h
      · rw [List.mem_singleton.1 h]
        exact plain _

theorem isPlain_of_mem_hexDigits {width n : Nat} {c : Char} (h : c ∈ (Text.hexDigits width n).toList) :
    IsPlain c := by
  rw [Text.hexDigits, String.toList_ofList] at h
  rcases List.mem_append.1 h with h | h
  · rw [List.eq_of_mem_replicate h]
    simp [IsPlain]
  · exact isPlain_of_mem_digits h

theorem isPiece_hex (mark : Char) {width n : Nat} :
    IsPiece ("\\" ++ String.ofList [mark] ++ Text.hexDigits width n).toList := by
  refine .inr ⟨mark, (Text.hexDigits width n).toList, by simp, fun d hd => isPlain_of_mem_hexDigits hd⟩

theorem isPiece_quoteChar (c : Char) : IsPiece (Text.quoteChar c).toList := by
  have escape (d : Char) : IsPiece (String.ofList ['\\', d]).toList := .inr ⟨d, [], by simp, by simp⟩
  unfold Text.quoteChar
  split
  · exact escape '"'
  · exact escape '\\'
  · exact escape 'n'
  · exact escape 'r'
  · exact escape 't'
  · rename_i notQuote notBackslash notNewline _ _
    split
    · exact .inl ⟨c, by simp, notQuote, notNewline, notBackslash⟩
    split
    · exact escape 'a'
    split
    · exact escape 'b'
    split
    · exact escape 'f'
    split
    · exact escape 'v'
    split
    · exact isPiece_hex 'x'
    split
    · exact isPiece_hex 'u'
    · exact isPiece_hex 'U'

theorem stringSize_pieces {texts : List String} (h : ∀ t ∈ texts, IsPiece t.toList) :
    Token.stringSize ((String.join texts).toList ++ rest) =
      (Token.stringSize rest).map (· + (String.join texts).toList.length) := by
  induction texts with
  | nil => simp
  | cons t texts ih =>
    rw [String.join_cons, String.toList_append, List.append_assoc, stringSize_piece (h t (.head _)),
      ih fun u hu => h u (.tail _ hu), Option.map_map, List.length_append]
    congr 1
    funext n
    simp only [Function.comp_apply]
    omega

/-- Quoted bytes are scanned as one token. -/
theorem scans_quoteBytes (bytes : List UInt8) (tail : Scans rest ls) :
    Scans ((Text.quoteBytes bytes).toList ++ rest) (⟨.stringLiteral, Text.quoteBytes bytes⟩ :: ls) := by
  obtain ⟨texts, text, pieces⟩ : ∃ texts, Text.quoteBytes bytes = "\"" ++ String.join texts ++ "\"" ∧
      ∀ t ∈ texts, IsPiece t.toList := by
    refine ⟨_, rfl, fun t ht => ?_⟩
    obtain ⟨part, -, rfl⟩ := List.mem_map.1 ht
    cases part with
    | inl c => exact isPiece_quoteChar c
    | inr b => exact isPiece_hex 'x'
  have chars : (Text.quoteBytes bytes).toList = '"' :: ((String.join texts).toList ++ ['"']) := by
    simp [text]
  have size : Token.stringSize ((String.join texts).toList ++ ['"'] ++ rest) =
      some ((String.join texts).toList ++ ['"']).length := by
    rw [List.append_assoc, stringSize_pieces pieces]
    simp [Token.stringSize, Nat.add_comm]
  have scanned : Scans ('"' :: ((String.join texts).toList ++ ['"']) ++ rest)
      (⟨.stringLiteral, String.ofList ('"' :: ((String.join texts).toList ++ ['"']))⟩ :: ls) :=
    .token (by simp only [Token.itemAt, size]) tail
  rwa [← chars, String.ofList_toList] at scanned

end SignalLang.Tree
