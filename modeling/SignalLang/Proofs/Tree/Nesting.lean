import SignalLang.Proofs.Tree.Progress

/-!
# Spans nest

The tokens of a scanned text follow one another, so every tree that is read from them is laid out: each node
lies in the text and holds its parts, which follow one another too. That holds of a file with errors as well,
of the statements that could be read.
-/

namespace SignalLang.Tree

namespace Listing

variable {l : Listing} {source : String} {tokens : List Token}

theorem ordered_of_pairwise (ordered : l.tokens.Pairwise fun t u => t.stop ≤ u.offset)
    (empty : l.last.lexeme = "") : l.Ordered := by
  intro i j lt
  obtain ⟨pairs, -, before⟩ := List.pairwise_append.1 ordered
  rcases Nat.lt_or_ge j l.body.length with inside | outside
  · rw [token_of_lt inside, token_of_lt (Nat.lt_trans lt inside)]
    exact List.pairwise_iff_getElem.1 pairs i j _ _ lt
  · rw [token_of_le outside]
    rcases Nat.lt_or_ge i l.body.length with inside | outside
    · exact before _ (token_mem inside) _ (List.mem_singleton_self _)
    · rw [token_of_le outside, Token.stop, empty]
      exact Nat.le_refl _

/-- Scanned tokens are a listing, in the order of the text. -/
theorem exists_of_scan (file : Int) (scanned : Token.scan source = .ok tokens) :
    ∃ l : Listing, l.file = file ∧ l.tokens = tokens ∧ l.Ordered ∧ l.last.offset = source.utf8ByteSize := by
  have lossless := Token.lossless_of_scan scanned
  obtain ⟨body, last, rfl, ends, empty, offset, inside⟩ := lossless.ends
  exact ⟨⟨file, body, last, ends, fun t mem => (inside t mem).1⟩, rfl, rfl,
    ordered_of_pairwise lossless.ordered empty, offset⟩

/-- A file covers all its tokens, or the end of the file if there are no others. -/
theorem spanFrom_first (l : Listing) :
    (l.at ⟨none, []⟩ l.body.length).spanFrom (l.token 0) = l.cover 0 (max 1 l.body.length) := by
  rcases Nat.eq_zero_or_pos l.body.length with none | some
  · rw [none]
    exact (Span.union_self _).symm
  · rw [Nat.max_eq_right some]
    exact spanFrom_at some (Nat.le_refl _)

/-- A tree that is read from a listing is laid out over it. -/
theorem laid_parse (l : Listing) :
    l.Laid 0 (max 1 l.body.length) (parse l.file l.tokens).file.node := by
  obtain ⟨ss, es, same, -, laid, -⟩ := l.parse_at
  rw [same, spanFrom_first]
  exact .cover (by omega) (laid.widen (Nat.le_refl 0) (by omega))

end Listing

section

variable {source : String} {tokens : List Token} (file : Int) (scanned : Token.scan source = .ok tokens)

include scanned

/-- What stands in a tree that is read from a text lies in the text, and its parts nest. -/
theorem lies_of_isIn {n : Node} (inside : n.IsIn (parse file tokens).file.node) :
    0 ≤ n.span.start.offset ∧ n.span.stop.offset ≤ source.utf8ByteSize ∧ n.Nests := by
  obtain ⟨l, rfl, rfl, ordered, size⟩ := Listing.exists_of_scan file scanned
  have laid := l.laid_parse
  have nests := laid.nests ordered
  obtain ⟨low, high⟩ := nests.bounds inside
  have starts := laid.spans.starts ordered
  have stops := laid.spans.stops ordered
  have last := ordered.reached_le (Nat.le_refl (max 1 l.body.length))
  rw [Listing.token_of_le (Nat.le_max_right _ _), size] at last
  exact ⟨by omega, by omega, nests.of_isIn inside⟩

/-- Every span that the outline of a file lists lies in the text. -/
theorem lies_of_outline {e : Entry} (mem : e ∈ (parse file tokens).file.outline) {s : Span} (isSpan : s ∈ e.spans) :
    0 ≤ s.start.offset ∧ s.start.offset ≤ s.stop.offset ∧ s.stop.offset ≤ source.utf8ByteSize := by
  obtain ⟨n, isFile, m, isIn, rfl⟩ := (parse file tokens).file.shown e mem s isSpan
  obtain rfl := List.mem_singleton.1 isFile
  obtain ⟨low, high, nests⟩ := lies_of_isIn file scanned isIn
  exact ⟨low, nests.encloses.proper, high⟩

/-- In a tree that is read from a text every node lies in the text and holds its parts one behind the other. -/
theorem parse_nests {n : Node} (inside : n.IsIn (parse file tokens).file.node) :
    0 ≤ n.span.start.offset ∧ n.span.stop.offset ≤ source.utf8ByteSize ∧ n.Encloses := by
  obtain ⟨low, high, nests⟩ := lies_of_isIn file scanned inside
  exact ⟨low, high, nests.encloses⟩

end

/-- A statement behind an error. -/
theorem parse_nests_behind :
    let source := "); (b) + c;"
    ∃ (tokens : List Token) (n : Node), Token.scan source = .ok tokens ∧ n.IsIn (parse 0 tokens).file.node ∧
      n.span = ⟨0, ⟨1, 4, 3⟩, ⟨1, 12, 11⟩⟩ ∧
      0 ≤ n.span.start.offset ∧ n.span.stop.offset ≤ source.utf8ByteSize ∧ n.Encloses := by
  intro source
  let tokens : List Token := [⟨.rightParen, ")", 1, 1, 0⟩, ⟨.semicolon, ";", 1, 2, 1⟩, ⟨.leftParen, "(", 1, 4, 3⟩,
    ⟨.ident, "b", 1, 5, 4⟩, ⟨.rightParen, ")", 1, 6, 5⟩, ⟨.plus, "+", 1, 8, 7⟩, ⟨.ident, "c", 1, 10, 9⟩,
    ⟨.semicolon, ";", 1, 11, 10⟩, ⟨.endOfFile, "", 1, 12, 11⟩]
  have scanned : Token.scan source = .ok tokens := by decide +kernel
  obtain ⟨n, mem, span⟩ : ∃ n ∈ (parse 0 tokens).file.node.parts, n.span = ⟨0, ⟨1, 4, 3⟩, ⟨1, 12, 11⟩⟩ := by
    decide +kernel
  have inside : n.IsIn (parse 0 tokens).file.node := .of_mem_parts mem
  exact ⟨tokens, n, scanned, inside, span, parse_nests 0 scanned inside⟩

end SignalLang.Tree
