import SignalLang.Proofs.Token.Items

/-!
# How tokens end

No token ends with a carriage return: only a string literal can hold one, and that ends with its quote.
-/

namespace SignalLang.Token

variable {c : Char} {cs text : List Char} {n : Nat}

theorem not_mem_takeWhile {p : Char → Bool} (h : p c = false) : c ∉ cs.takeWhile p := fun mem => by
  have := List.all_eq_true.1 List.all_takeWhile c mem
  rw [h] at this
  cases this

theorem return_not_mem_digits (cs : List Char) : '\r' ∉ cs.take (digitRun cs) := by
  rw [digitRun, ← List.prefix_iff_eq_take.1 (List.takeWhile_prefix _)]
  exact not_mem_takeWhile rfl

theorem return_not_mem_fraction (cs : List Char) : '\r' ∉ cs.take (fractionSize cs) := by
  unfold fractionSize
  split
  · split
    · rw [Nat.add_comm, List.take_succ_cons]
      simpa using return_not_mem_digits _
    · simp
  · simp

theorem return_not_mem_exponent (cs : List Char) : '\r' ∉ cs.take (exponentSize cs) := by
  unfold exponentSize
  split
  · rename_i mark next rest
    split
    · rename_i isMark
      have mark : '\r' ≠ mark := by rintro rfl; simp at isMark
      split
      · rename_i isSign
        have sign : '\r' ≠ next := by rintro rfl; simp at isSign
        rw [Nat.add_comm, List.take_succ_cons, List.take_succ_cons]
        simpa [mark, sign] using return_not_mem_digits rest
      · split
        · rw [Nat.add_comm, List.take_succ_cons]
          simpa [mark] using return_not_mem_digits (next :: rest)
        · simp
    · simp
  · simp

theorem return_not_mem_decimal (c : Char) (cs : List Char) : '\r' ∉ cs.take (decimalItem c cs).extra := by
  simp only [decimalItem, Item.token, List.take_add, List.mem_append, not_or]
  refine ⟨⟨return_not_mem_digits cs, ?_⟩, return_not_mem_exponent _⟩
  split
  · simp
  · exact return_not_mem_fraction _

theorem return_not_mem_number (c : Char) (cs : List Char) : '\r' ∉ cs.take (numberItem c cs).extra := by
  unfold numberItem
  split
  · rename_i mark rest
    split
    · rename_i based
      have mark : '\r' ≠ mark := by
        rintro rfl
        exact absurd based.2 (by decide)
      have digits : '\r' ∉ rest.take (rest.takeWhile isHexPart).length := by
        rw [← List.prefix_iff_eq_take.1 (List.takeWhile_prefix _)]
        exact not_mem_takeWhile rfl
      rw [Item.token, Nat.add_comm, List.take_succ_cons]
      simpa [mark] using digits
    · exact return_not_mem_decimal c _
  · exact return_not_mem_decimal c _

theorem return_not_mem_pair {second : Char} (h : second ≠ '\r') (pair alone : TokenKind) (cs : List Char) :
    '\r' ∉ cs.take (pairItem second pair alone cs).extra := by
  unfold pairItem
  split
  · rename_i head
    obtain ⟨tail, rfl⟩ := List.head?_eq_some_iff.1 head
    simpa [Item.token] using Ne.symm h
  · simp [Item.single]

/-- A token without a carriage return, or a string literal. -/
theorem itemAt_token {item : Item} (h : itemAt c cs = .ok item) (token : item.kind ≠ none) :
    '\r' ∉ c :: cs.take item.extra ∨ IsStringLiteral (c :: cs.take item.extra) := by
  have single {d : Char} {k : Nat} (apart : d ≠ '\r') (rest : '\r' ∉ cs.take k) :
      '\r' ∉ d :: cs.take k ∨ IsStringLiteral (d :: cs.take k) :=
    .inl (List.not_mem_cons_of_ne_of_not_mem (Ne.symm apart) rest)
  unfold itemAt at h
  split at h
  case h_14 =>
    cases h
    refine single (by decide) ?_
    split
    · exact return_not_mem_number _ _
    · simp [Item.single]
  case h_15 | h_17 | h_18 =>
    cases h
    exact single (by decide) (return_not_mem_pair (by decide) _ _ _)
  case h_16 =>
    split at h
    · cases h
      exact absurd rfl token
    · split at h
      · cases h
        exact absurd rfl token
      · cases h
    · cases h
      exact single (by decide) (by simp [Item.single])
  case h_19 | h_20 =>
    cases h
    refine single (by decide) ?_
    split
    · rename_i head
      obtain ⟨tail, rfl⟩ := List.head?_eq_some_iff.1 head
      simp [Item.token]
    · exact return_not_mem_pair (by decide) _ _ _
  case h_21 =>
    split at h
    · rename_i n size
      cases h
      exact .inr ⟨_, rfl, quoted_of_stringSize cs n size⟩
    · cases h
  case h_22 | h_23 | h_24 | h_25 =>
    cases h
    exact absurd rfl token
  case h_26 =>
    have apart : c ≠ '\r' := by assumption
    split at h
    · cases h
      exact single apart (return_not_mem_number _ _)
    · split at h
      · cases h
        refine single apart ?_
        rw [Item.token, ← List.prefix_iff_eq_take.1 (List.takeWhile_prefix _)]
        exact not_mem_takeWhile (by decide +kernel)
      · cases h
        exact single apart (by simp [Item.single])
  all_goals
    cases h
    exact single (by decide) (by simp [Item.single])

theorem getLast?_of_quoted (h : Quoted text) : text.getLast? = some '"' := by
  induction h with
  | close => rfl
  | escaped _ ih => rw [List.getLast?_cons, List.getLast?_cons, ih]; rfl
  | char _ _ _ _ ih => rw [List.getLast?_cons, ih]; rfl

/-- No token ends with a carriage return. -/
theorem getLast?_ne_return {item : Item} (h : itemAt c cs = .ok item) (token : item.kind ≠ none) :
    (c :: cs.take item.extra).getLast? ≠ some '\r' := by
  intro last
  rcases itemAt_token h token with none | ⟨tail, text, quoted⟩
  · exact none (List.mem_of_getLast? last)
  · rw [text, List.getLast?_cons, getLast?_of_quoted quoted] at last
    cases last

end SignalLang.Token
