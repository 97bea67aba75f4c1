/-!
# Coordinates of an index space

`coordinates dims` lists every index of an array with the given lengths, the last index varying
fastest. `broadcast coord dims` is the element of an operand of shape `dims` that a coordinate of the
result reads: shapes are aligned at their outermost length, and a length of one is read at zero.
-/

namespace SignalLang

/-- The indexes below a length, in order. -/
def indexesBelow (length : Int) : List Int := (List.range length.toNat).map Int.ofNat

theorem mem_indexesBelow {length i : Int} : i ∈ indexesBelow length ↔ 0 ≤ i ∧ i < length := by
  constructor
  · intro h
    obtain ⟨k, hk, rfl⟩ := List.mem_map.1 h
    have := List.mem_range.1 hk
    exact ⟨Int.natCast_nonneg k, by simp only [Int.ofNat_eq_natCast]; omega⟩
  · rintro ⟨h, hlt⟩
    exact List.mem_map.2 ⟨i.toNat, List.mem_range.2 (by omega), by simp only [Int.ofNat_eq_natCast]; omega⟩

/-- Every coordinate of an index space in row-major order. -/
def coordinates : List Int → List (List Int)
  | [] => [[]]
  | d :: ds =>
    let rest := coordinates ds
    if rest.isEmpty then [] else (indexesBelow d).flatMap fun i => rest.map (i :: ·)

/-- The coordinate of an operand of shape `dims` that `coord` of the result reads. -/
def broadcast : (coord dims : List Int) → List Int
  | _, [] => []
  | [], _ :: ds => 0 :: broadcast [] ds
  | c :: cs, d :: ds => (if d ≠ 1 then c else 0) :: broadcast cs ds

@[simp] theorem length_broadcast (coord dims : List Int) : (broadcast coord dims).length = dims.length := by
  induction dims generalizing coord with
  | nil => simp [broadcast]
  | cons d ds ih => cases coord <;> simp [broadcast, ih]

end SignalLang
