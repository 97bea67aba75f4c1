/-!
# 64-bit words

Sizes and literals are signed 64-bit words, held as integers.
-/

namespace SignalLang.LongWord

/-- The least signed 64-bit word. -/
def least : Int := -9223372036854775808

/-- The greatest signed 64-bit word. -/
def greatest : Int := 9223372036854775807

/-- Whether an integer is a signed 64-bit word. -/
def inRange (n : Int) : Bool := least ≤ n && n ≤ greatest

/-- The signed 64-bit word congruent to an integer. -/
def wrap (n : Int) : Int := n.bmod 18446744073709551616

/-- A word read without its sign. -/
def unsigned (n : Int) : Nat := (n.emod 18446744073709551616).toNat

theorem inRange_iff {n : Int} : inRange n = true ↔ least ≤ n ∧ n ≤ greatest := by
  simp [inRange]

theorem inRange_wrap (n : Int) : inRange (wrap n) = true := by
  rw [inRange_iff]
  have lower := @Int.le_bmod n 18446744073709551616 (by decide)
  have upper := @Int.bmod_lt n 18446744073709551616 (by decide)
  unfold wrap least greatest
  omega

theorem wrap_eq_self {n : Int} (h : inRange n = true) : wrap n = n := by
  rw [inRange_iff] at h
  unfold least greatest at h
  exact Int.bmod_eq_of_le (by omega) (by omega)

end SignalLang.LongWord
