/-!
# 32-bit words

`INT` values are signed 32-bit words, held as integers. Arithmetic is done on the integers and the result
reduced; bitwise operators act on the two's complement digits.
-/

namespace SignalLang.Word

/-- The signed 32-bit word congruent to an integer. -/
def wrap (n : Int) : Int := n.bmod 4294967296

/-- Whether an integer is a signed 32-bit word. -/
def inRange (n : Int) : Bool := -2147483648 ≤ n && n ≤ 2147483647

theorem inRange_iff {n : Int} : inRange n = true ↔ -2147483648 ≤ n ∧ n ≤ 2147483647 := by
  simp [inRange]

theorem inRange_wrap (n : Int) : inRange (wrap n) = true := by
  rw [inRange_iff]
  have lower := @Int.le_bmod n 4294967296 (by decide)
  have upper := @Int.bmod_lt n 4294967296 (by decide)
  unfold wrap
  omega

theorem wrap_eq_self {n : Int} (h : inRange n = true) : wrap n = n := by
  rw [inRange_iff] at h
  exact Int.bmod_eq_of_le (by omega) (by omega)

@[simp] theorem wrap_zero : wrap 0 = 0 := rfl

@[simp] theorem wrap_wrap (n : Int) : wrap (wrap n) = wrap n := wrap_eq_self (inRange_wrap n)

/-- The two's complement digits of a word. -/
def bits (n : Int) : BitVec 32 := BitVec.ofInt 32 n

/-- Applies a bitwise operator to two words. -/
def bitwise (f : BitVec 32 → BitVec 32 → BitVec 32) (a b : Int) : Int := (f (bits a) (bits b)).toInt

/-- Complements every digit. -/
def complement (a : Int) : Int := wrap (-a - 1)

/-- The amount of a shift: the last five digits of the word. -/
def shiftAmount (b : Int) : Nat := (b.emod 32).toNat

/-- Shifts to the left. -/
def shiftLeft (a b : Int) : Int := (bits a <<< shiftAmount b).toInt

/-- Shifts to the right, keeping the sign. -/
def shiftRight (a b : Int) : Int := ((bits a).sshiftRight (shiftAmount b)).toInt

/-- `result · base ^ n` as a word, by repeated squaring. -/
def powFrom (result base : Int) (n : Nat) : Int :=
  if h : n = 0 then result
  else
    powFrom (if n % 2 = 1 then wrap (result * base) else result) (wrap (base * base)) (n / 2)
termination_by n
decreasing_by omega

/-- `base ^ n` as a word. -/
def pow (base : Int) (n : Nat) : Int := wrap (powFrom 1 base n)

end SignalLang.Word
