import Mathlib.Data.Int.Bitwise
import Mathlib.Data.Int.ModEq
import SignalLang.LongWord
import SignalLang.Word

/-!
# Words are integers modulo 2^32

`Word.wrap n` is the one word that is congruent to `n`. What is computed on words, digit by digit or by repeated
squaring, is the word of what arithmetic has it: `bits_land` and its siblings for the bitwise operators,
`shiftLeft_eq_wrap` and `shiftRight_eq_wrap` for the shifts, `pow_eq_wrap` for powers.

`Word.Forms` lists the products that are formed on the way to a power. Each of them is a signed 64-bit word.
-/

namespace SignalLang.Word

variable {m n : Int}

/-! ## Words as numbers -/

theorem toInt_bits (h : inRange n = true) : (bits n).toInt = n := by
  rw [bits, BitVec.toInt_ofInt]
  exact wrap_eq_self h

/-- The digits of an integer are those of its word. -/
theorem toInt_bits_eq_wrap (n : Int) : (bits n).toInt = wrap n := BitVec.toInt_ofInt n

theorem inRange_toInt (x : BitVec 32) : inRange x.toInt = true := by
  have lower := x.le_toInt
  have upper := x.toInt_lt
  rw [inRange_iff]
  omega

theorem toNat_bits_lt (h : inRange n = true) : (bits n).toNat < 32 ↔ 0 ≤ n ∧ n < 32 := by
  rw [inRange_iff] at h
  rw [bits, BitVec.toNat_ofInt]
  omega

/-- A shift by an amount that is there shifts by that amount. -/
theorem toNat_bits (there : 0 ≤ n ∧ n < 32) : (bits n).toNat = shiftAmount n := by
  rw [bits, shiftAmount, BitVec.toNat_ofInt]
  show _ = (n % 32).toNat
  omega

theorem bits_eq_bits (hm : inRange m = true) (hn : inRange n = true) : bits m = bits n ↔ m = n := by
  rw [← BitVec.toInt_inj, toInt_bits hm, toInt_bits hn]

/-- The divisors that a quotient is undefined for. -/
theorem bits_overflow (hm : inRange m = true) (hn : inRange n = true) :
    (bits n = 0 ∨ bits m = BitVec.intMin 32 ∧ bits n = -1) ↔ n = 0 ∨ m = -2147483648 ∧ n = -1 := by
  rw [show (0 : BitVec 32) = bits 0 by decide, show (-1 : BitVec 32) = bits (-1) by decide,
    show BitVec.intMin 32 = bits (-2147483648) by decide, bits_eq_bits hn (by decide),
    bits_eq_bits hn (by decide), bits_eq_bits hm (by decide)]

/-! ## Reduction -/

theorem wrap_modEq (n : Int) : wrap n ≡ n [ZMOD 4294967296] := Int.bmod_emod

/-- A word is determined by the integers it is congruent to. -/
theorem eq_wrap_iff : m = wrap n ↔ inRange m = true ∧ m ≡ n [ZMOD 4294967296] := by
  constructor
  · rintro rfl
    exact ⟨inRange_wrap n, wrap_modEq n⟩
  · rintro ⟨range, congruent⟩
    have near := (Int.modEq_iff_dvd.1 (congruent.trans (wrap_modEq n).symm))
    have bounds := inRange_iff.1 (inRange_wrap n)
    rw [inRange_iff] at range
    omega

theorem wrap_congr (h : m ≡ n [ZMOD 4294967296]) : wrap m = wrap n :=
  eq_wrap_iff.2 ⟨inRange_wrap m, (wrap_modEq m).trans h⟩

/-! ## Digits -/

/-- The digits of a word are the last digits of the integer. -/
theorem getLsbD_bits (n : Int) {i : Nat} (h : i < 32) : (bits n).getLsbD i = n.testBit i := by
  cases n with
  | ofNat k =>
    rw [bits, Int.ofNat_eq_natCast, BitVec.ofInt_natCast, BitVec.getLsbD_ofNat, decide_eq_true h, Bool.true_and]
    rfl
  | negSucc k =>
    rw [bits, BitVec.ofInt_negSucc_eq_not_ofNat, BitVec.getLsbD_not, BitVec.getLsbD_ofNat, decide_eq_true h,
      Bool.true_and, Bool.true_and]
    rfl

theorem bits_land (m n : Int) : bits (m.land n) = bits m &&& bits n := by
  refine BitVec.eq_of_getLsbD_eq fun i hi => ?_
  rw [BitVec.getLsbD_and, getLsbD_bits _ hi, getLsbD_bits _ hi, getLsbD_bits _ hi, Int.testBit_land]

theorem bits_lor (m n : Int) : bits (m.lor n) = bits m ||| bits n := by
  refine BitVec.eq_of_getLsbD_eq fun i hi => ?_
  rw [BitVec.getLsbD_or, getLsbD_bits _ hi, getLsbD_bits _ hi, getLsbD_bits _ hi, Int.testBit_lor]

theorem bits_xor (m n : Int) : bits (m.xor n) = bits m ^^^ bits n := by
  refine BitVec.eq_of_getLsbD_eq fun i hi => ?_
  rw [BitVec.getLsbD_xor, getLsbD_bits _ hi, getLsbD_bits _ hi, getLsbD_bits _ hi, Int.testBit_lxor]

/-! ## Shifts -/

theorem shiftLeft_eq_wrap (m n : Int) : shiftLeft m n = wrap (m * 2 ^ shiftAmount n) := by
  rw [shiftLeft, BitVec.toInt_shiftLeft, Nat.shiftLeft_eq, bits, BitVec.toNat_ofInt]
  refine wrap_congr ?_
  push_cast
  refine Int.ModEq.mul_right _ ?_
  rw [Int.toNat_of_nonneg (Int.emod_nonneg m (by decide))]
  exact Int.mod_modEq m _

theorem shiftRight_eq_wrap (h : inRange m = true) (n : Int) : shiftRight m n = wrap (m / 2 ^ shiftAmount n) := by
  have floor : shiftRight m n = m / 2 ^ shiftAmount n := by
    rw [shiftRight, BitVec.toInt_sshiftRight, toInt_bits h, Int.shiftRight_eq_div_pow]
    norm_cast
  rw [← floor, wrap_eq_self]
  exact inRange_toInt _

/-! ## Powers -/

/-- Repeated squaring multiplies with a power, whatever is dropped on the way. -/
theorem powFrom_modEq (result base : Int) (n : Nat) :
    powFrom result base n ≡ result * base ^ n [ZMOD 4294967296] := by
  induction result, base, n using powFrom.induct with
  | case1 result base =>
    rw [powFrom, dif_pos rfl, pow_zero, mul_one]
  | case2 result base n positive ih =>
    rw [powFrom, dif_neg positive]
    -- One round squares the base and halves the exponent; an odd exponent leaves one factor over.
    have squares : wrap (base * base) ^ (n / 2) ≡ base ^ (2 * (n / 2)) [ZMOD 4294967296] := by
      rw [pow_mul, pow_two]
      exact (wrap_modEq _).pow _
    have halves : 2 * (n / 2) + n % 2 = n := Nat.div_add_mod n 2
    refine ih.trans ?_
    split
    · rename_i odd
      refine ((wrap_modEq _).mul squares).trans ?_
      rw [mul_assoc, ← pow_succ', ← odd, halves]
    · rename_i even
      rw [show 2 * (n / 2) = n by omega] at squares
      exact squares.mul_left result

theorem pow_eq_wrap (base : Int) (n : Nat) : pow base n = wrap (base ^ n) :=
  wrap_congr (by simpa only [one_mul] using powFrom_modEq 1 base n)

/-- The products that `powFrom` forms. -/
inductive Forms : (result base : Int) → (n : Nat) → Int → Prop where
  | product {result base : Int} {n : Nat} : n % 2 = 1 → Forms result base n (result * base)
  | square {result base : Int} {n : Nat} : n ≠ 0 → Forms result base n (base * base)
  | later {result base k : Int} {n : Nat} : n ≠ 0 →
    Forms (if n % 2 = 1 then wrap (result * base) else result) (wrap (base * base)) (n / 2) k → Forms result base n k

theorem natAbs_le (h : inRange n = true) : n.natAbs ≤ 2147483648 := by
  rw [inRange_iff] at h
  omega

theorem longWord_of_natAbs_le (h : n.natAbs ≤ 2147483648 * 2147483648) : LongWord.inRange n = true := by
  rw [LongWord.inRange_iff, LongWord.least, LongWord.greatest]
  omega

theorem inRange_mul (hm : inRange m = true) (hn : inRange n = true) : LongWord.inRange (m * n) = true := by
  refine longWord_of_natAbs_le ?_
  rw [Int.natAbs_mul]
  exact Nat.mul_le_mul (natAbs_le hm) (natAbs_le hn)

/-- Repeated squaring of a word stays within 64 bits. -/
theorem Forms.inRange {result base k : Int} {n : Nat} (h : Forms result base n k) (hr : inRange result = true)
    (hb : Word.inRange base = true) : LongWord.inRange k = true := by
  induction h with
  | product _ => exact inRange_mul hr hb
  | square _ => exact inRange_mul hb hb
  | later _ _ ih =>
    refine ih ?_ (inRange_wrap _)
    split
    · exact inRange_wrap _
    · exact hr

end SignalLang.Word
