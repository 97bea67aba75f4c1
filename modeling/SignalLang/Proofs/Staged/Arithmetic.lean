import SignalLang.Proofs.Words
import SignalLang.Staged.Fold

/-!
# Folding integers is exact

`BinaryOp.number?` is the integer that arithmetic gives for an operator, and `BinaryOp.order?` the comparison that an
operator makes. What is computed in advance on two words is the word of the one (`foldInt_number`) or is the other
(`foldInt_order`). It fails only for a quotient or a remainder by zero and for a negative exponent.

`BinaryOp.Forms` lists what is added, multiplied and divided on the way. All of it fits 64 bits. `foldInt_exact` puts the
statements together.
-/

namespace SignalLang

namespace BinaryOp

/-- The integer an operator gives. There is none for a divisor of zero and for a negative exponent. A shift is by the
amount modulo 32, and to the right it rounds down. -/
def number? (op : BinaryOp) (a b : Int) : Option Int :=
  match op with
  | .add => some (a + b)
  | .subtract => some (a - b)
  | .multiply => some (a * b)
  | .divide => if b = 0 then none else some (a.tdiv b)
  | .modulo => if b = 0 then none else some (a.tmod b)
  | .power => if b < 0 then none else some (a ^ b.toNat)
  | .band => some (a.land b)
  | .bor => some (a.lor b)
  | .bxor => some (a.xor b)
  | .leftShift => some (a * 2 ^ (b % 32).toNat)
  | .rightShift => some (a / 2 ^ (b % 32).toNat)
  | _ => none

/-- The comparison of two integers that an operator makes. -/
def order? (op : BinaryOp) (a b : Int) : Option Bool :=
  match op with
  | .equal => some (a = b)
  | .notEqual => some (a ≠ b)
  | .lessThan => some (a < b)
  | .greaterThan => some (b < a)
  | .lessOrEqual => some (a ≤ b)
  | .greaterOrEqual => some (b ≤ a)
  | _ => none

/-- The sums, products, quotients and remainders that are formed on the way to the result of an operator. -/
def Forms (op : BinaryOp) (a b k : Int) : Prop :=
  match op with
  | .add => k = a + b
  | .subtract => k = a - b
  | .multiply => k = a * b
  | .divide => b ≠ 0 ∧ k = a.tdiv b
  | .modulo => b ≠ 0 ∧ k = a.tmod b
  | .power => 0 ≤ b ∧ Word.Forms 1 a b.toNat k
  | _ => False

variable {op : BinaryOp} {a b k : Int}

/-- Nothing that is formed overflows. -/
theorem Forms.inRange (h : op.Forms a b k) (ha : Word.inRange a = true) (hb : Word.inRange b = true) :
    LongWord.inRange k = true := by
  have large := Word.natAbs_le ha
  have other := Word.natAbs_le hb
  cases op with
  | add | subtract =>
    cases h
    exact Word.longWord_of_natAbs_le (by omega)
  | multiply =>
    cases h
    exact Word.inRange_mul ha hb
  | divide =>
    obtain ⟨-, rfl⟩ := h
    have smaller := Int.natAbs_tdiv_le_natAbs a b
    exact Word.longWord_of_natAbs_le (by omega)
  | modulo =>
    obtain ⟨-, rfl⟩ := h
    have smaller : (a.tmod b).natAbs ≤ a.natAbs := Int.natAbs_tmod a b ▸ Nat.mod_le _ _
    exact Word.longWord_of_natAbs_le (by omega)
  | power => exact h.2.inRange (by decide) ha
  | _ => exact h.elim

end BinaryOp

namespace Staged.Datum

variable {op : BinaryOp} {a b : Int}

/-- An operator on words gives the word of what arithmetic gives. -/
theorem foldInt_number {n : Int} (ha : Word.inRange a = true) (h : op.number? a b = some n) :
    foldInt op a b = .ok (.int (Word.wrap n)) := by
  cases op with
  | divide | modulo =>
    rw [BinaryOp.number?] at h
    split at h
    · cases h
    · rename_i divides
      cases h
      rw [foldInt, if_neg divides]
  | power =>
    rw [BinaryOp.number?] at h
    split at h
    · cases h
    · rename_i positive
      cases h
      rw [foldInt, if_neg positive, Word.pow_eq_wrap]
  | band =>
    cases h
    rw [foldInt, Word.bitwise, ← Word.bits_land, Word.toInt_bits_eq_wrap]
  | bor =>
    cases h
    rw [foldInt, Word.bitwise, ← Word.bits_lor, Word.toInt_bits_eq_wrap]
  | bxor =>
    cases h
    rw [foldInt, Word.bitwise, ← Word.bits_xor, Word.toInt_bits_eq_wrap]
  | leftShift =>
    cases h
    rw [foldInt, Word.shiftLeft_eq_wrap]
    rfl
  | rightShift =>
    cases h
    rw [foldInt, Word.shiftRight_eq_wrap ha]
    rfl
  | add | subtract | multiply =>
    cases h
    rfl
  | _ => cases h

/-- A comparison gives the order of the integers. -/
theorem foldInt_order {x : Bool} (h : op.order? a b = some x) : foldInt op a b = .ok (.bool x) := by
  cases op <;> cases h <;> rfl

theorem foldInt_divisionByZero_iff :
    foldInt op a b = .error .divisionByZero ↔ (op = .divide ∨ op = .modulo) ∧ b = 0 := by
  cases op with
  | power =>
    rw [foldInt]
    split <;> simp
  | _ => simp [foldInt]

theorem foldInt_negativeExponent_iff {n : Int} :
    foldInt op a b = .error (.negativeExponent n) ↔ op = .power ∧ b < 0 ∧ n = b := by
  cases op with
  | power =>
    rw [foldInt]
    split
    · rename_i negative
      simp [negative, eq_comm]
    · rename_i positive
      simp [positive]
  | divide | modulo =>
    rw [foldInt]
    split <;> simp
  | _ => simp [foldInt]

/-- Folding on words is exact: a number is the word congruent to what arithmetic gives, a comparison is the order of the
integers, and nothing but a quotient or remainder by zero and a negative exponent fails. Nothing overflows on the way. -/
theorem foldInt_exact (ha : Word.inRange a = true) (hb : Word.inRange b = true) :
    (∀ n, op.number? a b = some n →
      ∃ m, foldInt op a b = .ok (.int m) ∧ Word.inRange m = true ∧ m ≡ n [ZMOD 4294967296]) ∧
    (∀ x, op.order? a b = some x → foldInt op a b = .ok (.bool x)) ∧
    (foldInt op a b = .error .divisionByZero ↔ (op = .divide ∨ op = .modulo) ∧ b = 0) ∧
    (∀ n, foldInt op a b = .error (.negativeExponent n) ↔ op = .power ∧ b < 0 ∧ n = b) ∧
    ∀ k, op.Forms a b k → LongWord.inRange k = true := by
  refine ⟨fun n h => ⟨Word.wrap n, foldInt_number ha h, Word.inRange_wrap n, Word.wrap_modEq n⟩,
    fun x h => foldInt_order h, foldInt_divisionByZero_iff, fun n => foldInt_negativeExponent_iff, fun k h => ?_⟩
  exact h.inRange ha hb

/-- The twentieth power of three is past the words, and the word congruent to it is negative. -/
theorem foldInt_exact_power :
    Word.inRange 3 = true ∧ Word.inRange 20 = true ∧
      ∃ m, foldInt .power 3 20 = .ok (.int m) ∧ Word.inRange m = true ∧ m ≡ 3486784401 [ZMOD 4294967296] :=
  ⟨rfl, rfl, (foldInt_exact (by decide) (by decide)).1 3486784401 (by decide)⟩

end Staged.Datum

end SignalLang
