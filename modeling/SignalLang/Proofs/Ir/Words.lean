import SignalLang.Flat.Lower
import SignalLang.Proofs.Ir.Execution
import SignalLang.Proofs.Words
import SignalLang.Staged.Fold

/-!
# Words at run time

What the target says about operations on words. Sums, differences and products wrap around. A quotient or a
remainder by zero is undefined, and so is that of the least word by minus one; a shift by as many digits as there
are, or more, has a poisoned result.

`Computes` says what the code of a step of generation computes, if that has a value. The main statement,
`computes_fold`, is that operators on known words agree with their code wherever the code has a value, and
that it has none exactly for the shifts and the quotients of `Unsettled`, which do have a value in advance.
-/

namespace SignalLang.Ir

open Flat (Scalar)
open Staged (Datum)
open Steps
open Word (toInt_bits inRange_toInt toNat_bits toNat_bits_lt bits_eq_bits bits_overflow)

variable {ctx : Context} {b : Builder} {r : Registers} {v w : Value} {m n : Int}

/-! ## The operations of the target -/

/-- What an operator computes on words, where that is defined. -/
def ArithOp.word? (op : ArithOp) (x y : BitVec 32) : Option (BitVec 32) :=
  match op with
  | .add => some (x + y)
  | .sub => some (x - y)
  | .mul => some (x * y)
  | .sdiv => if y = 0 ∨ x = BitVec.intMin 32 ∧ y = -1 then none else some (x.sdiv y)
  | .srem => if y = 0 ∨ x = BitVec.intMin 32 ∧ y = -1 then none else some (x.srem y)
  | .and => some (x &&& y)
  | .or => some (x ||| y)
  | .xor => some (x ^^^ y)
  | .shl => if y.toNat < 32 then some (x <<< y) else none
  | .ashr => if y.toNat < 32 then some (x.sshiftRight' y) else none
  | .fadd | .fsub | .fmul | .fdiv | .frem => none

/-- Whether two words compare, as signed numbers. -/
def compareWords (c : Flat.Condition) (x y : BitVec 32) : Bool :=
  match c with
  | .lt => x.slt y
  | .gt => y.slt x
  | .le => x.sle y
  | .ge => y.sle x
  | .eq => decide (x = y)
  | .ne => decide (x ≠ y)

/-- A value as a word. -/
def Value.word? (r : Registers) (v : Value) : Option (BitVec 32) :=
  match v.scalar? r with
  | some (.int n) => some (Word.bits n)
  | _ => none

/-- What an operation on words gives, where that is defined. -/
def Op.word? (r : Registers) : Op → Option Scalar
  | .arith op a b => do return .int (← op.word? (← a.word? r) (← b.word? r)).toInt
  | .icmp c a b => do return .bool (compareWords c (← a.word? r) (← b.word? r))
  | .select condition a b => do if (← condition.scalar? r).isTrue then a.scalar? r else b.scalar? r
  | _ => none

/-- The registers behind straight-line code on words, where each result is defined. -/
def behind? (r : Registers) : List Instr → Option Registers
  | [] => some r
  | .define n op :: code => do behind? (r.set n (.scalar (← op.word? r))) code
  | .store .. :: _ => none

/-- A step appends code, and the value it gives is what that code computes. -/
def Computes (step : Generate Value) (ctx : Context) (b : Builder) (r : Registers) (result : Option Scalar) : Prop :=
  ∃ v b' code, step ctx b = .ok (v, b') ∧ b'.body.toList = b.body.toList ++ code ∧
    (behind? r code).bind v.scalar? = result

/-- Code computes one thing at most. -/
theorem Computes.unique {step : Generate Value} {x y : Option Scalar} (hx : Computes step ctx b r x)
    (hy : Computes step ctx b r y) : x = y := by
  obtain ⟨v, b', code, run, body, result⟩ := hx
  obtain ⟨v', b'', code', run', body', result'⟩ := hy
  obtain ⟨rfl, rfl⟩ : v = v' ∧ b' = b'' := by simpa using run.symm.trans run'
  obtain rfl : code = code' := List.append_cancel_left (body.symm.trans body')
  exact result.symm.trans result'

/-! ## Code on words -/

/-- A value is a word, and uses no register from a number on. -/
structure Value.IsWord (v : Value) (limit : Nat) (r : Registers) (n : Int) : Prop extends
    v.Holds limit r (.scalar (.int n)) where
  ty : v.ty = .i32
  inRange : Word.inRange n = true

theorem Value.word?_of_scalar? (h : v.scalar? r = some (.int n)) : v.word? r = some (Word.bits n) := by
  rw [Value.word?, h]

theorem Value.isWord_int {limit : Nat} (h : Word.inRange n = true) : (Value.int n).IsWord limit r n :=
  ⟨Value.holds_int h, rfl, h⟩

theorem body_open (b : Builder) : b.open.body = b.body := by
  unfold Builder.open
  split <;> rfl

theorem Builder.le_next_open (b : Builder) : b.next ≤ b.open.next := by
  unfold Builder.open
  split
  · exact Nat.le_succ _
  · exact Nat.le_refl _

/-- What a single operation computes. -/
theorem computes_define (op : Op) : Computes (Generate.define op) ctx b r (op.word? r) := by
  refine ⟨_, _, [.define b.open.next op], define_eq op, by simp [Builder.emit, body_open], ?_⟩
  cases hx : op.word? r with
  | none => simp [behind?, hx]
  | some x => simp [behind?, hx, Value.scalar?, Value.eval?]

theorem compareInts_eq (hv : v.ty = .i32) (c : Flat.Condition) (w : Value) :
    Generate.compareInts c v w ctx b = Generate.define (.icmp c v w) ctx b := by
  unfold Generate.compareInts
  rw [hv]

theorem computes_compareInts (hv : v.ty = .i32) (c : Flat.Condition) :
    Computes (Generate.compareInts c v w) ctx b r ((Op.icmp c v w).word? r) := by
  obtain ⟨v', b', code, step, body, result⟩ := @computes_define ctx b r (.icmp c v w)
  exact ⟨v', b', code, (compareInts_eq hv c w).trans step, body, result⟩

/-! ## Known words -/

/-- The scalar of a datum. -/
def scalarOf? : Datum → Option Scalar
  | .bool c => some (.bool c)
  | .int n => some (.int n)
  | .float x => some (.float x)
  | _ => none

/-- What has a value in advance and none at run time: quotients that leave the range, and shifts by an amount that
is no position of a digit. -/
def unsettled (op : BinaryOp) (m n : Int) : Bool :=
  match op with
  | .divide | .modulo => m = -2147483648 && n = -1
  | .leftShift | .rightShift => !(0 ≤ n && n < 32)
  | _ => false

section Numbers

variable (hm : Word.inRange m = true) (hn : Word.inRange n = true)
include hm hn

theorem word?_add : (ArithOp.add.word? (Word.bits m) (Word.bits n)).map BitVec.toInt = some (Word.wrap (m + n)) := by
  simp only [ArithOp.word?, Option.map_some, BitVec.toInt_add, toInt_bits hm, toInt_bits hn]
  rfl

theorem word?_sub : (ArithOp.sub.word? (Word.bits m) (Word.bits n)).map BitVec.toInt = some (Word.wrap (m - n)) := by
  simp only [ArithOp.word?, Option.map_some, BitVec.toInt_sub, toInt_bits hm, toInt_bits hn]
  rfl

theorem word?_mul : (ArithOp.mul.word? (Word.bits m) (Word.bits n)).map BitVec.toInt = some (Word.wrap (m * n)) := by
  simp only [ArithOp.word?, Option.map_some, BitVec.toInt_mul, toInt_bits hm, toInt_bits hn]
  rfl

theorem word?_sdiv (zero : n ≠ 0) : (ArithOp.sdiv.word? (Word.bits m) (Word.bits n)).map BitVec.toInt
    = if unsettled .divide m n then none else some (Word.wrap (m.tdiv n)) := by
  simp only [ArithOp.word?, bits_overflow hm hn, zero, false_or, unsettled, Bool.and_eq_true, decide_eq_true_eq]
  split
  · rfl
  · rw [Option.map_some, BitVec.toInt_sdiv, toInt_bits hm, toInt_bits hn]
    rfl

theorem word?_srem (zero : n ≠ 0) : (ArithOp.srem.word? (Word.bits m) (Word.bits n)).map BitVec.toInt
    = if unsettled .modulo m n then none else some (Word.wrap (m.tmod n)) := by
  have remainder : ((Word.bits m).srem (Word.bits n)).toInt = m.tmod n := by
    rw [BitVec.toInt_srem, toInt_bits hm, toInt_bits hn]
  simp only [ArithOp.word?, bits_overflow hm hn, zero, false_or, unsettled, Bool.and_eq_true, decide_eq_true_eq]
  split
  · rfl
  · rw [Option.map_some, remainder, Word.wrap_eq_self (remainder ▸ inRange_toInt _)]

omit hm in
theorem word?_shl : (ArithOp.shl.word? (Word.bits m) (Word.bits n)).map BitVec.toInt
    = if unsettled .leftShift m n then none else some (Word.shiftLeft m n) := by
  by_cases there : 0 ≤ n ∧ n < 32
  · have settled : unsettled .leftShift m n = false := by simp [unsettled, there]
    rw [settled, ArithOp.word?, if_pos ((toNat_bits_lt hn).2 there), BitVec.shiftLeft_eq', toNat_bits there]
    rfl
  · have beyond : unsettled .leftShift m n = true := by
      simp only [unsettled, Bool.not_eq_true', Bool.and_eq_false_iff, decide_eq_false_iff_not]
      omega
    rw [beyond, ArithOp.word?, if_neg (mt (toNat_bits_lt hn).1 there)]
    rfl

omit hm in
theorem word?_ashr : (ArithOp.ashr.word? (Word.bits m) (Word.bits n)).map BitVec.toInt
    = if unsettled .rightShift m n then none else some (Word.shiftRight m n) := by
  by_cases there : 0 ≤ n ∧ n < 32
  · have settled : unsettled .rightShift m n = false := by simp [unsettled, there]
    rw [settled, ArithOp.word?, if_pos ((toNat_bits_lt hn).2 there), BitVec.sshiftRight', toNat_bits there]
    rfl
  · have beyond : unsettled .rightShift m n = true := by
      simp only [unsettled, Bool.not_eq_true', Bool.and_eq_false_iff, decide_eq_false_iff_not]
      omega
    rw [beyond, ArithOp.word?, if_neg (mt (toNat_bits_lt hn).1 there)]
    rfl

end Numbers

/-- What an operator gives on two words. -/
theorem word?_arith (hv : v.scalar? r = some (.int m)) (hw : w.scalar? r = some (.int n)) (op : ArithOp) :
    (Op.arith op v w).word? r = ((op.word? (Word.bits m) (Word.bits n)).map BitVec.toInt).map .int := by
  simp only [Op.word?, Value.word?_of_scalar? hv, Value.word?_of_scalar? hw, Option.bind_eq_bind, Option.bind_some]
  cases op.word? (Word.bits m) (Word.bits n) <;> rfl

/-- What a comparison gives on two words. -/
theorem word?_icmp (hv : v.scalar? r = some (.int m)) (hw : w.scalar? r = some (.int n)) (c : Flat.Condition) :
    (Op.icmp c v w).word? r = some (.bool (compareWords c (Word.bits m) (Word.bits n))) := by
  simp only [Op.word?, Value.word?_of_scalar? hv, Value.word?_of_scalar? hw, Option.bind_eq_bind, Option.bind_some,
    Option.pure_def]

theorem computes_arith (hv : v.IsWord b.next r m) (hw : w.IsWord b.next r n) (op : ArithOp) {c : Bool} {k : Int}
    (hk : (op.word? (Word.bits m) (Word.bits n)).map BitVec.toInt = if c then none else some k) :
    Computes (Generate.define (.arith op v w)) ctx b r (if c then none else some (.int k)) := by
  have result : (Op.arith op v w).word? r = if c then none else some (.int k) := by
    rw [word?_arith hv.scalar? hw.scalar?, hk]
    cases c <;> rfl
  exact result ▸ computes_define _

theorem computes_icmp (hv : v.IsWord b.next r m) (hw : w.IsWord b.next r n) {c : Flat.Condition} {x : Bool}
    (hx : compareWords c (Word.bits m) (Word.bits n) = x) :
    Computes (Generate.compareInts c v w) ctx b r (some (.bool x)) := by
  have result := word?_icmp hv.scalar? hw.scalar? c
  rw [hx] at result
  exact result ▸ computes_compareInts hv.ty c

theorem define_open {k : BlockName} (hk : b.current = some k) (op : Op) :
    Generate.define op ctx b = .ok (.register b.next op.ty, b.emit op) := by
  rw [define_eq, Builder.open_eq hk]

/-- A register that comes later leaves a value alone. -/
theorem Value.IsWord.set {k : Nat} (hv : v.IsWord b.next r n) (hk : b.next ≤ k) (x : Held) :
    v.IsWord b.next (r.set k x) n where
  eval := by
    rw [← hv.eval]
    exact hv.below.eval?_eq fun i hi => Registers.set_of_ne x (Nat.ne_of_lt (Nat.lt_of_lt_of_le hi hk))
  below := hv.below
  ty := hv.ty
  inRange := hv.inRange

/-- The code for an absolute value compares, negates and chooses. -/
theorem computes_abs (hv : v.IsWord b.next r n) :
    Computes (Generate.unary .absI v) ctx b r (some (.int (if n < 0 then Word.wrap (-n) else n))) := by
  obtain ⟨name, hname⟩ := b.exists_open
  have here := b.le_next_open
  let k := b.open.next
  let isNegative := Value.register k .i1
  let negated := Value.register (k + 1) .i32
  have step : Generate.unary .absI v ctx b = .ok (.register (k + 2) .i32,
      ((b.open.emit (.icmp .lt v (.int 0))).emit (.arith .sub (.int 0) v)).emit (.select isNegative negated v)) :=
    bind_ok.2 ⟨isNegative, _, (compareInts_eq hv.ty _ _).trans (define_eq _),
      bind_ok.2 ⟨negated, _, define_open (b := b.open.emit _) hname _,
        define_open (b := (b.open.emit _).emit _) hname _⟩⟩
  -- the three results, each with the registers of the ones before
  have first : (Op.icmp .lt v (.int 0)).word? r = some (.bool (decide (n < 0))) := by
    rw [word?_icmp hv.scalar? Value.scalar?_zero, compareWords, BitVec.slt_eq_decide, toInt_bits hv.inRange]
    rfl
  let r₁ := r.set k (.scalar (.bool (decide (n < 0))))
  have hv₁ : v.IsWord b.next r₁ n := hv.set here _
  have second : (Op.arith .sub (.int 0) v).word? r₁ = some (.int (Word.wrap (-n))) := by
    rw [word?_arith Value.scalar?_zero hv₁.scalar?, word?_sub (by decide) hv.inRange, Int.zero_sub]
    rfl
  let r₂ := r₁.set (k + 1) (.scalar (.int (Word.wrap (-n))))
  have hv₂ : v.IsWord b.next r₂ n := hv₁.set (Nat.le_succ_of_le here) _
  have chosen : isNegative.scalar? r₂ = some (.bool (decide (n < 0))) := by
    simp [isNegative, r₂, r₁, Value.scalar?, Value.eval?, Registers.set_of_ne]
  have minus : negated.scalar? r₂ = some (.int (Word.wrap (-n))) := by
    simp [negated, r₂, Value.scalar?, Value.eval?]
  have third : (Op.select isNegative negated v).word? r₂
      = some (.int (if n < 0 then Word.wrap (-n) else n)) := by
    simp only [Op.word?, chosen, minus, hv₂.scalar?, Option.bind_eq_bind, Option.bind_some, Scalar.isTrue,
      decide_eq_true_eq]
    split <;> rfl
  refine ⟨_, _, [.define k (.icmp .lt v (.int 0)), .define (k + 1) (.arith .sub (.int 0) v),
    .define (k + 2) (.select isNegative negated v)], step, by simp [Builder.emit, body_open, k], ?_⟩
  simp only [behind?, Option.bind_eq_bind, first, Option.bind_some]
  simp only [show r.set k (.scalar (.bool (decide (n < 0)))) = r₁ from rfl, second, Option.bind_some]
  simp only [show r₁.set (k + 1) (.scalar (.int (Word.wrap (-n)))) = r₂ from rfl, third, Option.bind_some]
  simp [Value.scalar?, Value.eval?]

theorem computes_unary (hv : v.IsWord b.next r n) {op : UnaryOp} {d : Datum} (word : op ≠ .itof)
    (hd : Datum.foldUnaryScalar op (.int n) = .ok d) :
    ∃ x, scalarOf? d = some x ∧ Computes (Generate.unary (Flat.UnaryOp.select op .int) v) ctx b r (some x) := by
  have hn := hv.inRange
  cases op with
  | itof => exact absurd rfl word
  | negate =>
    cases hd
    refine ⟨_, rfl, computes_arith (Value.isWord_int (by decide)) hv .sub (c := false) ?_⟩
    rw [word?_sub (by decide) hn, Int.zero_sub]
    rfl
  | bnot =>
    cases hd
    refine ⟨_, rfl, computes_arith hv (Value.isWord_int (by decide)) .xor (c := false) ?_⟩
    have ones : Word.bits (-1) = BitVec.allOnes 32 := by decide
    have minus : (~~~Word.bits n).toInt = Word.complement n := by
      rw [BitVec.not_eq_neg_add, BitVec.toInt_sub, BitVec.toInt_neg, toInt_bits hn]
      exact Int.bmod_sub_bmod
    rw [ArithOp.word?, ones, BitVec.xor_allOnes, Option.map_some, minus]
    rfl
  | abs => cases hd; exact ⟨_, rfl, computes_abs hv⟩
  | _ => cases hd

theorem computes_binary (hv : v.IsWord b.next r m) (hw : w.IsWord b.next r n) {op : BinaryOp} {d : Datum}
    (real : op ≠ .power) (hd : Datum.foldInt op m n = .ok d) :
    ∃ instr x, Flat.BinaryOp.select? op .int = some instr ∧ scalarOf? d = some x ∧
      Computes (Generate.binary instr v w) ctx b r (if unsettled op m n then none else some x) := by
  have hm := hv.inRange
  have hn := hw.inRange
  have same := bits_eq_bits hm hn
  cases op with
  | power => exact absurd rfl real
  | and | or | xor | isIn | asType => cases hd
  | add => cases hd; exact ⟨.addI, _, rfl, rfl, computes_arith hv hw .add (c := false) (word?_add hm hn)⟩
  | subtract => cases hd; exact ⟨.subI, _, rfl, rfl, computes_arith hv hw .sub (c := false) (word?_sub hm hn)⟩
  | multiply => cases hd; exact ⟨.mulI, _, rfl, rfl, computes_arith hv hw .mul (c := false) (word?_mul hm hn)⟩
  | band => cases hd; exact ⟨.band, _, rfl, rfl, computes_arith hv hw .and (c := false) rfl⟩
  | bor => cases hd; exact ⟨.bor, _, rfl, rfl, computes_arith hv hw .or (c := false) rfl⟩
  | bxor => cases hd; exact ⟨.bxor, _, rfl, rfl, computes_arith hv hw .xor (c := false) rfl⟩
  | leftShift => cases hd; exact ⟨.shl, _, rfl, rfl, computes_arith hv hw .shl (word?_shl hn)⟩
  | rightShift => cases hd; exact ⟨.shr, _, rfl, rfl, computes_arith hv hw .ashr (word?_ashr hn)⟩
  | divide =>
    rw [Datum.foldInt] at hd
    split at hd
    · cases hd
    · rename_i zero
      cases hd
      exact ⟨.divI, _, rfl, rfl, computes_arith hv hw .sdiv (word?_sdiv hm hn zero)⟩
  | modulo =>
    rw [Datum.foldInt] at hd
    split at hd
    · cases hd
    · rename_i zero
      cases hd
      exact ⟨.modI, _, rfl, rfl, computes_arith hv hw .srem (word?_srem hm hn zero)⟩
  | equal =>
    cases hd
    exact ⟨.compareI .eq, _, rfl, rfl, computes_icmp hv hw (decide_eq_decide.2 same)⟩
  | notEqual =>
    cases hd
    exact ⟨.compareI .ne, _, rfl, rfl, computes_icmp hv hw (decide_eq_decide.2 (not_congr same))⟩
  | lessThan =>
    cases hd
    refine ⟨.compareI .lt, _, rfl, rfl, computes_icmp hv hw ?_⟩
    rw [compareWords, BitVec.slt_eq_decide, toInt_bits hm, toInt_bits hn]
  | greaterThan =>
    cases hd
    refine ⟨.compareI .gt, _, rfl, rfl, computes_icmp hv hw ?_⟩
    rw [compareWords, BitVec.slt_eq_decide, toInt_bits hm, toInt_bits hn]
  | lessOrEqual =>
    cases hd
    refine ⟨.compareI .le, _, rfl, rfl, computes_icmp hv hw ?_⟩
    rw [compareWords, BitVec.sle_eq_decide, toInt_bits hm, toInt_bits hn]
  | greaterOrEqual =>
    cases hd
    refine ⟨.compareI .ge, _, rfl, rfl, computes_icmp hv hw ?_⟩
    rw [compareWords, BitVec.sle_eq_decide, toInt_bits hm, toInt_bits hn]

/-- Operators on known words, except for powers, agree with the code for them on values that are those words: the
code computes what was computed in advance, except where it is unsettled what the code does. -/
theorem computes_fold (hv : v.IsWord b.next r m) (hw : w.IsWord b.next r n) :
    (∀ op d, op ≠ .power → Datum.foldInt op m n = .ok d →
      ∃ instr x, Flat.BinaryOp.select? op .int = some instr ∧ scalarOf? d = some x ∧
        Computes (Generate.binary instr v w) ctx b r (if unsettled op m n then none else some x)) ∧
    ∀ op d, op ≠ .itof → Datum.foldUnaryScalar op (.int m) = .ok d →
      ∃ x, scalarOf? d = some x ∧
        Computes (Generate.unary (Flat.UnaryOp.select op .int) v) ctx b r (some x) :=
  ⟨fun _ _ real hd => computes_binary hv hw real hd, fun _ _ word hd => computes_unary hv word hd⟩

/-- The least word by two. -/
theorem computes_fold_quotient :
    (Value.int (-2147483648)).IsWord 0 (fun _ => none) (-2147483648) ∧ (Value.int 2).IsWord 0 (fun _ => none) 2 ∧
    Datum.foldInt .divide (-2147483648) 2 = .ok (.int (-1073741824)) ∧
    Computes (Generate.binary .divI (.int (-2147483648)) (.int 2)) ⟨{}, fun _ => [], .main⟩ {} (fun _ => none)
      (some (.int (-1073741824))) := by
  have hv : (Value.int (-2147483648)).IsWord 0 (fun _ => none) (-2147483648) := Value.isWord_int (by decide)
  have hw : (Value.int 2).IsWord 0 (fun _ => none) 2 := Value.isWord_int (by decide)
  have hd : Datum.foldInt .divide (-2147483648) 2 = .ok (.int (-1073741824)) := rfl
  obtain ⟨instr, x, hinstr, hx, computes⟩ :=
    (@computes_fold ⟨{}, fun _ => [], .main⟩ {} _ _ _ _ _ hv hw).1 .divide _ (by decide) hd
  cases hinstr
  cases hx
  exact ⟨hv, hw, hd, computes⟩

/-- A shift by the number of digits is known in advance, and so is the quotient of the least word by minus one, but
the code for them computes nothing. -/
theorem not_computes_unsettled :
    (Datum.foldInt .leftShift 1 32 = .ok (.int 1) ∧ Flat.BinaryOp.select? .leftShift .int = some .shl ∧
      ¬ Computes (Generate.binary .shl (.int 1) (.int 32)) ⟨{}, fun _ => [], .main⟩ {} (fun _ => none)
        (some (.int 1))) ∧
    Datum.foldInt .divide (-2147483648) (-1) = .ok (.int (-2147483648)) ∧
      Flat.BinaryOp.select? .divide .int = some .divI ∧
      ¬ Computes (Generate.binary .divI (.int (-2147483648)) (.int (-1))) ⟨{}, fun _ => [], .main⟩ {}
        (fun _ => none) (some (.int (-2147483648))) := by
  have shift : Computes (Generate.binary .shl (.int 1) (.int 32)) ⟨{}, fun _ => [], .main⟩ {} (fun _ => none) none :=
    computes_define (.arith .shl (.int 1) (.int 32))
  have quotient : Computes (Generate.binary .divI (.int (-2147483648)) (.int (-1))) ⟨{}, fun _ => [], .main⟩ {}
      (fun _ => none) none :=
    computes_define (.arith .sdiv (.int (-2147483648)) (.int (-1)))
  exact ⟨⟨rfl, rfl, fun computes => Option.some_ne_none _ (computes.unique shift)⟩, rfl, rfl,
    fun computes => Option.some_ne_none _ (computes.unique quotient)⟩

end SignalLang.Ir
