import SignalLang.Proofs.Steps
import SignalLang.Proofs.Words
import SignalLang.Staged.Fold
import SignalLang.Staged.State

/-!
# Properties of data that are read off the leaves

A property of data is leafwise when what is unknown has it, and an array has it just if all its items do. Such a
property is kept when data are taken apart, put together and stretched, and when a view follows what is written.

What an operator computes in advance is `Datum.Computed`: a word, a number or a truth value.
-/

namespace SignalLang.Staged

namespace Glimpse

theorem var_see (g : Glimpse) (w : Write) : (g.see w).var = g.var := by
  unfold see
  split
  · rfl
  · split
    · rfl
    · split
      · split <;> rfl
      · rfl

theorem var_foldl (g : Glimpse) (ws : List Write) : (ws.foldl see g).var = g.var := by
  induction ws generalizing g with
  | nil => rfl
  | cons w ws ih => exact (ih _).trans (var_see g w)

theorem var_refresh (g : Glimpse) (log : Array Write) : (g.refresh log).var = g.var := by
  unfold refresh
  split
  · rfl
  · rw [← Array.foldl_toList]
    exact var_foldl g _

end Glimpse

namespace Datum

/-! ## Leafwise properties -/

/-- A property that an array has just if all its items have it. -/
structure Leafwise (P : Datum → Prop) : Prop where
  unknown : P .unknown
  array : ∀ ds, P (.array ds) ↔ ∀ d ∈ ds, P d

theorem leafwise_true : Leafwise fun _ => True := ⟨trivial, fun _ => by simp⟩

namespace Leafwise

variable {P Q : Datum → Prop} {d e v : Datum}

section

variable (h : Leafwise P)

include h

theorem unknownOf (dims : List Int) : P (Datum.unknownOf dims) := by
  induction dims with
  | nil => exact h.unknown
  | cons n dims ih =>
    rw [Datum.unknownOf, h.array]
    intro d hd
    rw [List.eq_of_mem_replicate hd]
    exact ih

theorem element? (hd : P d) {i : Int} (he : d.element? i = some e) : P e := by
  cases d with
  | array items =>
    rw [Datum.element?] at he
    split at he
    · cases he
    · exact (h.array items).1 hd e (List.mem_of_getElem? he)
  | _ => cases he

theorem item? {coord : List Int} (hd : P d) (he : d.item? coord = some e) : P e := by
  induction coord generalizing d with
  | nil =>
    cases he
    exact hd
  | cons c cs ih =>
    obtain ⟨part, hpart, he⟩ := Option.bind_eq_some_iff.1 he
    exact ih (h.element? hd hpart) he

theorem set? {coord : List Int} (hd : P d) (hv : P v) (he : d.set? coord v = some e) : P e := by
  induction coord generalizing d e with
  | nil => cases d <;> (cases he; exact hv)
  | cons c cs ih =>
    cases d with
    | array items =>
      rw [Datum.set?] at he
      split at he
      · cases he
      · obtain ⟨old, hold, he⟩ := Option.bind_eq_some_iff.1 he
        obtain ⟨new, hnew, he⟩ := Option.bind_eq_some_iff.1 he
        cases he
        have items := (h.array items).1 hd
        have part : P new := ih (items old (List.mem_of_getElem? hold)) hnew
        refine (h.array _).2 fun d hd => ?_
        rcases List.mem_or_eq_of_mem_set hd with hd | rfl
        · exact items d hd
        · exact part
    | _ => cases he

/-- Items that are made one by one. -/
theorem of_mapM {α : Type} {f : α → Option Datum} {xs : List α} {ds : List Datum} (made : xs.mapM f = some ds)
    (hf : ∀ x ∈ xs, ∀ d, f x = some d → P d) : P (.array ds) := by
  rw [h.array]
  induction xs generalizing ds with
  | nil =>
    cases made
    simp
  | cons x xs ih =>
    rw [List.mapM_cons] at made
    obtain ⟨d, hd, made⟩ := Option.bind_eq_some_iff.1 made
    obtain ⟨rest, hrest, made⟩ := Option.bind_eq_some_iff.1 made
    cases made
    intro e he
    rcases List.mem_cons.1 he with rfl | he
    · exact hf x List.mem_cons_self _ hd
    · exact ih hrest (fun y hy => hf y (List.mem_cons_of_mem _ hy)) e he

theorem stretch? {dims shape : List Int} (hd : P d) (he : Datum.stretch? dims shape d = some e) : P e := by
  induction dims generalizing shape d e with
  | nil =>
    rw [Datum.stretch?] at he
    cases he
    exact hd
  | cons n dims ih =>
    cases shape with
    | nil =>
      obtain ⟨inner, hinner, he⟩ := Option.bind_eq_some_iff.1 he
      cases he
      refine (h.array _).2 fun x hx => ?_
      rw [List.eq_of_mem_replicate hx]
      exact ih hd hinner
    | cons m shape =>
      obtain ⟨items, hitems, he⟩ := Option.bind_eq_some_iff.1 he
      cases he
      refine h.of_mapM hitems fun i _ x hx => ?_
      obtain ⟨part, hpart, hx⟩ := Option.bind_eq_some_iff.1 hx
      exact ih (h.element? hd hpart) hx

/-! ## Computing with data -/

theorem foldElements {op : BinaryOp} (scalar : ∀ {l r d}, foldScalar op l r = .ok d → P d) {dims : List Int}
    {l r : Datum} (folded : Datum.foldElements op dims l r = .ok d) : P d := by
  induction dims generalizing l r d with
  | nil => exact scalar folded
  | cons n dims ih =>
    obtain ⟨items, hitems, folded⟩ := Steps.except_bind_ok.1 folded
    cases folded
    refine (h.array _).2 fun e he => ?_
    obtain ⟨i, -, hi⟩ := Steps.mem_of_mapM_ok hitems he
    split at hi
    · exact ih hi
    · cases hi

theorem foldBinary {op : BinaryOp} (scalar : ∀ {l r d}, foldScalar op l r = .ok d → P d) {l r : Datum}
    {leftDims rightDims dims : List Int} (folded : Datum.foldBinary op l r leftDims rightDims dims = .ok d) : P d := by
  unfold Datum.foldBinary at folded
  split at folded
  · exact h.foldElements scalar folded
  · cases folded

/-! ## Views -/

theorem see {g : Glimpse} {w : Write} (hg : P g.seen) (hw : w.var = g.var → P w.value) : P (g.see w).seen := by
  unfold Glimpse.see
  split
  · exact hg
  · rename_i follows
    split
    · exact hg
    · split
      · split
        · refine h.set? hg (hw ?_) ‹_›
          by_contra other
          exact follows (by simp [other])
        · exact hg
      · exact hg

/-- A view shows what was seen and what was written since. -/
theorem refresh {g : Glimpse} {log : Array Write} (hg : P g.seen) (hlog : ∀ w ∈ log, w.var = g.var → P w.value) :
    P (g.refresh log).seen := by
  have follow (ws : List Write) : ∀ g : Glimpse, P g.seen → (∀ w ∈ ws, w.var = g.var → P w.value) →
      P (ws.foldl Glimpse.see g).seen := by
    induction ws with
    | nil => exact fun g hg _ => hg
    | cons w ws ih =>
      intro g hg hws
      refine ih _ (h.see hg (hws w List.mem_cons_self)) fun x hx same => hws x (List.mem_cons_of_mem _ hx) ?_
      exact same.trans (Glimpse.var_see g w)
  unfold Glimpse.refresh
  split
  · exact hg
  · rw [← Array.foldl_toList]
    refine follow _ g hg fun w hw => hlog w ?_
    obtain ⟨n, hn, rfl⟩ := Array.mem_extract_iff_getElem.1 (Array.mem_toList_iff.1 hw)
    exact Array.getElem_mem _

end

/-! ## Operators on each item -/

mutual

theorem foldUnary (hP : Leafwise P) (hQ : Leafwise Q) {op : UnaryOp}
    (scalar : ∀ {a d}, Q a → foldUnaryScalar op a = .ok d → P d) :
    {a d : Datum} → Q a → Datum.foldUnary op a = .ok d → P d
  | .array items, d, ha, folded => by
    rw [Datum.foldUnary] at folded
    obtain ⟨ds, hds, folded⟩ := Steps.except_bind_ok.1 folded
    cases folded
    exact (hP.array ds).2 (foldUnaries hP hQ scalar ((hQ.array items).1 ha) hds)
  | .unknown, d, ha, folded | .void, d, ha, folded | .bool _, d, ha, folded | .int _, d, ha, folded
  | .float _, d, ha, folded | .type _, d, ha, folded | .macroRef _ _, d, ha, folded => scalar ha folded

theorem foldUnaries (hP : Leafwise P) (hQ : Leafwise Q) {op : UnaryOp}
    (scalar : ∀ {a d}, Q a → foldUnaryScalar op a = .ok d → P d) :
    {as ds : List Datum} → (∀ a ∈ as, Q a) → Datum.foldUnaries op as = .ok ds → ∀ d ∈ ds, P d
  | [], ds, _, folded => by
    cases folded
    simp
  | a :: as, ds, has, folded => by
    rw [Datum.foldUnaries] at folded
    obtain ⟨d, hd, folded⟩ := Steps.except_bind_ok.1 folded
    obtain ⟨rest, hrest, folded⟩ := Steps.except_bind_ok.1 folded
    cases folded
    intro e he
    rcases List.mem_cons.1 he with rfl | he
    · exact foldUnary hP hQ scalar (has a List.mem_cons_self) hd
    · exact foldUnaries hP hQ scalar (fun x hx => has x (List.mem_cons_of_mem _ hx)) hrest e he

end

end Leafwise

/-! ## What is computed -/

/-- What an operator computes: a word, a number or a truth value. -/
inductive Computed : Datum → Prop where
  | int {n : Int} : Word.inRange n = true → Computed (.int n)
  | float (x : Float) : Computed (.float x)
  | bool (b : Bool) : Computed (.bool b)

variable {l r a d : Datum}

theorem computed_of_foldInt {op : BinaryOp} {m n : Int} (h : foldInt op m n = .ok d) : d.Computed := by
  cases op <;> simp only [foldInt, Except.ok.injEq, reduceCtorEq] at h
  case divide | modulo | power =>
    split at h
    · cases h
    · cases h
      exact .int (Word.inRange_wrap _)
  case add | subtract | multiply =>
    subst h
    exact .int (Word.inRange_wrap _)
  case band | bor | bxor | leftShift | rightShift =>
    subst h
    exact .int (Word.inRange_toInt _)
  all_goals
    subst h
    exact .bool _

theorem computed_of_foldFloat {op : BinaryOp} {x y : Float} (h : foldFloat op x y = .ok d) : d.Computed := by
  cases op <;> simp only [foldFloat, Except.ok.injEq, reduceCtorEq] at h
  case add | subtract | multiply | divide | modulo | power =>
    subst h
    exact .float _
  all_goals
    subst h
    exact .bool _

theorem computed_of_foldBool {op : BinaryOp} {x y : Bool} (h : foldBool op x y = .ok d) : d.Computed := by
  cases op <;> simp only [foldBool, Except.ok.injEq, reduceCtorEq] at h
  all_goals
    subst h
    exact .bool _

theorem computed_of_foldScalar {op : BinaryOp} (h : foldScalar op l r = .ok d) : d.Computed := by
  unfold foldScalar at h
  split at h
  · exact computed_of_foldInt h
  · exact computed_of_foldFloat h
  · exact computed_of_foldBool h
  · cases h
    exact .bool _
  all_goals cases h

/-- The absolute value of a positive integer is the integer itself; everything else is computed. -/
theorem computed_of_foldUnaryScalar {op : UnaryOp} (h : foldUnaryScalar op a = .ok d) :
    d.Computed ∨ ∃ n, a = .int n ∧ d = .int n := by
  unfold foldUnaryScalar at h
  split at h
  all_goals cases h
  · exact .inl (.bool _)
  · exact .inl (.int (Word.inRange_wrap _))
  · exact .inl (.int (Word.inRange_wrap _))
  · exact .inl (.float _)
  · split
    · exact .inl (.int (Word.inRange_wrap _))
    · exact .inr ⟨_, rfl, rfl⟩
  · exact .inl (.float _)
  · exact .inl (.int (Word.inRange_wrap _))
  · exact .inl (.float _)
  · exact .inl (.float _)

end Datum

end SignalLang.Staged
