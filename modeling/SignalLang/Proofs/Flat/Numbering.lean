import Mathlib.Data.List.Nodup
import SignalLang.Proofs.Flat.Lowered
import SignalLang.Proofs.Flat.Nesting
import SignalLang.Proofs.Flat.Segments

/-!
# Labels and abort codes

Flattening draws labels and abort codes from counters, before, between and after the steps that draw more. While a
stream is made, its labels are those that are placed and those that are still owed, each once
(`LowerState.Numbered`); a step is described by what is owed before and after it and by the entries it adds to the error
table (`LowerState.Draws`). Statements and scopes owe nothing behind them that was not owed before, and add one
entry for each assertion in them, in the order in which they stand (`Staged.Program.assertions`).
-/

namespace SignalLang

open Staged (SlotId ScopeId)

/-! ## Assertions of a staged program -/

namespace Staged

/-- Where the assertions of a statement stand, from those of the scopes inside it. -/
def Stmt.assertions (inner : ScopeId → List Span) : Stmt → List Span
  | .assert _ span => [span]
  | st => st.scopes.flatMap inner

/-- Where the assertions of a scope and of the scopes inside it stand, in the order in which they are flattened; those
of a scope that is entered twice stand there twice. `fuel` bounds the nesting. -/
def Program.assertionsIn (p : Program) : (fuel : Nat) → ScopeId → List Span
  | 0, _ => []
  | fuel + 1, i => (p.scope i).toList.flatMap (Stmt.assertions (p.assertionsIn fuel))

/-- The assertions of a scope, nested at most as often as there are scopes. -/
def Program.assertions (p : Program) (i : ScopeId) : List Span := p.assertionsIn (p.scopes.size + 1) i

theorem Stmt.assertions_congr {inner inner' : ScopeId → List Span} {st : Stmt}
    (h : ∀ j ∈ st.scopes, inner j = inner' j) : st.assertions inner = st.assertions inner' := by
  unfold assertions
  split
  · rfl
  · exact List.flatMap_congr h

/-- Bounds beyond the rank of a scope come to the same. -/
theorem Program.assertionsIn_eq {p : Program} {rank : ScopeId → Nat} (down : ∀ i j, p.Nests i j → rank j < rank i)
    {fuel fuel' : Nat} {i : ScopeId} (h : rank i < fuel) (h' : rank i < fuel') :
    p.assertionsIn fuel i = p.assertionsIn fuel' i := by
  induction fuel generalizing fuel' i with
  | zero => exact absurd h (Nat.not_lt_zero _)
  | succ fuel ih =>
    cases fuel' with
    | zero => exact absurd h' (Nat.not_lt_zero _)
    | succ fuel' =>
      rw [assertionsIn, assertionsIn]
      refine List.flatMap_congr fun st hst => Stmt.assertions_congr fun j hj => ?_
      have lower := down i j ⟨st, Array.mem_toList_iff.1 hst, hj⟩
      exact ih (by omega) (by omega)

/-- In an acyclic program the assertions of a scope are those of its statements, in order. -/
theorem Program.assertions_eq {p : Program} (acyclic : p.Acyclic) (i : ScopeId) :
    p.assertions i = (p.scope i).toList.flatMap (Stmt.assertions p.assertions) := by
  obtain ⟨rank, down, bounded⟩ := acyclic.exists_rank
  rw [assertions, assertionsIn]
  refine List.flatMap_congr fun st hst => Stmt.assertions_congr fun j hj => ?_
  have lower := down i j ⟨st, Array.mem_toList_iff.1 hst, hj⟩
  exact p.assertionsIn_eq down (Nat.lt_of_lt_of_le lower (bounded i)) (Nat.lt_succ_of_le (bounded j))

end Staged

namespace Flat

open Steps

/-! ## Numbers in a stream -/

/-- The code an instruction ends the run with. -/
def Instr.abort? : Instr → Option Int
  | .abort code => some code
  | _ => none

namespace Program

/-- The labels that instructions may go to. -/
def jumpsOf (code : Array Instr) : List LabelId := code.toList.flatMap Instr.jumps

/-- The codes that instructions end the run with, in order. -/
def abortsOf (code : Array Instr) : List Int := code.toList.filterMap Instr.abort?

theorem jumpsOf_push (code : Array Instr) (i : Instr) : jumpsOf (code.push i) = jumpsOf code ++ i.jumps := by
  simp [jumpsOf]

theorem abortsOf_push (code : Array Instr) (i : Instr) : abortsOf (code.push i) = abortsOf code ++ i.abort?.toList := by
  rw [abortsOf, abortsOf, Array.toList_push, List.filterMap_append]
  cases h : i.abort? <;> simp [h]

/-- Labels and abort codes are consistent: in each stream every label that was made is placed once, no other one is
placed, and all jumps lead to labels that were made; the abort codes of the two streams are the entries of the error
table in order. -/
structure Numbered (p : Program) : Prop where
  placed : ∀ st l, (labelsOf (p.stream st)).count l = if l < p.labelCount st then 1 else 0
  jumps : ∀ st, ∀ i ∈ p.stream st, ∀ l ∈ i.jumps, l < p.labelCount st
  aborts : abortsOf p.main ++ abortsOf p.staticInit = (List.range p.errors.size).map Int.ofNat

end Program

/-- The words for a failed assertion. -/
def LowerContext.complaint (ctx : LowerContext) (span : Span) : String := "assertion failed at " ++ ctx.describe span

namespace LowerState

/-- The labels of the stream that is made are placed or still owed, each once, and the abort codes number the entries
of the error table. -/
structure Numbered (owed : List LabelId) (s : LowerState) : Prop where
  placed : (Program.labelsOf s.code ++ owed).Perm (List.range s.labels)
  jumps : ∀ l ∈ Program.jumpsOf s.code, l < s.labels
  aborts : Program.abortsOf s.out.main ++ Program.abortsOf s.out.staticInit =
    (List.range s.out.errors.size).map Int.ofNat
  mainFirst : s.stream = .main → Program.abortsOf s.out.staticInit = []

/-- What a step draws: labels that are owed afterwards, or no longer, and entries of the error table. The other stream
is left alone. -/
structure Draws (owed owed' : List LabelId) (texts : List String) (s s' : LowerState) : Prop where
  stream : s'.stream = s.stream
  other : ∀ t, t ≠ s.stream → s'.out.stream t = s.out.stream t ∧ s'.out.labelCount t = s.out.labelCount t
  labels : s.labels ≤ s'.labels
  errors : s'.out.errors.toList = s.out.errors.toList ++ texts
  numbered : s.Numbered owed → s'.Numbered owed'

section Steps

variable {owed owed₁ owed₂ : List LabelId} {texts texts' : List String} {s s' s'' : LowerState}

theorem Draws.refl (owed : List LabelId) (s : LowerState) : Draws owed owed [] s s :=
  ⟨rfl, fun _ _ => ⟨rfl, rfl⟩, Nat.le_refl _, (List.append_nil _).symm, id⟩

theorem Draws.trans (h : Draws owed owed₁ texts s s') (h' : Draws owed₁ owed₂ texts' s' s'') :
    Draws owed owed₂ (texts ++ texts') s s'' where
  stream := h'.stream.trans h.stream
  other t ht := by
    have ht' : t ≠ s'.stream := h.stream ▸ ht
    exact ⟨(h'.other t ht').1.trans (h.other t ht).1, (h'.other t ht').2.trans (h.other t ht).2⟩
  labels := Nat.le_trans h.labels h'.labels
  errors := by rw [h'.errors, h.errors, List.append_assoc]
  numbered := h'.numbered ∘ h.numbered

end Steps

/-- Nothing between two states places a label, jumps or aborts, and no label and no entry was made. -/
structure Unnumbered (s s' : LowerState) : Prop where
  stream : s'.stream = s.stream
  labels : ∀ t, s'.out.labelCount t = s.out.labelCount t
  errors : s'.out.errors = s.out.errors
  other : ∀ t, t ≠ s.stream → s'.out.stream t = s.out.stream t
  placed : ∀ t, Program.labelsOf (s'.out.stream t) = Program.labelsOf (s.out.stream t)
  jumps : ∀ t, Program.jumpsOf (s'.out.stream t) = Program.jumpsOf (s.out.stream t)
  aborts : ∀ t, Program.abortsOf (s'.out.stream t) = Program.abortsOf (s.out.stream t)

theorem Unnumbered.still {s s' : LowerState} (stream : s'.stream = s.stream)
    (labels : ∀ t, s'.out.labelCount t = s.out.labelCount t) (errors : s'.out.errors = s.out.errors)
    (code : ∀ t, s'.out.stream t = s.out.stream t) : s.Unnumbered s' where
  stream := stream
  labels := labels
  errors := errors
  other t _ := code t
  placed t := by rw [code]
  jumps t := by rw [code]
  aborts t := by rw [code]

theorem Unnumbered.draws {s s' : LowerState} (h : s.Unnumbered s') (owed : List LabelId) : Draws owed owed [] s s' := by
  have labels : s'.labels = s.labels := by rw [LowerState.labels, LowerState.labels, h.stream, h.labels]
  refine ⟨h.stream, fun t ht => ⟨h.other t ht, h.labels t⟩, Nat.le_of_eq labels.symm, ?_, fun n => ?_⟩
  · rw [h.errors, List.append_nil]
  · refine ⟨?_, ?_, ?_, fun main => ?_⟩
    · rw [code, h.stream, h.placed, labels]
      exact n.placed
    · rw [code, h.stream, h.jumps, labels]
      exact n.jumps
    · rw [show Program.abortsOf s'.out.main = _ from h.aborts .main,
        show Program.abortsOf s'.out.staticInit = _ from h.aborts .staticInit, h.errors]
      exact n.aborts
    · rw [show Program.abortsOf s'.out.staticInit = _ from h.aborts .staticInit]
      exact n.mainFirst (h.stream ▸ main)

end LowerState

open LowerState

theorem Instr.unnumbered_of_target {i : Instr} {o : Operand} (h : i.target? = some o) :
    i.label? = none ∧ i.jumps = [] ∧ i.abort? = none := by
  cases i <;> first | exact ⟨rfl, rfl, rfl⟩ | cases h

theorem Instr.jumps_lt_of_nil {i : Instr} (h : i.jumps = []) {n : Nat} : ∀ l ∈ i.jumps, l < n := by
  rw [h]
  exact List.forall_mem_nil _

/-- Straight-line code has no labels, jumps and aborts. -/
theorem straightLine_unnumbered : StraightLine LowerState.Unnumbered where
  refl _ := .still rfl (fun _ => rfl) rfl fun _ => rfl
  trans h h' :=
    { stream := h'.stream.trans h.stream
      labels := fun t => (h'.labels t).trans (h.labels t)
      errors := h'.errors.trans h.errors
      other := fun t ht => (h'.other t (h.stream ▸ ht)).trans (h.other t ht)
      placed := fun t => (h'.placed t).trans (h.placed t)
      jumps := fun t => (h'.jumps t).trans (h.jumps t)
      aborts := fun t => (h'.aborts t).trans (h.aborts t) }
  emit s i o ho := by
    obtain ⟨label, jumps, abort⟩ := Instr.unnumbered_of_target ho
    have code (t : Stream) :
        (s.out.emit s.stream i).stream t = if t = s.stream then (s.out.stream t).push i else s.out.stream t :=
      Program.stream_emit ..
    refine ⟨rfl, fun t => Program.labelCount_emit .., Program.errors_emit .., fun t ht => (code t).trans (if_neg ht),
      fun t => ?_, fun t => ?_, fun t => ?_⟩
    all_goals
      dsimp only
      rw [code]
      split
      · simp [Program.labelsOf_push, Program.jumpsOf_push, Program.abortsOf_push, label, jumps, abort]
      · rfl
  addVariable s v :=
    .still rfl (fun _ => Program.labelCount_addVariable ..) rfl fun _ => Program.stream_addVariable ..
  give s k v _ :=
    .still rfl (fun _ => Program.labelCount_addVariable ..) rfl fun _ => Program.stream_addVariable ..

/-! ## Single steps -/

section Single

variable {ctx : LowerContext} {owed : List LabelId} {s s' : LowerState}

/-- Appending an instruction to the stream that is made. -/
theorem draws_emit {owed' : List LabelId} {i : Instr} {u : Unit} (run : Lower.emit i ctx s = .ok (u, s'))
    (abort : i.abort? = none) (placed : owed.Perm (i.label?.toList ++ owed')) (jumps : ∀ l ∈ i.jumps, l < s.labels) :
    Draws owed owed' [] s s' := by
  obtain rfl := modify_ok.1 run
  generalize hq : s.out.emit s.stream i = q
  have code (t : Stream) : q.stream t = if t = s.stream then (s.out.stream t).push i else s.out.stream t := by
    rw [← hq, Program.stream_emit]
  have here : q.stream s.stream = s.code.push i := (code _).trans (if_pos rfl)
  have labels (t : Stream) : q.labelCount t = s.out.labelCount t := by rw [← hq, Program.labelCount_emit]
  have errors : q.errors = s.out.errors := by rw [← hq, Program.errors_emit]
  have aborts (t : Stream) : Program.abortsOf (q.stream t) = Program.abortsOf (s.out.stream t) := by
    rw [code]
    split
    · rw [Program.abortsOf_push, abort]
      exact List.append_nil _
    · rfl
  refine ⟨rfl, fun t ht => ⟨(code t).trans (if_neg ht), labels t⟩, Nat.le_of_eq (labels _).symm, ?_,
    fun n => ⟨?_, ?_, ?_, fun main => (aborts .staticInit).trans (n.mainFirst main)⟩⟩
  · rw [errors, List.append_nil]
  · show (Program.labelsOf (q.stream s.stream) ++ owed').Perm (List.range (q.labelCount s.stream))
    rw [here, labels, Program.labelsOf_push, List.append_assoc]
    exact (placed.symm.append_left _).trans n.placed
  · show ∀ l ∈ Program.jumpsOf (q.stream s.stream), l < q.labelCount s.stream
    rw [here, labels, Program.jumpsOf_push]
    intro l hl
    rcases List.mem_append.1 hl with hl | hl
    · exact n.jumps l hl
    · exact jumps l hl
  · show Program.abortsOf (q.stream .main) ++ Program.abortsOf (q.stream .staticInit) = (List.range q.errors.size).map _
    rw [aborts, aborts, errors]
    exact n.aborts

/-- A label that was made is owed. -/
theorem draws_label {l : LabelId} (run : Lower.label ctx s = .ok (l, s')) : Draws owed (l :: owed) [] s s' := by
  cases run
  dsimp only
  generalize hq : s.out.addLabel s.stream = q
  have code (t : Stream) : q.stream t = s.out.stream t := by rw [← hq, Program.stream_addLabel]
  have labels (t : Stream) : q.labelCount t = if t = s.stream then s.out.labelCount t + 1 else s.out.labelCount t := by
    rw [← hq, Program.labelCount_addLabel]
  have here : q.labelCount s.stream = s.labels + 1 := (labels _).trans (if_pos rfl)
  have errors : q.errors = s.out.errors := by rw [← hq, Program.errors_addLabel]
  refine ⟨rfl, fun t ht => ⟨code t, (labels t).trans (if_neg ht)⟩,
    Nat.le_of_lt (Nat.lt_of_lt_of_eq (Nat.lt_succ_self _) here.symm), ?_,
    fun n => ⟨?_, ?_, ?_, fun main => (congrArg _ (code .staticInit)).trans (n.mainFirst main)⟩⟩
  · rw [errors, List.append_nil]
  · show (Program.labelsOf (q.stream s.stream) ++ s.labels :: owed).Perm (List.range (q.labelCount s.stream))
    rw [code, here, List.range_succ]
    exact List.perm_middle.trans ((n.placed.cons _).trans (List.perm_append_singleton _ _).symm)
  · show ∀ l ∈ Program.jumpsOf (q.stream s.stream), l < q.labelCount s.stream
    rw [code, here]
    exact fun l hl => Nat.lt_succ_of_lt (n.jumps l hl)
  · show Program.abortsOf (q.stream .main) ++ Program.abortsOf (q.stream .staticInit) = (List.range q.errors.size).map _
    rw [code, code, errors]
    exact n.aborts

theorem label_lt {l : LabelId} (run : Lower.label ctx s = .ok (l, s')) : l < s'.labels := by
  obtain ⟨same, labels, -⟩ := label_ok run
  rw [same, labels]
  exact Nat.lt_succ_self _

/-- An entry of the error table and the abort with its code. -/
theorem draws_fail {text : String} {s₁ : LowerState} {u v : Unit}
    (entry : (modify fun s => { s with out := s.out.addError text } : Lower Unit) ctx s = .ok (u, s₁))
    (fail : Lower.emit (.abort s.out.errors.size) ctx s₁ = .ok (v, s')) : Draws owed owed [text] s s' := by
  obtain rfl := modify_ok.1 entry
  obtain rfl := modify_ok.1 fail
  dsimp only
  generalize hq : (s.out.addError text).emit s.stream (.abort s.out.errors.size) = q
  have code (t : Stream) :
      q.stream t = if t = s.stream then (s.out.stream t).push (.abort s.out.errors.size) else s.out.stream t := by
    rw [← hq, Program.stream_emit]
    cases t <;> rfl
  have labels (t : Stream) : q.labelCount t = s.out.labelCount t := by
    rw [← hq, Program.labelCount_emit]
    cases t <;> rfl
  have errors : q.errors = s.out.errors.push text := by
    rw [← hq, Program.errors_emit]
    rfl
  have here : q.stream s.stream = s.code.push (.abort s.out.errors.size) := (code _).trans (if_pos rfl)
  refine ⟨rfl, fun t ht => ⟨(code t).trans (if_neg ht), labels t⟩, Nat.le_of_eq (labels _).symm, ?_,
    fun n => ⟨?_, ?_, ?_, fun main => ?_⟩⟩
  · rw [errors, Array.toList_push]
  · show (Program.labelsOf (q.stream s.stream) ++ owed).Perm (List.range (q.labelCount s.stream))
    rw [here, labels, Program.labelsOf_push]
    exact (List.append_nil (Program.labelsOf s.code)).symm ▸ n.placed
  · show ∀ l ∈ Program.jumpsOf (q.stream s.stream), l < q.labelCount s.stream
    rw [here, labels, Program.jumpsOf_push]
    exact (List.append_nil (Program.jumpsOf s.code)).symm ▸ n.jumps
  · -- While the main stream is made the other one has no abort, so the new code is the last one either way.
    show Program.abortsOf (q.stream .main) ++ Program.abortsOf (q.stream .staticInit) = (List.range q.errors.size).map _
    rw [code, code, errors, Array.size_push, List.range_succ, List.map_append, ← n.aborts]
    cases stream : s.stream with
    | main =>
      rw [if_pos rfl, if_neg (by decide), Program.abortsOf_push, n.mainFirst stream]
      simp [Instr.abort?, Program.stream, n.mainFirst stream]
    | staticInit =>
      rw [if_neg (by decide), if_pos rfl, Program.abortsOf_push, ← List.append_assoc]
      rfl
  · show Program.abortsOf (q.stream .staticInit) = []
    have main : s.stream = .main := main
    rw [code, if_neg (by rw [main]; decide)]
    exact n.mainFirst main

theorem draws_expr {e : Staged.Expr} {o : Operand} (run : Lower.expr e ctx s = .ok (o, s')) : Draws owed owed [] s s' :=
  (along_expr straightLine_unnumbered e ctx s o s' run).draws owed

end Single

/-! ## Statements -/

section Statements

variable {ctx : LowerContext} {owed : List LabelId} {s s' : LowerState}

/-- An assertion adds its entry. -/
theorem draws_assertion {condition : Staged.Expr} {span : Span} {u : Unit}
    (run : Lower.assertion condition span ctx s = .ok (u, s')) : Draws owed owed [ctx.complaint span] s s' := by
  obtain ⟨parts⟩ := assertion_parts run
  have skip : Draws (parts.abort :: owed) (parts.skip :: parts.abort :: owed) [] parts.s₂ parts.s₃ :=
    draws_label parts.makeSkip
  have made := ((draws_expr parts.test).trans (draws_label parts.makeAbort)).trans skip
  have abort := Nat.lt_of_lt_of_le (label_lt parts.makeAbort) skip.labels
  have tested := made.trans (draws_emit parts.branch rfl (.refl _)
    (by simp [Instr.jumps, label_lt parts.makeSkip, abort]))
  have failing : Draws (parts.skip :: parts.abort :: owed) (parts.skip :: owed) [] parts.s₄ parts.s₅ :=
    draws_emit parts.failing rfl (.swap _ _ _) (Instr.jumps_lt_of_nil rfl)
  exact ((tested.trans failing).trans (draws_fail parts.entry parts.fail)).trans (draws_emit parts.passing rfl (.refl _) (Instr.jumps_lt_of_nil rfl))

variable {scope : ScopeId → Lower Unit} {inner : ScopeId → List Span}

/-- Flattening a scope adds the entries of the assertions that stand in it. -/
def DrawsScope (ctx : LowerContext) (scope : ScopeId → Lower Unit) (inner : ScopeId → List Span) (j : ScopeId) :
    Prop :=
  ∀ owed s s', scope j ctx s = .ok ((), s') → Draws owed owed ((inner j).map ctx.complaint) s s'

/-- The end of the branch is owed while its clauses are made. -/
theorem draws_clauses {done : LabelId} {cs : List Staged.Clause}
    (each : ∀ j ∈ cs.map (·.body), DrawsScope ctx scope inner j) (hdone : done < s.labels)
    (run : Lower.clauses scope done cs ctx s = .ok ((), s')) :
    Draws owed owed (((cs.map (·.body)).flatMap inner).map ctx.complaint) s s' := by
  induction cs generalizing s with
  | nil =>
    rw [Lower.clauses] at run
    obtain ⟨-, rfl⟩ := pure_ok.1 run
    exact .refl owed s
  | cons c cs ih =>
    obtain ⟨t, ⟨parts⟩, run⟩ := clause_parts run
    have next : Draws (parts.body :: owed) (parts.next :: parts.body :: owed) [] parts.s₂ parts.s₃ :=
      draws_label parts.makeNext
    have made := ((draws_expr parts.test).trans (draws_label parts.makeBody)).trans next
    have body := Nat.lt_of_lt_of_le (label_lt parts.makeBody) next.labels
    have tested := made.trans (draws_emit parts.branch rfl (.refl _)
      (by simp [Instr.jumps, label_lt parts.makeNext, body]))
    have begun : Draws (parts.next :: parts.body :: owed) (parts.next :: owed) [] parts.s₄ parts.top :=
      draws_emit parts.begin rfl (.swap _ _ _) (Instr.jumps_lt_of_nil rfl)
    have within := (tested.trans begun).trans (each c.body List.mem_cons_self _ _ _ parts.inner)
    have outside : done < parts.bottom.labels := Nat.lt_of_lt_of_le hdone within.labels
    have jumped := within.trans (draws_emit parts.jump rfl (.refl _) (by simp [Instr.jumps, outside]))
    have left := jumped.trans (draws_emit parts.leave rfl (.refl _) (Instr.jumps_lt_of_nil rfl))
    have rest := ih (fun j hj => each j (List.mem_cons_of_mem _ hj)) (Nat.lt_of_lt_of_le hdone left.labels) run
    have all := left.trans rest
    rw [List.map_cons, List.flatMap_cons, List.map_append]
    simpa using all

theorem draws_branch {cs : List Staged.Clause} {otherwise : Option ScopeId} {u : Unit}
    (each : ∀ j ∈ cs.map (·.body) ++ otherwise.toList, DrawsScope ctx scope inner j)
    (run : Lower.branch scope cs otherwise ctx s = .ok (u, s')) :
    Draws owed owed (((cs.map (·.body) ++ otherwise.toList).flatMap inner).map ctx.complaint) s s' := by
  obtain ⟨parts⟩ := branch_parts run
  have clauses : Draws (parts.done :: owed) (parts.done :: owed) (((cs.map (·.body)).flatMap inner).map ctx.complaint)
      parts.s₁ parts.s₂ :=
    draws_clauses (fun j hj => each j (List.mem_append_left _ hj)) (label_lt parts.makeDone) parts.clauses
  have made := (draws_label parts.makeDone).trans clauses
  have last : Draws (parts.done :: owed) (parts.done :: owed) ((otherwise.toList.flatMap inner).map ctx.complaint)
      parts.s₂ parts.s₃ := by
    rcases parts.last with ⟨j, rfl, within⟩ | ⟨rfl, same⟩
    · have := each j (List.mem_append_right _ List.mem_cons_self) (parts.done :: owed) _ _ within
      simpa using this
    · exact same ▸ .refl _ _
  have all := (made.trans last).trans (draws_emit parts.behind rfl (.refl _) (Instr.jumps_lt_of_nil rfl))
  rw [List.flatMap_append, List.map_append]
  simpa using all

theorem draws_test {x b y : Operand} {again done : LabelId} {u : Unit} (hagain : again < s.labels)
    (hdone : done < s.labels) (run : Lower.test x b y again done ctx s = .ok (u, s')) : Draws owed owed [] s s' := by
  obtain ⟨⟨⟩, t, compared, run⟩ := bind_ok.1 run
  have first : Draws owed owed [] s t := draws_emit compared rfl (.refl _) (Instr.jumps_lt_of_nil rfl)
  have again := Nat.lt_of_lt_of_le hagain first.labels
  have done := Nat.lt_of_lt_of_le hdone first.labels
  exact first.trans (draws_emit run rfl (.refl _) (by simp [Instr.jumps, again, done]))

theorem draws_loop {counter : SlotId} {start stop : Staged.Expr} {body : ScopeId} {u : Unit}
    (each : DrawsScope ctx scope inner body) (run : Lower.loop scope counter start stop body ctx s = .ok (u, s')) :
    Draws owed owed ((inner body).map ctx.complaint) s s' := by
  obtain ⟨parts⟩ := loop_parts run
  have line := straightLine_unnumbered
  have last : Draws (parts.again :: owed) (parts.done :: parts.again :: owed) [] parts.s₁ parts.s₂ :=
    draws_label parts.makeDone
  have again := Nat.lt_of_lt_of_le (label_lt parts.makeAgain) last.labels
  have done := label_lt parts.makeDone
  have made := (draws_label parts.makeAgain).trans last
  -- From here on both labels are among those that were made.
  have slot : Draws _ (parts.done :: parts.again :: owed) [] parts.s₂ parts.s₃ :=
    (along_ofSlot line _ _ _ _ _ parts.slot).draws _
  have bounds := (slot.trans (draws_expr parts.low)).trans (draws_expr parts.high)
  have counting := (bounds.trans (draws_emit parts.set rfl (.refl _) (Instr.jumps_lt_of_nil rfl))).trans
    ((along_temp line _ _ _ _ _ parts.condition).draws _)
  have tested := counting.trans (draws_test (Nat.lt_of_lt_of_le again counting.labels)
    (Nat.lt_of_lt_of_le done counting.labels) parts.test)
  have begun : Draws (parts.done :: parts.again :: owed) (parts.done :: owed) [] parts.s₈ parts.s₉ :=
    draws_emit parts.top rfl (.swap _ _ _) (Instr.jumps_lt_of_nil rfl)
  have round := ((tested.trans begun).trans (each _ _ _ parts.inner)).trans (draws_emit parts.count rfl (.refl _) (Instr.jumps_lt_of_nil rfl))
  have retested := round.trans (draws_test (Nat.lt_of_lt_of_le again round.labels)
    (Nat.lt_of_lt_of_le done round.labels) parts.retest)
  have all := made.trans (retested.trans (draws_emit parts.bottom rfl (.refl _) (Instr.jumps_lt_of_nil rfl)))
  simpa using all

/-- A statement adds the entries of the assertions in it. -/
theorem draws_stmt {st : Staged.Stmt} {u : Unit} (each : ∀ j ∈ st.scopes, DrawsScope ctx scope inner j)
    (run : Lower.stmt scope st ctx s = .ok (u, s')) :
    Draws owed owed ((st.assertions inner).map ctx.complaint) s s' := by
  cases st with
  | assign target value span =>
    exact (along_assign straightLine_unnumbered target value ctx s u s' run).draws owed
  | assert condition span => exact draws_assertion run
  | branch cs otherwise span => exact draws_branch each run
  | loop counter start stop body span =>
    have all : Draws owed owed ((inner body).map ctx.complaint) s s' := draws_loop (each body List.mem_cons_self) run
    rwa [← List.flatMap_singleton inner body] at all
  | inlined body span =>
    have all := each body List.mem_cons_self owed s s' run
    rwa [← List.flatMap_singleton inner body] at all
  | missing => cases run

theorem draws_stmts {sts : List Staged.Stmt} {u : Unit}
    (each : ∀ st ∈ sts, ∀ j ∈ st.scopes, DrawsScope ctx scope inner j)
    (run : sts.forM (Lower.stmt scope) ctx s = .ok (u, s')) :
    Draws owed owed ((sts.flatMap (Staged.Stmt.assertions inner)).map ctx.complaint) s s' := by
  induction sts generalizing s with
  | nil =>
    obtain ⟨-, rfl⟩ := pure_ok.1 run
    exact .refl owed s
  | cons st sts ih =>
    obtain ⟨⟨⟩, t, first, run⟩ := bind_ok.1 run
    rw [List.flatMap_cons, List.map_append]
    exact (draws_stmt (each st List.mem_cons_self) first).trans
      (ih (fun st' h => each st' (List.mem_cons_of_mem _ h)) run)

end Statements

/-! ## Scopes and programs -/

variable {ctx : LowerContext}

/-- A scope adds the entries of the assertions in it. -/
theorem draws_scope (fuel : Nat) (i : ScopeId) :
    DrawsScope ctx (Lower.scope fuel) (ctx.source.assertionsIn fuel) i := by
  induction fuel generalizing i with
  | zero => exact fun _ _ _ run => by cases run
  | succ fuel ih =>
    intro owed s s' run
    rw [Lower.scope] at run
    obtain ⟨c, t, got, run⟩ := bind_ok.1 run
    obtain ⟨rfl, rfl⟩ := read_ok.1 got
    obtain ⟨stmts, t, got, run⟩ := bind_ok.1 run
    obtain ⟨found, rfl⟩ := orBroken_ok got
    have body : ctx.source.scope i = stmts := by
      rw [Staged.Program.scope, Array.getD_eq_getD_getElem?, found]
      rfl
    rw [Staged.Program.assertionsIn, body]
    exact draws_stmts (fun st _ j _ => ih j) run

theorem unnumbered_declare (p : Staged.Program) : Along LowerState.Unnumbered (Lower.declare p) := by
  have line := straightLine_unnumbered
  have still {g : LowerState → LowerState} (h : ∀ s : LowerState, s.Unnumbered (g s)) : Along Unnumbered (modify g) :=
    .modify h
  refine .bind line (still fun s => ?_) fun _ => .bind line (along_interface line _ _) fun statics =>
    .bind line (still fun s => ?_) fun _ => .bind line (.get line) fun _ =>
    .bind line (along_interface line _ _) fun inputs => .bind line (along_interface line _ _) fun outputs =>
    .bind line (still fun s => ?_) fun _ => .pure line _
  all_goals exact .still rfl (fun t => by cases t <;> rfl) rfl fun t => by cases t <;> rfl

/-- Nothing is owed when the other stream is begun. -/
theorem LowerState.Numbered.turn {s : LowerState} (h : s.Numbered []) (empty : s.out.stream .staticInit = #[])
    (labels : s.out.labelCount .staticInit = 0) (shared : Array (Option VarId)) : (s.turn shared).Numbered [] where
  placed := by
    show (Program.labelsOf (s.out.stream .staticInit) ++ []).Perm (List.range (s.out.labelCount .staticInit))
    rw [empty, labels]
    exact .nil
  jumps := by
    show ∀ l ∈ Program.jumpsOf (s.out.stream .staticInit), l < _
    rw [empty]
    exact nofun
  aborts := h.aborts
  mainFirst := nofun

/-- What is placed in a stream that is made, and where it jumps. -/
theorem LowerState.Numbered.stream {s : LowerState} {st : Stream} (h : s.Numbered []) (made : s.stream = st) :
    (∀ l, (Program.labelsOf (s.out.stream st)).count l = if l < s.out.labelCount st then 1 else 0) ∧
      ∀ i ∈ s.out.stream st, ∀ l ∈ i.jumps, l < s.out.labelCount st := by
  subst made
  refine ⟨fun l => ?_, fun i hi l hl => h.jumps l (List.mem_flatMap.2 ⟨i, Array.mem_toList_iff.2 hi, hl⟩)⟩
  have placed := h.placed
  rw [List.append_nil] at placed
  rw [show Program.labelsOf (s.out.stream s.stream) = Program.labelsOf s.code from rfl, placed.count_eq]
  split
  · exact List.count_eq_one_of_mem List.nodup_range (List.mem_range.2 ‹_›)
  · exact List.count_eq_zero_of_not_mem fun hl => absurd (List.mem_range.1 hl) ‹_›

/-- The labels and abort codes of every flattened program are consistent, and its error table has one entry for each
assertion that is flattened: those of the main stream first, in the order in which they stand. -/
theorem lower_numbers {source : Staged.Program} {library : Option Library} {p : Program}
    (h : lower source library = .ok p) : p.Numbered ∧
      p.errors.toList = (source.assertions source.entry ++ source.assertions source.staticInit).map fun span =>
        "assertion failed at " ++ library.elim span.text (·.describe span) := by
  let ctx : LowerContext := ⟨source, fun span => library.elim span.text (·.describe span)⟩
  obtain ⟨⟨q, s'⟩, run, rfl⟩ : ∃ r, Lower.program ctx {} = .ok r ∧ r.1 = p := except_map_ok.1 h
  rw [Lower.program_eq] at run
  obtain ⟨c, t, got, run⟩ := bind_ok.1 run
  obtain ⟨rfl, rfl⟩ := read_ok.1 got
  obtain ⟨shared, s₁, declared, run⟩ := bind_ok.1 run
  obtain ⟨⟨⟩, s₂, main, run⟩ := bind_ok.1 run
  obtain ⟨⟨⟩, s₃, turned, run⟩ := bind_ok.1 run
  obtain ⟨⟨⟩, s₄, init, run⟩ := bind_ok.1 run
  obtain ⟨t, t', got, run⟩ := bind_ok.1 run
  obtain ⟨rfl, rfl⟩ := get_ok.1 got
  obtain ⟨rfl, rfl⟩ := pure_ok.1 run
  obtain rfl : s₂.turn shared = s₃ := modify_ok.1 turned
  -- The main stream.
  have first : Draws [] [] ((source.assertions source.entry).map ctx.complaint) {} s₂ :=
    ((unnumbered_declare source ctx {} shared s₁ declared).draws []).trans (draws_scope _ _ [] _ _ main)
  have numbered₂ := first.numbered ⟨.nil, nofun, rfl, fun _ => rfl⟩
  obtain ⟨empty, unlabelled⟩ := first.other .staticInit (by decide)
  -- The initialization of statics, which has had no code so far.
  have second : Draws [] [] ((source.assertions source.staticInit).map ctx.complaint) (s₂.turn shared) s₄ :=
    draws_scope _ _ [] _ _ init
  have numbered₄ := second.numbered (numbered₂.turn empty unlabelled shared)
  obtain ⟨kept, labels⟩ := second.other .main (by show Stream.main ≠ .staticInit; decide)
  refine ⟨⟨fun st => ?_, fun st => ?_, numbered₄.aborts⟩, ?_⟩
  · cases st with
    | staticInit => exact (numbered₄.stream second.stream).1
    | main =>
      rw [kept, labels]
      exact (numbered₂.stream first.stream).1
  · cases st with
    | staticInit => exact (numbered₄.stream second.stream).2
    | main =>
      rw [kept, labels]
      exact (numbered₂.stream first.stream).2
  · rw [List.map_append, second.errors]
    exact congrArg (· ++ _) first.errors

/-- A loop that asserts in both ways of a branch, and a scope with an assertion that is inlined twice. -/
def checking : Staged.Program where
  scopes := #[#[.assert (.literal (.bool true) .bool default) default],
    #[.loop 0 (.literal (.int 0) .int default) (.literal (.int 3) .int default) 2 default, .inlined 4 default],
    #[.branch [⟨.literal (.bool false) .bool default, 3⟩] (some 4) default, .inlined 4 default],
    #[.assert (.literal (.bool true) .bool default) default],
    #[.assert (.literal (.bool true) .bool default) default]]
  vars := #[⟨.int, default⟩]

theorem lower_numbers_checking : ∃ p, lower checking none = .ok p ∧ p.Numbered ∧ p.errors.size = 5 ∧
    p.mainLabels = 13 ∧ p.staticLabels = 2 := by
  have made : ((lower checking none).toOption.map fun p => (p.errors.size, p.mainLabels, p.staticLabels)) =
      some (5, 13, 2) := by
    decide +kernel
  cases run : lower checking none with
  | error e =>
    rw [run] at made
    cases made
  | ok p =>
    rw [run] at made
    have counts := Option.some.inj made
    simp only [Prod.mk.injEq] at counts
    exact ⟨p, rfl, (lower_numbers run).1, counts⟩

end Flat

end SignalLang
