import SignalLang.Proofs.Staged.Activations
import SignalLang.Proofs.Staged.Sight
import SignalLang.Proofs.Staged.Tracking

/-!
# Sets of written variables

A branch or a loop may not run, so what its body writes is unknown behind it. `State.written` collects what is written
since the innermost such body was entered, and the log has every write in order. Calls, unrolled loops and static
blocks write through to the body they stand in; another branch or loop has a set of its own, which is added to the outer
one when it is left.

`State.Notes s s'` is what every step keeps: the log only grows, each variable of a new entry is in the set, and a
variable without a new entry keeps its record and what is tracked of it. So nothing that is written in a body is lost,
however deep it stands (`Stage.written_reaches_outside`). A variable that is not written reads as before, if what is
tracked of it has the shape of its type. It need not: two activations of a macro may give one variable different types,
and a read in the body shapes what is tracked after the type that it finds (`Stage.unwritten_reads_otherwise`).
-/

namespace SignalLang.Staged

open Scoped (VarId)
open Steps

namespace State

/-- The variables that are written between two states: those of the entries that the log has more in the second. -/
def writtenUpTo (s s' : State) : List VarId := (s'.log.toList.drop s.log.size).map Write.var

variable {s t u s' : State} {v : VarId}

theorem writtenUpTo_of_log {ws : List Write} (h : s'.log.toList = s.log.toList ++ ws) :
    s.writtenUpTo s' = ws.map Write.var := by
  rw [writtenUpTo, h, ← Array.length_toList, List.drop_left]

theorem writtenUpTo_of_same (log : s'.log = s.log) : s.writtenUpTo s' = [] := by
  have none : s'.log.toList = s.log.toList ++ [] := by rw [log, List.append_nil]
  exact writtenUpTo_of_log none

theorem mem_writtenUpTo_trans (h : s.log.toList <+: t.log.toList) (h' : t.log.toList <+: u.log.toList) :
    v ∈ s.writtenUpTo u ↔ v ∈ s.writtenUpTo t ∨ v ∈ t.writtenUpTo u := by
  obtain ⟨ws, first⟩ := h
  obtain ⟨ws', second⟩ := h'
  have both : u.log.toList = s.log.toList ++ (ws ++ ws') := by rw [← second, ← first, List.append_assoc]
  rw [writtenUpTo_of_log both, writtenUpTo_of_log first.symm, writtenUpTo_of_log second.symm, List.map_append,
    List.mem_append]

/-- Every write is in the log and in the set of written variables, and other variables are spared. -/
structure Marks (s s' : State) : Prop where
  size : s'.tracked.size = s.tracked.size
  log : s.log.toList <+: s'.log.toList
  kept : ∀ v ∈ s.written, v ∈ s'.written
  marked : ∀ v ∈ s.writtenUpTo s', v ∈ s'.written
  spared : ∀ v, v ∉ s.writtenUpTo s' → s.Spares v s'

namespace Marks

/-- A step that writes nothing. -/
theorem of_same (tracked : s'.tracked = s.tracked) (log : s'.log = s.log) (written : s'.written = s.written) :
    s.Marks s' where
  size := by rw [tracked]
  log := log ▸ List.prefix_refl _
  kept v hv := written ▸ hv
  marked v hv := by
    rw [writtenUpTo_of_same log] at hv
    exact (List.not_mem_nil hv).elim
  spared v _ := .of_same tracked written

theorem trans (h : s.Marks t) (h' : t.Marks u) : s.Marks u where
  size := h'.size.trans h.size
  log := h.log.trans h'.log
  kept v hv := h'.kept v (h.kept v hv)
  marked v hv := by
    rcases (mem_writtenUpTo_trans h.log h'.log).1 hv with hv | hv
    · exact h'.kept v (h.marked v hv)
    · exact h'.marked v hv
  spared v apart := by
    rw [mem_writtenUpTo_trans h.log h'.log, not_or] at apart
    exact (h.spared v apart.1).trans (h'.spared v apart.2)

/-- The set is what it was before, and what is written. -/
theorem mem_written (h : s.Marks s') : v ∈ s'.written ↔ v ∈ s.written ∨ v ∈ s.writtenUpTo s' := by
  constructor
  · intro hv
    by_cases wrote : v ∈ s.writtenUpTo s'
    · exact .inr wrote
    · exact .inl ((h.spared v wrote).written hv)
  · rintro (hv | hv)
    · exact h.kept v hv
    · exact h.marked v hv

end Marks

/-- A step marks what it writes, and a variable that it does not write keeps its record. -/
structure Notes (s s' : State) : Prop extends Marks s s' where
  lookup : ∀ v, v ∉ s.writtenUpTo s' → s'.table.lookup v = s.table.lookup v

namespace Notes

theorem of_same (tracked : s'.tracked = s.tracked) (log : s'.log = s.log) (written : s'.written = s.written)
    (table : s'.table = s.table) : s.Notes s' where
  toMarks := .of_same tracked log written
  lookup v _ := by rw [table]

theorem trans (h : s.Notes t) (h' : t.Notes u) : s.Notes u where
  toMarks := h.toMarks.trans h'.toMarks
  lookup v apart := by
    rw [mem_writtenUpTo_trans h.log h'.log, not_or] at apart
    exact (h'.lookup v apart.2).trans (h.lookup v apart.1)

instance : IsPreorder State Notes where
  refl _ := of_same rfl rfl rfl rfl
  trans _ _ _ := trans

/-- A step may work under another table, if it gives the table back. -/
theorem elsewhere (inner : t.Marks u) (before : s.Marks t) (behind : u.Marks s') (table : s'.table = s.table) :
    s.Notes s' :=
  ⟨before.trans (inner.trans behind), fun v _ => by rw [table]⟩

/-- One write: what is tracked of the variable is replaced, and no other variable gets another record. -/
theorem of_write {w : Write} {d : Datum} (tracked : s'.tracked = s.tracked.setIfInBounds w.var (some d))
    (log : s'.log = s.log.push w)
    (written : s'.written = if s.written.contains w.var then s.written else w.var :: s.written)
    (table : ∀ v, v ≠ w.var → s'.table.lookup v = s.table.lookup v) : s.Notes s' := by
  have logged : s'.log.toList = s.log.toList ++ [w] := by rw [log, Array.toList_push]
  have one (v : VarId) : v ∈ s.writtenUpTo s' ↔ v = w.var := by rw [writtenUpTo_of_log logged]; simp
  have mem (v : VarId) : v ∈ s'.written ↔ v ∈ s.written ∨ v = w.var := by
    rw [written]
    split
    · rename_i already
      rw [List.contains_iff_mem] at already
      exact ⟨.inl, fun hv => hv.elim id fun same => same ▸ already⟩
    · rw [List.mem_cons, or_comm]
  refine ⟨⟨?_, ⟨[w], logged.symm⟩, fun v hv => (mem v).2 (.inl hv), fun v hv => (mem v).2 (.inr ((one v).1 hv)),
    fun v apart => ?_⟩, fun v apart => table v fun same => apart ((one v).2 same)⟩
  · rw [tracked, Array.size_setIfInBounds]
  · have other : w.var ≠ v := fun same => apart ((one v).2 same.symm)
    exact .put other tracked fun hv => ((mem v).1 hv).resolve_right fun same => other same.symm

end Notes

end State

/-- Data of which nothing is known are the same, if one has the lengths of the other. -/
theorem Datum.unknownOf_eq_of_has {p : Prim} {dims ns : List Int} (has : (unknownOf dims).Has (May p) ns) :
    unknownOf dims = unknownOf ns := by
  induction ns generalizing dims with
  | nil =>
    rcases has with none | is
    · exact none
    · cases dims with
      | nil => rfl
      | cons n ns => cases is.prim
  | cons m ms ih =>
    obtain ⟨ds, isArray, length, all⟩ := has
    cases dims with
    | nil => cases isArray
    | cons n ns =>
      obtain rfl : List.replicate n.toNat (unknownOf ns) = ds := Datum.array.inj isArray
      rw [List.length_replicate] at length
      rw [unknownOf, unknownOf, length]
      cases count : m.toNat with
      | zero => rfl
      | succ k =>
        rw [ih (all _ (List.mem_replicate.2 ⟨by omega, rfl⟩))]

namespace Stage

variable {c : Context} {run : Scoped.ScopeId → Stage Unit} {s t s' l : State}

/-! ## Steps -/

theorem notes_emit (st : Stmt) : Respects c State.Notes (emit st) :=
  .modify fun s => by cases s.current <;> exact .of_same rfl rfl rfl rfl

/-- A value that is read takes the lengths of its type, which is no write. -/
theorem notes_tracked (v : VarId) (r : Record) : Respects c State.Notes (tracked v r) := by
  intro s d s' ended
  have spared (w : VarId) : s.Spares w s' := spares_tracked v r s d s' ended
  refine (?_ : Ends .finite c s (tracked v r) fun s' _ => (∀ w, s.Spares w s') → s.Notes s').ok ended spared
  have shaped (d : Datum) (spared : ∀ w, s.Spares w { s with tracked := s.tracked.setIfInBounds v (some d) }) :
      s.Notes { s with tracked := s.tracked.setIfInBounds v (some d) } := by
    have none : s.writtenUpTo { s with tracked := s.tracked.setIfInBounds v (some d) } = [] :=
      State.writtenUpTo_of_same rfl
    refine ⟨⟨Array.size_setIfInBounds, List.prefix_refl _, fun w hw => hw, fun w hw => ?_, fun w _ => spared w⟩,
      fun w _ => rfl⟩
    rw [none] at hw
    exact (List.not_mem_nil hw).elim
  refine .get_bind ?_
  dsimp only
  split
  · exact .pure fun _ => refl_of State.Notes s
  · exact .modify_bind (.pure (shaped _))
  · exact .modify_bind (.pure (shaped _))
  · exact .pure fun _ => refl_of State.Notes s

/-- Replacing what is tracked of a variable and noting it is one write. -/
theorem notes_write (w : Write) (d : Datum) : Respects c State.Notes (putTracked w.var d >>= fun _ => noteWrite w) := by
  intro s _ s' ended
  obtain ⟨_, t, put, noted⟩ := bind_ok.1 ended
  obtain rfl := modify_ok.1 put
  obtain rfl := modify_ok.1 noted
  exact .of_write rfl rfl rfl fun _ _ => rfl

theorem notes_track (v : VarId) (d : Datum) : Respects c State.Notes (track v d) := notes_write ⟨v, [], d⟩ d

theorem notes_trackAt (v : VarId) (r : Record) (coord : List Int) (d : Datum) :
    Respects c State.Notes (trackAt v r coord d) := by
  refine .bind (notes_tracked v r) fun whole => .ite (notes_track v d) ?_
  exact .bind (.orBadShape _) fun e => notes_write ⟨v, coord, d⟩ e

/-- A variable that is made is written. -/
theorem notes_create (v : VarId) (r : Record) : Respects c State.Notes (create v r) := by
  intro s _ s' ended
  obtain ⟨_, t, listed, tracks⟩ := bind_ok.1 ended
  obtain rfl := modify_ok.1 listed
  obtain ⟨_, t', put, noted⟩ := bind_ok.1 tracks
  obtain rfl := modify_ok.1 put
  obtain rfl := modify_ok.1 noted
  refine .of_write (w := ⟨v, [], unknownFor r.bound⟩) rfl rfl rfl fun w other => ?_
  rw [List.lookup_cons, beq_false_of_ne other]

/-! ## Bodies that may not run -/

/-- Forgetting variables writes no others. -/
theorem forget_writes {vs : List VarId} (ended : forget vs c s = .ok ((), s')) :
    s'.tracked.size = s.tracked.size ∧ s.log.toList <+: s'.log.toList ∧ ∀ v ∈ s.writtenUpTo s', v ∈ vs := by
  let only (t : State) : Prop :=
    t.tracked.size = s.tracked.size ∧ ∃ ws, t.log.toList = s.log.toList ++ ws ∧ ∀ w ∈ ws, w.var ∈ vs
  have start : only s := ⟨rfl, [], (List.append_nil _).symm, nofun⟩
  obtain ⟨size, ws, log, vars⟩ : only s' := by
    refine (Ends.forM (k := .finite) start fun v hv t kept => ?_).ok ended
    refine .recordId_bind ?_
    split
    · exact .pure kept
    · rename_i id _
      refine .get_bind ?_
      split
      · obtain ⟨size, ws, log, vars⟩ := kept
        let last : Write := ⟨v, [], unknownFor (t.records.getD id default).bound⟩
        have logged : (t.log.push last).toList = s.log.toList ++ (ws ++ [last]) := by
          rw [Array.toList_push, log, List.append_assoc]
        refine .modify_bind (.modify ⟨Array.size_setIfInBounds.trans size, _, logged, fun w hw => ?_⟩)
        rcases List.mem_append.1 hw with hw | hw
        · exact vars w hw
        · rw [List.mem_singleton.1 hw]
          exact hv
      · exact .pure kept
  refine ⟨size, ⟨ws, log.symm⟩, fun v hv => ?_⟩
  rw [State.writtenUpTo_of_log log] at hv
  obtain ⟨w, hw, rfl⟩ := List.mem_map.1 hv
  exact vars w hw

/-- What a body wrote that may not run is added to the outer set, and nothing is known of it. -/
theorem inBranch_leaves {body : Scoped.ScopeId} (hrun : Respects c State.Notes (run body))
    (ended : inBranch (run body) c s = .ok ((), l)) :
    s.Notes l ∧ ∀ v ∈ s.writtenUpTo l, ∀ ty, l.typeOf? v = some ty → l.Unknown v ty := by
  obtain ⟨t, u, worked, forgot, rfl⟩ := inBranch_inv ended
  have inner := hrun _ _ _ worked
  have forgets := (forgets_forget .finite t.written).ok forgot
  obtain ⟨size, log, only⟩ := forget_writes forgot
  -- the set is empty where the body is entered, so it is what the body writes
  have wrote (v : VarId) : v ∈ t.written ↔ v ∈ s.writtenUpTo t :=
    inner.mem_written.trans (or_iff_right List.not_mem_nil)
  have logged : s.log.toList <+: t.log.toList := inner.log
  have all (v : VarId) : v ∈ s.writtenUpTo u ↔ v ∈ t.written := by
    rw [State.mem_writtenUpTo_trans logged log, ← wrote v]
    exact or_iff_left_of_imp (only v)
  refine ⟨⟨⟨size.trans inner.size, inner.log.trans log, fun v hv => ?_, fun v hv => ?_, fun v apart => ?_⟩,
    fun v apart => ?_⟩, fun v hv ty typed => ?_⟩
  · by_cases again : v ∈ t.written
    · exact List.mem_append_left _ again
    · refine List.mem_append_right _ (List.mem_filter.2 ⟨hv, ?_⟩)
      simpa using again
  · exact List.mem_append_left _ ((all v).1 hv)
  · have unwritten : v ∉ t.written := fun hv => apart ((all v).2 hv)
    have spared := inner.spared v fun hv => unwritten ((wrote v).2 hv)
    refine ⟨(forgets.kept v unwritten) ▸ spared.tracked, fun hv => ?_⟩
    rcases List.mem_append.1 hv with hv | hv
    · exact (unwritten hv).elim
    · exact (List.mem_filter.1 hv).1
  · have table : u.table = t.table := by rw [forgets.same]
    have unwritten : v ∉ s.writtenUpTo t := fun hv => apart ((all v).2 ((wrote v).2 hv))
    exact (congrArg (List.lookup v) table).trans (inner.lookup v unwritten)
  · refine forgets.unknown v ((all v).1 hv) ty ?_
    rw [← typed, forgets.same]
    rfl

/-! ## The law -/

theorem notes_inlined (site : MacroSite) (context : Table) (given : List (VarId × Value)) (outs : Stage Value)
    (span : Span) (hrun : Respects c State.Notes (bindInputs given >>= fun _ => run site.body))
    (houts : Respects c State.Notes outs) :
    Respects c State.Notes (newScope >>= inlineCall run site context given outs span) := by
  intro s a s' ended
  obtain ⟨t, u, body, outputs, emitted⟩ := inlineCall_inv ended
  have joined : t.Marks { t with returned := false, table := s.table ++ t.table } := .of_same rfl rfl rfl
  have inner := ((hrun _ _ _ body).toMarks.trans joined).trans (houts _ _ _ outputs).toMarks
  have called : s.Notes { u with
      current := s.current, conditional := s.conditional, returned := s.returned, table := s.table
      tables := u.tables.tail } :=
    .elsewhere inner (.of_same rfl rfl rfl) (.of_same rfl rfl rfl) rfl
  split at emitted
  · exact called.trans (notes_emit _ _ _ _ emitted)
  · obtain ⟨-, rfl⟩ := pure_ok.1 emitted
    exact called

theorem law_notes : Law.Branching c (fun _ => True) State.Notes where
  newSlot _ _ := .get_bind fun _ => .bind (.modify fun _ => .of_same rfl rfl rfl rfl) fun _ => .pure _
  emit st _ := notes_emit st
  settled _ _ := .modify fun _ => .of_same rfl rfl rfl rfl
  tracked := notes_tracked
  track v _ := notes_track v
  trackAt v _ := notes_trackAt v
  create v _ := notes_create v
  inlined _ site context given outs span hrun houts := notes_inlined site context given outs span hrun houts
  emitted := notes_emit
  returned := .modify fun _ => .of_same rfl rfl rfl rfl
  statics _ := .modify fun _ => .of_same rfl rfl rfl rfl
  withTable _ _ h _ _ _ ended := by
    obtain ⟨t, worked, rfl⟩ := withTable_inv ended
    exact .elsewhere (h _ _ _ worked).toMarks (.of_same rfl rfl rfl) (.of_same rfl rfl rfl) rfl
  guarded _ _ hrun _ _ _ ended := by
    obtain ⟨rfl, t, worked, rfl⟩ := guarded_inv ended
    refine State.Notes.trans ?_ ((inBranch_leaves hrun worked).1.trans ?_)
    · exact .of_same rfl rfl rfl rfl
    · exact .of_same rfl rfl rfl rfl
  firstPass _ _ hrun _ _ _ ended := by
    obtain ⟨t, worked, rfl⟩ := loopPass_inv ended
    have inner := (inBranch_leaves hrun worked).1
    exact .elsewhere inner.toMarks (.of_same rfl rfl rfl) (.of_same rfl rfl rfl) rfl
  secondPass _ _ hrun _ _ _ ended := by
    obtain ⟨_, _, made, ended⟩ := bind_ok.1 ended
    obtain ⟨rfl, rfl⟩ := newScope_inv made
    obtain ⟨_, _, passed, ended⟩ := bind_ok.1 ended
    obtain ⟨-, rfl⟩ := pure_ok.1 ended
    obtain ⟨t, worked, rfl⟩ := loopPass_inv passed
    have inner := (inBranch_leaves hrun worked).1
    exact .elsewhere inner.toMarks (.of_same rfl rfl rfl) (.of_same rfl rfl rfl) rfl
  static _ _ exports span hrun _ _ _ ended := by
    obtain ⟨t, u, worked, found, rfl⟩ := staticBody_inv ended
    have inner := (hrun _ _ _ worked).trans (respects_exported exports span _ _ _ found)
    exact .elsewhere inner.toMarks (.of_same rfl rfl rfl) (.of_same rfl rfl rfl) rfl

theorem notes_block (depth : Nat) (i : Scoped.ScopeId) : Respects c State.Notes (block depth i) :=
  respects_block law_notes.extended (fun _ => trivial) depth i

/-! ## Leaving a body that may not run -/

/-- From `s` to `s'` a scope is worked out that may not run: that of a branch, or that of a loop in one pass over it. It
is left in `l`. -/
inductive Leaves (run : Scoped.ScopeId → Stage Unit) (c : Context) (s l s' : State) : Prop where
  | branch {body : Scoped.ScopeId} {scope : ScopeId} (ended : guarded run body c s = .ok (scope, s'))
    (left : inBranch (run body) c { s with out := s.out.addScope, current := some s.out.scopes.size } = .ok ((), l))
  | pass {body : Scoped.ScopeId} {into : Option ScopeId} (made : ∀ i, into = some i → i < s.out.scopes.size)
    (ended : loopPass run body into c s = .ok ((), s'))
    (left : inBranch (run body) c { s with
      current := into, discarding := s.discarding || into.isNone, tables := s.table :: s.tables } = .ok ((), l))

/-- Every body of a branch that is worked out is left in some state. -/
theorem leaves_of_guarded {body : Scoped.ScopeId} {scope : ScopeId} (ended : guarded run body c s = .ok (scope, s')) :
    ∃ l, Leaves run c s l s' := by
  obtain ⟨rfl, l, left, -⟩ := guarded_inv ended
  exact ⟨l, .branch ended left⟩

/-- So is every pass over the body of a loop. -/
theorem leaves_of_loopPass {body : Scoped.ScopeId} {into : Option ScopeId}
    (made : ∀ i, into = some i → i < s.out.scopes.size) (ended : loopPass run body into c s = .ok ((), s')) :
    ∃ l, Leaves run c s l s' := by
  obtain ⟨l, left, -⟩ := loopPass_inv ended
  exact ⟨l, .pass made ended left⟩

/-- Behind a scope there is what it was left with, under the table from before it. -/
theorem Leaves.behind (h : Leaves run c s l s') : (s'.tracked = l.tracked ∧ s'.log = l.log ∧ s'.written = l.written) ∧
    s'.records = l.records := by
  cases h with
  | branch ended left =>
    obtain ⟨rfl, l', left', rfl⟩ := guarded_inv ended
    obtain ⟨-, rfl⟩ := Prod.mk.inj (Except.ok.inj (left.symm.trans left'))
    exact ⟨⟨rfl, rfl, rfl⟩, rfl⟩
  | pass made ended left =>
    obtain ⟨l', left', rfl⟩ := loopPass_inv ended
    obtain ⟨-, rfl⟩ := Prod.mk.inj (Except.ok.inj (left.symm.trans left'))
    exact ⟨⟨rfl, rfl, rfl⟩, rfl⟩

theorem Leaves.notes (hrun : ∀ i, Respects c State.Notes (run i)) (h : Leaves run c s l s') :
    s.Notes l ∧ ∀ v ∈ s.writtenUpTo l, ∀ ty, l.typeOf? v = some ty → l.Unknown v ty := by
  cases h with
  | branch ended left =>
    obtain ⟨inner, unknown⟩ := inBranch_leaves (hrun _) left
    refine ⟨State.Notes.trans ?_ inner, unknown⟩
    exact .of_same rfl rfl rfl rfl
  | pass made ended left =>
    obtain ⟨inner, unknown⟩ := inBranch_leaves (hrun _) left
    refine ⟨State.Notes.trans ?_ inner, unknown⟩
    exact .of_same rfl rfl rfl rfl

/-- A record whose type is settled stays. -/
theorem Leaves.settled {depth : Nat} {o : Owners} (hp : c.source.Plain) (sound : s.Sound c.source o)
    (h : Leaves (block depth) c s l s') {id : Nat} {r : Record} (found : s.records[id]? = some r)
    (typed : r.bound.actual.isSome) : l.records[id]? = some r := by
  have runs : Runs c (fun _ => True) (block depth) := runs_block hp (fun _ => trivial) depth
  rw [← h.behind.2]
  cases h with
  | branch ended left =>
    obtain ⟨o', reach, -⟩ := keeps_guarded runs sound _ _ ended
    exact reach.grows.settled id r found typed
  | pass made ended left =>
    obtain ⟨o', reach, -⟩ := keeps_loopPass runs sound made _ _ ended
    exact reach.grows.settled id r found typed

/-- What is tracked of a spared variable reads as before, if it is of the type of its record. -/
theorem view_of_spares {v : VarId} {r : Record} {ty : Ty} (spares : s.Spares v s') (actual : r.bound.actual = some ty)
    (agrees : s'.Agrees v r) : s'.view v r.bound = s.view v r.bound := by
  rcases spares.tracked with same | ⟨blank, dims, shaped⟩
  · exact State.view_eq_of_tracked same r.bound
  · have typed : unknownFor r.bound = .unknownOf ty.dims := by
      rw [unknownFor, actual]
      rfl
    have before : s.view v r.bound = .unknownOf ty.dims := by
      rw [← typed, State.view, Array.getD_eq_getD_getElem?]
      rcases blank with blank | blank <;> rw [blank] <;> rfl
    rw [before, State.view, Array.getD_eq_getD_getElem?, shaped, Option.getD_some]
    cases dims with
    | nil => exact typed
    | cons n ns =>
      rcases agrees _ shaped with none | ⟨t, same, has⟩
      · cases none
      · obtain rfl : t = ty := Option.some.inj (same.symm.trans actual)
        exact Datum.unknownOf_eq_of_has has

/-- What a scope wrote that may not run is in the outer set, and wholly unknown where it has a type. Another variable
is spared, and keeps its record. So it reads as before, if what is tracked of it is still of its type. -/
theorem written_reaches_outside {depth : Nat} {o : Owners} (hp : c.source.Plain) (sound : s.Sound c.source o)
    (leaves : Leaves (block depth) c s l s') :
    (∀ v, v ∈ s'.written ↔ v ∈ s.written ∨ v ∈ s.writtenUpTo s') ∧
    (∀ v ∈ s.writtenUpTo s', ∀ ty, l.typeOf? v = some ty → v < s.tracked.size →
      s'.tracked[v]? = some (some (.unknownOf ty.dims))) ∧
    ∀ v, v ∉ s.writtenUpTo s' → s.Spares v s' ∧
      ∀ r ty, s.Lists v r → r.bound.actual = some ty → l.Lists v r ∧
        (s'.Agrees v r → s'.view v r.bound = s.view v r.bound) := by
  obtain ⟨⟨tracked, log, written⟩, -⟩ := leaves.behind
  obtain ⟨notes, unknown⟩ := leaves.notes (notes_block depth)
  have marks : s.Marks s' := notes.toMarks.trans (.of_same tracked log written)
  have upTo : s.writtenUpTo s' = s.writtenUpTo l := by rw [State.writtenUpTo, State.writtenUpTo, log]
  refine ⟨fun v => marks.mem_written, fun v hv ty typed room => ?_, fun v apart => ⟨marks.spared v apart, ?_⟩⟩
  · have inside : v < l.tracked.size := notes.size ▸ room
    have known := Array.getElem?_eq_getElem inside
    rw [tracked, known, unknown v (upTo ▸ hv) ty typed _ known]
  · intro r ty lists actual
    obtain ⟨id, lookup, found⟩ := lists
    have kept := leaves.settled hp sound found (by rw [actual]; rfl)
    exact ⟨⟨id, (notes.lookup v (upTo ▸ apart)).trans lookup, kept⟩, view_of_spares (marks.spared v apart) actual⟩

/-! ## Two branches -/

theorem exists_lists_of_typeOf {v : VarId} {ty : Ty} (typed : s.typeOf? v = some ty) :
    ∃ r, s.Lists v r ∧ r.bound.actual = some ty := by
  rw [State.typeOf?] at typed
  obtain ⟨id, lookup, actual⟩ := Option.bind_eq_some_iff.1 typed
  rw [Array.getD_eq_getD_getElem?] at actual
  cases found : s.records[id]? with
  | none =>
    rw [found] at actual
    cases actual
  | some r =>
    rw [found] at actual
    exact ⟨r, ⟨id, lookup, found⟩, actual⟩

/-- Works out the first clause of a branch. The states are the one behind its condition, the one its scope is left in,
and the one behind it. -/
def leaveClause (run : Scoped.ScopeId → Stage Unit) (st : Scoped.Stmt) (c : Context) (t : State) :
    Except Failure (State × State × State) :=
  match st with
  | .branch (x :: _) _ _ => do
    let (_, s) ← expression run x.condition c t
    let (_, l) ← inBranch (run x.body) c { s with out := s.out.addScope, current := some s.out.scopes.size }
    let (_, s') ← guarded run x.body c s
    return (s, l, s')
  | _ => throw .tooDeep

theorem leaveClause_ok {st : Scoped.Stmt} (h : leaveClause run st c t = .ok (s, l, s')) :
    (∃ x cs otherwise span a, st = .branch (x :: cs) otherwise span ∧ expression run x.condition c t = .ok (a, s)) ∧
      Leaves run c s l s' := by
  unfold leaveClause at h
  split at h
  · obtain ⟨⟨a, _⟩, asked, h⟩ := except_bind_ok.1 h
    obtain ⟨⟨_, _⟩, left, h⟩ := except_bind_ok.1 h
    obtain ⟨⟨_, _⟩, ended, h⟩ := except_bind_ok.1 h
    cases h
    exact ⟨⟨_, _, _, _, a, rfl, asked⟩, .branch ended left⟩
  · cases h

/-- Works out the first clause of a branch of the entry. -/
def leaveBranch (depth place : Nat) (c : Context) : Except Failure (State × State × State) :=
  match (c.source.scope c.source.entry).body[place]? with
  | some st => do
    let (_, t) ← upTo depth place c { tracked := Array.replicate c.source.vars.size none }
    leaveClause (block depth) st c t
  | none => throw .tooDeep

theorem leaveBranch_ok {depth place : Nat} (hp : c.source.Plain) (h : leaveBranch depth place c = .ok (s, l, s')) :
    (∃ o, s.Sound c.source o) ∧ Leaves (block depth) c s l s' := by
  unfold leaveBranch at h
  split at h
  · rename_i st stands
    obtain ⟨⟨_, t⟩, reached, h⟩ := except_bind_ok.1 h
    obtain ⟨⟨x, cs, otherwise, span, a, rfl, asked⟩, leaves⟩ := leaveClause_ok h
    obtain ⟨o, sound⟩ := sound_upTo hp reached
    have plain : x.condition.Plain := hp.stmts _ _ (Array.mem_of_getElem? stands) x List.mem_cons_self
    have runs : Runs c (fun _ => True) (block depth) := runs_block hp (fun _ => trivial) depth
    obtain ⟨o', reach, -⟩ := keeps_expression runs _ plain (fun _ _ => trivial) sound _ _ asked
    exact ⟨⟨o', reach.sound⟩, leaves⟩
  · cases h

/-- A branch that writes one variable in a loop, by way of a macro, and another one in an unrolled loop. -/
def nestedWrites : String :=
  "input INT a;\nINT x=1;\nINT y=2;\nINT z=3;\nmacro Id(v):w \x7bAUTO w=v;\x7d\n" ++
    "if a==0 \x7b\nfor i=0 to a \x7bx=Id(i);\x7d\nfor i=0 to 2 \x7by=i;\x7d\n\x7d\n"

/-- Behind the branch `x` and `y` are written and unknown, and `z` is as known as before. -/
theorem written_reaches_outside_nested :
    ∃ p c', (Compiler.scopedOf "main").run (Compiler.ofText nestedWrites) = (.ok p, c') ∧
      ∃ x y z s l s' r, ((p.var x).name = "x" ∧ (p.var y).name = "y" ∧ (p.var z).name = "z") ∧
        leaveBranch 6 8 ⟨p, {}⟩ = .ok (s, l, s') ∧ Leaves (block 6) ⟨p, {}⟩ s l s' ∧
        (x ∈ s.writtenUpTo s' ∧ x ∈ s'.written ∧ s'.tracked[x]? = some (some (.unknownOf []))) ∧
        (y ∈ s.writtenUpTo s' ∧ y ∈ s'.written ∧ s'.tracked[y]? = some (some (.unknownOf []))) ∧
        z ∉ s.writtenUpTo s' ∧ s.Lists z r ∧ l.Lists z r ∧ s'.view z r.bound = s.view z r.bound ∧
        (s'.view z r.bound).int? = some 3 := by
  have chars : nestedWrites.toList = _ := Compiler.toList_append_of String.toList_ofList String.toList_ofList
  obtain ⟨p, c', built, tested⟩ := Compiler.scopedOf_of_any chars (P := fun p =>
    (leaveBranch 6 8 ⟨p, {}⟩).toOption.any fun (s, l, s') =>
      decide (((p.var 54).name = "x" ∧ (p.var 55).name = "y" ∧ (p.var 56).name = "z") ∧
        (54 ∈ s.writtenUpTo s' ∧ l.typeOf? 54 = some .int ∧ 54 < s.tracked.size) ∧
        (55 ∈ s.writtenUpTo s' ∧ l.typeOf? 55 = some .int ∧ 55 < s.tracked.size) ∧
        56 ∉ s.writtenUpTo s' ∧ s.typeOf? 56 = some .int ∧ (s'.tracked.getD 56 none).bind Datum.int? = some 3))
    (by decide +kernel)
  obtain ⟨⟨s, l, s'⟩, staged, tested⟩ := exists_ok_of_any tested
  obtain ⟨names, ⟨wroteX, typedX, roomX⟩, ⟨wroteY, typedY, roomY⟩, apart, typedZ, three⟩ := of_decide_eq_true tested
  have plain := Compiler.plain_of_scopedOf built
  obtain ⟨⟨o, sound⟩, leaves⟩ := leaveBranch_ok plain staged
  obtain ⟨marked, unknown, spared⟩ := written_reaches_outside plain sound leaves
  obtain ⟨r, lists, actual⟩ := exists_lists_of_typeOf typedZ
  obtain ⟨listed, reads⟩ := (spared 56 apart).2 r .int lists actual
  obtain ⟨d, tracked, isThree⟩ := Option.bind_eq_some_iff.1 three
  obtain rfl : d = .int 3 := by cases d <;> simp_all [Datum.int?]
  have agrees : s'.Agrees 56 r := by
    intro e known
    rw [Array.getD_eq_getD_getElem?, known] at tracked
    cases tracked
    exact .inr ⟨.int, actual, .inr (Datum.isA_int 3)⟩
  refine ⟨p, c', built, 54, 55, 56, s, l, s', r, names, staged, leaves,
    ⟨wroteX, (marked 54).2 (.inr wroteX), unknown 54 wroteX .int typedX roomX⟩,
    ⟨wroteY, (marked 55).2 (.inr wroteY), unknown 55 wroteY .int typedY roomY⟩,
    apart, lists, listed, reads agrees, ?_⟩
  rw [State.view, tracked]
  rfl

/-- A branch that reads `x` as an array of one, in a macro for which `x` is an array of two. -/
def otherLengths : String :=
  "input INT a;\nMACRO f;\nMACRO g;\nMACRO h;\nmacro M(x):(p,q) \x7b\nmacro p() \x7bAUTO t=x;\x7d\n" ++
    "macro q() \x7bif a==0 \x7bf();\x7d x[0]=5; AUTO t=x;\x7d\n\x7d\n" ++
    "M([a]):(f,h);\nM([a,a]):(h,g);\nM(a):(h,h);\ng();\n"

/-- Enters a macro that a statement of the entry calls without inputs, and works out the branch that it begins with. -/
def leaveInCall (depth place : Nat) (c : Context) : Except Failure (State × State × State) := do
  let (_, s) ← upTo depth place c { tracked := Array.replicate c.source.vars.size none }
  match (c.source.scope c.source.entry).body[place]? with
  | some (.expr (.call callee calleeSpan [] [] _) _) => do
    let (m, t) ← readVar callee calleeSpan c s
    match m.content with
    | .known (.macroRef site context) =>
      match (c.source.scope site.body).body[0]? with
      | some st => leaveClause (block depth) st c { t with
          out := t.out.addScope, current := some t.out.scopes.size, conditional := 0, returned := false
          table := context, tables := t.table :: t.tables }
      | none => throw .tooDeep
    | _ => throw .tooDeep
  | _ => throw .tooDeep

theorem leaveInCall_ok {depth place : Nat} (h : leaveInCall depth place c = .ok (s, l, s')) :
    Leaves (block depth) c s l s' := by
  obtain ⟨⟨_, t⟩, -, h⟩ := except_bind_ok.1 h
  dsimp only at h
  split at h
  · obtain ⟨⟨m, u⟩, -, h⟩ := except_bind_ok.1 h
    dsimp only at h
    split at h
    · split at h
      · exact (leaveClause_ok h).2
      · cases h
    · cases h
  · cases h

/-- Whether an array of two is assigned as one element. -/
def assignsShort (st : Stmt) : Bool :=
  match st with
  | .assign _ (.literal (.array [.int 5]) (.array 2 .int) _) _ => true
  | _ => false

theorem assignsShort_iff {st : Stmt} : assignsShort st ↔
    ∃ target at' span, st = .assign target (.literal (.array [.int 5]) (.array 2 .int) at') span := by
  constructor
  · intro isShort
    unfold assignsShort at isShort
    split at isShort
    · exact ⟨_, _, _, rfl⟩
    · cases isShort
  · rintro ⟨target, at', span, rfl⟩
    rfl

/-- Nothing is written to `x` in the branch, and before it `x` reads as two unknown elements. The last activation of `M`
gave `x` no lengths, so the branch, which reads `x` for the first activation, gives it one. Behind it the macro writes
the first element of an array of two, and the array counts as known: `t` gets a literal with one element. -/
theorem unwritten_reads_otherwise :
    ∃ p c', (Compiler.scopedOf "main").run (Compiler.ofText otherLengths) = (.ok p, c') ∧
      (∃ x s l s', (p.var x).name = "x" ∧ leaveInCall 6 8 ⟨p, {}⟩ = .ok (s, l, s') ∧
        Leaves (block 6) ⟨p, {}⟩ s l s' ∧ x ∉ s.writtenUpTo s' ∧
        s.typeOf? x = some (.array 2 .int) ∧ l.typeOf? x = some (.array 2 .int) ∧
        ((s.view x (.exactly (.array 2 .int))).item? [1]).isSome ∧
        ((s'.view x (.exactly (.array 2 .int))).item? [1]).isNone) ∧
      ∃ q i target at' span, resolve p {} = .ok q ∧
        .assign target (.literal (.array [.int 5]) (.array 2 .int) at') span ∈ q.scope i := by
  have chars : otherLengths.toList = _ := Compiler.toList_append_of
    (Compiler.toList_append_of String.toList_ofList String.toList_ofList) String.toList_ofList
  obtain ⟨p, c', built, tested⟩ := Compiler.scopedOf_of_any chars (P := fun p =>
      ((leaveInCall 6 8 ⟨p, {}⟩).toOption.any fun (s, l, s') =>
        decide ((p.var 57).name = "x" ∧ 57 ∉ s.writtenUpTo s' ∧ s.typeOf? 57 = some (.array 2 .int) ∧
          l.typeOf? 57 = some (.array 2 .int) ∧ ((s.view 57 (.exactly (.array 2 .int))).item? [1]).isSome ∧
          ((s'.view 57 (.exactly (.array 2 .int))).item? [1]).isNone)) &&
      (resolve p {}).toOption.any fun q => (q.scope 5).any assignsShort)
    (by decide +kernel)
  obtain ⟨staged, resolved⟩ := Bool.and_eq_true_iff.1 tested
  obtain ⟨⟨s, l, s'⟩, staged, tested⟩ := exists_ok_of_any staged
  obtain ⟨name, apart, before, behind, two, one⟩ := of_decide_eq_true tested
  obtain ⟨q, resolved, tested⟩ := exists_ok_of_any resolved
  obtain ⟨st, stands, isShort⟩ := Array.any_eq_true'.1 tested
  obtain ⟨target, at', span, rfl⟩ := assignsShort_iff.1 isShort
  exact ⟨p, c', built, ⟨57, s, l, s', name, staged, leaveInCall_ok staged, apart, before, behind, two, one⟩,
    q, 5, target, at', span, resolved, stands⟩

end Stage

end SignalLang.Staged
