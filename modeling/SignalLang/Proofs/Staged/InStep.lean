import SignalLang.Proofs.Staged.Activations
import SignalLang.Proofs.Staged.Tracking

/-!
# Assignments keep what is tracked in step

An assignment changes what is tracked of a variable while it is staged, and the slot of the variable when the statement
it leaves behind runs. `Stage.assign_in_step` says that the two stay in step: what is tracked still has the shapes of the
types, and the statement takes every memory on which it holds to one on which it holds again.

The type of an open variable is settled first, which may add a slot (`State.Settles`). Then the tracked value follows the
value that the slot takes (`Place.Tracked.shows`), and the slots of other variables are other slots.
-/

namespace SignalLang.Staged

open Scoped (VarId)
open Datum (Has IsA Shaped Fills Shows)
open Steps

/-! ## Places that are worked out -/

namespace Stage

variable {c : Context} {run : Scoped.ScopeId → Stage Unit} {s s' : State} {p q : Place}

theorem leads_addIndex {slot : Option SlotId} {index : Value} {elem : Ty} (leads : p.Leads) :
    Ends .finite c s (addIndex p slot index elem) fun _ q => q.Leads ∧ q.record = p.record := by
  have appended {e : Expr} {es : List Expr} (all : p.indexes = es) :
      Place.Leads { p with dynamic := some (es ++ [e]), ty := some elem } := by
    obtain ⟨rest, leading⟩ := leads
    refine ⟨rest ++ [e], ?_⟩
    rw [← List.append_assoc, ← leading, all]
    rfl
  unfold addIndex
  split
  · rename_i n _ constant
    refine .pure ⟨⟨[], ?_⟩, rfl⟩
    rw [Place.indexes, constant, List.append_nil]
    rfl
  · rename_i indexes _ dynamic
    exact (flows_asExpr index).bind fun e _ _ => .pure ⟨appended (by rw [Place.indexes, dynamic]; rfl), rfl⟩
  · rename_i constant _
    split
    · exact .read_bind .refuse_bind
    · exact (flows_asExpr index).bind fun e _ _ => .pure ⟨appended (by rw [Place.indexes, constant]; rfl), rfl⟩

theorem leads_placeUnder {es : List Scoped.Expr} (leads : p.Leads) (h : placeUnder run p es c s = .ok (q, s')) :
    q.Leads ∧ q.record = p.record := by
  induction es generalizing p s with
  | nil =>
    rw [placeUnder] at h
    obtain ⟨rfl, -⟩ := pure_ok.1 h
    exact ⟨leads, rfl⟩
  | cons e rest ih =>
    obtain ⟨var, record, fixed, dynamic, ty, span⟩ := p
    rw [placeUnder] at h
    match ty with
    | some (.array length elem) =>
      obtain ⟨index, _, -, h⟩ := bind_ok.1 h
      obtain ⟨_, _, -, h⟩ := bind_ok.1 h
      obtain ⟨r, _, -, h⟩ := bind_ok.1 h
      obtain ⟨p', _, added, h⟩ := bind_ok.1 h
      obtain ⟨leads', same⟩ := (leads_addIndex leads).ok added
      obtain ⟨leads'', same'⟩ := ih leads' h
      exact ⟨leads'', same'.trans same⟩
    | some (.prim _) => exact (throw_ok.1 h).elim
    | none =>
      obtain ⟨_, _, -, h⟩ := bind_ok.1 h
      exact (throw_ok.1 h).elim

theorem lookup_recordOf (v : VarId) : Ends .finite c s (recordOf v) fun s' found =>
    s' = s ∧ s.table.lookup v = some found.1 := by
  refine .recordId_bind ?_
  cases lookup : s.table.lookup v with
  | none => exact .read_bind (.breakDown trivial)
  | some id => exact .get_bind (.pure ⟨rfl, rfl⟩)

/-- A place that was worked out is one of the variable of its target, by the record in the current table. -/
theorem leads_place {t : Scoped.Target} (h : place run t c s = .ok (p, s')) :
    p.Leads ∧ s'.table.lookup p.var = some p.record := by
  have table : s'.table = s.table :=
    respects_place law_sameTable (inlines_sameTable run) t (fun _ _ => trivial) s p s' h
  have var := var_of_place h
  obtain ⟨v, indexes, span⟩ := t
  rw [place] at h
  obtain ⟨⟨id, r⟩, s₁, found, worked⟩ := bind_ok.1 h
  obtain ⟨rfl, lookup⟩ := (lookup_recordOf v).ok found
  obtain ⟨_, _, -, worked⟩ := bind_ok.1 worked
  have under : ∃ s₂, placeUnder run ⟨v, id, [], none, r.bound.actual, span⟩ indexes c s₂ = .ok (p, s') := by
    rcases ite_ok.1 worked with ⟨-, worked⟩ | ⟨-, worked⟩
    · obtain ⟨_, s₂, -, worked⟩ := bind_ok.1 worked
      exact ⟨s₂, worked⟩
    · exact ⟨_, worked⟩
  obtain ⟨s₂, under⟩ := under
  obtain ⟨leads, record⟩ := leads_placeUnder ⟨[], rfl⟩ under
  exact ⟨leads, by rw [table, var, record]; exact lookup⟩

/-- A place that was worked out, and that is sound, fits the state behind it. -/
theorem fits_of_place {t : Scoped.Target} {o : Owners} (h : place run t c s = .ok (p, s'))
    (sound : s'.Sound c.source o) (placed : p.Sound o s') : ∃ r, p.Fits s' r := by
  obtain ⟨leads, lookup⟩ := leads_place h
  have size : p.record < s'.records.size := by
    rw [← sound.owners]
    exact (Array.getElem?_eq_some_iff.1 placed.owner).1
  have found := Array.getElem?_eq_getElem size
  refine ⟨s'.records[p.record], lookup, found, leads, fun opened => ?_, fun ty settled => ?_⟩
  · obtain ⟨all, constant, unsettled⟩ := placed.unsettled opened
    exact ⟨unsettled _ found, all, constant⟩
  · obtain ⟨-, r, whole, hr, actual, selects⟩ := placed.settled ty settled
    rw [found] at hr
    cases hr
    exact ⟨whole, actual, selects⟩

end Stage

/-! ## Settled types -/

/-- The variable of a place has the record `r` of a settled type, with its old slot or with a new one. -/
structure State.Settles (p : Place) (r : Record) (s s' : State) : Prop where
  lookup : s.table.lookup p.var = some p.record
  found : s'.records[p.record]? = some r
  others : ∀ i, i ≠ p.record → s'.records[i]? = s.records[i]?
  table : s'.table = s.table
  tracked : s'.tracked = s.tracked
  current : s'.current = s.current
  scopes : s'.out.scopes = s.out.scopes
  vars : Extends s.out.vars s'.out.vars
  added : ∀ (j : SlotId) x, s'.out.vars[j]? = some x → s.out.vars[j]? = some x ∨ r.slot = some j
  typed : ∀ k, r.slot = some k → ∃ x, s'.out.vars[k]? = some x ∧ r.bound.actual = some x.ty
  own : ∀ w r' k, w ≠ p.var → s.Lists w r' → r'.slot = some k → r.slot ≠ some k

namespace State.Settles

variable {p : Place} {r : Record} {s s' : State}

/-- A variable that is settled already. -/
theorem refl (allotted : s.Allotted) (lookup : s.table.lookup p.var = some p.record)
    (found : s.records[p.record]? = some r) : Settles p r s s where
  lookup := lookup
  found := found
  others _ _ := rfl
  table := rfl
  tracked := rfl
  current := rfl
  scopes := rfl
  vars := .refl _
  added _ _ h := .inl h
  typed k hk := allotted.typed p.var r k ⟨p.record, lookup, found⟩ hk
  own _ _ k other lists hk same := other (allotted.slots _ _ _ _ k lists ⟨p.record, lookup, found⟩ hk same)

variable (h : Settles p r s s')

include h

theorem lists : s'.Lists p.var r := ⟨p.record, h.table ▸ h.lookup, h.found⟩

theorem lists_eq {r' : Record} (lists : s'.Lists p.var r') : r' = r := by
  obtain ⟨id, hid, hr⟩ := lists
  rw [h.table, h.lookup] at hid
  cases hid
  rw [h.found] at hr
  exact (Option.some.inj hr).symm

/-- The records of other variables stay. -/
theorem lists_other (allotted : s.Allotted) {w : VarId} (other : w ≠ p.var) {r' : Record} (lists : s'.Lists w r') :
    s.Lists w r' := by
  obtain ⟨id, hid, hr⟩ := lists
  rw [h.table] at hid
  refine ⟨id, hid, ?_⟩
  rw [← h.others id fun same => other (allotted.records w p.var id hid (same ▸ h.lookup))]
  exact hr

theorem allotted (allotted : s.Allotted) : s'.Allotted := by
  refine ⟨?_, fun v w r₁ r₂ k hv hw hk hk' => ?_, fun v r' k hv hk => ?_⟩
  · rw [h.table]
    exact allotted.records
  · rcases Decidable.em (v = p.var) with rfl | hne <;> rcases Decidable.em (w = p.var) with rfl | hne'
    · rfl
    · exact (h.own w r₂ k hne' (h.lists_other allotted hne' hw) hk' (h.lists_eq hv ▸ hk)).elim
    · exact (h.own v r₁ k hne (h.lists_other allotted hne hv) hk (h.lists_eq hw ▸ hk')).elim
    · exact allotted.slots v w r₁ r₂ k (h.lists_other allotted hne hv) (h.lists_other allotted hne' hw) hk hk'
  · rcases Decidable.em (v = p.var) with rfl | hne
    · obtain rfl := h.lists_eq hv
      exact h.typed k hk
    · obtain ⟨x, hx, actual⟩ := allotted.typed v r' k (h.lists_other allotted hne hv) hk
      exact ⟨x, h.vars k x hx, actual⟩

end State.Settles

namespace Stage

variable {c : Context} {s s' : State} {p : Place} {r : Record} {v : Value} {whole ty : Ty} {span : Span}

/-- The record of an open variable with the type and the slot that it takes. -/
def settledRecord (r : Record) (ty : Ty) (slot : Option SlotId) : Record :=
  { r with bound := { r.bound with actual := some ty }, slot := slot }

section Opened

variable (allotted : s.Allotted) (target : p.Fits s r)

include allotted target

theorem settles_slotted (definition : Span) :
    State.Settles p (settledRecord r ty (some s.out.vars.size)) s { s with
      out := s.out.addVariable ⟨ty, definition⟩
      records := s.records.setIfInBounds p.record (settledRecord r ty (some s.out.vars.size)) } where
  lookup := target.lookup
  found := Array.getElem?_setIfInBounds_self_of_lt (Array.getElem?_eq_some_iff.1 target.found).1
  others i hi := Array.getElem?_setIfInBounds_ne hi.symm
  table := rfl
  tracked := rfl
  current := rfl
  scopes := rfl
  vars := .push _ _
  added j x hx := by
    rw [Program.addVariable, Array.getElem?_push] at hx
    split at hx
    · rename_i last
      exact .inr (congrArg some last.symm)
    · exact .inl hx
  typed k hk := by
    cases hk
    exact ⟨_, Array.getElem?_push_size, rfl⟩
  own w r' k other hw hk same := by
    -- The slot is new, and slots of other variables are not.
    obtain ⟨x, hx, -⟩ := allotted.typed w r' k hw hk
    cases same
    simp at hx

theorem settles_slotless (unsettled : r.bound.actual = none) :
    State.Settles p (settledRecord r ty r.slot) s { s with
      records := s.records.setIfInBounds p.record (settledRecord r ty r.slot) } := by
  -- The record of an open variable has no slot.
  have without (k : SlotId) : r.slot ≠ some k := by
    intro slot
    obtain ⟨x, -, actual⟩ := allotted.typed p.var r k ⟨p.record, target.lookup, target.found⟩ slot
    rw [unsettled] at actual
    cases actual
  have size := (Array.getElem?_eq_some_iff.1 target.found).1
  exact ⟨target.lookup, Array.getElem?_setIfInBounds_self_of_lt size,
    fun i hi => Array.getElem?_setIfInBounds_ne hi.symm, rfl, rfl, rfl, rfl, .refl _, fun j x hx => .inl hx,
    fun k hk => (without k hk).elim, fun _ _ k _ _ _ same => without k same⟩

/-- An open variable takes the type of the value, and a new slot if the type has one. -/
theorem settle_settles (opened : p.ty = none) :
    Ends .finite c s (settle p v) fun s' _ => ∃ r', State.Settles p r' s s' ∧ r'.bound.actual = some v.ty := by
  obtain ⟨unsettled, -, -⟩ := target.opened opened
  refine .get_bind ?_
  rw [Array.getD_eq_getD_getElem?, target.found, Option.getD_some]
  refine .read_bind ?_
  dsimp only
  split
  · exact .refuse
  · exact .refuse
  · split
    · refine Ends.bind (Q := fun s₁ slot => slot = some s.out.vars.size ∧
        ∃ definition, s₁ = { s with out := s.out.addVariable ⟨v.ty, definition⟩ })
        (Ends.map (Ends.get_bind (Ends.modify_bind (.pure ⟨rfl, _, rfl⟩)))) fun slot s₁ h₁ => ?_
      obtain ⟨rfl, definition, rfl⟩ := h₁
      exact Ends.modify ⟨_, settles_slotted allotted target definition, rfl⟩
    · exact Ends.modify ⟨_, settles_slotless allotted target unsettled, rfl⟩

end Opened

/-! ## Running what is left -/

/-- What is left to run time puts the stretched value where the place is on the memory. -/
theorem execAll_stores {enter : ScopeId → Memory → Except Halt Memory} {m m' : Memory} {k : SlotId} {sts : List Stmt}
    (stores : p.Stores v ty span (some k) sts) : execAll enter sts m = .ok m' ↔
      ∃ path x y z, p.path? m = some path ∧ v.at? m = some x ∧ Datum.stretch? ty.dims v.ty.dims x = some y ∧
        (m k).set? path y = some z ∧ m' = m.set k z := by
  obtain ⟨e, rfl, ety, value⟩ := stores
  have run : execAll enter [.assign ⟨k, p.indexes, ty, p.span⟩ e span] m = .ok m' ↔
      Target.store ⟨k, p.indexes, ty, p.span⟩ e m = some m' := by
    rw [execAll, Stmt.exec]
    cases Target.store ⟨k, p.indexes, ty, p.span⟩ e m with
    | none =>
      constructor <;> intro h <;> cases h
    | some m₁ =>
      constructor <;> intro h <;> cases h <;> rfl
  rw [run, Target.store, ety, value]
  constructor
  · intro h
    obtain ⟨ds, hds, h⟩ := Option.bind_eq_some_iff.1 h
    obtain ⟨path, hpath, h⟩ := Option.bind_eq_some_iff.1 h
    obtain ⟨x, hx, h⟩ := Option.bind_eq_some_iff.1 h
    obtain ⟨y, hy, h⟩ := Option.bind_eq_some_iff.1 h
    obtain ⟨z, hz, h⟩ := Option.bind_eq_some_iff.1 h
    cases h
    exact ⟨path, x, y, z, Place.path?_eq_some.2 ⟨ds, hds, hpath⟩, hx, hy, hz, rfl⟩
  · rintro ⟨path, x, y, z, hpath, hx, hy, hz, rfl⟩
    obtain ⟨ds, hds, hpath⟩ := Place.path?_eq_some.1 hpath
    simp [hds, hpath, hx, hy, hz]

section Slots

variable (target : p.Fits s r) (selects : Expr.Selects s.out.vars p.indexes whole ty)

include target selects

theorem fits_of_selects : p.fixed.length ≤ whole.dims.length ∧
    (p.dynamic = none → whole.dims.drop p.fixed.length = ty.dims) := by
  obtain ⟨-, len, drop⟩ := selects.dims
  obtain ⟨rest, leading⟩ := target.leads
  refine ⟨?_, fun constant => ?_⟩
  · rw [leading, List.length_append, List.length_map] at len
    omega
  · rw [Place.indexes, constant, Option.getD_none, List.length_map] at drop
    exact drop

/-- What is tracked holds of the slot after the statement: either the slot was in step before, or all of it is
replaced. -/
theorem slot_follows {vars : Array Variable} {d d' x y z : Datum} {m : Memory} {k : SlotId} {path : List Int}
    (typed : v.Typed vars) (memory : m.Typed vars) (promotes : v.ty.promotesTo ty = true)
    (tracked : p.Tracked v whole ty d d')
    (before : (p.fixed = [] ∧ p.dynamic = none ∧ ty = v.ty ∧ whole = v.ty) ∨
      (m k).Has (IsA whole.base) whole.dims ∧ Shows whole.base whole.dims d (m k))
    (hpath : p.path? m = some path) (hx : v.at? m = some x)
    (hy : Datum.stretch? ty.dims v.ty.dims x = some y) (hz : (m k).set? path y = some z) :
    z.Has (IsA whole.base) whole.dims ∧ Shows whole.base whole.dims d' z := by
  obtain ⟨base, stretches⟩ := Ty.promotesTo_iff.1 promotes
  have hasY : y.Has (IsA ty.base) ty.dims := by
    obtain ⟨e, run, has⟩ := (typed.has memory hx).stretch? stretches
    rw [hy] at run
    cases run
    exact base ▸ has
  have stretched : ∀ x', v.content = .known x' → Datum.stretch? ty.dims v.ty.dims x' = some y := fun x' known => by
    rw [Value.at?, known] at hx
    cases hx
    exact hy
  obtain ⟨fits, part⟩ := fits_of_selects target selects
  rcases before with ⟨all, constant, rfl, rfl⟩ | ⟨has, shows⟩
  · have here : path = [] := (target.path_eq constant hpath).trans all
    rw [here, Datum.set?_nil] at hz
    cases hz
    exact ⟨hasY, tracked.shows_whole typed all hasY.fills stretched⟩
  · obtain ⟨same, len, drop⟩ := selects.dims
    have length := Place.length_path hpath
    rw [← length] at len drop
    rw [← same, ← drop] at hasY
    exact ⟨has.set? len hasY hz, tracked.shows typed fits part promotes shows (target.fixed_prefix hpath)
      (fun constant => target.path_eq constant hpath) len hasY.fills stretched hz⟩

end Slots

/-- How an assignment comes to its end: the type of the variable is settled, its tracked value is replaced, and `sts` is
left to run time. The record is another one only when a value is given to all of an open variable. -/
structure Assigns (p : Place) (v : Value) (span : Span) (r r' : Record) (whole ty : Ty) (sts : List Stmt)
    (s s₁ s₂ : State) : Prop where
  stored : p.ty.getD v.ty = ty
  settles : State.Settles p r' s s₁
  actual : r'.bound.actual = some whole
  selects : Expr.Selects s.out.vars p.indexes whole ty
  promotes : v.ty.promotesTo ty = true
  retracks : s₁.Retracks p.var s₂
  tracked : p.Tracked v whole ty (s₁.view p.var r'.bound) (s₂.view p.var r'.bound)
  stores : p.Stores v ty span r'.slot sts
  origin : p.ty = none ∧ (p.fixed = [] ∧ p.dynamic = none ∧ ty = v.ty ∧ whole = v.ty) ∨ s₁ = s ∧ r' = r

theorem assign_assigns (allotted : s.Allotted) (shaped : s.InShape) (target : p.Fits s r)
    (typed : v.Typed s.out.vars) : Ends .finite c s (assign p v span) fun s' _ => ∃ r' whole ty sts s₁ s₂,
      Assigns p v span r r' whole ty sts s s₁ s₂ ∧ s' = s₂.emitting sts := by
  rw [assign_eq]
  cases hty : p.ty with
  | none =>
    obtain ⟨-, all, constant⟩ := target.opened hty
    have selects : Expr.Selects s.out.vars p.indexes v.ty v.ty := by
      rw [Place.indexes, constant, all]
      rfl
    obtain ⟨fits, part⟩ := fits_of_selects target selects
    refine (settle_settles allotted target hty).bind fun _ s₁ h₁ => ?_
    obtain ⟨r', settles, actual⟩ := h₁
    refine (assignAs_view settles.found actual (typed.mono settles.vars) fits part (.inl ⟨all, rfl⟩)).mono
      fun s' _ h => ?_
    obtain ⟨s₂, sts, retracks, tracked, stores, emitted⟩ := h
    exact ⟨r', v.ty, v.ty, sts, s₁, s₂, ⟨by rw [hty]; rfl, settles, actual, selects, Ty.promotesTo_refl _, retracks,
      tracked, stores, .inl ⟨hty, all, constant, rfl, rfl⟩⟩, emitted⟩
  | some ty =>
    obtain ⟨whole, actual, selects⟩ := target.settled ty hty
    obtain ⟨fits, part⟩ := fits_of_selects target selects
    refine .check fun refused => ?_
    have shape := shaped p.var r whole ⟨p.record, target.lookup, target.found⟩ actual
    refine (assignAs_view target.found actual typed fits part (.inr shape)).mono fun s' _ h => ?_
    obtain ⟨s₂, sts, retracks, tracked, stores, emitted⟩ := h
    exact ⟨r, whole, ty, sts, s, s₂, ⟨by rw [hty]; rfl, .refl allotted target.lookup target.found, actual, selects,
      by simpa using refused, retracks, tracked, stores, .inr ⟨rfl, rfl⟩⟩, emitted⟩

namespace Assigns

variable {r' : Record} {sts : List Stmt} {s₁ s₂ : State}
  (h : Assigns p v span r r' whole ty sts s s₁ s₂)

include h

theorem lists : (s₂.emitting sts).Lists p.var r' :=
  ⟨p.record, (h.retracks.table.trans h.settles.table).symm ▸ h.settles.lookup,
    (congrArg (·[p.record]?) h.retracks.records).trans h.settles.found⟩

/-- A variable of a settled type keeps its record. -/
theorem same (settled : p.ty.isSome) : r' = r := by
  rcases h.origin with ⟨opened, -⟩ | ⟨-, same⟩
  · rw [opened] at settled
    cases settled
  · exact same

theorem lists_of {w : VarId} {r₁ : Record} (lists : (s₂.emitting sts).Lists w r₁) : s₁.Lists w r₁ := by
  obtain ⟨id, hid, hr⟩ := lists
  exact ⟨id, h.retracks.table ▸ hid, h.retracks.records ▸ hr⟩

/-- Nothing else is known of other variables. -/
theorem view_other {w : VarId} (other : w ≠ p.var) (b : Bound) : (s₂.emitting sts).view w b = s.view w b :=
  (State.view_eq_of_tracked (h.retracks.others w other) b).trans
    (State.view_eq_of_tracked (congrArg (·[w]?) h.settles.tracked) b)

theorem vars_eq : (s₂.emitting sts).out.vars = s₁.out.vars := by
  rw [State.vars_emitting, h.retracks.out]

theorem allotted (allotted : s.Allotted) : (s₂.emitting sts).Allotted :=
  (h.settles.allotted allotted).of_eq h.retracks.table h.retracks.records h.vars_eq

/-- What is tracked still has the shapes of the types. -/
theorem inShape (allotted : s.Allotted) (shaped : s.InShape) (target : p.Fits s r) (typed : v.Typed s.out.vars) :
    (s₂.emitting sts).InShape := by
  intro w r₁ t lists actual
  rcases Decidable.em (w = p.var) with rfl | other
  · obtain rfl := h.settles.lists_eq (h.lists_of lists)
    rw [h.actual] at actual
    cases actual
    obtain ⟨fits, part⟩ := fits_of_selects target h.selects
    rcases h.origin with ⟨-, all, -, rfl, rfl⟩ | ⟨rfl, rfl⟩
    · exact (h.tracked.of_whole all).shaped typed fits part (Datum.shaped_unknownOf _)
    · exact h.tracked.shaped typed fits part (shaped p.var r₁ whole (h.lists_of lists) h.actual)
  · rw [h.view_other other]
    exact shaped w r₁ t (h.settles.lists_other allotted other (h.lists_of lists)) actual

/-- The elements outside of the place keep what is known of them. -/
theorem outside (target : p.Fits s r) {old : Ty} (actual : r.bound.actual = some old) {coord : List Int}
    (hc : coord.length = old.dims.length) (outside : ¬p.fixed <+: coord) :
    ((s₂.emitting sts).view p.var r.bound).item? coord = (s.view p.var r.bound).item? coord := by
  obtain ⟨fits, part⟩ := fits_of_selects target h.selects
  rcases h.origin with ⟨-, all, -⟩ | ⟨rfl, rfl⟩
  · rw [all] at outside
    exact absurd List.nil_prefix outside
  · rw [h.actual] at actual
    cases actual
    exact h.tracked.apart part fits hc outside

/-- The slot of the variable is in step before, unless all of it is replaced. -/
theorem before (shaped : s.InShape) {m : Memory} (memory : m.Typed s.out.vars) (holds : s.HoldsOn m) {k : SlotId}
    (slot : r'.slot = some k) : (p.fixed = [] ∧ p.dynamic = none ∧ ty = v.ty ∧ whole = v.ty) ∨
      (m k).Has (IsA whole.base) whole.dims ∧ Shows whole.base whole.dims (s₁.view p.var r'.bound) (m k) := by
  rcases h.origin with ⟨-, whole⟩ | ⟨rfl, rfl⟩
  · exact .inl whole
  · obtain ⟨x, hx, actual⟩ := h.settles.typed k slot
    rw [h.actual] at actual
    cases actual
    have lists := h.settles.lists
    exact .inr ⟨memory k x hx, shaped p.var r' x.ty lists h.actual, (memory k x hx).fills,
      holds p.var r' x.ty k lists h.actual slot⟩

/-- What is tracked of other variables still holds where their slots stay as they are. -/
theorem holds_other (allotted : s.Allotted) {m m' : Memory} (holds : s.HoldsOn m) {w : VarId} (other : w ≠ p.var)
    {r₁ : Record} {t : Ty} {k : SlotId} (lists : (s₂.emitting sts).Lists w r₁) (actual : r₁.bound.actual = some t)
    (slot : r₁.slot = some k) (kept : m' k = m k) : ∀ coord l, coord.length = t.dims.length →
      ((s₂.emitting sts).view w r₁.bound).item? coord = some l → l = .unknown ∨ (m' k).item? coord = some l := by
  rw [h.view_other other, kept]
  exact holds w r₁ t k (h.settles.lists_other allotted other (h.lists_of lists)) actual slot

/-- A variable without a slot leaves the memory as it is. -/
theorem holds_slotless (allotted : s.Allotted) {m : Memory} (memory : m.Typed s.out.vars) (holds : s.HoldsOn m)
    (slot : r'.slot = none) : m.Typed (s₂.emitting sts).out.vars ∧ (s₂.emitting sts).HoldsOn m := by
  rw [h.vars_eq]
  refine ⟨fun j x hx => ?_, fun w r₁ t k lists actual slot₁ => ?_⟩
  · rcases h.settles.added j x hx with old | own
    · exact memory j x old
    · rw [slot] at own
      cases own
  · refine h.holds_other allotted holds (fun same => ?_) lists actual slot₁ rfl
    obtain rfl := h.settles.lists_eq (same ▸ h.lists_of lists)
    rw [slot] at slot₁
    cases slot₁

/-- The slot of the variable takes a value that is in step; other slots stay as they are. -/
theorem holds_slotted (allotted : s.Allotted) {m : Memory} (memory : m.Typed s.out.vars) (holds : s.HoldsOn m)
    {k : SlotId} {z : Datum} (slot : r'.slot = some k) (has : z.Has (IsA whole.base) whole.dims)
    (shows : Shows whole.base whole.dims (s₂.view p.var r'.bound) z) :
    (m.set k z).Typed (s₂.emitting sts).out.vars ∧ (s₂.emitting sts).HoldsOn (m.set k z) := by
  rw [h.vars_eq]
  refine ⟨fun j x hx => ?_, fun w r₁ t j lists actual slot₁ => ?_⟩
  · rcases Decidable.em (j = k) with rfl | hne
    · obtain ⟨x', hx', actual⟩ := h.settles.typed j slot
      rw [hx] at hx'
      cases hx'
      rw [h.actual] at actual
      cases actual
      rw [Memory.set_self]
      exact has
    · rw [Memory.set_of_ne z hne]
      rcases h.settles.added j x hx with old | own
      · exact memory j x old
      · rw [slot] at own
        exact (hne (Option.some.inj own).symm).elim
  · rcases Decidable.em (w = p.var) with rfl | other
    · obtain rfl := h.settles.lists_eq (h.lists_of lists)
      rw [h.actual] at actual
      cases actual
      rw [slot] at slot₁
      cases slot₁
      rw [Memory.set_self]
      exact shows.leaf
    · refine h.holds_other allotted holds other lists actual slot₁ (Memory.set_of_ne z fun same => ?_)
      exact h.settles.own w r₁ j other (h.settles.lists_other allotted other (h.lists_of lists)) slot₁ (same ▸ slot)

/-- What is left to run time leaves a memory that is in step with what is tracked. -/
theorem holds (allotted : s.Allotted) (shaped : s.InShape) (target : p.Fits s r) (typed : v.Typed s.out.vars)
    {enter : ScopeId → Memory → Except Halt Memory} {m m' : Memory} (memory : m.Typed s.out.vars)
    (holds : s.HoldsOn m) (run : execAll enter sts m = .ok m') :
    m'.Typed (s₂.emitting sts).out.vars ∧ (s₂.emitting sts).HoldsOn m' := by
  have stores := h.stores
  cases slot : r'.slot with
  | none =>
    rw [slot] at stores
    cases stores
    cases run
    exact h.holds_slotless allotted memory holds slot
  | some k =>
    rw [slot] at stores
    obtain ⟨path, x, y, z, hpath, hx, hy, hz, rfl⟩ := (execAll_stores stores).1 run
    obtain ⟨has, shows⟩ := slot_follows target h.selects typed memory h.promotes h.tracked
      (h.before shaped memory holds slot) hpath hx hy hz
    exact h.holds_slotted allotted memory holds slot has shows

/-- What is left to run time can run when the indexes are in range and the value has a value. -/
theorem runs (target : p.Fits s r) (typed : v.Typed s.out.vars) {enter : ScopeId → Memory → Except Halt Memory}
    {m : Memory} (memory : m.Typed s.out.vars) {path : List Int} {x : Datum} (hpath : p.path? m = some path)
    (inRange : InBounds path (whole.dims.take path.length)) (hx : v.at? m = some x) :
    ∃ m', execAll enter sts m = .ok m' := by
  have stores := h.stores
  cases slot : r'.slot with
  | none =>
    rw [slot] at stores
    cases stores
    exact ⟨m, rfl⟩
  | some k =>
    rw [slot] at stores
    obtain ⟨y, hy, -⟩ := (typed.has memory hx).stretch? (Ty.promotesTo_iff.1 h.promotes).2
    have set : ∃ z, (m k).set? path y = some z := by
      rcases h.origin with ⟨-, all, constant, -⟩ | ⟨rfl, rfl⟩
      · rw [target.path_eq constant hpath, all]
        exact ⟨y, Datum.set?_nil _ _⟩
      · obtain ⟨x', hx', actual⟩ := h.settles.typed k slot
        rw [h.actual] at actual
        cases actual
        exact (memory k x' hx').shaped.exists_set inRange y
    obtain ⟨z, hz⟩ := set
    exact ⟨_, (execAll_stores stores).2 ⟨path, x, y, z, hpath, hx, hy, hz, rfl⟩⟩

end Assigns

/-- An assignment keeps what is tracked and what is left to run time in step. In a state whose tracked values have the
shapes of their types, let a place and a value fit. When the value is assigned, the tracked values have the shapes of
their types again; those of other variables are the same, and in that of the variable only elements below the known
indexes of the place may have changed. The statements that are emitted, one if the variable has a slot, take every memory
on which the tracked values hold to one on which they hold again; and they run on it, if the indexes are in range and the
value has a value. -/
theorem assign_in_step (allotted : s.Allotted) (shaped : s.InShape) (target : p.Fits s r) (typed : v.Typed s.out.vars)
    (run : assign p v span c s = .ok ((), s')) :
    s'.Allotted ∧ s'.InShape ∧
    (∀ w, w ≠ p.var → s'.tracked[w]? = s.tracked[w]?) ∧
    (∀ old coord, r.bound.actual = some old → coord.length = old.dims.length → ¬p.fixed <+: coord →
      (s'.view p.var r.bound).item? coord = (s.view p.var r.bound).item? coord) ∧
    ∃ r' whole sts, (p.ty.isSome → r' = r) ∧ s'.Lists p.var r' ∧ r'.bound.actual = some whole ∧
      p.Stores v (p.ty.getD v.ty) span r'.slot sts ∧ s'.out.scopes = (s.emitting sts).out.scopes ∧
      ∀ enter m, m.Typed s.out.vars → s.HoldsOn m →
        (∀ m', execAll enter sts m = .ok m' → m'.Typed s'.out.vars ∧ s'.HoldsOn m') ∧
        ∀ path x, p.path? m = some path → InBounds path (whole.dims.take path.length) → v.at? m = some x →
          ∃ m', execAll enter sts m = .ok m' := by
  obtain ⟨r', whole, ty, sts, s₁, s₂, h, rfl⟩ := (assign_assigns allotted shaped target typed).ok run
  refine ⟨h.allotted allotted, h.inShape allotted shaped target typed, fun w other => ?_,
    fun old coord actual hc out => h.outside target actual hc out, r', whole, sts, h.same, h.lists, h.actual, ?_, ?_,
    fun enter m memory holds => ⟨fun m' ended => h.holds allotted shaped target typed memory holds ended,
      fun path x hpath inRange hx => h.runs target typed memory hpath inRange hx⟩⟩
  · exact (h.retracks.others w other).trans (congrArg (·[w]?) h.settles.tracked)
  · rw [h.stored]
    exact h.stores
  · exact State.scopes_emitting (h.retracks.current.trans h.settles.current)
      ((congrArg (·.scopes) h.retracks.out).trans h.settles.scopes) sts

/-- The type of a pair of numbers. -/
def pairTy : Ty := .array 2 .int

/-- The record of a pair. -/
def pairRecord : Record := ⟨some 0, .exactly pairTy, false⟩

/-- The record of a number that is read at run time. -/
def numberRecord : Record := ⟨some 1, .exactly .int, false⟩

/-- A pair whose elements are known, and a number of which nothing is known. -/
def pairState : State where
  out := { vars := #[⟨pairTy, .builtin⟩, ⟨.int, .builtin⟩] }
  current := some 1
  records := #[pairRecord, numberRecord]
  table := [(0, 0), (1, 1)]
  tracked := #[some (.array [.int 1, .int 2]), none]

/-- The second element of the pair. -/
def pairSecond : Place := ⟨0, 0, [1], none, some .int, .builtin⟩

/-- The number. -/
def pairGiven : Value := .runtime (.var 1 .int .builtin) none

/-- A memory on which what is known of the pair holds. -/
def pairMemory : Memory
  | 0 => .array [.int 1, .int 2]
  | _ => .int 7

theorem lists_pairState {v : VarId} {r : Record} (h : pairState.Lists v r) :
    v = 0 ∧ r = pairRecord ∨ v = 1 ∧ r = numberRecord := by
  obtain ⟨id, hid, hr⟩ := h
  match v, hid with
  | 0, hid =>
    cases hid
    cases hr
    exact .inl ⟨rfl, rfl⟩
  | 1, hid =>
    cases hid
    cases hr
    exact .inr ⟨rfl, rfl⟩
  | v + 2, hid => cases hid

theorem allotted_pairState : pairState.Allotted := by
  refine ⟨fun v w id hv hw => ?_, fun v w r r' k hv hw hk hk' => ?_, fun v r k hv hk => ?_⟩
  · match v, w, hv, hw with
    | 0, 0, _, _ | 1, 1, _, _ => rfl
    | 0, 1, hv, hw | 1, 0, hv, hw =>
      cases hv
      cases hw
    | v + 2, _, hv, _ => cases hv
    | _, w + 2, _, hw => cases hw
  · rcases lists_pairState hv with ⟨rfl, rfl⟩ | ⟨rfl, rfl⟩ <;>
      rcases lists_pairState hw with ⟨rfl, rfl⟩ | ⟨rfl, rfl⟩ <;> cases hk <;> cases hk' <;> rfl
  · rcases lists_pairState hv with ⟨rfl, rfl⟩ | ⟨rfl, rfl⟩ <;> cases hk <;> exact ⟨_, rfl, rfl⟩

theorem inShape_pairState : pairState.InShape := by
  intro v r t lists actual
  rcases lists_pairState lists with ⟨rfl, rfl⟩ | ⟨rfl, rfl⟩ <;> cases actual
  · exact ⟨_, rfl, rfl, fun _ _ => trivial⟩
  · trivial

theorem fits_pairSecond : pairSecond.Fits pairState pairRecord where
  lookup := rfl
  found := rfl
  leads := ⟨[], rfl⟩
  opened := nofun
  settled ty h := by
    cases h
    exact ⟨pairTy, rfl, 2, .int, rfl, trivial, rfl, ⟨1, rfl, by decide, by decide⟩, rfl⟩

theorem typed_pairMemory : pairMemory.Typed pairState.out.vars := by
  intro k x hx
  match k, hx with
  | 0, hx =>
    cases hx
    refine ⟨_, rfl, rfl, fun e he => ?_⟩
    simp only [List.mem_cons, List.not_mem_nil, or_false] at he
    rcases he with rfl | rfl <;> exact Datum.isA_int _
  | 1, hx =>
    cases hx
    exact Datum.isA_int 7
  | k + 2, hx => simp [pairState] at hx

theorem holdsOn_pairMemory : pairState.HoldsOn pairMemory := by
  intro v r t k lists actual slot coord l hc hl
  rcases lists_pairState lists with ⟨rfl, rfl⟩ | ⟨rfl, rfl⟩ <;> cases actual <;> cases slot
  · exact .inr hl
  · cases coord with
    | nil =>
      cases hl
      exact .inl rfl
    | cons => cases hc

/-- A number read at run time becomes the second element of a pair: the first element is still known, and the pair that
is in the slot in the end has it. -/
theorem assign_in_step_pair : ∃ s', assign pairSecond pairGiven .builtin ⟨default, {}⟩ pairState = .ok ((), s') ∧
    s'.InShape ∧ (s'.view 0 (.exactly pairTy)).item? [0] = some (.int 1) ∧ ∃ r' sts, s'.Lists 0 r' ∧
      pairSecond.Stores pairGiven .int .builtin r'.slot sts ∧ s'.out.scopes = (pairState.emitting sts).out.scopes ∧
      ∀ enter, ∃ m', execAll enter sts pairMemory = .ok m' ∧ s'.HoldsOn m' := by
  have ended : ∃ s', assign pairSecond pairGiven .builtin ⟨default, {}⟩ pairState = .ok ((), s') := ⟨_, rfl⟩
  obtain ⟨s', run⟩ := ended
  have typed : pairGiven.Typed pairState.out.vars := ⟨rfl, rfl, trivial⟩
  obtain ⟨-, shaped, -, outside, r', whole, sts, same, lists, actual, stores, scopes, inStep⟩ :=
    assign_in_step allotted_pairState inShape_pairState fits_pairSecond typed run
  obtain rfl := same rfl
  cases actual
  refine ⟨s', run, shaped, outside pairTy [0] rfl rfl (by decide), _, sts, lists, stores, scopes, fun enter => ?_⟩
  obtain ⟨holds, runs⟩ := inStep enter pairMemory typed_pairMemory holdsOn_pairMemory
  obtain ⟨m', ended⟩ := runs [1] (.int 7) rfl ⟨⟨by decide, by decide⟩, trivial⟩ rfl
  exact ⟨m', ended, (holds m' ended).2⟩

end Stage

end SignalLang.Staged
