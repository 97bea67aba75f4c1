import SignalLang.Proofs.Scoped.Direct
import SignalLang.Proofs.Staged.Outcomes
import SignalLang.Proofs.Staged.Shapes

/-!
# What is in sight stands

While a program is staged, the variables in sight (`Γ`) have records in the current table, each its own, and what is
tracked of them is of the types of these records (`State.Sees`). A macro in sight comes with a table that agrees with
the current one on everything its body can reach.

`Passes Γ Γ' M s s'` is what a step leaves as it was. It tracks values only of variables in sight and of those among
`M`, which it makes; it settles only records in sight; and every view that was right stays right (`Live`).
-/

namespace SignalLang.Staged

open Scoped (VarId Layout)
open Datum (IsA May)

/-- A record has positive lengths, and a slot only if its type can be held. -/
structure Record.Fine (r : Record) : Prop where
  positive : r.bound.IsPositive
  slot : r.slot.isSome → ∃ t, r.bound.actual = some t ∧ t.isRuntime = true

/-- What is tracked of a variable is of the type of its record, as far as it is known. -/
def State.Agrees (s : State) (v : VarId) (r : Record) : Prop :=
  ∀ d, s.tracked[v]? = some (some d) → d = .unknown ∨ ∃ t, r.bound.actual = some t ∧ d.Has (May t.base) t.dims

/-- The table of a macro agrees with another one on what the body can reach, and has nothing lower than the macro. -/
structure Armed (p : Scoped.Program) (L : Layout) (m : VarId) (site : MacroSite) (table context : Table) : Prop where
  lookup : ∀ w, p.Reach L site.body w → context.lookup w = table.lookup w
  tall : ∀ e ∈ context, m ≤ L.height e.1

/-- A variable has a record in the current table, and what is tracked of it is of the right type. A variable with a
value from the start has no slot. -/
structure State.Stands (p : Scoped.Program) (s : State) (v : VarId) (id : Nat) (r : Record) : Prop where
  lookup : s.table.lookup v = some id
  record : s.records[id]? = some r
  agrees : s.Agrees v r
  constant : (p.var v).initial ≠ none → r.slot = none

/-- The variables in sight stand. -/
structure State.Sees (p : Scoped.Program) (L : Layout) (Γ : VarId → Prop) (s : State) : Prop where
  out : s.out.Fits
  records : ∀ r ∈ s.records, r.Fine
  closed : p.Closed L Γ
  stands : ∀ v, Γ v → ∃ id r, s.Stands p v id r
  apart : ∀ v w id, Γ v → Γ w → s.table.lookup v = some id → s.table.lookup w = some id → v = w
  armed : ∀ m, Γ m → ∀ site site' context, (p.var m).initial = some (.macroRef site) →
    s.tracked[m]? = some (some (.macroRef site' context)) → site' = site ∧ Armed p L m site s.table context

/-! ## Views -/

namespace Glimpse

/-- A view after the writes that followed it. -/
def after (g : Glimpse) (log : Array Write) : Glimpse := (log.toList.drop g.since).foldl see g

theorem path_see (g : Glimpse) (w : Write) : (g.see w).path = g.path := by
  unfold see
  split
  · rfl
  · split
    · rfl
    · split
      · split <;> rfl
      · rfl

theorem attached_of_see {g : Glimpse} {w : Write} (h : (g.see w).attached = true) : g.attached = true := by
  unfold see at h
  split at h
  · exact h
  · split at h
    · cases h
    · split at h
      · split at h <;> exact h
      · exact h

theorem path_foldl (g : Glimpse) (ws : List Write) : (ws.foldl see g).path = g.path := by
  induction ws generalizing g with
  | nil => rfl
  | cons w ws ih => exact (ih _).trans (path_see g w)

theorem after_push {g : Glimpse} {log : Array Write} (h : g.since ≤ log.size) (w : Write) :
    g.after (log.push w) = (g.after log).see w := by
  unfold after
  rw [Array.toList_push, List.drop_append_of_le_length (by simpa using h), List.foldl_append]
  rfl

theorem after_of_since {g : Glimpse} {log : Array Write} (h : g.since = log.size) : g.after log = g := by
  rw [after, h, List.drop_eq_nil_of_le (by simp)]
  rfl

/-- A view that was brought up to date. -/
theorem refresh_eq (g : Glimpse) (log : Array Write) :
    g.refresh log = { g.after log with since := log.size } := by
  unfold refresh
  split
  · rename_i same
    rw [after_of_since same, ← same]
  · rw [← Array.foldl_toList, Array.toList_extract, List.extract_eq_take_drop, List.take_of_length_le (by simp)]
    rfl

/-- A write at or above a view ends it. -/
theorem detached_of_see {g : Glimpse} {w : Write} (hvar : w.var = g.var) (hw : w.coord = []) :
    (g.see w).attached = false := by
  unfold see
  split
  · rename_i h
    rw [hvar] at h
    simpa using h
  · rw [hw, if_pos (by rfl)]

end Glimpse

/-- A write that keeps to a type: its value is of the type that the coordinate leads to. -/
structure Write.Keeps (w : Write) (t : Ty) : Prop where
  length : w.coord.length ≤ t.dims.length
  value : w.value.Has (May t.base) (t.dims.drop w.coord.length)

/-- A view of a value of type `t` is right. While it follows a variable that is in sight, it shows the part of its
record's type that its path leads to. -/
structure Live (Γ : VarId → Prop) (s : State) (g : Glimpse) (t : Ty) : Prop where
  since : g.since ≤ s.log.size
  seen : (g.after s.log).seen.Has (May t.base) t.dims
  follows : (g.after s.log).attached = true → Γ g.var → ∃ id r whole, s.table.lookup g.var = some id ∧
    s.records[id]? = some r ∧ r.bound.actual = some whole ∧ whole.base = t.base ∧
    whole.dims.drop g.path.length = t.dims

/-- The record of a variable is found as before, and is the same if its type was settled. -/
structure KeepsRecord (s s' : State) (v : VarId) : Prop where
  lookup : s'.table.lookup v = s.table.lookup v
  record : ∀ id r, s.table.lookup v = some id → s.records[id]? = some r → r.bound.actual.isSome →
    s'.records[id]? = some r

namespace Live

variable {Γ Γ' : VarId → Prop} {s s' : State} {g : Glimpse} {t : Ty} {w : Write}

theorem keep (h : Live Γ s g t) (log : s'.log = s.log) (keeps : ∀ v, Γ' v → Γ v ∧ KeepsRecord s s' v) :
    Live Γ' s' g t := by
  refine ⟨log ▸ h.since, log ▸ h.seen, fun attached hg => ?_⟩
  rw [log] at attached
  obtain ⟨hg, kept⟩ := keeps g.var hg
  obtain ⟨id, r, whole, hid, hr, hwhole, part⟩ := h.follows attached hg
  refine ⟨id, r, whole, kept.lookup.trans hid, kept.record id r hid hr ?_, hwhole, part⟩
  rw [hwhole]
  rfl

theorem seen_see (h : Live Γ s g t) (hw : w.coord = [] ∨ (Γ w.var ∧ ∀ id r whole, s.table.lookup w.var = some id →
    s.records[id]? = some r → r.bound.actual = some whole → w.Keeps whole)) :
    ((g.after s.log).see w).seen.Has (May t.base) t.dims := by
  unfold Glimpse.see
  split
  · exact h.seen
  · rename_i follows
    simp only [Bool.or_eq_true, Bool.not_eq_true', decide_eq_true_eq, not_or, Bool.not_eq_false, not_not] at follows
    obtain ⟨attached, same⟩ := follows
    split
    · exact h.seen
    · rename_i above
      split
      · rename_i below
        split
        · rename_i d found
          have path : (g.after s.log).path = g.path := Glimpse.path_foldl _ _
          have var : (g.after s.log).var = g.var := Glimpse.var_foldl _ _
          rw [var] at same
          rcases hw with hw | ⟨hw, fits⟩
          · rw [hw] at above
            exact absurd rfl above
          · obtain ⟨id, r, whole, hid, hr, hwhole, base, part⟩ := h.follows attached (same ▸ hw)
            have keeps := fits id r whole (same ▸ hid) hr hwhole
            obtain ⟨rest, hrest⟩ := List.isPrefixOf_iff_prefix.1 below
            rw [path] at found hrest
            have length : (w.coord.drop g.path.length).length = w.coord.length - g.path.length := List.length_drop
            have longer : g.path.length ≤ w.coord.length := by
              rw [← hrest, List.length_append]
              exact Nat.le_add_right _ _
            refine h.seen.set? ?_ ?_ found
            · have := keeps.length
              rw [length, ← part, List.length_drop]
              omega
            · rw [length, ← part, ← base, List.drop_drop, Nat.add_sub_cancel' longer]
              exact keeps.value
        · exact h.seen
      · exact h.seen

/-- A view stays right after a write that replaces a whole value, or that keeps to the type of a variable in sight. -/
theorem push (h : Live Γ s g t) (log : s'.log = s.log.push w)
    (hw : w.coord = [] ∨ (Γ w.var ∧ ∀ id r whole, s.table.lookup w.var = some id → s.records[id]? = some r →
      r.bound.actual = some whole → w.Keeps whole))
    (keeps : ∀ v, Γ' v → (v = w.var ∧ w.coord = []) ∨ (Γ v ∧ KeepsRecord s s' v)) : Live Γ' s' g t := by
  have after : g.after s'.log = (g.after s.log).see w := by rw [log, Glimpse.after_push h.since]
  refine ⟨?_, after ▸ h.seen_see hw, fun attached hg => ?_⟩
  · rw [log, Array.size_push]
    exact Nat.le_succ_of_le h.since
  · rw [after] at attached
    rcases keeps g.var hg with ⟨same, whole⟩ | ⟨hg, kept⟩
    · have var : (g.after s.log).var = g.var := Glimpse.var_foldl _ _
      rw [Glimpse.detached_of_see (same.symm.trans var.symm) whole] at attached
      cases attached
    · obtain ⟨id, r, whole, hid, hr, hwhole, part⟩ := h.follows (Glimpse.attached_of_see attached) hg
      refine ⟨id, r, whole, kept.lookup.trans hid, kept.record id r hid hr ?_, hwhole, part⟩
      rw [hwhole]
      rfl

end Live

/-! ## What a step leaves as it was -/

/-- A step leads from one state to another, where at first `Γ` and then `Γ'` is in sight, and makes variables among
`M`. -/
structure Passes (Γ Γ' M : VarId → Prop) (s s' : State) : Prop where
  more : ∀ v, Γ v → Γ' v
  made : ∀ v, Γ' v → Γ v ∨ (M v ∧ ∀ id, s'.table.lookup v = some id → s.records.size ≤ id)
  table : ∀ v, Γ v → s'.table.lookup v = s.table.lookup v
  tracked : ∀ v, ¬Γ v → ¬M v → s'.tracked[v]? = s.tracked[v]?
  written : ∀ v ∈ s'.written, v ∈ s.written ∨ M v ∨ Γ v
  size : s.records.size ≤ s'.records.size
  records : ∀ id r, s.records[id]? = some r → s'.records[id]? = some r ∨
    (r.bound.actual = none ∧ ∃ v, Γ v ∧ s.table.lookup v = some id)
  log : s.log.toList <+: s'.log.toList
  live : ∀ g t, Live Γ s g t → Live Γ' s' g t

/-- Two states have the same records, the same tracked values and the same log. -/
structure State.Alike (s s' : State) : Prop where
  tracked : s'.tracked = s.tracked
  records : s'.records = s.records
  log : s'.log = s.log

namespace Passes

variable {Γ Γ' Γ'' M N : VarId → Prop} {s s' s'' : State}

theorem trans (h : Passes Γ Γ' M s s') (h' : Passes Γ' Γ'' M s' s'') : Passes Γ Γ'' M s s'' := by
  refine ⟨fun v hv => h'.more v (h.more v hv), fun v hv => ?_, fun v hv => ?_, fun v hv hm => ?_, fun v hv => ?_, ?_,
    fun id r hr => ?_, h.log.trans h'.log, fun g t hg => h'.live g t (h.live g t hg)⟩
  · rcases h'.made v hv with hv' | ⟨hm, new⟩
    · rcases h.made v hv' with hv | ⟨hm, new⟩
      · exact .inl hv
      · exact .inr ⟨hm, fun id hid => new id ((h'.table v hv').symm.trans hid)⟩
    · exact .inr ⟨hm, fun id hid => Nat.le_trans h.size (new id hid)⟩
  · exact (h'.table v (h.more v hv)).trans (h.table v hv)
  · have hv' : ¬Γ' v := fun hv' => (h.made v hv').elim hv fun new => hm new.1
    exact (h'.tracked v hv' hm).trans (h.tracked v hv hm)
  · rcases h'.written v hv with hv | hm | hv
    · exact h.written v hv
    · exact .inr (.inl hm)
    · exact .inr ((h.made v hv).symm.imp_left And.left)
  · exact Nat.le_trans h.size h'.size
  · rcases h.records id r hr with hr' | settled
    · rcases h'.records id r hr' with hr'' | ⟨settled, v, hv, hid⟩
      · exact .inl hr''
      · rcases h.made v hv with hv' | ⟨-, new⟩
        · exact .inr ⟨settled, v, hv', (h.table v hv').symm.trans hid⟩
        · have old := (Array.getElem?_eq_some_iff.1 hr).1
          exact absurd (new id hid) (Nat.not_le.2 old)
    · exact .inr settled

/-- Some of what was made is no longer in sight. -/
theorem narrow (h : Passes Γ Γ'' M s s') (more : ∀ v, Γ v → Γ' v) (less : ∀ v, Γ' v → Γ'' v) :
    Passes Γ Γ' M s s' := by
  refine { h with more := more, made := fun v hv => h.made v (less v hv), live := fun g t hg => ?_ }
  have hg := h.live g t hg
  exact ⟨hg.since, hg.seen, fun attached hv => hg.follows attached (less _ hv)⟩

theorem widen (h : Passes Γ Γ' M s s') (hMN : ∀ v, M v → N v) : Passes Γ Γ' N s s' :=
  { h with
    made := fun v hv => (h.made v hv).imp_right fun new => ⟨hMN v new.1, new.2⟩
    tracked := fun v hv hn => h.tracked v hv fun hm => hn (hMN v hm)
    written := fun v hv => (h.written v hv).imp_right (Or.imp_left (hMN v)) }

/-- A state that differs in its table only where nothing is in sight. -/
theorem alike (h : Passes Γ Γ' M s s') (same : s'.Alike s'')
    (table : ∀ v, Γ' v → s''.table.lookup v = s'.table.lookup v)
    (written : ∀ v ∈ s''.written, v ∈ s.written ∨ M v ∨ Γ v) : Passes Γ Γ' M s s'' := by
  refine ⟨h.more, fun v hv => ?_, fun v hv => ?_, ?_, written, ?_, ?_, same.log ▸ h.log, fun g t hg => ?_⟩
  · exact (h.made v hv).imp_right fun new => ⟨new.1, fun id hid => new.2 id ((table v hv).symm.trans hid)⟩
  · exact (table v (h.more v hv)).trans (h.table v hv)
  · rw [same.tracked]
    exact h.tracked
  · rw [same.records]
    exact h.size
  · rw [same.records]
    exact h.records
  · refine (h.live g t hg).keep same.log fun v hv => ⟨hv, table v hv, fun id r _ hr _ => ?_⟩
    rw [same.records]
    exact hr

/-- The same of the state in which a step began. -/
theorem since (h : Passes Γ Γ' M s' s'') (same : s.Alike s')
    (table : ∀ v, Γ v → s'.table.lookup v = s.table.lookup v) (written : ∀ v ∈ s'.written, v ∈ s.written) :
    Passes Γ Γ' M s s'' := by
  refine ⟨h.more, same.records ▸ h.made, fun v hv => (h.table v hv).trans (table v hv), ?_, fun v hv => ?_, ?_,
    fun id r hr => ?_, same.log ▸ h.log, fun g t hg => h.live g t (hg.keep same.log fun v hv => ?_)⟩
  · rw [← same.tracked]
    exact h.tracked
  · exact (h.written v hv).imp_left (written v)
  · rw [← same.records]
    exact h.size
  · refine (h.records id r (same.records ▸ hr)).imp_right fun ⟨opened, v, hv, hid⟩ => ⟨opened, v, hv, ?_⟩
    exact (table v hv).symm.trans hid
  · refine ⟨hv, table v hv, fun id r _ hr _ => ?_⟩
    rw [same.records]
    exact hr

theorem refl (Γ M : VarId → Prop) (s : State) : Passes Γ Γ M s s :=
  ⟨fun _ hv => hv, fun _ hv => .inl hv, fun _ _ => rfl, fun _ _ _ => rfl, fun _ hv => .inl hv, Nat.le_refl _,
    fun _ _ hr => .inl hr, List.prefix_rfl, fun _ _ hg => hg⟩

end Passes

/-! ## Changes of what is in sight -/

theorem Datum.unknownOf_ne_macroRef (dims : List Int) (site : MacroSite) (context : Table) :
    unknownOf dims ≠ .macroRef site context := by
  cases dims <;> exact nofun

theorem Stage.unknownFor_ne_macroRef (b : Bound) (site : MacroSite) (context : Table) :
    unknownFor b ≠ .macroRef site context := by
  rw [unknownFor]
  cases b.actual with
  | none => exact nofun
  | some t => exact Datum.unknownOf_ne_macroRef t.dims site context

section Changes

variable {p : Scoped.Program} {L : Layout} {Γ Γ' M : VarId → Prop} {s s' : State} {v : VarId} {d : Datum}

theorem Armed.change {m : VarId} {site : MacroSite} {table table' context : Table}
    (h : Armed p L m site table context) (same : ∀ w, p.Reach L site.body w → table'.lookup w = table.lookup w) :
    Armed p L m site table' context :=
  ⟨fun w hw => (h.lookup w hw).trans (same w hw).symm, h.tall⟩

/-- What the body of a macro in sight can reach is in sight. -/
theorem State.Sees.reach (h : s.Sees p L Γ) {m : VarId} {site : MacroSite} (hm : Γ m)
    (initial : (p.var m).initial = some (.macroRef site)) {w : VarId} (hw : p.Reach L site.body w) : Γ w :=
  h.closed.reach (h.closed m site hm initial) hw

theorem State.Stands.fine {id : Nat} {r : Record} (hr : s.Stands p v id r) (h : s.Sees p L Γ) : r.Fine :=
  h.records r (Array.mem_of_getElem? hr.record)

theorem State.Stands.unique {id id' : Nat} {r r' : Record} (h : s.Stands p v id r) (hid : s.table.lookup v = some id')
    (hr : s.records[id']? = some r') : id' = id ∧ r' = r := by
  rw [h.lookup] at hid
  cases hid
  rw [h.record] at hr
  exact ⟨rfl, (Option.some.inj hr).symm⟩

/-- Fewer variables, in a table that agrees on them. -/
theorem State.Sees.view (h : s.Sees p L Γ) (same : s.Alike s') (out : s'.out.Fits) (closed : p.Closed L Γ')
    (less : ∀ v, Γ' v → Γ v ∧ s'.table.lookup v = s.table.lookup v) : s'.Sees p L Γ' := by
  refine ⟨out, same.records ▸ h.records, closed, fun v hv => ?_, fun v w id hv hw hid hid' => ?_, ?_⟩
  · obtain ⟨hv, table⟩ := less v hv
    obtain ⟨id, r, stands⟩ := h.stands v hv
    refine ⟨id, r, table.trans stands.lookup, same.records ▸ stands.record, ?_, stands.constant⟩
    unfold State.Agrees
    rw [same.tracked]
    exact stands.agrees
  · obtain ⟨hv, table⟩ := less v hv
    obtain ⟨hw, table'⟩ := less w hw
    exact h.apart v w id hv hw (table ▸ hid) (table' ▸ hid')
  · intro m hm site site' context initial found
    rw [same.tracked] at found
    obtain ⟨rfl, armed⟩ := h.armed m (less m hm).1 site site' context initial found
    exact ⟨rfl, armed.change fun w hw => (less w (closed.reach (closed m _ hm initial) hw)).2⟩

/-- A tracked value is replaced by one of the right type. -/
theorem State.Sees.put (h : s.Sees p L Γ) (out : s'.out.Fits) (table : s'.table = s.table)
    (records : s'.records = s.records) (tracked : s'.tracked = s.tracked.setIfInBounds v (some d))
    (fits : Γ v → ∀ id r, s.Stands p v id r → d = .unknown ∨ ∃ t, r.bound.actual = some t ∧ d.Has (May t.base) t.dims)
    (macros : Γ v → ∀ site site' context, (p.var v).initial = some (.macroRef site) → d = .macroRef site' context →
      site' = site ∧ Armed p L v site s.table context) : s'.Sees p L Γ := by
  have found {w : VarId} {e : Datum} (he : s'.tracked[w]? = some (some e)) :
      (w = v ∧ e = d) ∨ s.tracked[w]? = some (some e) := by
    rw [tracked, Array.getElem?_setIfInBounds] at he
    split at he
    · rename_i same
      split at he
      · cases he
        exact .inl ⟨same.symm, rfl⟩
      · cases he
    · exact .inr he
  refine ⟨out, records ▸ h.records, h.closed, fun w hw => ?_, ?_, fun m hm site site' context initial he => ?_⟩
  · obtain ⟨id, r, stands⟩ := h.stands w hw
    refine ⟨id, r, table ▸ stands.lookup, records ▸ stands.record, fun e he => ?_, stands.constant⟩
    rcases found he with ⟨rfl, rfl⟩ | he
    · exact fits hw id r stands
    · exact stands.agrees e he
  · rw [table]
    exact h.apart
  · rw [table]
    rcases found he with ⟨rfl, same⟩ | he
    · exact macros hm site site' context initial same.symm
    · exact h.armed m hm site site' context initial he

/-- A new record, of a variable that was not in sight. -/
theorem State.Sees.make (h : s.Sees p L Γ) {r : Record} (hv : ¬Γ v) (closed : p.Closed L fun u => Γ u ∨ u = v)
    (fine : r.Fine) (constant : (p.var v).initial ≠ none → r.slot = none) (out : s'.out.Fits)
    (table : s'.table = (v, s.records.size) :: s.table) (records : s'.records = s.records.push r)
    (tracked : s'.tracked = s.tracked.setIfInBounds v (some (Stage.unknownFor r.bound))) :
    s'.Sees p L fun u => Γ u ∨ u = v := by
  have other {w : VarId} (hw : Γ w) : s'.table.lookup w = s.table.lookup w := by
    have hne : (w == v) = false := beq_eq_false_iff_ne.2 fun same => hv (same ▸ hw)
    rw [table, List.lookup_cons, hne]
  have self : s'.table.lookup v = some s.records.size := by rw [table, List.lookup_cons, beq_self_eq_true]
  have old {w : VarId} (hw : w ≠ v) : s'.tracked[w]? = s.tracked[w]? := by
    rw [tracked, Array.getElem?_setIfInBounds, if_neg fun same => hw same.symm]
  have unknown {e : Datum} (he : s'.tracked[v]? = some (some e)) : e = Stage.unknownFor r.bound := by
    rw [tracked, Array.getElem?_setIfInBounds, if_pos rfl] at he
    split at he
    · cases he
      rfl
    · cases he
  have kept {id : Nat} {r' : Record} (hr : s.records[id]? = some r') : s'.records[id]? = some r' := by
    rw [records, Array.getElem?_push, if_neg (Nat.ne_of_lt (Array.getElem?_eq_some_iff.1 hr).1), hr]
  refine ⟨out, ?_, closed, ?_, ?_, ?_⟩
  · intro r' hr'
    rw [records] at hr'
    rcases Array.mem_push.1 hr' with hr' | rfl
    · exact h.records r' hr'
    · exact fine
  · rintro w (hw | rfl)
    · obtain ⟨id, r', stands⟩ := h.stands w hw
      refine ⟨id, r', (other hw).trans stands.lookup, kept stands.record, fun e he => ?_, stands.constant⟩
      rw [old fun same => hv (same ▸ hw)] at he
      exact stands.agrees e he
    · refine ⟨s.records.size, r, self, by rw [records, Array.getElem?_push_size], fun e he => ?_, constant⟩
      rw [unknown he, Stage.unknownFor]
      cases actual : r.bound.actual with
      | none => exact .inl rfl
      | some t => exact .inr ⟨t, rfl, Datum.has_unknownOf _ _⟩
  · have below {w : VarId} {id : Nat} (hw : Γ w) (hid : s'.table.lookup w = some id) : id < s.records.size := by
      obtain ⟨id', r', stands⟩ := h.stands w hw
      rw [other hw, stands.lookup] at hid
      cases hid
      exact (Array.getElem?_eq_some_iff.1 stands.record).1
    rintro w w' id (hw | rfl) (hw' | rfl) hid hid'
    · exact h.apart w w' id hw hw' (other hw ▸ hid) (other hw' ▸ hid')
    · rw [self] at hid'
      cases hid'
      exact absurd (below hw hid) (Nat.lt_irrefl _)
    · rw [self] at hid
      cases hid
      exact absurd (below hw' hid') (Nat.lt_irrefl _)
    · rfl
  · rintro m (hm | rfl) site site' context initial found
    · rw [old fun same => hv (same ▸ hm)] at found
      obtain ⟨rfl, armed⟩ := h.armed m hm site site' context initial found
      exact ⟨rfl, armed.change fun w hw => other (h.reach hm initial hw)⟩
    · exact absurd (unknown found).symm (Stage.unknownFor_ne_macroRef _ _ _)

/-- The type of an open variable is settled. -/
theorem State.Sees.settle (h : s.Sees p L Γ) {id : Nat} {r settled : Record} (hv : Γ v)
    (lookup : s.table.lookup v = some id) (record : s.records[id]? = some r) (opened : r.bound.actual = none)
    (fine : settled.Fine) (initial : (p.var v).initial = none) (out : s'.out.Fits) (table : s'.table = s.table)
    (records : s'.records = s.records.setIfInBounds id settled) (tracked : s'.tracked = s.tracked) :
    s'.Sees p L Γ := by
  have lt : id < s.records.size := (Array.getElem?_eq_some_iff.1 record).1
  refine ⟨out, ?_, h.closed, fun w hw => ?_, ?_, ?_⟩
  · intro r' hr'
    rw [records] at hr'
    rcases Array.mem_or_eq_of_mem_setIfInBounds hr' with hr' | rfl
    · exact h.records r' hr'
    · exact fine
  · obtain ⟨id', r', stands⟩ := h.stands w hw
    rcases Decidable.em (id = id') with rfl | hne
    · obtain rfl := h.apart w v id hw hv stands.lookup lookup
      refine ⟨id, settled, table ▸ lookup, ?_, fun d hd => .inl ?_, fun some => absurd initial some⟩
      · rw [records, Array.getElem?_setIfInBounds, if_pos rfl, if_pos lt]
      · obtain ⟨-, rfl⟩ := stands.unique lookup record
        rw [tracked] at hd
        rcases stands.agrees d hd with unknown | ⟨t, actual, -⟩
        · exact unknown
        · rw [opened] at actual
          cases actual
    · refine ⟨id', r', table ▸ stands.lookup, ?_, fun d hd => stands.agrees d (tracked ▸ hd), stands.constant⟩
      rw [records, Array.getElem?_setIfInBounds, if_neg hne, stands.record]
  · rw [table]
    exact h.apart
  · rw [table, tracked]
    exact h.armed

end Changes

end SignalLang.Staged
