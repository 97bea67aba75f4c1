import SignalLang.Proofs.Staged.Data
import SignalLang.Proofs.Staged.Typing

/-!
# The invariant of staging

`State.Sound` holds of every state that staging passes through. What has been emitted is well formed, a record
with a slot has the type of that slot, and a slot belongs to one variable of the source. The variables of the
records are not part of the state; they are carried along as a list of owners, which only grows.

`Stage.Keeps c W o s m Q` is how a step `m` is specified that assigns only variables of `W`: when it ends, the
invariant holds again, nothing that was settled has changed, no record of another variable has changed, and `Q` holds
of its result. The lemmas about single steps of the state are below.
-/

namespace SignalLang.Staged

open Scoped (VarId)
open Steps

/-- A record has a type with positive lengths, and a slot of exactly that type if it has one. -/
structure Record.Sound (vars : Array Variable) (r : Record) : Prop where
  bound : r.bound.IsPositive
  slot : ∀ k, r.slot = some k → ∃ v, vars[k]? = some v ∧ r.bound.actual = some v.ty

theorem Record.Sound.mono {vars more : Array Variable} (h : Extends vars more) {r : Record}
    (hr : r.Sound vars) : r.Sound more := by
  refine ⟨hr.bound, fun k hk => ?_⟩
  obtain ⟨v, hv, hty⟩ := hr.slot k hk
  exact ⟨v, h k v hv, hty⟩

/-- A program in the making: what it holds so far is well formed. -/
structure Program.Growing (p : Program) : Prop where
  positive : ∀ v ∈ p.vars, v.ty.IsPositive
  stmts : ∀ i, ∀ st ∈ p.scope i, st.WellFormed p.vars
  nested : ∀ i, ∀ st ∈ p.scope i, ∀ j ∈ st.scopes, i < j ∧ j < p.scopes.size
  staticInit : p.staticInit < p.scopes.size
  entry : p.entry < p.scopes.size

/-- The invariant of staging, where `o` gives the variable each record was made for. -/
structure State.Sound (source : Scoped.Program) (o : Owners) (s : State) : Prop where
  out : s.out.Growing
  current : ∀ i, s.current = some i → i < s.out.scopes.size
  owners : o.size = s.records.size
  records : ∀ r ∈ s.records, r.Sound s.out.vars
  /-- A slot belongs to one variable. -/
  shared : ∀ (i j : Nat) (r r' : Record) (k : SlotId), s.records[i]? = some r → s.records[j]? = some r' →
    r.slot = some k → r'.slot = some k → o[i]? = o[j]?
  /-- A static belongs to no input or output. -/
  statics : ∀ k ∈ s.out.statics, ∃ (i : Nat) (r : Record) (v : VarId), s.records[i]? = some r ∧
    r.slot = some k ∧ o[i]? = some v ∧ v ∉ source.inputs ++ source.outputs
  table : TableOwned o s.table
  tracked : ∀ d, some d ∈ s.tracked → d.Sound o
  log : ∀ w ∈ s.log, w.value.Sound o

/-- Variables and scopes are only added, and a record whose type is settled stays as it is. -/
structure State.Grows (s s' : State) : Prop where
  vars : Extends s.out.vars s'.out.vars
  scopes : s.out.scopes.size ≤ s'.out.scopes.size
  settled : ∀ (i : Nat) (r : Record), s.records[i]? = some r → r.bound.actual.isSome →
    s'.records[i]? = some r

/-- What a number of a record stands for; one that was never made has no type. -/
structure State.Shows (s : State) (id : Nat) (r : Record) : Prop where
  sound : r.Sound s.out.vars
  found : r.bound.actual.isSome → s.records[id]? = some r
  unique : ∀ r', s.records[id]? = some r' → r' = r

namespace State.Grows

theorem refl (s : State) : s.Grows s := ⟨.refl _, Nat.le_refl _, fun _ _ h _ => h⟩

theorem trans {s t u : State} (h : s.Grows t) (h' : t.Grows u) : s.Grows u :=
  ⟨h.vars.trans h'.vars, Nat.le_trans h.scopes h'.scopes,
    fun i r hr hs => h'.settled i r (h.settled i r hr hs) hs⟩

end State.Grows

/-- One sound state comes after another, with the same records for variables outside of `W`. -/
structure Reaches (source : Scoped.Program) (W : VarId → Prop) (o : Owners) (s : State) (o' : Owners) (s' : State) :
    Prop where
  owners : Extends o o'
  grows : s.Grows s'
  current : s'.current = s.current
  sound : s'.Sound source o'
  apart : ∀ (i : Nat) v, o[i]? = some v → ¬W v → s'.records[i]? = s.records[i]?

namespace Reaches

variable {source : Scoped.Program} {W : VarId → Prop} {o o' o'' : Owners} {s s' s'' : State}

theorem refl (h : s.Sound source o) : Reaches source W o s o s := ⟨.refl _, .refl _, rfl, h, fun _ _ _ _ => rfl⟩

theorem trans (h : Reaches source W o s o' s') (h' : Reaches source W o' s' o'' s'') :
    Reaches source W o s o'' s'' :=
  ⟨h.owners.trans h'.owners, h.grows.trans h'.grows, h'.current.trans h.current, h'.sound,
    fun i v hv hw => (h'.apart i v (h.owners i v hv) hw).trans (h.apart i v hv hw)⟩

end Reaches

/-! ## Programs in the making -/

namespace Program

@[simp] theorem scopes_size_addStmt (p : Program) (i : ScopeId) (st : Stmt) :
    (p.addStmt i st).scopes.size = p.scopes.size := by
  simp [addStmt]

@[simp] theorem scope_addStmt_self {p : Program} {i : ScopeId} (h : i < p.scopes.size) (st : Stmt) :
    (p.addStmt i st).scope i = (p.scope i).push st := by
  simp [scope, addStmt, Array.getD_eq_getD_getElem?, Array.getElem?_modify, Array.getElem?_eq_getElem h]

@[simp] theorem scope_addStmt_of_ne {p : Program} {i j : ScopeId} (h : i ≠ j) (st : Stmt) :
    (p.addStmt i st).scope j = p.scope j := by
  simp [scope, addStmt, Array.getD_eq_getD_getElem?, Array.getElem?_modify, h]

theorem scope_of_size_le {p : Program} {i : ScopeId} (h : p.scopes.size ≤ i) : p.scope i = #[] := by
  simp [scope, Array.getD_eq_getD_getElem?, Array.getElem?_eq_none h]

@[simp] theorem scope_addScope (p : Program) (i : ScopeId) : p.addScope.scope i = p.scope i := by
  simp only [scope, addScope, Array.getD_eq_getD_getElem?, Array.getElem?_push]
  split
  · rename_i last
    rw [last, Array.getElem?_eq_none (Nat.le_refl _)]
    rfl
  · rfl

@[simp] theorem size_addScope (p : Program) : p.addScope.scopes.size = p.scopes.size + 1 := Array.size_push _

theorem mem_scope_addStmt {p : Program} {i j : ScopeId} {st st' : Stmt}
    (h : st' ∈ (p.addStmt i st).scope j) : st' ∈ p.scope j ∨ (j = i ∧ st' = st) := by
  simp only [scope, addStmt, Array.getD_eq_getD_getElem?, Array.getElem?_modify] at h ⊢
  split at h
  · rename_i same
    cases found : p.scopes[j]? with
    | none => simp [found] at h
    | some body =>
      simp only [found, Option.map_some, Option.getD_some, Array.mem_push] at h ⊢
      exact h.imp_right fun h => ⟨same.symm, h⟩
  · exact .inl h

theorem mem_scope_addScope {p : Program} {j : ScopeId} {st : Stmt} (h : st ∈ p.addScope.scope j) :
    st ∈ p.scope j := by
  simp only [scope, addScope, Array.getD_eq_getD_getElem?, Array.getElem?_push] at h ⊢
  split at h
  · simp at h
  · exact h

theorem Growing.addStmt {p : Program} (h : p.Growing) {i : ScopeId} {st : Stmt}
    (hst : st.WellFormed p.vars) (hin : ∀ j ∈ st.scopes, i < j ∧ j < p.scopes.size) :
    (p.addStmt i st).Growing := by
  constructor
  · exact h.positive
  · intro j st' hst'
    rcases mem_scope_addStmt hst' with hst' | ⟨-, rfl⟩
    · exact h.stmts j st' hst'
    · exact hst
  · intro j st' hst' k hk
    rw [scopes_size_addStmt]
    rcases mem_scope_addStmt hst' with hst' | ⟨rfl, rfl⟩
    · exact h.nested j st' hst' k hk
    · exact hin k hk
  · rw [scopes_size_addStmt]; exact h.staticInit
  · rw [scopes_size_addStmt]; exact h.entry

theorem Growing.addScope {p : Program} (h : p.Growing) : p.addScope.Growing := by
  have size : p.addScope.scopes.size = p.scopes.size + 1 := Array.size_push _
  constructor
  · exact h.positive
  · exact fun i st hst => h.stmts i st (mem_scope_addScope hst)
  · intro i st hst j hj
    obtain ⟨hij, hj⟩ := h.nested i st (mem_scope_addScope hst) j hj
    exact ⟨hij, size ▸ Nat.lt_succ_of_lt hj⟩
  · exact size ▸ Nat.lt_succ_of_lt h.staticInit
  · exact size ▸ Nat.lt_succ_of_lt h.entry

theorem Growing.addVariable {p : Program} (h : p.Growing) {v : Variable} (hv : v.ty.IsPositive) :
    (p.addVariable v).Growing := by
  refine ⟨?_, fun i st hst => (h.stmts i st hst).mono (.push _ _), h.nested, h.staticInit, h.entry⟩
  intro w hw
  rcases Array.mem_push.1 hw with hw | rfl
  · exact h.positive w hw
  · exact hv

end Program

namespace Stage

variable {α β : Type} {c : Context} {W : VarId → Prop} {o : Owners} {s : State}

/-- When the step ends, the invariant holds again, and its result is as `Q` says. -/
def Keeps (c : Context) (W : VarId → Prop) (o : Owners) (s : State) (m : Stage α)
    (Q : Owners → State → α → Prop) : Prop :=
  ∀ a s', m c s = .ok (a, s') → ∃ o', Reaches c.source W o s o' s' ∧ Q o' s' a

namespace Keeps

variable {m : Stage α} {f : α → Stage β} {Q : Owners → State → α → Prop} {R : Owners → State → β → Prop}

theorem pure {a : α} (h : s.Sound c.source o) (hq : Q o s a) : Keeps c W o s (Pure.pure a) Q := by
  intro b s' run
  obtain ⟨rfl, rfl⟩ := pure_ok.1 run
  exact ⟨o, .refl h, hq⟩

theorem bind (hm : Keeps c W o s m Q)
    (hf : ∀ a o' s', Reaches c.source W o s o' s' → Q o' s' a → Keeps c W o' s' (f a) R) :
    Keeps c W o s (m >>= f) R := by
  intro b s'' run
  obtain ⟨a, s', first, rest⟩ := bind_ok.1 run
  obtain ⟨o', reach, hq⟩ := hm a s' first
  obtain ⟨o'', reach', hr⟩ := hf a o' s' reach hq b s'' rest
  exact ⟨o'', reach.trans reach', hr⟩

theorem mono {Q' : Owners → State → α → Prop} (hm : Keeps c W o s m Q)
    (h : ∀ a o' s', Reaches c.source W o s o' s' → Q o' s' a → Q' o' s' a) : Keeps c W o s m Q' := by
  intro a s' run
  obtain ⟨o', reach, hq⟩ := hm a s' run
  exact ⟨o', reach, h a o' s' reach hq⟩

theorem map {g : α → β} (hm : Keeps c W o s m fun o' s' a => R o' s' (g a)) : Keeps c W o s (g <$> m) R := by
  intro b s' run
  obtain ⟨a, t, run, heq⟩ := map_ok.1 run
  cases heq
  exact hm a _ run

theorem get_bind {f : State → Stage β} (h : Keeps c W o s (f s) R) : Keeps c W o s (get >>= f) R := by
  intro b s' run
  obtain ⟨t, t', first, rest⟩ := bind_ok.1 run
  obtain ⟨rfl, rfl⟩ := get_ok.1 first
  exact h b s' rest

theorem read_bind {f : Context → Stage β} (h : Keeps c W o s (f c) R) : Keeps c W o s (read >>= f) R := by
  intro b s' run
  obtain ⟨d, t, first, rest⟩ := bind_ok.1 run
  obtain ⟨rfl, rfl⟩ := read_ok.1 first
  exact h b s' rest

theorem recordId_bind {v : VarId} {f : Option Nat → Stage β} (h : Keeps c W o s (f (s.table.lookup v)) R) :
    Keeps c W o s (recordId? v >>= f) R := get_bind h

theorem fail {e : Failure} : Keeps c W o s (throw e) Q := fun _ _ run => (throw_ok.1 run).elim

theorem refuse {p : Problem} : Keeps c W o s (Stage.refuse p) Q := fail

theorem breakDown {f : Fault} : Keeps c W o s (Stage.breakDown f) Q := fail

/-- A check that stops with a problem; what comes behind it may use that it passed. -/
theorem check {p : Prop} [Decidable p] {problem : Problem} {f : β → Stage α}
    (h : ¬p → Keeps c W o s m Q) : Keeps c W o s (if p then Stage.refuse problem >>= f else m) Q := by
  split
  · have stopped : Keeps c W o s (Stage.refuse problem : Stage β) fun _ _ _ => False := .refuse
    exact stopped.bind fun _ _ _ _ never => never.elim
  · exact h ‹_›

theorem orBadShape {a? : Option α} (h : s.Sound c.source o) (hq : ∀ a, a? = some a → Q o s a) :
    Keeps c W o s (Stage.orBadShape a?) Q := by
  cases a? with
  | none => exact .breakDown
  | some a => exact .pure h (hq a rfl)

theorem modify {g : State → State} {Q : Owners → State → PUnit → Prop}
    (h : Reaches c.source W o s o (g s)) (hq : Q o (g s) ()) : Keeps c W o s (modify g) Q := by
  intro u s' run
  obtain rfl := modify_ok.1 run
  exact ⟨o, h, hq⟩

end Keeps

/-! ## Steps of the state -/

theorem sound_unknownFor (b : Bound) : (unknownFor b).Sound o := by
  unfold unknownFor
  cases b.actual with
  | none => trivial
  | some t => exact Datum.sound_unknownOf _

section Steps

variable (h : s.Sound c.source o)

include h

theorem keeps_emit {st : Stmt} (hst : st.WellFormed s.out.vars)
    (hin : ∀ i, s.current = some i → ∀ j ∈ st.scopes, i < j ∧ j < s.out.scopes.size) :
    Keeps c W o s (emit st) fun _ _ _ => True := by
  refine .modify ?_ trivial
  cases hc : s.current with
  | none => exact .refl h
  | some i =>
    refine ⟨.refl _, ⟨.refl _, by simp, fun _ _ hr _ => hr⟩, hc.symm, ?_, fun _ _ _ _ => rfl⟩
    refine { h with out := h.out.addStmt hst (hin i hc), current := fun j hj => ?_ }
    simpa using h.current j (hc.trans hj)

theorem keeps_newScope : Keeps c W o s newScope fun _ s' id =>
    id < s'.out.scopes.size ∧ ∀ i, s'.current = some i → i < id := by
  intro id s' run
  simp only [newScope, bind_ok, get_ok, modify_ok, pure_ok] at run
  obtain ⟨_, _, ⟨rfl, rfl⟩, _, _, rfl, rfl, rfl⟩ := run
  have size : s.out.addScope.scopes.size = s.out.scopes.size + 1 := Array.size_push _
  refine ⟨o, ⟨.refl _, ⟨.refl _, ?_, fun _ _ hr _ => hr⟩, rfl, ?_, fun _ _ _ _ => rfl⟩, ?_, h.current⟩
  · exact size ▸ Nat.le_succ _
  · refine { h with out := h.out.addScope, current := fun i hi => ?_ }
    exact size ▸ Nat.lt_succ_of_lt (h.current i hi)
  · exact size ▸ Nat.lt_succ_self _

theorem keeps_newSlot {ty : Ty} {definition : Span} (hty : ty.IsPositive) :
    Keeps c W o s (newSlot ty definition) fun _ s' id => s'.records = s.records ∧
      s'.out.vars[id]? = some ⟨ty, definition⟩ ∧ ∀ r ∈ s.records, r.slot ≠ some id := by
  intro id s' run
  simp only [newSlot, bind_ok, get_ok, modify_ok, pure_ok] at run
  obtain ⟨_, _, ⟨rfl, rfl⟩, _, _, rfl, rfl, rfl⟩ := run
  refine ⟨o, ⟨.refl _, ⟨.push _ _, Nat.le_refl _, fun _ _ hr _ => hr⟩, rfl, ?_, fun _ _ _ _ => rfl⟩, rfl, ?_, ?_⟩
  · exact { h with
      out := h.out.addVariable hty
      records := fun r hr => (h.records r hr).mono (.push _ _) }
  · simp [Program.addVariable]
  · intro r hr hslot
    obtain ⟨v, hv, -⟩ := (h.records r hr).slot _ hslot
    simp at hv

theorem keeps_record (id : Nat) : Keeps c W o s (record id) fun _ s' r => s' = s ∧ s.Shows id r := by
  refine .get_bind (.pure h ⟨rfl, ?_⟩)
  rw [Array.getD_eq_getD_getElem?]
  cases found : s.records[id]? with
  | none => exact ⟨⟨nofun, nofun⟩, nofun, fun r' hr' => by rw [found] at hr'; cases hr'⟩
  | some r =>
    refine ⟨h.records r (Array.mem_of_getElem? found), fun _ => found, fun r' hr' => ?_⟩
    rw [found] at hr'
    exact (Option.some.inj hr').symm

theorem keeps_recordOf (v : VarId) : Keeps c W o s (recordOf v) fun o' s' p =>
    s' = s ∧ s.Shows p.1 p.2 ∧ o'[p.1]? = some v := by
  refine .recordId_bind ?_
  split
  · rename_i id found
    refine (keeps_record h id).bind fun r o' s' reach hr => .pure reach.sound ?_
    exact ⟨hr.1, hr.2, reach.owners _ _ (h.table.lookup found)⟩
  · exact .read_bind .breakDown

theorem keeps_putTracked {v : VarId} {d : Datum} (hd : d.Sound o) :
    Keeps c W o s (putTracked v d) fun _ s' _ => s'.records = s.records := by
  refine .modify ⟨.refl _, ⟨.refl _, Nat.le_refl _, fun _ _ hr _ => hr⟩, rfl, ?_, fun _ _ _ _ => rfl⟩ rfl
  refine { h with tracked := fun e he => ?_ }
  rcases Array.mem_or_eq_of_mem_setIfInBounds he with he | he
  · exact h.tracked e he
  · cases he; exact hd

theorem keeps_noteWrite {w : Write} (hw : w.value.Sound o) :
    Keeps c W o s (noteWrite w) fun _ _ _ => True := by
  refine .modify ⟨.refl _, ⟨.refl _, Nat.le_refl _, fun _ _ hr _ => hr⟩, rfl, ?_, fun _ _ _ _ => rfl⟩ trivial
  refine { h with log := fun x hx => ?_ }
  rcases Array.mem_push.1 hx with hx | rfl
  · exact h.log x hx
  · exact hw

theorem keeps_track {v : VarId} {d : Datum} (hd : d.Sound o) :
    Keeps c W o s (track v d) fun _ _ _ => True :=
  (keeps_putTracked h hd).bind fun _ _ _ reach _ => keeps_noteWrite reach.sound (hd.mono reach.owners)

theorem keeps_tracked (v : VarId) (r : Record) :
    Keeps c W o s (tracked v r) fun o' s' d => d.Sound o' ∧ s'.records = s.records := by
  refine .get_bind ?_
  have fresh (t : Ty) : Keeps c W o s (do let d := Datum.unknownOf t.dims; putTracked v d; return d)
      fun o' s' d => d.Sound o' ∧ s'.records = s.records :=
    (keeps_putTracked h (Datum.sound_unknownOf _)).bind fun _ _ _ reach same =>
      .pure reach.sound ⟨Datum.sound_unknownOf _, same⟩
  dsimp only
  split
  · exact .pure h ⟨trivial, rfl⟩
  · exact fresh _
  · exact fresh _
  · rename_i d found _
    refine .pure h ⟨h.tracked d ?_, rfl⟩
    rw [Array.getD_eq_getD_getElem?] at found
    cases hv : s.tracked[v]? with
    | none => simp [hv] at found
    | some e =>
      simp only [hv, Option.getD_some] at found
      exact found ▸ Array.mem_of_getElem? hv

theorem keeps_trackAt {v : VarId} {r : Record} {coord : List Int} {d : Datum} (hd : d.Sound o) :
    Keeps c W o s (trackAt v r coord d) fun _ _ _ => True := by
  refine (keeps_tracked h v r).bind fun whole o' s' reach hwhole => ?_
  have hd' := hd.mono reach.owners
  split
  · exact keeps_track reach.sound hd'
  · refine (Keeps.orBadShape (Q := fun o _ d => d.Sound o) reach.sound
      fun e he => hwhole.1.set? hd' he).bind fun e o'' s'' reach' he => ?_
    refine (keeps_putTracked reach'.sound he).bind fun _ o₃ s₃ reach'' _ => ?_
    exact keeps_noteWrite reach''.sound (hd'.mono (reach'.owners.trans reach''.owners))

/-- A new record may share its slot only with records of the same variable. -/
theorem keeps_create {v : VarId} {r : Record} (hr : r.Sound s.out.vars)
    (hshare : ∀ k, r.slot = some k → ∀ (i : Nat) (r' : Record), s.records[i]? = some r' →
      r'.slot = some k → o[i]? = some v) :
    Keeps c W o s (create v r) fun _ _ _ => True := by
  have owned : Extends o (o.push v) := .push _ _
  -- A record of the new state is an old one of the same owner, or the new one, which `v` owns.
  have source {i : Nat} {r' : Record} (found : (s.records.push r)[i]? = some r') :
      (s.records[i]? = some r' ∧ (o.push v)[i]? = o[i]?) ∨ (r' = r ∧ (o.push v)[i]? = some v) := by
    rw [Array.getElem?_push] at found
    rw [Array.getElem?_push, h.owners]
    split at found
    · exact .inr ⟨(Option.some.inj found).symm, by simp_all⟩
    · exact .inl ⟨found, by simp_all⟩
  intro u s' run
  obtain ⟨u', t, first, rest⟩ := bind_ok.1 run
  obtain rfl := modify_ok.1 first
  have sound : State.Sound c.source (o.push v)
      { s with records := s.records.push r, table := (v, s.records.size) :: s.table } := by
    refine { h with
      owners := by simp [h.owners]
      records := fun r' hr' => ?_
      shared := fun i j r₁ r₂ k h₁ h₂ hk₁ hk₂ => ?_
      statics := fun k hk => ?_
      table := fun e he => ?_
      tracked := fun d hd => (h.tracked d hd).mono owned
      log := fun w hw => (h.log w hw).mono owned }
    · rcases Array.mem_push.1 hr' with hr' | rfl
      · exact h.records r' hr'
      · exact hr
    · rcases source h₁ with ⟨old₁, e₁⟩ | ⟨rfl, e₁⟩ <;> rcases source h₂ with ⟨old₂, e₂⟩ | ⟨rfl, e₂⟩
      · rw [e₁, e₂, h.shared i j r₁ r₂ k old₁ old₂ hk₁ hk₂]
      · rw [e₁, e₂, hshare k hk₂ i r₁ old₁ hk₁]
      · rw [e₁, e₂, hshare k hk₁ j r₂ old₂ hk₂]
      · rw [e₁, e₂]
    · obtain ⟨i, r', w, hi, hslot, hw, hio⟩ := h.statics k hk
      exact ⟨i, r', w, Extends.push _ _ i r' hi, hslot, owned i w hw, hio⟩
    · rcases List.mem_cons.1 he with rfl | he
      · simp [← h.owners]
      · exact owned _ _ (h.table e he)
  have grows : s.Grows { s with records := s.records.push r, table := (v, s.records.size) :: s.table } :=
    ⟨.refl _, Nat.le_refl _, fun i r' hr' _ => Extends.push _ _ i r' hr'⟩
  obtain ⟨o', reach, -⟩ := keeps_track (W := W) sound (sound_unknownFor _) u s' rest
  refine ⟨o', ⟨owned.trans reach.owners, grows.trans reach.grows, reach.current, reach.sound, ?_⟩, trivial⟩
  intro i w hw apart
  have old : i < s.records.size := h.owners ▸ (Array.getElem?_eq_some_iff.1 hw).1
  rw [reach.apart i w (owned i w hw) apart, Array.getElem?_push, if_neg (Nat.ne_of_lt old)]

theorem keeps_forget (written : List VarId) : Keeps c W o s (forget written) fun _ _ _ => True := by
  induction written generalizing o s with
  | nil => exact .pure h trivial
  | cons v rest ih =>
    refine Keeps.bind (Q := fun _ _ _ => True) ?_ fun _ o' s' reach _ => ih reach.sound
    refine .recordId_bind ?_
    split
    · exact .pure h trivial
    · refine (keeps_record h _).bind fun r o' s' reach _ => ?_
      split
      · refine (keeps_putTracked reach.sound (sound_unknownFor _)).bind fun _ o'' s'' reach' _ => ?_
        refine .modify ⟨.refl _, ⟨.refl _, Nat.le_refl _, fun _ _ hr _ => hr⟩, rfl, ?_, fun _ _ _ _ => rfl⟩ trivial
        refine { reach'.sound with log := fun w hw => ?_ }
        rcases Array.mem_push.1 hw with hw | rfl
        · exact reach'.sound.log w hw
        · exact sound_unknownFor _
      · exact .pure reach.sound trivial

theorem keeps_withTable {table : Table} {act : Stage α} {Q : Owners → State → α → Prop}
    (ht : TableOwned o table)
    (hact : State.Sound c.source o { s with table := table, tables := s.table :: s.tables } →
      Keeps c W o { s with table := table, tables := s.table :: s.tables } act Q)
    (hq : ∀ o' s' a, Q o' s' a → Q o' { s' with table := s.table, tables := s'.tables.tail } a) :
    Keeps c W o s (withTable table act) Q := by
  intro a s' run
  simp only [withTable, bind_ok, get_ok, modify_ok, pure_ok] at run
  obtain ⟨_, _, ⟨rfl, rfl⟩, _, _, rfl, _, t, run, _, _, rfl, rfl, rfl⟩ := run
  obtain ⟨o', reach, hqa⟩ := hact { h with table := ht } _ t run
  refine ⟨o', ⟨reach.owners, ?_, reach.current, ?_, reach.apart⟩, hq _ _ _ hqa⟩
  · exact ⟨reach.grows.vars, reach.grows.scopes, reach.grows.settled⟩
  · exact { reach.sound with table := h.table.mono reach.owners }

theorem keeps_withCurrent {scope : ScopeId} {act : Stage Unit} (hscope : scope < s.out.scopes.size)
    (hact : State.Sound c.source o { s with current := some scope } →
      Keeps c W o { s with current := some scope } act fun _ _ _ => True) :
    Keeps c W o s (withCurrent (some scope) act) fun _ _ _ => True := by
  intro a s' run
  simp only [withCurrent, bind_ok, get_ok, modify_ok, pure_ok] at run
  obtain ⟨_, _, ⟨rfl, rfl⟩, _, _, rfl, _, t, run, _, _, rfl, -, rfl⟩ := run
  have inside : State.Sound c.source o { s with current := some scope } :=
    { h with current := fun i hi => by cases hi; exact hscope }
  obtain ⟨o', reach, -⟩ := hact inside _ t run
  refine ⟨o', ⟨reach.owners, ?_, rfl, ?_, reach.apart⟩, trivial⟩
  · exact ⟨reach.grows.vars, reach.grows.scopes, reach.grows.settled⟩
  · exact { reach.sound with
      current := fun i hi => Nat.lt_of_lt_of_le (h.current i hi) reach.grows.scopes }

theorem keeps_inBranch {act : Stage Unit}
    (hact : ∀ s' : State, s'.Sound c.source o → s'.out = s.out → s'.current = s.current →
      Keeps c W o s' act fun _ _ _ => True) :
    Keeps c W o s (inBranch act) fun _ _ _ => True := by
  intro u s' run
  simp only [inBranch, bind_ok, get_ok, modify_ok] at run
  obtain ⟨_, _, ⟨rfl, rfl⟩, _, _, rfl, _, t, run, _, _, ⟨rfl, rfl⟩, _, t', run', rfl⟩ := run
  have entered : State.Sound c.source o { s with
      written := [], writtenBefore := s.written :: s.writtenBefore, conditional := s.conditional + 1 } :=
    { h with }
  obtain ⟨o', reach, -⟩ := hact _ entered rfl rfl _ t run
  obtain ⟨o'', reach', -⟩ := keeps_forget reach.sound _ _ t' run'
  have all := reach.trans reach'
  exact ⟨o'', ⟨all.owners, ⟨all.grows.vars, all.grows.scopes, all.grows.settled⟩, all.current,
    { all.sound with }, all.apart⟩, trivial⟩

end Steps

/-- Every scope can be worked out in every sound state. -/
def Runs (c : Context) (W : VarId → Prop) (run : Scoped.ScopeId → Stage Unit) : Prop :=
  ∀ o s i, s.Sound c.source o → Keeps c W o s (run i) fun _ _ _ => True

end Stage

end SignalLang.Staged
