import Mathlib.Data.List.TakeWhile
import SignalLang.Proofs.Staged.Preservation
import SignalLang.Proofs.Staged.Safe

/-!
# Entering scopes

A scope that is entered makes variables, so it does not leave the table as it was. `Advances` says what it leaves:
what was in sight still stands, and so does what was made (`Behind`). `Admits` is the promise of a scope that is
entered at a `Point`; an early return may skip its last statements, but none of those that last.

The body of a macro works under a table of its own, where only what it can reach is in sight. What it made is new to
its caller, so behind the call both tables can be put together (`State.Rejoins`), and the caller goes on with its own.
-/

namespace SignalLang.Staged

open Scoped (VarId Layout)
open Datum (IsA May)

variable {p : Scoped.Program} {L : Layout} {Γ Γ' Γ'' Δ Δ' M N : VarId → Prop} {s s' s'' s₀ t : State} {v : VarId}
  {rank : VarId} {i j : Scoped.ScopeId} {c : Context}

/-! ## Tables -/

/-- Every variable in a table belongs to a body that is not lower than `rank`. -/
def TableAbove (L : Layout) (rank : VarId) (table : Table) : Prop := ∀ e ∈ table, rank ≤ L.height e.1

theorem TableAbove.lookup {table : Table} (h : TableAbove L rank table) (lower : L.height v < rank) :
    table.lookup v = none := by
  refine List.lookup_eq_none_iff.2 fun e he => bne_iff_ne.2 fun same => ?_
  exact absurd (h e he) (Nat.not_le.2 (same ▸ lower))

/-! ## What a scope leaves -/

/-- A step makes variables of bodies that are not lower than `rank`; what was in sight and what it made stands. -/
structure Advances (p : Scoped.Program) (L : Layout) (rank : VarId) (Γ Γ' M : VarId → Prop) (s s' : State) : Prop where
  sees : s'.Sees p L Γ'
  passes : Passes Γ Γ' M s s'
  above : TableAbove L rank s'.table
  inStatic : s'.inStatic = s.inStatic
  conditional : s'.conditional = s.conditional

namespace Advances

theorem refl (h : s.Sees p L Γ) (above : TableAbove L rank s.table) : Advances p L rank Γ Γ M s s :=
  ⟨h, .refl _ _ _, above, rfl, rfl⟩

theorem trans (a : Advances p L rank Γ Γ' M s s') (b : Advances p L rank Γ' Γ'' M s' s'') :
    Advances p L rank Γ Γ'' M s s'' :=
  ⟨b.sees, a.passes.trans b.passes, b.above, b.inStatic.trans a.inStatic, b.conditional.trans a.conditional⟩

/-- A step that leaves the table as it was. -/
theorem goes (a : Advances p L rank Γ Γ' M s s') (g : Goes p L Γ' M s' s'') : Advances p L rank Γ Γ' M s s'' :=
  ⟨g.sees, a.passes.trans g.passes, g.table ▸ a.above, g.inStatic.trans a.inStatic, g.conditional.trans a.conditional⟩

theorem widen (a : Advances p L rank Γ Γ' M s s') (more : ∀ v, M v → N v) : Advances p L rank Γ Γ' N s s' :=
  { a with passes := a.passes.widen more }

/-- Some of what was made is no longer looked at. -/
theorem narrow (a : Advances p L rank Γ Γ'' M s s') (closed : p.Closed L Γ') (more : ∀ v, Γ v → Γ' v)
    (less : ∀ v, Γ' v → Γ'' v) : Advances p L rank Γ Γ' M s s' :=
  { a with
    sees := a.sees.view ⟨rfl, rfl, rfl⟩ a.sees.out closed fun v hv => ⟨less v hv, rfl⟩
    passes := a.passes.narrow more less }

/-- A state that differs in nothing that is looked at. -/
theorem alike (a : Advances p L rank Γ Γ' M s s') (same : s'.Alike s'') (out : s''.out.Fits)
    (table : s''.table = s'.table) (written : ∀ v ∈ s''.written, v ∈ s.written ∨ M v ∨ Γ v)
    (inStatic : s''.inStatic = s.inStatic) (conditional : s''.conditional = s.conditional) :
    Advances p L rank Γ Γ' M s s'' :=
  ⟨a.sees.view same out a.sees.closed fun _ hv => ⟨hv, by rw [table]⟩,
    a.passes.alike same (fun _ _ => by rw [table]) written, table ▸ a.above, inStatic, conditional⟩

/-- The same of a step that began in a state that differs in nothing that is looked at. -/
theorem since (a : Advances p L rank Γ Γ' M s' s'') (same : s.Alike s') (table : s'.table = s.table)
    (written : s'.written = s.written) (inStatic : s''.inStatic = s.inStatic)
    (conditional : s''.conditional = s.conditional) : Advances p L rank Γ Γ' M s s'' :=
  ⟨a.sees, a.passes.since same (fun _ _ => by rw [table]) fun _ hv => written ▸ hv, a.above, inStatic, conditional⟩

/-- The table is restored. -/
theorem restore (a : Advances p L rank Γ Γ' M s s') (h : s.Sees p L Γ) (above : TableAbove L rank s.table)
    (same : s'.Alike s'') (out : s''.out = s'.out) (table : s''.table = s.table) (written : s''.written = s'.written)
    (inStatic : s''.inStatic = s.inStatic) (conditional : s''.conditional = s.conditional) :
    Advances p L rank Γ Γ M s s'' := by
  have lookup (v : VarId) (hv : Γ v) : s''.table.lookup v = s'.table.lookup v := by rw [table, a.passes.table v hv]
  refine ⟨a.sees.view same (out ▸ a.sees.out) h.closed fun v hv => ⟨a.passes.more v hv, lookup v hv⟩, ?_, table ▸ above,
    inStatic, conditional⟩
  exact (a.passes.narrow (fun _ hv => hv) a.passes.more).alike same lookup (written ▸ a.passes.written)

/-- A step under one table, and what comes behind it. -/
theorem bind {α β : Type} {m : Stage α} {f : α → Stage β} {Q : State → α → Prop} {R : State → β → Prop}
    (a : Advances c.source L rank Γ Γ' M s₀ s) (hm : Stage.Safe c L Γ' M s m Q)
    (hf : ∀ x s', Goes c.source L Γ' M s s' → Advances c.source L rank Γ Γ' M s₀ s' → Q s' x →
      Stage.Ends .faultless c s' (f x) R) : Stage.Ends .faultless c s (m >>= f) R :=
  Stage.Ends.bind hm fun x s' h => hf x s' h.1 (a.goes h.1) h.2

end Advances

/-- Statements can be worked out from a state in which `Γ` is in sight. -/
structure State.Running (p : Scoped.Program) (L : Layout) (rank : VarId) (Γ : VarId → Prop) (s : State) : Prop where
  sees : s.Sees p L Γ
  above : TableAbove L rank s.table
  returned : s.returned = false

theorem State.Running.goes (h : s.Running p L rank Γ) (g : Goes p L Γ M s s') : s'.Running p L rank Γ :=
  ⟨g.sees, g.table ▸ h.above, g.returned.trans h.returned⟩

/-- Nothing is in sight where staging starts. -/
theorem State.Running.start :
    State.Running p L rank (fun _ => False) { tracked := Array.replicate p.vars.size none } := by
  refine ⟨⟨⟨fun v hv => ?_, fun body hbody st hst => ?_⟩, fun r hr => ?_, fun _ _ => False.elim, fun _ => False.elim,
    fun _ _ _ => False.elim, fun _ => False.elim⟩, fun e he => ?_, rfl⟩
  · exact absurd hv (Array.not_mem_empty v)
  · have empty : body = #[] := by simpa using hbody
    subst empty
    cases hst
  · exact absurd hr (Array.not_mem_empty r)
  · exact absurd he List.not_mem_nil

/-- What is in sight behind statements, where `Γ` was in sight before them. -/
def Behind (Γ : VarId → Prop) (done : List Scoped.Stmt) (v : VarId) : Prop := Γ v ∨ ∃ st ∈ done, v ∈ st.declares

/-- The statements `done` of a scope were worked out. They are all of them unless one returned. -/
structure Works (p : Scoped.Program) (L : Layout) (i : Scoped.ScopeId) (Γ : VarId → Prop) (done : List Scoped.Stmt)
    (s s' : State) : Prop where
  advances : Advances p L (L.rank i) Γ (Behind Γ done) (Scoped.Program.Makes L i) s s'
  part : ∀ st ∈ done, st ∈ p.statements i
  lasts : ∀ st ∈ p.lasting i, st ∈ done
  returns : s'.returned = true → s.conditional = 0 ∧ ∀ fuel, p.returnsIn fuel i = true

/-- The predefined names are made one after the other, and nothing returns before the last. -/
theorem Works.predefined {done : List Scoped.Stmt} (works : Works p L p.builtins (fun _ => False) done s s')
    (creates : ∀ st ∈ p.statements p.builtins, ∃ v type span, st = .create v type span) :
    s'.returned = false ∧
      ∀ v, Behind (fun _ => False) done v ↔ ∃ st ∈ p.statements p.builtins, v ∈ st.declares := by
  have quiet (fuel : Nat) (st : Scoped.Stmt) (hst : st ∈ p.statements p.builtins) : p.mayReturn fuel st = false := by
    obtain ⟨v, type, span, rfl⟩ := creates st hst
    rfl
  have all (st : Scoped.Stmt) (hst : st ∈ p.statements p.builtins) : st ∈ done := by
    refine works.lasts st ?_
    rw [Scoped.Program.lasting, List.takeWhile_eq_self_iff.2 fun st hst => by rw [quiet _ st hst]; rfl]
    exact hst
  refine ⟨?_, fun v => ⟨fun hv => ?_, fun hv => ?_⟩⟩
  · by_contra returned
    obtain ⟨st, hst, returns⟩ := List.any_eq_true.1 ((works.returns (Bool.not_eq_false _ ▸ returned)).2 1)
    exact Bool.false_ne_true ((quiet 0 st hst).symm.trans returns)
  · obtain ⟨st, hst, hv⟩ := hv.resolve_left id
    exact ⟨st, works.part st hst, hv⟩
  · obtain ⟨st, hst, hv⟩ := hv
    exact .inr ⟨st, all st hst, hv⟩

/-- A step may have returned only outside of branches, and where a return may stand. -/
structure Proceeds (p : Scoped.Program) (L : Layout) (rank : VarId) (Γ Γ' M : VarId → Prop) (s s' : State)
    (returns : Prop) : Prop where
  advances : Advances p L rank Γ Γ' M s s'
  returned : s'.returned = true → s.conditional = 0 ∧ returns

namespace Proceeds

variable {returns returns' : Prop}

/-- A step that does not return. -/
theorem still (a : Advances p L rank Γ Γ' M s s') (running : s'.returned = false) :
    Proceeds p L rank Γ Γ' M s s' returns :=
  ⟨a, fun returned => absurd (running.symm.trans returned) nofun⟩

/-- A step that declares nothing. -/
theorem plain (y : Proceeds p L rank Γ Γ M s s' returns) :
    Proceeds p L rank Γ (fun v => Γ v ∨ v ∈ ([] : List VarId)) M s s' returns := by
  simpa using y

theorem behind (a : Advances p L rank Γ Γ M s₀ s) (y : Proceeds p L rank Γ Γ' M s s' returns) :
    Proceeds p L rank Γ Γ' M s₀ s' returns :=
  ⟨a.trans y.advances, fun returned => a.conditional ▸ y.returned returned⟩

theorem mono (y : Proceeds p L rank Γ Γ' M s s' returns) (h : returns → returns') :
    Proceeds p L rank Γ Γ' M s s' returns' :=
  ⟨y.advances, fun returned => (y.returned returned).imp_right h⟩

end Proceeds

/-- A nested scope makes what the scope around it may make. -/
theorem Works.nested {S T : VarId → Prop} {done : List Scoped.Stmt} (h : Works p L j Γ done s s')
    (nests : p.Nests L i S T j) : Advances p L (L.rank i) Γ (Behind Γ done) (Scoped.Program.Makes L i) s s' := by
  have advances := h.advances.widen fun v made => made.nested nests
  rw [nests.rank] at advances
  exact advances

namespace Stage

/-- The scopes of a program whose calls are direct and whose declarations last can be entered at its points. -/
structure Admits (c : Context) (L : Layout) (run : Scoped.ScopeId → Stage Unit) : Prop where
  laid : c.source.Laid L
  direct : c.source.Direct
  lasting : c.source.Lasting
  enter : ∀ {i Γ s}, c.source.Point L i [] Γ → s.Running c.source L (L.rank i) Γ →
    Ends .faultless c s (run i) fun s' _ => ∃ done, Works c.source L i Γ done s s'

end Stage

/-! ## Making variables -/

section Making

open Stage

/-- A variable is made, for the first time or again. A macro that is in sight then sees only what was in sight from the
start. -/
theorem ends_create {r : Record} (a : Advances c.source L rank Γ Γ' M s₀ s) (hv : ¬Γ v) (hm : M v)
    (tall : rank ≤ L.height v) (fine : r.Fine) (constant : (c.source.var v).initial ≠ none → r.slot = none)
    (closed : ∀ m, Γ' m ∨ m = v → ∀ site, (c.source.var m).initial = some (.macroRef site) →
      ∀ w, L.sees site.body w → Γ w) :
    Ends .faultless c s (create v r) fun s' _ => Advances c.source L rank Γ (fun u => Γ' u ∨ u = v) M s₀ s' ∧
      s'.returned = s.returned ∧ ∃ id, s'.Stands c.source v id r := by
  let others (u : VarId) : Prop := Γ' u ∧ u ≠ v
  have kept (u : VarId) (hu : Γ u) : others u := ⟨a.passes.more u hu, fun same => hv (same ▸ hu)⟩
  have all : (fun u => others u ∨ u = v) = fun u => Γ' u ∨ u = v := by
    funext u
    refine propext ⟨Or.imp_left And.left, fun hu => ?_⟩
    rcases Decidable.em (u = v) with same | other
    · exact .inr same
    · exact .inl ⟨hu.resolve_right other, other⟩
  have fewer : Advances c.source L rank Γ others M s₀ s :=
    a.narrow (fun m site hm' initial w hw => kept w (closed m (.inl hm'.1) site initial w hw)) kept fun _ hu => hu.1
  let made : State :=
    { s with
      records := s.records.push r
      table := (v, s.records.size) :: s.table
      tracked := s.tracked.setIfInBounds v (some (unknownFor r.bound))
      written := if s.written.contains v then s.written else v :: s.written
      log := s.log.push ⟨v, [], unknownFor r.bound⟩ }
  have sees : made.Sees c.source L fun u => others u ∨ u = v := by
    refine fewer.sees.make (fun hu => hu.2 rfl) (fun m site hm' initial w hw => .inl (kept w ?_)) fine constant
      fewer.sees.out rfl rfl rfl
    exact closed m (hm'.imp_left And.left) site initial w hw
  refine .modify_bind (.modify_bind (.modify ?_))
  rw [← all]
  refine ⟨⟨sees, ?_, ?_, a.inStatic, a.conditional⟩, rfl, ?_⟩
  · refine fewer.passes.trans (.make (fun hu => hu.2 rfl) hm rfl rfl (fun u hu => ?_) rfl rfl)
    dsimp only at hu
    split at hu
    · exact .inl hu
    · exact (List.mem_cons.1 hu).symm
  · intro e he
    rcases List.mem_cons.1 he with rfl | he
    · exact tall
    · exact a.above e he
  · obtain ⟨id, r', stands⟩ := sees.stands v (.inr rfl)
    have lookup : made.table.lookup v = some s.records.size := by rw [List.lookup_cons, beq_self_eq_true]
    obtain ⟨rfl, rfl⟩ := stands.unique lookup Array.getElem?_push_size
    exact ⟨_, stands⟩

/-- The value of a variable that was just made. -/
theorem safe_trackMade {id : Nat} {r : Record} {ty : Ty} {d : Datum} (h : s.Sees c.source L Γ) (hv : Γ v)
    (stands : s.Stands c.source v id r) (actual : r.bound.actual = some ty) (hd : d.Has (IsA ty.base) ty.dims)
    (macros : ∀ site site' context, (c.source.var v).initial = some (.macroRef site) → d = .macroRef site' context →
      site' = site ∧ Armed c.source L v site s.table context) :
    Safe c L Γ M s (track v d) fun _ _ => True := by
  refine (safe_track h (.inl hv) (fun _ id' r' hr' => .inr ⟨ty, ?_, hd.mono fun _ => .inr⟩) fun _ => macros).mono
    fun _ _ _ _ => trivial
  obtain ⟨-, rfl⟩ := stands.unique hr'.lookup hr'.record
  exact actual

/-- A variable without a value from the start that may be made where `Γ` is in sight, any number of times. -/
structure Vacant (p : Scoped.Program) (L : Layout) (rank : VarId) (Γ M : VarId → Prop) (v : VarId) : Prop where
  unseen : ¬Γ v
  makes : M v
  tall : rank ≤ L.height v
  initial : (p.var v).initial = none

/-- Of the variables made since `Γ` was in sight none holds a macro from the start. -/
def AddsVacant (p : Scoped.Program) (Γ Γ' : VarId → Prop) : Prop := ∀ m, Γ' m → Γ m ∨ (p.var m).initial = none

theorem AddsVacant.made (h : AddsVacant p Γ Γ') (vacant : Vacant p L rank Γ M v) : AddsVacant p Γ fun u => Γ' u ∨ u = v := by
  rintro m (hm | rfl)
  · exact h m hm
  · exact .inr vacant.initial

theorem Vacant.create (vacant : Vacant c.source L rank Γ M v) (a : Advances c.source L rank Γ Γ' M s₀ s)
    (closed : c.source.Closed L Γ) (adds : AddsVacant c.source Γ Γ') {r : Record} (fine : r.Fine) :
    Ends .faultless c s (create v r) fun s' _ => Advances c.source L rank Γ (fun u => Γ' u ∨ u = v) M s₀ s' ∧
      s'.returned = s.returned ∧ ∃ id, s'.Stands c.source v id r := by
  refine ends_create a vacant.unseen vacant.makes vacant.tall fine (fun some => absurd vacant.initial some) ?_
  intro m hm site initial w hw
  rcases adds.made vacant m hm with hm | none
  · exact closed m site hm initial w hw
  · rw [none] at initial
    cases initial

theorem behind_cons {α : Type} (Γ : VarId → Prop) (v : VarId) (a : α) (rest : List (VarId × α)) :
    (fun u => Γ u ∨ u ∈ ((v, a) :: rest).map Prod.fst) = fun u => (Γ u ∨ u = v) ∨ u ∈ rest.map Prod.fst := by
  funext u
  simp only [List.map_cons, List.mem_cons, or_assoc]

/-- The inputs of a macro are made, each with the value that was given for it. -/
theorem ends_bindInputs {given : List (VarId × Value)} (closed : c.source.Closed L Γ)
    (a : Advances c.source L rank Γ Γ' M s₀ s) (adds : AddsVacant c.source Γ Γ')
    (hg : ∀ e ∈ given, (∃ Δ t, e.2.Proper Δ t) ∧ Vacant c.source L rank Γ M e.1) :
    Ends .faultless c s (bindInputs given) fun s' _ =>
      Advances c.source L rank Γ (fun v => Γ' v ∨ v ∈ given.map Prod.fst) M s₀ s' ∧ s'.returned = s.returned := by
  induction given generalizing s Γ' with
  | nil =>
    have all : (fun v => Γ' v ∨ v ∈ ([] : List (VarId × Value)).map Prod.fst) = Γ' := by simp
    rw [all]
    exact .pure ⟨a, rfl⟩
  | cons e rest ih =>
    obtain ⟨v, ⟨content, ty, span⟩⟩ := e
    obtain ⟨⟨Δ, t, proper⟩, vacant⟩ := hg _ List.mem_cons_self
    rw [behind_cons]
    have next {s₁ : State} (a₁ : Advances c.source L rank Γ (fun u => Γ' u ∨ u = v) M s₀ s₁)
        (same : s₁.returned = s.returned) : Ends .faultless c s₁ (bindInputs rest) fun s' _ =>
          Advances c.source L rank Γ (fun u => (Γ' u ∨ u = v) ∨ u ∈ rest.map Prod.fst) M s₀ s' ∧
            s'.returned = s.returned :=
      (ih a₁ (adds.made vacant) fun e he => hg e (List.mem_cons_of_mem _ he)).mono fun _ _ h => ⟨h.1, h.2.trans same⟩
    have fine (slot : Option SlotId) (runtime : slot.isSome → ty.isRuntime = true) :
        Record.Fine ⟨slot, .exactly ty, s.inStatic⟩ :=
      ⟨Bound.isPositive_exactly proper.positive, fun some => ⟨ty, rfl, runtime some⟩⟩
    refine .get_bind ?_
    cases content with
    | known d =>
      refine (vacant.create a closed adds (fine none nofun)).bind fun _ s₁ h₁ => ?_
      obtain ⟨a₁, same, id, stands⟩ := h₁
      refine a₁.bind (safe_trackMade a₁.sees (.inr rfl) stands rfl proper.content fun site _ _ initial => ?_)
        fun _ s₂ g₂ a₂ _ => next a₂ (g₂.returned.trans same)
      rw [vacant.initial] at initial
      cases initial
    | runtime e glimpse =>
      obtain ⟨runtime, fits, -⟩ := proper.content
      refine a.bind (safe_newSlot a.sees runtime) fun slot s₁ g₁ a₁ _ => ?_
      refine (vacant.create a₁ closed adds (fine (some slot) fun _ => runtime)).bind fun _ s₂ h₂ => ?_
      obtain ⟨a₂, same, -⟩ := h₂
      have fits : Expr.AllFit (Stmt.assign ⟨slot, [], ty, span⟩ e span).exprs := allFit_singleton fits
      exact a₂.bind (safe_emit a₂.sees fits) fun _ s₃ g₃ a₃ _ => next a₃ (g₃.returned.trans (same.trans g₁.returned))

end Making

/-! ## Behind a call -/

namespace Glimpse

theorem attached_of_foldl {g : Glimpse} {ws : List Write} (h : (ws.foldl see g).attached = true) : g.attached = true := by
  induction ws generalizing g with
  | nil => exact h
  | cons w ws ih => exact attached_of_see (ih h)

/-- A view that follows behind more writes followed before them. -/
theorem attached_of_prefix {g : Glimpse} {log log' : Array Write} (more : log.toList <+: log'.toList)
    (since : g.since ≤ log.size) (h : (g.after log').attached = true) : (g.after log).attached = true := by
  obtain ⟨ws, hws⟩ := more
  unfold after at h ⊢
  rw [← hws, List.drop_append_of_le_length (by simpa using since), List.foldl_append] at h
  exact attached_of_foldl h

end Glimpse

/-- A macro body was worked out between `s₀` and `t`: at first `Δ` was in sight, which is part of what its caller sees in
`s`, and then `Δ'`. What was made is among `N`, and is new to the caller. -/
structure State.Rejoins (p : Scoped.Program) (L : Layout) (Γ Δ Δ' N : VarId → Prop) (s s₀ t : State) : Prop where
  caller : s.Sees p L Γ
  alike : s.Alike s₀
  written : s₀.written = s.written
  less : ∀ v, Δ v → Γ v ∧ s₀.table.lookup v = s.table.lookup v
  passes : Passes Δ Δ' N s₀ t
  sees : t.Sees p L Δ'
  fresh : ∀ v, N v → ¬Γ v ∧ s.table.lookup v = none

namespace State.Rejoins

variable {id : Nat} {r : Record}

/-- Behind the call the caller finds its own variables. -/
theorem lookup_caller (h : s.Rejoins p L Γ Δ Δ' N s₀ t) (hv : Γ v) :
    (s.table ++ t.table).lookup v = s.table.lookup v := by
  obtain ⟨id, r, stands⟩ := h.caller.stands v hv
  rw [List.lookup_append, stands.lookup, Option.some_or]

/-- Behind the call the caller finds the variables of the macro as the macro left them. -/
theorem lookup_callee (h : s.Rejoins p L Γ Δ Δ' N s₀ t) (hv : Δ' v) :
    (s.table ++ t.table).lookup v = t.table.lookup v := by
  rcases h.passes.made v hv with hv | ⟨hv, -⟩
  · rw [h.lookup_caller (h.less v hv).1, ← (h.less v hv).2, h.passes.table v hv]
  · rw [List.lookup_append, (h.fresh v hv).2, Option.none_or]

/-- What the macro could not reach is as it was. -/
theorem stands_caller (h : s.Rejoins p L Γ Δ Δ' N s₀ t) (hv : Γ v) (hv' : ¬Δ v) (stands : s.Stands p v id r) :
    t.records[id]? = some r ∧ t.tracked[v]? = s.tracked[v]? := by
  constructor
  · have record : s₀.records[id]? = some r := h.alike.records ▸ stands.record
    refine (h.passes.records id r record).resolve_right fun ⟨_, w, hw, lookup⟩ => hv' ?_
    obtain ⟨hw', same⟩ := h.less w hw
    rw [h.caller.apart v w id hv hw' stands.lookup (same ▸ lookup)]
    exact hw
  · rw [h.passes.tracked v hv' fun new => (h.fresh v new).1 hv, h.alike.tracked]

/-- Behind the call the variables of the caller and of the macro stand side by side. -/
theorem sees_joined (h : s.Rejoins p L Γ Δ Δ' N s₀ t) {t' : State} (same : t.Alike t') (out : t'.out.Fits)
    (table : t'.table = s.table ++ t.table) : t'.Sees p L fun v => Γ v ∨ Δ' v := by
  have caller {v : VarId} (hv : Γ v) : t'.table.lookup v = s.table.lookup v := table ▸ h.lookup_caller hv
  have callee {v : VarId} (hv : Δ' v) : t'.table.lookup v = t.table.lookup v := table ▸ h.lookup_callee hv
  -- A variable of the caller that the macro did not see is older than all that the macro made.
  have other {v w : VarId} {id : Nat} (hv : Γ v) (hv' : ¬Δ' v) (hw : Δ' w) (hid : t'.table.lookup v = some id)
      (hid' : t'.table.lookup w = some id) : False := by
    rw [caller hv] at hid
    rw [callee hw] at hid'
    rcases h.passes.made w hw with hw' | ⟨-, new⟩
    · rw [h.passes.table w hw', (h.less w hw').2] at hid'
      exact hv' (h.caller.apart v w id hv (h.less w hw').1 hid hid' ▸ hw)
    · obtain ⟨id', r, stands⟩ := h.caller.stands v hv
      obtain rfl := Option.some.inj (stands.lookup.symm.trans hid)
      have old := (Array.getElem?_eq_some_iff.1 stands.record).1
      rw [← h.alike.records] at old
      exact absurd (new id' hid') (Nat.not_le.2 old)
  refine ⟨out, same.records ▸ h.sees.records, ?_, ?_, ?_, ?_⟩
  · rintro m site (hm | hm) initial w hw
    · exact .inl (h.caller.closed m site hm initial w hw)
    · exact .inr (h.sees.closed m site hm initial w hw)
  · intro v hv
    rcases Classical.em (Δ' v) with hv' | hv'
    · obtain ⟨id, r, stands⟩ := h.sees.stands v hv'
      refine ⟨id, r, (callee hv').trans stands.lookup, same.records ▸ stands.record, ?_, stands.constant⟩
      unfold State.Agrees
      rw [same.tracked]
      exact stands.agrees
    · have hv := hv.resolve_right hv'
      obtain ⟨id, r, stands⟩ := h.caller.stands v hv
      obtain ⟨record, tracked⟩ := h.stands_caller hv (fun hv => hv' (h.passes.more v hv)) stands
      refine ⟨id, r, (caller hv).trans stands.lookup, same.records ▸ record, ?_, stands.constant⟩
      unfold State.Agrees
      rw [same.tracked, tracked]
      exact stands.agrees
  · intro v w id hv hw hid hid'
    rcases Classical.em (Δ' v) with hv' | hv' <;> rcases Classical.em (Δ' w) with hw' | hw'
    · exact h.sees.apart v w id hv' hw' (callee hv' ▸ hid) (callee hw' ▸ hid')
    · exact (other (hw.resolve_right hw') hw' hv' hid' hid).elim
    · exact (other (hv.resolve_right hv') hv' hw' hid hid').elim
    · have hv := hv.resolve_right hv'
      have hw := hw.resolve_right hw'
      exact h.caller.apart v w id hv hw (caller hv ▸ hid) (caller hw ▸ hid')
  · intro m hm site site' context initial found
    rw [same.tracked] at found
    rcases Classical.em (Δ' m) with hm' | hm'
    · obtain ⟨rfl, armed⟩ := h.sees.armed m hm' site site' context initial found
      exact ⟨rfl, armed.change fun w hw => callee (h.sees.reach hm' initial hw)⟩
    · have hm := hm.resolve_right hm'
      obtain ⟨id, r, stands⟩ := h.caller.stands m hm
      rw [(h.stands_caller hm (fun hv => hm' (h.passes.more m hv)) stands).2] at found
      obtain ⟨rfl, armed⟩ := h.caller.armed m hm site site' context initial found
      exact ⟨rfl, armed.change fun w hw => caller (h.caller.reach hm initial hw)⟩

/-- A view that was right before the call is right behind it. -/
theorem live_joined (h : s.Rejoins p L Γ Δ Δ' N s₀ t) {t' : State} (same : t.Alike t')
    (table : t'.table = s.table ++ t.table) {g : Glimpse} {ty : Ty} (live : Live Γ s g ty) :
    Live (fun v => Γ v ∨ Δ' v) t' g ty := by
  have entered : Live Δ s₀ g ty := by
    refine live.keep h.alike.log fun v hv => ⟨(h.less v hv).1, (h.less v hv).2, fun id r _ hr _ => ?_⟩
    rw [h.alike.records]
    exact hr
  have left := h.passes.live g ty entered
  refine ⟨same.log ▸ left.since, same.log ▸ left.seen, fun attached hv => ?_⟩
  rw [same.log] at attached
  rw [same.records, table]
  rcases Classical.em (Δ' g.var) with hv' | hv'
  · rw [h.lookup_callee hv']
    exact left.follows attached hv'
  · have hv := hv.resolve_right hv'
    rw [h.lookup_caller hv]
    have before : (g.after s.log).attached = true := by
      refine Glimpse.attached_of_prefix ?_ live.since attached
      rw [← h.alike.log]
      exact h.passes.log
    obtain ⟨id, r, whole, lookup, record, actual, base, part⟩ := live.follows before hv
    obtain ⟨id', r', stands⟩ := h.caller.stands g.var hv
    obtain ⟨rfl, rfl⟩ := stands.unique lookup record
    have hr := (h.stands_caller hv (fun hv => hv' (h.passes.more _ hv)) stands).1
    exact ⟨id, r, whole, lookup, hr, actual, base, part⟩

/-- What the call leaves to its caller as it was. -/
theorem passes_joined (h : s.Rejoins p L Γ Δ Δ' N s₀ t) {t' : State} (same : t.Alike t')
    (table : t'.table = s.table ++ t.table) (written : t'.written = t.written) (makes : ∀ v, N v → M v) :
    Passes Γ (fun v => Γ v ∨ Δ' v) M s t' := by
  have records := h.alike.records
  refine ⟨fun v hv => .inl hv, ?_, fun v hv => table ▸ h.lookup_caller hv, fun v hv hm => ?_, fun v hv => ?_, ?_,
    fun id r hr => ?_, ?_, fun g ty live => h.live_joined same table live⟩
  · rintro v (hv | hv)
    · exact .inl hv
    · rcases h.passes.made v hv with hv' | ⟨hm, new⟩
      · exact .inl (h.less v hv').1
      · refine .inr ⟨makes v hm, fun id hid => ?_⟩
        rw [table, h.lookup_callee hv] at hid
        exact records ▸ new id hid
  · rw [same.tracked, h.passes.tracked v (fun hv' => hv (h.less v hv').1) fun hn => hm (makes v hn), h.alike.tracked]
  · rw [written] at hv
    rcases h.passes.written v hv with hv | hv | hv
    · exact .inl (h.written ▸ hv)
    · exact .inr (.inl (makes v hv))
    · exact .inr (.inr (h.less v hv).1)
  · rw [same.records, ← records]
    exact h.passes.size
  · rw [same.records]
    refine (h.passes.records id r (records ▸ hr)).imp_right fun ⟨opened, w, hw, lookup⟩ => ⟨opened, w, ?_⟩
    exact ⟨(h.less w hw).1, (h.less w hw).2 ▸ lookup⟩
  · rw [same.log, ← h.alike.log]
    exact h.passes.log

end State.Rejoins

/-- What does not get skipped is in sight behind a scope. -/
theorem Works.sight {i : Scoped.ScopeId} {done : List Scoped.Stmt} (h : Works p L i Γ done s s')
    (point : p.Point L i [] Γ) (seen : p.Sight L i (p.lasting i) v) : Behind Γ done v := by
  rcases seen with ⟨st, hst, declared⟩ | seen
  · exact .inr ⟨st, h.lasts st hst, declared⟩
  · exact .inl (point.sight v (.inr seen))

/-- The caller goes on from `s'` under its own table, once the outputs were handed on between `t'` and `s'`. -/
theorem State.Rejoins.leave (h : s.Rejoins p L Γ Δ Δ' N s₀ t) {t' : State} (same : t.Alike t')
    (table : t'.table = s.table ++ t.table) (written : t'.written = t.written) (makes : ∀ v, N v → M v)
    (g : Goes p L (fun v => Γ v ∨ Δ' v) M t' s') (same' : s'.Alike s'') (out : s''.out = s'.out)
    (table' : s''.table = s.table) (written' : s''.written = s'.written) (inStatic : s''.inStatic = s.inStatic)
    (conditional : s''.conditional = s.conditional) (returned : s''.returned = s.returned) :
    Goes p L Γ M s s'' ∧ ∀ a : Value, a.Proper (fun v => Γ v ∨ Δ' v) s' → a.Proper Γ s'' := by
  have lookup (v : VarId) (hv : Γ v) : s''.table.lookup v = s'.table.lookup v := by
    rw [g.table, table, table', h.lookup_caller hv]
  have passes : Passes Γ Γ M s s' :=
    ((h.passes_joined same table written makes).trans g.passes).narrow (fun _ hv => hv) fun _ => .inl
  refine ⟨⟨?_, passes.alike same' lookup (written' ▸ passes.written), table', inStatic, conditional, returned⟩, fun a ha => ?_⟩
  · exact g.sees.view same' (out ▸ g.sees.out) h.caller.closed fun v hv => ⟨.inl hv, lookup v hv⟩
  · refine ha.mono fun g ty live => live.keep same'.log fun v hv => ⟨.inl hv, lookup v hv, fun id r _ hr _ => ?_⟩
    rw [same'.records]
    exact hr

/-- A macro in sight can be called from a state: what its body makes is lower than all that is in sight. -/
structure State.Calls (p : Scoped.Program) (L : Layout) (rank : VarId) (Γ M : VarId → Prop) (s : State) (m : VarId)
    (site : MacroSite) (context : Table) : Prop where
  sees : s.Sees p L Γ
  view : p.View L rank Γ
  above : TableAbove L rank s.table
  makes : ∀ v, L.height v < rank → M v
  sight : Γ m
  initial : (p.var m).initial = some (.macroRef site)
  armed : Armed p L m site s.table context

namespace State.Calls

variable {m : VarId} {site : MacroSite} {context : Table}

theorem lower (h : s.Calls p L rank Γ M m site context) (laid : p.Laid L) (made : Scoped.Program.Makes L site.body v) :
    L.height v < rank :=
  made.lower (laid.rank_body h.initial ▸ h.view.lt m h.sight)

theorem fresh (h : s.Calls p L rank Γ M m site context) (laid : p.Laid L) (made : Scoped.Program.Makes L site.body v) :
    ¬Γ v ∧ s.table.lookup v = none :=
  ⟨fun seen => absurd (h.view.height v seen) (Nat.not_le.2 (h.lower laid made)), h.above.lookup (h.lower laid made)⟩

/-- What the body can reach is in sight, and the table of the macro finds it. -/
theorem reach (h : s.Calls p L rank Γ M m site context) (seen : p.Reach L site.body v) :
    Γ v ∧ context.lookup v = s.table.lookup v :=
  ⟨h.sees.reach h.sight h.initial seen, h.armed.lookup v seen⟩

/-- The state in which a body begins: its inputs can be made. -/
theorem entered (h : s.Calls p L rank Γ M m site context) (laid : p.Laid L) (same : s.Alike s₀) (out : s₀.out = s.out)
    (table : s₀.table = context) :
    Advances p L (L.rank site.body) (p.Reach L site.body) (p.Reach L site.body) (Scoped.Program.Makes L site.body) s₀ s₀ ∧
    ∀ v ∈ (p.scope site.body).inputs,
      Vacant p L (L.rank site.body) (p.Reach L site.body) (Scoped.Program.Makes L site.body) v := by
  refine ⟨.refl (h.sees.view same (out ▸ h.sees.out) ?_ fun v hv => table ▸ h.reach hv) ?_, fun v hv => ?_⟩
  · exact fun _ _ hm initial _ hw => .through hm initial hw
  · rw [table, laid.rank_body h.initial]
    exact h.armed.tall
  · obtain ⟨inside, none⟩ := (laid.bodies m site h.initial).inputs v hv
    exact ⟨fun seen => (h.fresh laid (.inl inside)).1 (h.reach seen).1, .inl inside, Nat.le_of_eq inside.height.symm,
      none⟩

end State.Calls

namespace Stage

variable {run : Scoped.ScopeId → Stage Unit} {m : VarId} {site : MacroSite} {context : Table}

/-- A call of a macro in sight with as many values as it has inputs. Behind the body `outs` sees what the caller sees and
the outputs. -/
theorem safe_inlineCall (hrun : Admits c L run) (h : s.Calls c.source L rank Γ M m site context)
    {given : List Value} (hg : ∀ a ∈ given, a.Proper Γ s)
    (length : given.length = (c.source.scope site.body).inputs.length) {outs : Stage Value}
    (houts : ∀ Δ s', s'.Sees c.source L Δ → (∀ v, Γ v → Δ v) → (∀ v ∈ (c.source.scope site.body).outputs, Δ v) →
      Safe c L Δ M s' outs fun s'' a => a.Proper Δ s'') {span : Span} {scope : ScopeId} :
    Safe c L Γ M s (inlineCall run site context ((c.source.scope site.body).inputs.zip given) outs span scope)
      fun s' a => a.Proper Γ s' := by
  let s₀ : State :=
    { s with current := some scope, conditional := 0, returned := false, table := context, tables := s.table :: s.tables }
  have same : s.Alike s₀ := ⟨rfl, rfl, rfl⟩
  obtain ⟨a₀, vacant⟩ := h.entered hrun.laid same rfl rfl
  have point := h.view.body hrun.laid h.sight h.initial
  refine Ends.get_bind (Ends.set_bind ((ends_bindInputs a₀.sees.closed a₀ (fun _ hm => .inl hm) fun e he => ?_).bind
    fun _ s₁ h₁ => ?_))
  · obtain ⟨hv, ha⟩ := List.of_mem_zip he
    exact ⟨⟨Γ, s, hg _ ha⟩, vacant _ hv⟩
  rw [List.map_fst_zip (Nat.le_of_eq length.symm)] at h₁
  obtain ⟨a₁, returned⟩ := h₁
  refine (hrun.enter point ⟨a₁.sees, a₁.above, returned⟩).bind fun _ s₂ h₂ => Ends.modify_bind ?_
  obtain ⟨done, works⟩ := h₂
  have rejoins := State.Rejoins.mk h.sees same rfl (fun v => h.reach) (a₁.passes.trans works.advances.passes)
    works.advances.sees fun v => h.fresh hrun.laid
  let t : State := { s₂ with returned := false, table := s.table ++ s₂.table }
  have alike : s₂.Alike t := ⟨rfl, rfl, rfl⟩
  have joined := rejoins.sees_joined alike rejoins.sees.out rfl
  refine Ends.bind (houts _ t joined (fun v hv => .inl hv) fun v hv => .inr ?_) fun value s₃ h₃ => Ends.modify_bind ?_
  · refine works.sight point (Scoped.Program.sight_lasting ?_ (hrun.lasting.output hv))
    exact (hrun.laid.bodies m site h.initial).outputs v hv
  obtain ⟨g₃, proper⟩ := h₃
  let s₄ : State :=
    { s₃ with
      current := s.current, conditional := s.conditional, returned := s.returned, table := s.table
      tables := s₃.tables.tail }
  have alike' : s₃.Alike s₄ := ⟨rfl, rfl, rfl⟩
  have inStatic : s₄.inStatic = s.inStatic := g₃.inStatic.trans (works.advances.inStatic.trans a₁.inStatic)
  obtain ⟨back, values⟩ := rejoins.leave alike rfl rfl (fun v hv => h.makes v (h.lower hrun.laid hv)) g₃ alike' rfl rfl
    rfl inStatic rfl rfl
  refine Ends.get_bind ?_
  dsimp only
  split
  · have none : Expr.AllFit (Stmt.inlined scope span).exprs := trivial
    exact Ends.bind (safe_emit (M := M) back.sees none) fun _ s₅ h₅ =>
      .pure ⟨back.trans h₅.1, (values _ proper).goes h₅.1⟩
  · exact .pure ⟨back, values _ proper⟩

end Stage

end SignalLang.Staged
