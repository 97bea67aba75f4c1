import SignalLang.Proofs.Staged.Evaluation
import SignalLang.Proofs.Staged.MacroFlow

/-!
# What is tracked

What is tracked of a variable is what is known of its value while the program is staged; the value itself is in the
variable's slot when the staged program runs. `State.HoldsOn s m` says that the two agree on a memory `m`: every known
element of a tracked value is the element in the slot.

`Place.Tracked` is what an assignment makes of a tracked value: a known value at a known place replaces a part, a smaller
one is spread over the elements of the part, and anything else makes the part unknown. Each of them follows whatever the
slot may become (`Place.Tracked.shows`). `Stage.assignAs_view` says that an assignment does nothing else.
-/

namespace SignalLang.Staged

open Scoped (VarId)
open Datum (Has IsA Shaped Fills Shows)
open Steps (Extends)

namespace Datum

variable {p : Prim} {dims : List Int} {d x y z : Datum}

/-- Replacing a part of a part. -/
theorem set?_append {a b : List Int} (h : x.set? (a ++ b) y = some z) :
    ∃ q q', x.item? a = some q ∧ q.set? b y = some q' ∧ x.set? a q' = some z := by
  induction a generalizing x z with
  | nil => exact ⟨x, z, rfl, h, set?_nil x z⟩
  | cons i a ih =>
    obtain ⟨items, old, new, rfl, hi, hold, hnew, rfl⟩ := set?_cons_eq_some.1 h
    obtain ⟨q, q', hq, hq', set⟩ := ih hnew
    refine ⟨q, q', item?_cons_eq_some.2 ⟨old, element?_eq_some.2 ⟨items, rfl, hi, hold⟩, hq⟩, hq', ?_⟩
    exact set?_cons_eq_some.2 ⟨items, old, new, rfl, hi, hold, set, rfl⟩

theorem Fills.item? {a : List Int} (h : Fills p dims x) (hlen : a.length ≤ dims.length) (hy : x.item? a = some y) :
    Fills p (dims.drop a.length) y := by
  induction a generalizing dims x with
  | nil =>
    cases hy
    exact h
  | cons i a ih =>
    obtain ⟨part, hpart, hy⟩ := item?_cons_eq_some.1 hy
    cases dims with
    | nil => cases hlen
    | cons n ns => exact ih (h.element? hpart) (Nat.le_of_succ_le_succ hlen) hy

/-- Stretching to the same lengths changes no element. -/
theorem shows_stretch (hd : Shaped dims d) (hy : stretch? dims dims d = some y) (fills : Fills p dims y) :
    Shows p dims d y := by
  obtain ⟨e, run, -, items⟩ := stretch?_ok (stretches_refl dims) hd
  rw [hy] at run
  cases run
  refine ⟨hd, fills, fun c l hc hl => .inr ?_⟩
  have inside := hd.inBounds hc hl
  rw [items c inside, broadcast_self inside]
  exact hl

end Datum

/-! ## What is tracked -/

namespace State

/-- What is known of a variable, in the shape of its type. -/
def view (s : State) (v : VarId) (b : Bound) : Datum :=
  match s.tracked.getD v none with
  | none | some .unknown => Stage.unknownFor b
  | some d => d

/-- A variable has a record in the current table. -/
def Lists (s : State) (v : VarId) (r : Record) : Prop := ∃ id, s.table.lookup v = some id ∧ s.records[id]? = some r

/-- Variables share no records and no slots, and a slot has the type of its variable. -/
structure Allotted (s : State) : Prop where
  records : ∀ v w id, s.table.lookup v = some id → s.table.lookup w = some id → v = w
  slots : ∀ v w r r' k, s.Lists v r → s.Lists w r' → r.slot = some k → r'.slot = some k → v = w
  typed : ∀ v r k, s.Lists v r → r.slot = some k → ∃ x, s.out.vars[k]? = some x ∧ r.bound.actual = some x.ty

/-- What is tracked of a variable has the shape of its type. -/
def InShape (s : State) : Prop :=
  ∀ v r t, s.Lists v r → r.bound.actual = some t → Shaped t.dims (s.view v r.bound)

/-- What is tracked holds on a memory: each known element of a variable with a slot is the element in the slot. -/
def HoldsOn (s : State) (m : Memory) : Prop :=
  ∀ v r t k, s.Lists v r → r.bound.actual = some t → r.slot = some k → ∀ c l, c.length = t.dims.length →
    (s.view v r.bound).item? c = some l → l = .unknown ∨ (m k).item? c = some l

/-- The state after statements were appended to the current scope, if there is one. -/
def emitting (s : State) (sts : List Stmt) : State :=
  { s with out := s.current.elim s.out fun i => sts.foldl (·.addStmt i ·) s.out }

theorem emitting_nil (s : State) : s.emitting [] = s := by
  obtain ⟨out, current, _⟩ := s
  cases current <;> rfl

theorem emitting_singleton (s : State) (st : Stmt) : s.emitting [st] =
    match s.current with
    | some scope => { s with out := s.out.addStmt scope st }
    | none => s := by
  obtain ⟨out, current, _⟩ := s
  cases current <;> rfl

@[simp] theorem vars_emitting (s : State) (sts : List Stmt) : (s.emitting sts).out.vars = s.out.vars := by
  have kept (i : ScopeId) (out : Program) : (sts.foldl (·.addStmt i ·) out).vars = out.vars := by
    induction sts generalizing out with
    | nil => rfl
    | cons st sts ih => exact ih _
  unfold emitting
  cases s.current with
  | none => rfl
  | some i => exact kept i s.out

/-- The statements that are appended depend on nothing but the scopes. -/
theorem scopes_emitting {s s' : State} (current : s'.current = s.current) (scopes : s'.out.scopes = s.out.scopes)
    (sts : List Stmt) : (s'.emitting sts).out.scopes = (s.emitting sts).out.scopes := by
  have same (i : ScopeId) {out out' : Program} (h : out'.scopes = out.scopes) :
      (sts.foldl (·.addStmt i ·) out').scopes = (sts.foldl (·.addStmt i ·) out).scopes := by
    induction sts generalizing out out' with
    | nil => exact h
    | cons st sts ih => exact ih (congrArg (·.modify i (·.push st)) h)
  unfold emitting
  rw [current]
  cases s.current with
  | none => exact scopes
  | some i => exact same i scopes

/-- Only what is tracked of a variable changed. -/
structure Retracks (v : VarId) (s s' : State) : Prop where
  others : ∀ w, w ≠ v → s'.tracked[w]? = s.tracked[w]?
  size : s'.tracked.size = s.tracked.size
  table : s'.table = s.table
  records : s'.records = s.records
  out : s'.out = s.out
  current : s'.current = s.current

theorem Retracks.refl (v : VarId) (s : State) : s.Retracks v s := ⟨fun _ _ => rfl, rfl, rfl, rfl, rfl, rfl⟩

theorem Retracks.trans {v : VarId} {s s' s'' : State} (h : s.Retracks v s') (h' : s'.Retracks v s'') :
    s.Retracks v s'' :=
  ⟨fun w hw => (h'.others w hw).trans (h.others w hw), h'.size.trans h.size, h'.table.trans h.table,
    h'.records.trans h.records, h'.out.trans h.out, h'.current.trans h.current⟩

theorem retracks_put (s : State) (v : VarId) (d : Datum) (written : List VarId) (log : Array Write) :
    s.Retracks v { s with tracked := s.tracked.setIfInBounds v (some d), written := written, log := log } :=
  ⟨fun _ hw => Array.getElem?_setIfInBounds_ne hw.symm, Array.size_setIfInBounds, rfl, rfl, rfl, rfl⟩

/-- Nothing is known of a variable without room for a tracked value. -/
theorem view_of_size_le {s : State} {v : VarId} (h : s.tracked.size ≤ v) (b : Bound) :
    s.view v b = Stage.unknownFor b := by
  rw [view, Array.getD_eq_getD_getElem?, Array.getElem?_eq_none h]
  rfl

theorem view_eq_of_tracked {s s' : State} {v : VarId} (h : s'.tracked[v]? = s.tracked[v]?) (b : Bound) :
    s'.view v b = s.view v b := by
  rw [view, view, Array.getD_eq_getD_getElem?, Array.getD_eq_getD_getElem?, h]

/-- The view of a tracked value is the value itself, if it has the shape of its type. -/
theorem view_of_tracked {s : State} {v : VarId} {b : Bound} {t : Ty} {d : Datum} (h : s.tracked[v]? = some (some d))
    (actual : b.actual = some t) (shaped : Shaped t.dims d) : s.view v b = d := by
  rw [view, Array.getD_eq_getD_getElem?, h, Option.getD_some]
  cases d with
  | unknown =>
    show Stage.unknownFor b = _
    rw [Stage.unknownFor, actual]
    cases dims : t.dims with
    | nil =>
      rw [Option.elim_some, dims]
      rfl
    | cons n ns =>
      rw [dims] at shaped
      obtain ⟨_, no, -⟩ := shaped
      cases no
  | _ => rfl

theorem Allotted.of_eq {s s' : State} (h : s.Allotted) (table : s'.table = s.table) (records : s'.records = s.records)
    (vars : s'.out.vars = s.out.vars) : s'.Allotted := by
  have lists {v : VarId} {r : Record} (hv : s'.Lists v r) : s.Lists v r := by
    unfold Lists at hv
    rwa [table, records] at hv
  refine ⟨?_, fun v w r r' k hv hw => h.slots v w r r' k (lists hv) (lists hw), fun v r k hv hk => ?_⟩
  · rw [table]
    exact h.records
  · rw [vars]
    exact h.typed v r k (lists hv) hk

/-- In a sound state every variable has its own record and its own slot. -/
theorem Sound.allotted {source : Scoped.Program} {o : Owners} {s : State} (h : s.Sound source o) : s.Allotted := by
  refine ⟨fun v w id hv hw => ?_, fun v w r r' k hv hw hk hk' => ?_, fun v r k hv hk => ?_⟩
  · have owner := h.table.lookup hv
    rw [h.table.lookup hw] at owner
    exact (Option.some.inj owner).symm
  · obtain ⟨i, hi, hr⟩ := hv
    obtain ⟨j, hj, hr'⟩ := hw
    have owner := h.shared i j r r' k hr hr' hk hk'
    rw [h.table.lookup hi, h.table.lookup hj] at owner
    exact Option.some.inj owner
  · obtain ⟨i, -, hr⟩ := hv
    exact (h.records r (Array.mem_of_getElem? hr)).slot k hk

end State

/-! ## Values and places -/

namespace Value

/-- A value is of its type: known data are, and an expression for run time fits together. -/
def Typed (vars : Array Variable) (v : Value) : Prop :=
  match v.content with
  | .known d => d.Has (IsA v.ty.base) v.ty.dims
  | .runtime e _ => e.ty = v.ty ∧ e.WellFormed vars ∧ e.LiteralsFit

/-- What a value is on a memory. -/
def at? (v : Value) (m : Memory) : Option Datum :=
  match v.content with
  | .known d => some d
  | .runtime e _ => e.eval m

theorem Typed.known {vars : Array Variable} {v : Value} (h : v.Typed vars) {d : Datum} (hd : v.content = .known d) :
    d.Has (IsA v.ty.base) v.ty.dims := by
  unfold Typed at h
  rw [hd] at h
  exact h

theorem Typed.mono {vars more : Array Variable} {v : Value} (h : v.Typed vars) (grows : Extends vars more) :
    v.Typed more := by
  obtain ⟨content, ty, span⟩ := v
  cases content with
  | known d => exact h
  | runtime e glimpse => exact ⟨h.1, h.2.1.mono grows, h.2.2⟩

theorem Typed.has {vars : Array Variable} {v : Value} (h : v.Typed vars) {m : Memory} (typed : m.Typed vars)
    {x : Datum} (hx : v.at? m = some x) : x.Has (IsA v.ty.base) v.ty.dims := by
  obtain ⟨content, ty, span⟩ := v
  cases content with
  | known d =>
    cases hx
    exact h
  | runtime e glimpse =>
    obtain ⟨same, formed, fits⟩ := h
    exact same ▸ Expr.has_eval typed formed fits hx

end Value

namespace Place

/-- The indexes of a place on a memory. -/
def path? (p : Place) (m : Memory) : Option (List Int) := do Datum.ints? (← Expr.evalAll m p.indexes)

/-- The known indexes of a place come first. -/
def Leads (p : Place) : Prop := ∃ rest, p.indexes = (p.fixed.map fun k => Expr.ofIndex k p.span) ++ rest

/-- A place fits a state in which its variable has the record `r`: it is all of an open variable, or its indexes lead
to a part of a settled one. -/
structure Fits (p : Place) (s : State) (r : Record) : Prop where
  lookup : s.table.lookup p.var = some p.record
  found : s.records[p.record]? = some r
  leads : p.Leads
  opened : p.ty = none → r.bound.actual = none ∧ p.fixed = [] ∧ p.dynamic = none
  settled : ∀ ty, p.ty = some ty → ∃ whole, r.bound.actual = some whole ∧ Expr.Selects s.out.vars p.indexes whole ty

theorem path?_eq_some {p : Place} {m : Memory} {path : List Int} :
    p.path? m = some path ↔ ∃ ds, Expr.evalAll m p.indexes = some ds ∧ Datum.ints? ds = some path :=
  Option.bind_eq_some_iff

theorem length_path {p : Place} {m : Memory} {path : List Int} (h : p.path? m = some path) :
    path.length = p.indexes.length := by
  obtain ⟨ds, hds, hpath⟩ := path?_eq_some.1 h
  exact (Datum.length_ints? hpath).trans (Expr.length_evalAll hds)

/-- The known indexes are the first ones on every memory. -/
theorem fixed_append {m : Memory} {span : Span} {rest : List Expr} {fixed path : List Int} {ds : List Datum}
    (hds : Expr.evalAll m ((fixed.map fun k => Expr.ofIndex k span) ++ rest) = some ds)
    (hpath : Datum.ints? ds = some path) : fixed <+: path := by
  induction fixed generalizing ds path with
  | nil => exact List.nil_prefix
  | cons k fixed ih =>
    rw [List.map_cons, List.cons_append, Expr.evalAll, Expr.ofIndex, Expr.eval] at hds
    obtain ⟨x, hx, hds⟩ := Option.bind_eq_some_iff.1 hds
    cases hx
    obtain ⟨xs, hxs, hds⟩ := Option.bind_eq_some_iff.1 hds
    cases hds
    rw [Datum.ints?] at hpath
    obtain ⟨n, hn, hpath⟩ := Option.bind_eq_some_iff.1 hpath
    cases hn
    obtain ⟨ns, hns, hpath⟩ := Option.bind_eq_some_iff.1 hpath
    cases hpath
    exact List.cons_prefix_cons.2 ⟨rfl, ih hxs hns⟩

theorem Fits.fixed_prefix {p : Place} {s : State} {r : Record} (h : p.Fits s r) {m : Memory} {path : List Int}
    (hpath : p.path? m = some path) : p.fixed <+: path := by
  obtain ⟨rest, leading⟩ := h.leads
  obtain ⟨ds, hds, hpath⟩ := path?_eq_some.1 hpath
  rw [leading] at hds
  exact fixed_append hds hpath

/-- Without other indexes the known ones are all. -/
theorem Fits.path_eq {p : Place} {s : State} {r : Record} (h : p.Fits s r) (constant : p.dynamic = none) {m : Memory}
    {path : List Int} (hpath : p.path? m = some path) : path = p.fixed := by
  refine ((h.fixed_prefix hpath).eq_of_length ?_).symm
  rw [length_path hpath, indexes, constant]
  exact (List.length_map _).symm

/-- What an assignment leaves to run time: a statement if the variable has a slot. -/
def Stores (p : Place) (v : Value) (ty : Ty) (span : Span) (slot : Option SlotId) (sts : List Stmt) : Prop :=
  match slot with
  | none => sts = []
  | some k => ∃ e : Expr, sts = [.assign ⟨k, p.indexes, ty, p.span⟩ e span] ∧ e.ty = v.ty ∧ ∀ m, e.eval m = v.at? m

/-- What becomes of the tracked value `d` of a variable of type `whole` when a place of type `ty` takes a value. -/
inductive Tracked (p : Place) (v : Value) (whole ty : Ty) (d d' : Datum) : Prop where
  /-- A known value replaces the part. -/
  | replaced {x : Datum} (known : v.content = .known x) (constant : p.dynamic = none) (same : ty = v.ty)
      (set : d.set? p.fixed x = some d')
  /-- A smaller known value replaces the elements of the part. -/
  | spread {x : Datum} (known : v.content = .known x) (constant : p.dynamic = none) (other : ty ≠ v.ty)
      (set : Datum.setAll p.fixed (fun c => x.item? (broadcast c v.ty.dims)) (coordinates ty.dims) d = some d')
  /-- The part becomes unknown. -/
  | forgotten (set : d.set? p.fixed (.unknownOf (whole.dims.drop p.fixed.length)) = some d')
  /-- Nothing is tracked of a variable without room for it. -/
  | unseen (before : d = .unknownOf whole.dims) (after : d' = .unknownOf whole.dims)

namespace Tracked

variable {p : Place} {v : Value} {vars : Array Variable} {whole ty : Ty} {d d' : Datum}

/-- A value for all of a variable makes no use of what was tracked before. -/
theorem of_whole (h : p.Tracked v whole v.ty d d') (all : p.fixed = []) :
    p.Tracked v whole v.ty (.unknownOf whole.dims) d' := by
  have replaces {part : Datum} (set : d.set? p.fixed part = some d') :
      (Datum.unknownOf whole.dims).set? p.fixed part = some d' := by
    rw [all, Datum.set?_nil] at set ⊢
    exact set
  cases h with
  | replaced known constant same set => exact .replaced known constant same (replaces set)
  | spread known constant other set => exact absurd rfl other
  | forgotten set => exact .forgotten (replaces set)
  | unseen _ after => exact .unseen rfl after

section

variable (h : p.Tracked v whole ty d d') (typed : v.Typed vars) (fits : p.fixed.length ≤ whole.dims.length)
  (part : p.dynamic = none → whole.dims.drop p.fixed.length = ty.dims)

include h part

/-- The elements outside of the part stay. -/
theorem apart (fits : p.fixed.length ≤ whole.dims.length) {c : List Int} (hc : c.length = whole.dims.length)
    (outside : ¬p.fixed <+: c) : d'.item? c = d.item? c := by
  cases h with
  | replaced _ _ _ set | forgotten set => exact Datum.item?_set?_other set (by omega) outside
  | spread _ constant _ set =>
    have full : ∀ b ∈ coordinates ty.dims, b.length = whole.dims.length - p.fixed.length := fun b hb => by
      rw [(mem_coordinates.1 hb).length_eq, ← part constant, List.length_drop]
    rcases Datum.item?_setAll (c := c) full set (by omega) with ⟨b, -, rfl, -⟩ | ⟨-, item⟩
    · exact absurd (List.prefix_append _ _) outside
    · exact item
  | unseen before after => rw [before, after]

include typed fits

theorem shaped (hd : Shaped whole.dims d) : Shaped whole.dims d' := by
  cases h with
  | replaced known constant same set =>
    refine hd.set? ?_ set
    rw [part constant, same]
    exact (typed.known known).shaped
  | spread known constant other set =>
    refine hd.setAll (fun c hc => ?_) set
    rw [(mem_coordinates.1 hc).length_eq, ← part constant, List.length_drop]
    omega
  | forgotten set => exact hd.set? (Datum.shaped_unknownOf _) set
  | unseen _ after => exact after ▸ Datum.shaped_unknownOf _

/-- What was known of a value is known of what the value becomes: `a` is where the place is in the end, and `y` what
is put there. -/
theorem shows {x y z : Datum} {a : List Int} (promotes : v.ty.promotesTo ty = true)
    (hx : Shows whole.base whole.dims d x) (below : p.fixed <+: a) (direct : p.dynamic = none → a = p.fixed)
    (inside : a.length ≤ whole.dims.length) (hy : Fills whole.base (whole.dims.drop a.length) y)
    (stretched : ∀ k, v.content = .known k → Datum.stretch? ty.dims v.ty.dims k = some y)
    (hz : x.set? a y = some z) : Shows whole.base whole.dims d' z := by
  cases h with
  | replaced known constant same set =>
    obtain rfl := direct constant
    refine hx.set? fits ?_ set hz
    have stretch := stretched _ known
    have shaped := (typed.known known).shaped
    rw [part constant] at hy ⊢
    rw [← same] at stretch shaped
    exact Datum.shows_stretch shaped stretch hy
  | @spread k known constant other set =>
    obtain rfl := direct constant
    rw [← part constant] at set
    refine hx.setAll fits hy hz (fun c hc => ?_) set
    obtain ⟨e, run, -, items⟩ := Datum.stretch?_ok (Ty.isCommon_of_promotesTo promotes).leftStretches
      (typed.known known).shaped
    rw [stretched k known] at run
    cases run
    rw [part constant] at hc
    exact (items c (mem_coordinates.1 hc)).symm
  | forgotten set =>
    obtain ⟨b, rfl⟩ := below
    obtain ⟨q, q', hq, hq', hz⟩ := Datum.set?_append hz
    have fills := hx.fills.item? fits hq
    rw [List.length_append] at inside
    rw [List.length_append, ← List.drop_drop] at hy
    refine hx.set? fits (Fills.shows_unknownOf (fills.set? ?_ hy hq')) set hz
    rw [List.length_drop]
    omega
  | unseen _ after => exact after ▸ (hx.fills.set? inside hy hz).shows_unknownOf

end

/-- A value for all of a variable is known as far as it is tracked. -/
theorem shows_whole (h : p.Tracked v v.ty v.ty d d') (typed : v.Typed vars) (all : p.fixed = [])
    {y : Datum} (hy : Fills v.ty.base v.ty.dims y)
    (stretched : ∀ k, v.content = .known k → Datum.stretch? v.ty.dims v.ty.dims k = some y) :
    Shows v.ty.base v.ty.dims d' y := by
  refine (h.of_whole all).shows typed (x := y) (a := []) ?_ ?_ (Ty.promotesTo_refl _)
    hy.shows_unknownOf ?_ ?_ (Nat.zero_le _) hy stretched (Datum.set?_nil _ _)
  · rw [all]
    exact Nat.zero_le _
  · rw [all]
    exact fun _ => rfl
  · exact List.prefix_nil.2 all
  · rw [all]
    exact fun _ => rfl

end Tracked

end Place

namespace Stage

variable {c : Context} {s s' : State} {p : Place} {r : Record} {v : Value} {whole ty : Ty} {span : Span}

/-! ## Steps -/

section Steps

variable (actual : r.bound.actual = some whole)

include actual

theorem tracked_view (v : VarId) : Ends .finite c s (tracked v r) fun s' d =>
    s.Retracks v s' ∧ d = s.view v r.bound := by
  have unknown : unknownFor r.bound = .unknownOf whole.dims := by
    rw [unknownFor, actual]
    rfl
  refine .get_bind ?_
  rw [actual, State.view]
  cases s.tracked.getD v none with
  | none => exact Ends.modify_bind (.pure ⟨State.retracks_put s v _ s.written s.log, unknown.symm⟩)
  | some d =>
    cases d with
    | unknown => exact Ends.modify_bind (.pure ⟨State.retracks_put s v _ s.written s.log, unknown.symm⟩)
    | _ => exact .pure ⟨.refl v s, rfl⟩

/-- A part of a tracked value is replaced. -/
theorem trackAt_view {v : VarId} {coord : List Int} {d : Datum}
    (shaped : ∀ e, (s.view v r.bound).set? coord d = some e → Shaped whole.dims e) :
    Ends .finite c s (trackAt v r coord d) fun s' _ => s.Retracks v s' ∧
      (v < s.tracked.size → (s.view v r.bound).set? coord d = some (s'.view v r.bound)) := by
  refine (tracked_view actual v).bind fun old s₁ h₁ => ?_
  obtain ⟨first, rfl⟩ := h₁
  have put {e : Datum} (set : (s.view v r.bound).set? coord d = some e) (written : List VarId) (log : Array Write) :
      let s₂ : State := { s₁ with
        tracked := s₁.tracked.setIfInBounds v (some e), written := written, log := log }
      s.Retracks v s₂ ∧ (v < s.tracked.size → (s.view v r.bound).set? coord d = some (s₂.view v r.bound)) := by
    refine ⟨first.trans (State.retracks_put s₁ v e written log), fun room => ?_⟩
    rw [set, State.view_of_tracked (d := e) ?_ actual (shaped e set)]
    exact Array.getElem?_setIfInBounds_self_of_lt (first.size ▸ room)
  split
  · rename_i empty
    obtain rfl := List.isEmpty_iff.1 empty
    exact Ends.modify_bind (Ends.modify (put (Datum.set?_nil _ _) _ _))
  · refine (Ends.orBadShape (Q := fun s' e => s' = s₁ ∧ (s.view v r.bound).set? coord d = some e)
      (fun _ => trivial) fun e set => ⟨rfl, set⟩).bind fun e s₂ h₂ => ?_
    obtain ⟨rfl, set⟩ := h₂
    exact Ends.modify_bind (Ends.modify (put set _ _))

/-- The elements of a part are replaced one by one. -/
theorem spread_view {v : VarId} {a : List Int} {part : List Int → Option Datum} {cs : List (List Int)}
    (full : ∀ b ∈ cs, (a ++ b).length = whole.dims.length) (shaped : Shaped whole.dims (s.view v r.bound)) :
    Ends .finite c s (cs.forM fun b => do trackAt v r (a ++ b) (← orBadShape (part b))) fun s' _ =>
      s.Retracks v s' ∧ (v < s.tracked.size →
        Datum.setAll a part cs (s.view v r.bound) = some (s'.view v r.bound)) := by
  induction cs generalizing s with
  | nil => exact .pure ⟨.refl v s, fun _ => rfl⟩
  | cons b cs ih =>
    have leaf {d e : Datum} (set : (s.view v r.bound).set? (a ++ b) d = some e) : Shaped whole.dims e := by
      refine shaped.set? ?_ set
      rw [full b List.mem_cons_self, List.drop_length]
      trivial
    refine Ends.bind (Q := fun s₁ _ => s.Retracks v s₁ ∧ (v < s.tracked.size → ∃ x, part b = some x ∧
      (s.view v r.bound).set? (a ++ b) x = some (s₁.view v r.bound))) ?_ fun _ s₁ h₁ => ?_
    · refine (Ends.orBadShape (Q := fun s' x => s' = s ∧ part b = some x) (fun _ => trivial)
        fun x hx => ⟨rfl, hx⟩).bind fun x s₁ h₁ => ?_
      obtain ⟨rfl, hx⟩ := h₁
      exact (trackAt_view actual fun e set => leaf set).mono fun _ _ h => ⟨h.1, fun room => ⟨x, hx, h.2 room⟩⟩
    · obtain ⟨first, set⟩ := h₁
      have shaped₁ : Shaped whole.dims (s₁.view v r.bound) := by
        rcases Nat.lt_or_ge v s.tracked.size with room | none
        · obtain ⟨x, -, set⟩ := set room
          exact leaf set
        · rw [State.view_of_size_le (first.size ▸ none), ← State.view_of_size_le none]
          exact shaped
      refine (ih (fun b' hb' => full b' (List.mem_cons_of_mem _ hb')) shaped₁).mono fun _ s₂ h₂ => ?_
      refine ⟨first.trans h₂.1, fun room => ?_⟩
      obtain ⟨x, hx, set⟩ := set room
      exact Option.bind_eq_some_iff.2 ⟨x, hx, Option.bind_eq_some_iff.2 ⟨_, set, h₂.2 (first.size ▸ room)⟩⟩

/-- A known value is tracked at a place. -/
theorem trackKnown_view {x : Datum} (known : v.content = .known x) (constant : p.dynamic = none)
    (typed : v.Typed s.out.vars) (fits : p.fixed.length ≤ whole.dims.length)
    (part : whole.dims.drop p.fixed.length = ty.dims)
    (start : p.fixed = [] ∧ ty = v.ty ∨ Shaped whole.dims (s.view p.var r.bound)) :
    Ends .finite c s (trackKnown p r ty x v.ty) fun s' _ => s.Retracks p.var s' ∧
      (p.var < s.tracked.size → p.Tracked v whole ty (s.view p.var r.bound) (s'.view p.var r.bound)) := by
  unfold trackKnown
  split
  · rename_i same
    refine (trackAt_view actual fun e set => ?_).mono fun _ _ h =>
      ⟨h.1, fun room => .replaced known constant same (h.2 room)⟩
    have shaped := (typed.known known).shaped
    rw [← same, ← part] at shaped
    rcases start with ⟨all, -⟩ | start
    · rw [all, Datum.set?_nil] at set
      cases set
      rw [all] at shaped
      exact shaped
    · exact start.set? shaped set
  · rename_i other
    have shaped := start.resolve_left fun h => other h.2
    refine (spread_view actual (fun b hb => ?_) shaped).mono fun _ _ h =>
      ⟨h.1, fun room => .spread known constant other (h.2 room)⟩
    rw [List.length_append, (mem_coordinates.1 hb).length_eq, ← part, List.length_drop]
    omega

end Steps

/-! ## Assignments -/

/-- A value as an expression is worth what the value is. -/
theorem asExpr_at (typed : v.Typed s.out.vars) : Ends .finite c s (asExpr v) fun s' e =>
    s' = s ∧ e.ty = v.ty ∧ ∀ m, e.eval m = v.at? m := by
  obtain ⟨content, ty, span⟩ := v
  cases content with
  | runtime e glimpse => exact .pure ⟨rfl, typed.1, fun _ => rfl⟩
  | known d =>
    unfold asExpr
    dsimp only
    split
    · rename_i k hk
      refine .pure ⟨rfl, rfl, fun m => ?_⟩
      rw [Expr.eval, Datum.ofConstant_of_toConstant? hk]
      rfl
    · exact .refuse

theorem store_emitting (typed : v.Typed s.out.vars) (slot : Option SlotId) :
    Ends .finite c s (match slot with
      | none => return
      | some slot => do
        let value ← asExpr v
        emit (.assign ⟨slot, p.indexes, ty, p.span⟩ value span)) fun s' _ =>
      ∃ sts, p.Stores v ty span slot sts ∧ s' = s.emitting sts := by
  cases slot with
  | none =>
    exact .pure ⟨[], rfl, s.emitting_nil.symm⟩
  | some k =>
    refine (asExpr_at typed).bind fun e s₁ he => ?_
    obtain ⟨rfl, ty, value⟩ := he
    exact Ends.modify ⟨_, ⟨e, rfl, ty, value⟩, (s₁.emitting_singleton _).symm⟩

/-- An assignment to a variable of a settled type. -/
theorem assignAs_view (found : s.records[p.record]? = some r) (actual : r.bound.actual = some whole)
    (typed : v.Typed s.out.vars) (fits : p.fixed.length ≤ whole.dims.length)
    (part : p.dynamic = none → whole.dims.drop p.fixed.length = ty.dims)
    (start : p.fixed = [] ∧ ty = v.ty ∨ Shaped whole.dims (s.view p.var r.bound)) :
    Ends .finite c s (assignAs p v span ty) fun s' _ => ∃ s₁ sts, s.Retracks p.var s₁ ∧
      p.Tracked v whole ty (s.view p.var r.bound) (s₁.view p.var r.bound) ∧
      p.Stores v ty span r.slot sts ∧ s' = s₁.emitting sts := by
  have unknown : unknownFor r.bound = .unknownOf whole.dims := by
    rw [unknownFor, actual]
    rfl
  have tracks {s₁ : State} (retracks : s.Retracks p.var s₁)
      (seen : p.var < s.tracked.size → p.Tracked v whole ty (s.view p.var r.bound) (s₁.view p.var r.bound)) :
      p.Tracked v whole ty (s.view p.var r.bound) (s₁.view p.var r.bound) := by
    rcases Nat.lt_or_ge p.var s.tracked.size with room | none
    · exact seen room
    · refine .unseen ?_ ?_
      · rw [State.view_of_size_le none, unknown]
      · rw [State.view_of_size_le (retracks.size ▸ none), unknown]
  have store {s₁ : State} (retracks : s.Retracks p.var s₁)
      (seen : p.var < s.tracked.size → p.Tracked v whole ty (s.view p.var r.bound) (s₁.view p.var r.bound)) :
      Ends .finite c s₁ (match r.slot with
        | none => return
        | some slot => do
          let value ← asExpr v
          emit (.assign ⟨slot, p.indexes, ty, p.span⟩ value span)) fun s' _ => ∃ s₁ sts, s.Retracks p.var s₁ ∧
        p.Tracked v whole ty (s.view p.var r.bound) (s₁.view p.var r.bound) ∧
        p.Stores v ty span r.slot sts ∧ s' = s₁.emitting sts :=
    (store_emitting (retracks.out ▸ typed) r.slot).mono fun _ _ ⟨sts, stores, emitted⟩ =>
      ⟨s₁, sts, retracks, tracks retracks seen, stores, emitted⟩
  refine .get_bind ?_
  rw [Array.getD_eq_getD_getElem?, found, Option.getD_some]
  dsimp only
  split
  · rename_i x known constant
    refine (trackKnown_view actual known constant typed fits (part constant) start).bind fun _ s₁ h₁ => ?_
    exact store h₁.1 h₁.2
  · split
    · exact .read_bind .refuse_bind
    · rw [actual]
      refine (trackAt_view actual fun e set => ?_).bind fun _ s₁ h₁ =>
        store h₁.1 fun room => .forgotten (h₁.2 room)
      rcases start with ⟨all, -⟩ | start
      · rw [all, Datum.set?_nil] at set
        cases set
        exact Datum.shaped_unknownOf _
      · exact start.set? (Datum.shaped_unknownOf _) set

end Stage

end SignalLang.Staged
