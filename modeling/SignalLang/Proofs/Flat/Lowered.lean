import SignalLang.Proofs.Flat.Lowering

/-!
# Flattened programs

A whole program is flattened in three parts: the variables of the interface are declared, then the main
stream is made, then the one that initializes statics. `Laid` is the invariant of the first part, which emits
nothing. The other two are scopes, and `lower_ok` puts them together: a well-formed program that is ready is
flattened exactly when its streams are apart, and the result is well typed.
-/

namespace SignalLang.Flat

open Staged (SlotId ScopeId)
open Steps LowerState

/-- Slots have variables of their types at the locations that `place` gives, one for each slot. -/
structure Laid (source : Staged.Program) (place : SlotId → Option Location) (s : LowerState) : Prop where
  size : s.slots.size = source.vars.size
  given : ∀ k id, s.var? k = some id → ∃ v l, source.vars[k]? = some v ∧ place k = some l ∧
    s.out.vars[id]? = some ⟨v.ty, l⟩
  empty : ∀ k, s.var? k = none → place k = none
  onto : ∀ id v, s.out.vars[id]? = some v → ∃ k, s.var? k = some id
  one : ∀ j k id, s.var? j = some id → s.var? k = some id → j = k

/-- Only variables were added, and slots that had one keep it. -/
structure Lays (s s' : LowerState) : Prop where
  out : s'.out = { s.out with vars := s'.out.vars }
  stream : s'.stream = s.stream
  mainOnly : s'.mainOnly = s.mainOnly
  slots : ∀ k id, s.var? k = some id → s'.var? k = some id

theorem Lays.refl (s : LowerState) : Lays s s := ⟨rfl, rfl, rfl, fun _ _ h => h⟩

theorem Lays.trans {s t u : LowerState} (h : Lays s t) (h' : Lays t u) : Lays s u := by
  refine ⟨?_, h'.stream.trans h.stream, h'.mainOnly.trans h.mainOnly,
    fun k id hk => h'.slots k id (h.slots k id hk)⟩
  rw [h'.out, h.out]

section Declarations

variable {ctx : LowerContext} {s : LowerState} {place : SlotId → Option Location}

/-- A slot is declared at a location, unless it is there already. -/
theorem variableAt_laid (laid : Laid ctx.source place s) {k : SlotId} {l : Location}
    (hk : k < ctx.source.vars.size) (hl : place k = none ∨ place k = some l) :
    ∃ id s', Lower.variableAt k l ctx s = .ok (id, s') ∧ Lays s s' ∧ s'.var? k = some id ∧
      Laid ctx.source (fun j => if j = k then some l else place j) s' := by
  have hv : ctx.source.vars[k]? = some ctx.source.vars[k] := Array.getElem?_eq_getElem hk
  cases old : s.var? k with
  | some id =>
    refine ⟨id, s, variableAt_old old, .refl s, old, ?_⟩
    have here : place k = some l := by
      obtain ⟨v, l', -, hplace, -⟩ := laid.given k id old
      rcases hl with hl | hl
      · rw [hplace] at hl; cases hl
      · exact hl
    have same : (fun j => if j = k then some l else place j) = place := by
      funext j
      split
      · rename_i hj; rw [hj, here]
      · rfl
    rw [same]
    exact laid
  | none =>
    let v : Variable := ⟨some ctx.source.vars[k].ty, l⟩
    let s₁ : LowerState := { s with out := s.out.addVariable v }
    have hk₁ : k < s₁.slots.size := by rw [show s₁.slots.size = _ from laid.size]; exact hk
    have var? (j : SlotId) : (s₁.give k s.out.vars.size).var? j =
        if k = j then some s.out.vars.size else s.var? j := var?_give hk₁ _ j
    have below {j : SlotId} {id : VarId} (hj : s.var? j = some id) : id < s.out.vars.size := by
      obtain ⟨_, _, -, -, found⟩ := laid.given j id hj
      exact (Array.getElem?_eq_some_iff.1 found).1
    refine ⟨s.out.vars.size, s₁.give k s.out.vars.size, variableAt_new old hv, ⟨rfl, rfl, rfl, ?_⟩,
      by rw [var?, if_pos rfl], ⟨?_, ?_, ?_, ?_, ?_⟩⟩
    · intro j id hj
      rw [var?, if_neg]
      · exact hj
      · rintro rfl
        rw [old] at hj
        cases hj
    · exact Array.size_setIfInBounds.trans laid.size
    · intro j id hj
      rw [var?] at hj
      split at hj
      · rename_i same
        subst same
        cases hj
        exact ⟨_, l, hv, if_pos rfl, Array.getElem?_push_size⟩
      · rename_i other
        obtain ⟨w, l', hw, hplace, found⟩ := laid.given j id hj
        refine ⟨w, l', hw, by rw [if_neg (Ne.symm other)]; exact hplace, ?_⟩
        exact Extends.push _ _ id _ found
    · intro j hj
      rw [var?] at hj
      split at hj
      · cases hj
      · rename_i other
        rw [if_neg (Ne.symm other)]
        exact laid.empty j hj
    · intro id w hw
      have hw : (s.out.vars.push v)[id]? = some w := hw
      rw [Array.getElem?_push] at hw
      split at hw
      · rename_i new
        exact ⟨k, by rw [var?, if_pos rfl, new]⟩
      · obtain ⟨j, hj⟩ := laid.onto id w hw
        refine ⟨j, ?_⟩
        rw [var?, if_neg]
        · exact hj
        · rintro rfl
          rw [old] at hj
          cases hj
    · intro i j id hi hj
      rw [var?] at hi hj
      split at hi <;> split at hj
      · rename_i hi' hj'
        exact hi'.symm.trans hj'
      · cases hi
        exact (Nat.lt_irrefl _ (below hj)).elim
      · cases hj
        exact (Nat.lt_irrefl _ (below hi)).elim
      · exact laid.one i j id hi hj

/-- A list of the interface is declared at a location. -/
theorem interface_laid {ks : List SlotId} (l : Location) (laid : Laid ctx.source place s)
    (hks : ∀ k ∈ ks, k < ctx.source.vars.size) (hl : ∀ k ∈ ks, place k = none ∨ place k = some l) :
    ∃ ids s', Lower.interface ks l ctx s = .ok (ids, s') ∧ Lays s s' ∧ ks.map s'.var? = ids.map some ∧
      Laid ctx.source (fun j => if j ∈ ks then some l else place j) s' := by
  unfold Lower.interface
  induction ks generalizing s place with
  | nil => exact ⟨[], s, rfl, .refl s, rfl, by simpa using laid⟩
  | cons k ks ih =>
    obtain ⟨id, s₁, run, lays, hid, laid₁⟩ :=
      variableAt_laid laid (hks k List.mem_cons_self) (hl k List.mem_cons_self)
    obtain ⟨ids, s₂, run', lays', hids, laid₂⟩ :=
      ih laid₁ (fun j hj => hks j (List.mem_cons_of_mem _ hj)) fun j hj => by
        split
        · exact .inr rfl
        · exact hl j (List.mem_cons_of_mem _ hj)
    refine ⟨id :: ids, s₂, ?_, lays.trans lays', ?_, ?_⟩
    · rw [List.mapM_cons]
      exact bind_ok.2 ⟨id, s₁, run, bind_ok.2 ⟨ids, s₂, run', rfl⟩⟩
    · rw [List.map_cons, List.map_cons, lays'.slots k id hid, hids]
    · have same : (fun j => if j ∈ k :: ks then some l else place j) =
          fun j => if j ∈ ks then some l else if j = k then some l else place j := by
        funext j
        by_cases hj : j ∈ ks <;> by_cases hk : j = k <;> simp [hj, hk]
      rw [same]
      exact laid₂

/-- A list of variables at a location: it holds those that live there, and has no more repetitions than the
list of slots. -/
theorem Laid.list {source : Staged.Program} {ks : List SlotId} {ids : List VarId} {l : Location}
    (laid : Laid source place s)
    (hids : ks.map s.var? = ids.map some) (hplace : ∀ k, place k = some l ↔ k ∈ ks) :
    (∀ id, id ∈ ids ↔ ∃ v, s.out.vars[id]? = some v ∧ v.location = l) ∧ (ids.Nodup ↔ ks.Nodup) := by
  have mem (id : VarId) : id ∈ ids ↔ ∃ k ∈ ks, s.var? k = some id := by
    rw [← List.mem_map, hids, List.mem_map]
    simp
  refine ⟨fun id => (mem id).trans ⟨?_, ?_⟩, ?_⟩
  · rintro ⟨k, hk, hid⟩
    obtain ⟨v, l', -, hl', found⟩ := laid.given k id hid
    rw [(hplace k).2 hk] at hl'
    cases hl'
    exact ⟨_, found, rfl⟩
  · rintro ⟨v, found, rfl⟩
    obtain ⟨k, hk⟩ := laid.onto id v found
    obtain ⟨w, l', -, hl', found'⟩ := laid.given k id hk
    rw [found] at found'
    cases found'
    exact ⟨k, (hplace k).1 hl', hk⟩
  · have ids_iff : (ids.map some).Nodup ↔ ids.Nodup :=
      List.pairwise_map.trans ⟨List.Pairwise.imp fun h e => h (congrArg some e),
        List.Pairwise.imp fun h e => h (Option.some.inj e)⟩
    have ks_iff : (ks.map s.var?).Nodup ↔ ks.Nodup := by
      refine List.pairwise_map.trans ⟨List.Pairwise.imp fun h e => h (congrArg _ e), fun h => ?_⟩
      refine h.imp_of_mem fun {a b} ha _ hne same => hne ?_
      cases hvar : s.var? a with
      | none =>
        have := laid.empty a hvar
        rw [(hplace a).2 ha] at this
        cases this
      | some id => exact laid.one a b id hvar (same.symm.trans hvar)
    rw [← ids_iff, ← hids, ks_iff]

end Declarations

namespace Lower

/-- Declares the interface, and returns the variables of the statics. -/
def declare (p : Staged.Program) : Lower (Array (Option VarId)) := do
  modify fun s => { s with slots := Array.replicate p.vars.size none }
  let statics ← interface p.statics .static
  modify fun s => { s with out := { s.out with statics := statics } }
  let shared := (← get).slots
  let inputs ← interface p.inputs .input
  let outputs ← interface p.outputs .output
  modify fun s => { s with out := { s.out with inputs := inputs, outputs := outputs } }
  return shared

/-- The slots that are used in the main stream and are no statics. -/
def mainSlots (slots shared : Array (Option VarId)) : Array Bool :=
  (slots.zip shared).map fun (used, kept) => used.isSome && kept.isNone

/-- Makes the two streams, the main one first. -/
def streams (p : Staged.Program) (shared : Array (Option VarId)) : Lower Program := do
  scope (p.scopes.size + 1) p.entry
  modify fun s => { s with stream := .staticInit, slots := shared, mainOnly := mainSlots s.slots shared }
  scope (p.scopes.size + 1) p.staticInit
  return (← get).out

theorem program_eq : program = (do
    let p := (← read).source
    streams p (← declare p)) := by
  simp only [program, declare, streams, mainSlots, bind_assoc, pure_bind]

end Lower

/-- What is there once the interface is declared. -/
structure Declared (p : Staged.Program) (shared : Array (Option VarId)) (s : LowerState) : Prop where
  sound : s.Sound p []
  stream : s.stream = .main
  mainOnly : s.mainOnly = #[]
  code : ∀ st, s.out.stream st = #[] ∧ s.out.labelCount st = 0
  has : ∀ k, (s.var? k).isSome ↔ k ∈ p.statics ∨ k ∈ p.inputs ++ p.outputs
  size : shared.size = p.vars.size
  shared : ∀ k id, shared.getD k none = some id ↔ k ∈ p.statics ∧ s.var? k = some id
  located : ∀ k ∈ p.statics, ∀ id, s.var? k = some id → id ∈ s.out.statics
  inputs : s.out.inputs.Nodup
  outputs : s.out.outputs.Nodup
  statics : s.out.statics.Nodup ↔ p.statics.Nodup

/-- Where the slots of the interface live. -/
def interfacePlace (p : Staged.Program) (k : SlotId) : Option Location :=
  if k ∈ p.outputs then some .output
  else if k ∈ p.inputs then some .input
  else if k ∈ p.statics then some .static
  else none

theorem interfacePlace_iff {p : Staged.Program} (wf : p.WellFormed) (k : SlotId) :
    (interfacePlace p k = some .output ↔ k ∈ p.outputs) ∧ (interfacePlace p k = some .input ↔ k ∈ p.inputs) ∧
      (interfacePlace p k = some .static ↔ k ∈ p.statics) := by
  have io : k ∈ p.inputs → k ∉ p.outputs := fun hk h => (List.nodup_append.1 wf.nodup).2.2 k hk k h rfl
  have apart : k ∈ p.statics → k ∉ p.inputs ∧ k ∉ p.outputs := fun hk => by simpa using wf.apart k hk
  unfold interfacePlace
  split
  · grind
  · split
    · grind
    · split <;> grind

/-- The lists of a declared interface. -/
structure Listed (p : Staged.Program) (s : LowerState) : Prop where
  laid : Laid p (interfacePlace p) s
  inputs : p.inputs.map s.var? = s.out.inputs.map some
  outputs : p.outputs.map s.var? = s.out.outputs.map some
  statics : p.statics.map s.var? = s.out.statics.map some

/-- The invariant of flattening holds before the main stream is made. -/
theorem Listed.sound {p : Staged.Program} {s : LowerState} (h : Listed p s) (held : Held p)
    (wf : p.WellFormed) (stream : s.stream = .main)
    (code : ∀ st, s.out.stream st = #[] ∧ s.out.labelCount st = 0) : s.Sound p [] := by
  have interface (kind : Interface) (id : VarId) :
      id ∈ s.out.interface kind ↔ ∃ v, s.out.vars[id]? = some v ∧ v.location = kind.location := by
    cases kind with
    | input => exact (h.laid.list h.inputs fun k => (interfacePlace_iff wf k).2.1).1 id
    | output => exact (h.laid.list h.outputs fun k => (interfacePlace_iff wf k).1).1 id
    | static => exact (h.laid.list h.statics fun k => (interfacePlace_iff wf k).2.2).1 id
  have none : s.code = #[] := (code _).1
  have zero : s.labels = 0 := (code _).2
  have storable {id : VarId} {v : Variable} (found : s.out.vars[id]? = some v) :
      ∃ t l, v = ⟨some t, l⟩ ∧ (t.Storable ∧ l ≠ .unknown) ∧ Program.mayTouch .main l = true := by
    obtain ⟨k, hk⟩ := h.laid.onto id v found
    obtain ⟨w, l, hw, hl, found'⟩ := h.laid.given k id hk
    rw [found] at found'
    have located : l ≠ .unknown ∧ Program.mayTouch .main l = true := by
      unfold interfacePlace at hl
      split at hl
      · cases hl; decide
      · split at hl
        · cases hl; decide
        · split at hl
          · cases hl; decide
          · cases hl
    exact ⟨w.ty, l, Option.some.inj found', ⟨held w (Array.mem_of_getElem? hw), located.1⟩, located.2⟩
  refine ⟨h.laid.size, ?_, ?_, ?_, interface, ?_, ?_, ?_⟩
  · intro k id hk
    obtain ⟨v, l, hv, hl, found⟩ := h.laid.given k id hk
    obtain ⟨t, l', heq, ht, touch⟩ := storable found
    cases heq
    refine ⟨v, hv, ⟨ht.1, l, found, stream ▸ touch⟩, (interface .input id).trans ?_⟩
    rw [found, ← (interfacePlace_iff wf k).2.1, hl]
    simp [Interface.location]
  · intro k hk
    refine .inl ?_
    cases hvar : s.var? k with
    | none =>
      have := h.laid.empty k hvar
      rw [(interfacePlace_iff wf k).2.1.2 hk] at this
      cases this
    | some id => rfl
  · intro v hv
    obtain ⟨id, hid, rfl⟩ := Array.mem_iff_getElem.1 hv
    obtain ⟨t, l, heq, ht, -⟩ := storable (Array.getElem?_eq_getElem hid)
    exact ⟨t, l, heq, ht⟩
  · intro i hi
    rw [none] at hi
    simp at hi
  · rw [none]
    exact .nil
  · intro l
    rw [none, zero]
    simp [Program.labelsOf]

theorem Lays.var? {s s' : LowerState} (lays : Lays s s') {ks : List SlotId} {ids : List VarId}
    (h : ks.map s.var? = ids.map some) : ks.map s'.var? = ids.map some := by
  rw [← h]
  refine List.map_congr_left fun k hk => ?_
  have mem : s.var? k ∈ ids.map some := h ▸ List.mem_map_of_mem hk
  obtain ⟨id, -, hid⟩ := List.mem_map.1 mem
  rw [← hid, lays.slots k id hid.symm]

/-- The interface of a well-formed program can be declared. -/
theorem declare_ok {ctx : LowerContext} (held : Held ctx.source) (wf : ctx.source.WellFormed) :
    ∃ shared s, Lower.declare ctx.source ctx {} = .ok (shared, s) ∧ Declared ctx.source shared s := by
  let p := ctx.source
  let s₀ : LowerState := { slots := Array.replicate p.vars.size none }
  have empty (k : SlotId) : s₀.var? k = none := by
    simp only [LowerState.var?, s₀, Array.getD_eq_getD_getElem?, Array.getElem?_replicate]
    split <;> rfl
  have laid₀ : Laid p (fun _ => none) s₀ := by
    refine ⟨Array.size_replicate, fun k id hk => ?_, fun _ _ => rfl, fun id v hv => ?_, fun j k id hj _ => ?_⟩
    · rw [empty] at hk; cases hk
    · simp [s₀] at hv
    · rw [empty] at hj; cases hj
  have range {k : SlotId} (hk : k ∈ p.statics ∨ k ∈ p.inputs ∨ k ∈ p.outputs) : k < p.vars.size :=
    wf.interface k (by simpa using hk)
  have io {k : SlotId} (hk : k ∈ p.inputs) : k ∉ p.outputs := fun h =>
    (List.nodup_append.1 wf.nodup).2.2 k hk k h rfl
  have apart {k : SlotId} (hk : k ∈ p.statics) : k ∉ p.inputs ∧ k ∉ p.outputs := by
    simpa using wf.apart k hk
  obtain ⟨statics, s₁, run₁, lays₁, hstatics, laid₁⟩ :=
    interface_laid .static laid₀ (fun k hk => range (.inl hk)) fun _ _ => .inl rfl
  let s₁' : LowerState := { s₁ with out := { s₁.out with statics := statics } }
  have laid₁' : Laid p (fun j => if j ∈ p.statics then some .static else none) s₁' :=
    ⟨laid₁.size, laid₁.given, laid₁.empty, laid₁.onto, laid₁.one⟩
  obtain ⟨inputs, s₂, run₂, lays₂, hinputs, laid₂⟩ :=
    interface_laid .input laid₁' (fun k hk => range (.inr (.inl hk))) fun k hk => .inl
      (if_neg fun h => (apart h).1 hk)
  obtain ⟨outputs, s₃, run₃, lays₃, houtputs, laid₃⟩ :=
    interface_laid .output laid₂ (fun k hk => range (.inr (.inr hk))) fun k hk => .inl (by
      rw [if_neg fun h => io h hk, if_neg fun h => (apart h).2 hk])
  let s : LowerState := { s₃ with out := { s₃.out with inputs := inputs, outputs := outputs } }
  have out₃ : s₃.out = { s₁'.out with vars := s₃.out.vars } := (lays₂.trans lays₃).out
  have listed : Listed p s := by
    refine ⟨⟨laid₃.size, laid₃.given, laid₃.empty, laid₃.onto, laid₃.one⟩, lays₃.var? hinputs, houtputs, ?_⟩
    have kept : s₃.out.statics = statics := by rw [out₃]
    rw [show s.out.statics = statics from kept]
    exact (lays₂.trans lays₃).var? hstatics
  have stream : s.stream = .main := ((lays₂.trans lays₃).stream.trans lays₁.stream)
  have code (st : Stream) : s.out.stream st = #[] ∧ s.out.labelCount st = 0 := by
    have out₁ : s₁.out = { s₀.out with vars := s₁.out.vars } := lays₁.out
    have main : s₃.out.main = #[] := by rw [out₃]; show s₁.out.main = _; rw [out₁]
    have init : s₃.out.staticInit = #[] := by rw [out₃]; show s₁.out.staticInit = _; rw [out₁]
    have mainLabels : s₃.out.mainLabels = 0 := by rw [out₃]; show s₁.out.mainLabels = _; rw [out₁]
    have initLabels : s₃.out.staticLabels = 0 := by rw [out₃]; show s₁.out.staticLabels = _; rw [out₁]
    cases st with
    | main => exact ⟨main, mainLabels⟩
    | staticInit => exact ⟨init, initLabels⟩
  refine ⟨s₁.slots, s, ?_, ⟨listed.sound held wf stream code, stream, ?_, code, ?_, laid₁.size, ?_, ?_, ?_, ?_, ?_⟩⟩
  · exact bind_ok.2 ⟨(), s₀, rfl, bind_ok.2 ⟨statics, s₁, run₁, bind_ok.2 ⟨(), s₁', rfl, bind_ok.2 ⟨s₁', s₁', rfl,
      bind_ok.2 ⟨inputs, s₂, run₂, bind_ok.2 ⟨outputs, s₃, run₃, bind_ok.2 ⟨(), s, rfl, rfl⟩⟩⟩⟩⟩⟩⟩
  · exact (lays₂.trans lays₃).mainOnly.trans lays₁.mainOnly
  · intro k
    obtain ⟨hout, hin, hstatic⟩ := interfacePlace_iff wf k
    rw [List.mem_append, ← hout, ← hin, ← hstatic]
    cases hvar : s.var? k with
    | none =>
      rw [listed.laid.empty k hvar]
      simp
    | some id =>
      obtain ⟨-, l, -, hl, -⟩ := listed.laid.given k id hvar
      rw [hl]
      unfold interfacePlace at hl
      grind
  · intro k id
    show s₁.var? k = some id ↔ _
    constructor
    · intro hk
      obtain ⟨-, l, -, hl, -⟩ := laid₁.given k id hk
      refine ⟨?_, (lays₂.trans lays₃).slots k id hk⟩
      split at hl
      · assumption
      · cases hl
    · rintro ⟨hk, hvar⟩
      cases old : s₁.var? k with
      | none =>
        have := laid₁.empty k old
        rw [if_pos hk] at this
        cases this
      | some id' => exact ((lays₂.trans lays₃).slots k id' old).symm.trans hvar
  · intro k hk id hid
    have mem : s.var? k ∈ s.out.statics.map some := listed.statics ▸ List.mem_map_of_mem hk
    rw [hid] at mem
    simpa using mem
  · exact (listed.laid.list listed.inputs fun k => (interfacePlace_iff wf k).2.1).2.2
      (List.nodup_append.1 wf.nodup).1
  · exact (listed.laid.list listed.outputs fun k => (interfacePlace_iff wf k).1).2.2
      (List.nodup_append.1 wf.nodup).2.1
  · exact (listed.laid.list listed.statics fun k => (interfacePlace_iff wf k).2.2).2

/-! ## Streams -/

theorem mainSlots_iff {slots shared : Array (Option VarId)} (size : slots.size = shared.size) (k : Nat) :
    (Lower.mainSlots slots shared).getD k false = true ↔
      (slots.getD k none).isSome ∧ shared.getD k none = none := by
  simp only [Lower.mainSlots, Array.getD_eq_getD_getElem?, Array.getElem?_map]
  have zip : (slots.zip shared).size = slots.size := by rw [Array.size_zip, size, Nat.min_self]
  by_cases hk : k < slots.size
  · have hk' : k < shared.size := size ▸ hk
    rw [Array.getElem?_eq_getElem (zip.symm ▸ hk)]
    simp [hk, hk']
  · have out : (slots.zip shared)[k]? = none := Array.getElem?_eq_none (by omega)
    rw [out]
    simp [hk]

/-- A slot is barred from the initialization of statics exactly when the rest of the program uses it and it
is no static. -/
theorem Declared.bars_iff {p : Staged.Program} {shared : Array (Option VarId)} {s₁ s₂ : LowerState}
    (declared : Declared p shared s₁) (sound : s₂.Sound p []) (did : Did (.ofScope p p.entry) s₁ s₂)
    (k : SlotId) : (Lower.mainSlots s₂.slots shared).getD k false = true ↔
      (p.Mentions p.entry k ∨ k ∈ p.inputs ++ p.outputs) ∧ k ∉ p.statics := by
  rw [mainSlots_iff (sound.size.trans declared.size.symm)]
  have used : (s₂.slots.getD k none).isSome ↔ _ := (did.uses k).trans (or_congr_left (declared.has k))
  have kept : shared.getD k none = none ↔ k ∉ p.statics := by
    cases found : shared.getD k none with
    | none =>
      refine iff_of_true rfl fun hk => ?_
      obtain ⟨id, hid⟩ := Option.isSome_iff_exists.1 ((declared.has k).2 (.inl hk))
      rw [(declared.shared k id).2 ⟨hk, hid⟩] at found
      cases found
    | some id => simp [((declared.shared k id).1 found).1]
  rw [used, kept, Effect.ofScope]
  grind

theorem LowerState.Sound.streamTyped {p : Staged.Program} {s : LowerState} (h : s.Sound p []) :
    s.out.StreamTyped s.stream := by
  have nodup := h.nodup
  have placed := h.placed
  rw [List.append_nil] at nodup placed
  exact ⟨h.typed, nodup, placed⟩

/-- What flattening makes of a program. -/
structure IsLowered (p : Staged.Program) (q : Program) : Prop where
  wellTyped : q.WellTyped
  writes : (∃ i ∈ q.main, i.Writes q.inputs) ↔ ∃ k ∈ p.inputs, p.Assigns p.entry k
  statics : q.statics.Nodup ↔ p.statics.Nodup

theorem held_of_ready {p : Staged.Program} (wf : p.WellFormed) (ready : p.Ready) : Held p :=
  fun v hv => ⟨ready.vars v hv, wf.positive v hv⟩

/-- The state in which the initialization of statics is made. -/
def LowerState.turn (s : LowerState) (shared : Array (Option VarId)) : LowerState :=
  { s with stream := .staticInit, slots := shared, mainOnly := Lower.mainSlots s.slots shared }

/-- The state in which the initialization of statics is made is sound. -/
theorem Declared.sound_init {p : Staged.Program} {shared : Array (Option VarId)} {s₁ s₂ : LowerState}
    (wf : p.WellFormed) (declared : Declared p shared s₁) (sound : s₂.Sound p []) (grows : s₁.Grows s₂)
    (did : Did (.ofScope p p.entry) s₁ s₂) : (s₂.turn shared).Sound p [] := by
  have other := grows.other .staticInit (by rw [declared.stream]; decide)
  have code : s₂.out.stream .staticInit = #[] := other.1.trans (declared.code _).1
  have labels : s₂.out.labelCount .staticInit = 0 := other.2.trans (declared.code _).2
  refine ⟨declared.size, ?_, ?_, sound.vars, sound.interface, ?_, ?_, ?_⟩
  · intro k id hk
    obtain ⟨hstatic, hk⟩ := (declared.shared k id).1 hk
    obtain ⟨v, hv, ⟨ht, l, found, -⟩, -⟩ := declared.sound.slots k id hk
    -- The variable of a static lives among the statics, where both streams may touch it.
    obtain ⟨w, found', located⟩ := (declared.sound.interface .static id).1 (declared.located k hstatic id hk)
    rw [found] at found'
    cases found'
    obtain rfl : l = .static := located
    have found₂ := grows.vars id _ found
    refine ⟨v, hv, ⟨ht, .static, found₂, rfl⟩, iff_of_false (fun hid => ?_) fun hid => ?_⟩
    · obtain ⟨w, hw, input⟩ := (sound.interface .input id).1 hid
      rw [found₂] at hw
      cases hw
      cases input
    · exact wf.apart k hstatic (List.mem_append_left _ hid)
  · intro k hk
    refine .inr ((declared.bars_iff sound did k).2 ⟨.inr (List.mem_append_left _ hk), fun h => ?_⟩)
    exact wf.apart k h (List.mem_append_left _ hk)
  · intro i hi
    have hi : i ∈ s₂.out.stream .staticInit := hi
    rw [code] at hi
    simp at hi
  · show (Program.labelsOf (s₂.out.stream .staticInit) ++ []).Nodup
    rw [code]
    exact .nil
  · intro l
    show l ∈ Program.labelsOf (s₂.out.stream .staticInit) ++ [] ↔ l < s₂.out.labelCount .staticInit
    rw [code, labels]
    simp [Program.labelsOf]

/-- A well-formed program that is ready is flattened exactly when its streams are apart. -/
theorem lower_ok {p : Staged.Program} (wf : p.WellFormed) (ready : p.Ready) (library : Option Library) :
    (p.StreamsApart → ∃ q, lower p library = .ok q ∧ IsLowered p q) ∧
      (¬p.StreamsApart → ∃ e, lower p library = .error e) := by
  have held := held_of_ready wf ready
  let ctx : LowerContext := ⟨p, fun span => library.elim span.text (·.describe span)⟩
  obtain ⟨shared, s₁, run₁, declared⟩ := @declare_ok ctx held wf
  have fuel (i : ScopeId) : p.scopes.size < p.scopes.size + 1 + i :=
    Nat.lt_of_lt_of_le (Nat.lt_succ_self _) (Nat.le_add_right _ _)
  have main : Lowers ctx [] [] (.ofScope p p.entry) (Lower.scope (p.scopes.size + 1) p.entry) s₁ fun _ _ => True :=
    lowers_scope held wf wf.entry (fuel _) fun st hst => ready.literals st (.inr hst)
  obtain ⟨_, s₂, run₂, sound₂, grows₂, did₂, -⟩ := (main declared.sound).1 fun k _ => by
    simp [LowerState.Bars, declared.mainOnly]
  have sound₃ := declared.sound_init wf sound₂ grows₂ did₂
  have init : Lowers ctx [] [] (.ofScope p p.staticInit) (Lower.scope (p.scopes.size + 1) p.staticInit)
      (s₂.turn shared) fun _ _ => True :=
    lowers_scope held wf wf.staticInit (fuel _) fun st hst => ready.literals st (.inl hst)
  have bars (k : SlotId) : (s₂.turn shared).Bars k ↔
      (p.Mentions p.entry k ∨ k ∈ p.inputs ++ p.outputs) ∧ k ∉ p.statics := declared.bars_iff sound₂ did₂ k
  have run : lower p library = ((do
      Lower.scope (p.scopes.size + 1) p.staticInit
      return (← get).out : Lower Program) ctx (s₂.turn shared)).map (·.1) := by
    show (Lower.program ctx {}).map (·.1) = _
    rw [Lower.program_eq]
    show ((Lower.declare p >>= Lower.streams p) ctx {}).map (·.1) = _
    rw [bind_run, run₁]
    show (Lower.streams p shared ctx s₁).map (·.1) = _
    rw [Lower.streams, bind_run, run₂]
    rfl
  constructor
  · intro apart
    obtain ⟨_, s₄, run₄, sound₄, grows₄, -, -⟩ := (init sound₃).1 fun k hk hb => by
      rw [bars] at hb
      exact hb.2 (apart k hk hb.1)
    have stream₂ : s₂.stream = .main := grows₂.stream.trans declared.stream
    have stream₄ : s₄.stream = .staticInit := grows₄.stream
    obtain ⟨code, labels⟩ := grows₄.other .main (by show Stream.main ≠ .staticInit; decide)
    have interface (kind : Interface) : s₄.out.interface kind = s₁.out.interface kind :=
      (grows₄.interface kind).trans (grows₂.interface kind)
    refine ⟨s₄.out, ?_, ⟨⟨sound₄.vars, ?_, sound₄.interface, ?_, ?_⟩, ?_, ?_⟩⟩
    · rw [run, bind_run, run₄]
      rfl
    · intro st
      cases st with
      | staticInit =>
        have := sound₄.streamTyped
        rw [stream₄] at this
        exact this
      | main =>
        have typed := sound₂.streamTyped
        rw [stream₂] at typed
        refine ⟨fun i hi => ?_, ?_, fun l => ?_⟩
        · rw [code] at hi
          rw [labels]
          exact (typed.typed i hi).mono grows₄.vars (Nat.le_refl _) grows₄.errors.size_le
        · rw [code]; exact typed.nodup
        · rw [code, labels]; exact typed.labels l
    · rw [show s₄.out.inputs = s₁.out.inputs from interface .input]
      exact declared.inputs
    · rw [show s₄.out.outputs = s₁.out.outputs from interface .output]
      exact declared.outputs
    · have main : s₄.out.main = s₂.code := by
        rw [LowerState.code, stream₂]
        exact code
      have none : ¬s₁.Writes := by
        rintro ⟨i, hi, -⟩
        rw [LowerState.code, (declared.code _).1] at hi
        simp at hi
      rw [main, show s₄.out.inputs = s₂.out.inputs from grows₄.interface .input]
      exact did₂.writes.trans (or_iff_right none)
    · rw [show s₄.out.statics = s₁.out.statics from interface .static]
      exact declared.statics
  · intro mixed
    obtain ⟨k, hk⟩ := Classical.not_forall.1 mixed
    obtain ⟨mentions, hk⟩ := Classical.not_imp.1 hk
    obtain ⟨err, run₄⟩ := (init sound₃).2 ⟨k, mentions, (bars k).2 (Classical.not_imp.1 hk)⟩
    refine ⟨err, ?_⟩
    rw [run, bind_run, run₄]
    rfl

end SignalLang.Flat
