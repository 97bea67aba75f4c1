import SignalLang.Flat.Lower
import SignalLang.Proofs.Flat.Views
import SignalLang.Proofs.Staged.Typing

/-!
# The invariant of flattening

`LowerState.Sound` holds while a stream is made. Every instruction so far is typed, a slot has a variable of
its type that the stream may touch, and the labels that were made are placed once or still owed.

`Lowers` is how a step is specified. An `Effect` names the slots that the step uses and says whether it writes
to an input. The step fails exactly when one of the slots it uses exists in the main stream only; otherwise it
ends in a sound state, with the effect done. The lemmas about single steps of the state are below.
-/

namespace SignalLang.Flat

open Staged (SlotId ScopeId)
open Steps

/-- The slots a step uses, and whether it writes to an input. -/
structure Effect where
  uses : SlotId → Prop
  writes : Prop

namespace Effect

/-- Nothing is used. -/
def none : Effect := ⟨fun _ => False, False⟩

/-- One effect after another. -/
def seq (a b : Effect) : Effect := ⟨fun k => a.uses k ∨ b.uses k, a.writes ∨ b.writes⟩

/-- Slots are used, and an input is written if `w` holds. -/
def touching (ks : List SlotId) (w : Prop) : Effect := ⟨(· ∈ ks), w⟩

/-- Slots are used, and no input is written. -/
abbrev reading (ks : List SlotId) : Effect := touching ks False

/-- An input is written if `w` holds. -/
def writing (w : Prop) : Effect := ⟨fun _ => False, w⟩

/-- Effects that come to the same. -/
def Same (a b : Effect) : Prop := (∀ k, a.uses k ↔ b.uses k) ∧ (a.writes ↔ b.writes)

theorem none_seq (e : Effect) : (none.seq e).Same e := by
  simp [Same, seq, none]

theorem seq_none (e : Effect) : (e.seq none).Same e := by
  simp [Same, seq, none]

end Effect

namespace LowerState

/-- The instructions of the stream that is being made. -/
def code (s : LowerState) : Array Instr := s.out.stream s.stream

/-- The number of its labels. -/
def labels (s : LowerState) : Nat := s.out.labelCount s.stream

/-- The variable of a slot. -/
def var? (s : LowerState) (k : SlotId) : Option VarId := s.slots.getD k Option.none

/-- A slot exists in the main stream only. -/
def Bars (s : LowerState) (k : SlotId) : Prop := s.mainOnly.getD k false = true

/-- Some instruction of the stream writes to an input. -/
def Writes (s : LowerState) : Prop := ∃ i ∈ s.code, i.Writes s.out.inputs

/-- The invariant of flattening; `owed` are the labels still to be placed. -/
structure Sound (source : Staged.Program) (owed : List LabelId) (s : LowerState) : Prop where
  size : s.slots.size = source.vars.size
  slots : ∀ k id, s.var? k = some id → ∃ v, source.vars[k]? = some v ∧
    HoldsTy s.out.vars s.stream id v.ty ∧ (id ∈ s.out.inputs ↔ k ∈ source.inputs)
  inputs : ∀ k ∈ source.inputs, (s.var? k).isSome ∨ s.Bars k
  vars : ∀ v ∈ s.out.vars, ∃ t l, v = ⟨some t, l⟩ ∧ t.Storable ∧ l ≠ .unknown
  interface : ∀ (kind : Interface) (id : VarId),
    id ∈ s.out.interface kind ↔ ∃ v, s.out.vars[id]? = some v ∧ v.location = kind.location
  typed : ∀ i ∈ s.code, i.Typed s.out.vars s.stream s.labels s.out.errors.size
  nodup : (Program.labelsOf s.code ++ owed).Nodup
  placed : ∀ l, l ∈ Program.labelsOf s.code ++ owed ↔ l < s.labels

/-- What was made stays, and the other stream and the interface are left alone. -/
structure Grows (s s' : LowerState) : Prop where
  stream : s'.stream = s.stream
  mainOnly : s'.mainOnly = s.mainOnly
  vars : Extends s.out.vars s'.out.vars
  labels : s.labels ≤ s'.labels
  errors : Extends s.out.errors s'.out.errors
  interface : ∀ kind, s'.out.interface kind = s.out.interface kind
  other : ∀ t, t ≠ s.stream → s'.out.stream t = s.out.stream t ∧ s'.out.labelCount t = s.out.labelCount t

/-- An effect was done between two states. -/
structure Did (e : Effect) (s s' : LowerState) : Prop where
  uses : ∀ k, (s'.var? k).isSome ↔ (s.var? k).isSome ∨ e.uses k
  writes : s'.Writes ↔ s.Writes ∨ e.writes

theorem Grows.refl (s : LowerState) : s.Grows s :=
  ⟨rfl, rfl, .refl _, Nat.le_refl _, .refl _, fun _ => rfl, fun _ _ => ⟨rfl, rfl⟩⟩

theorem Grows.trans {s t u : LowerState} (h : s.Grows t) (h' : t.Grows u) : s.Grows u where
  stream := h'.stream.trans h.stream
  mainOnly := h'.mainOnly.trans h.mainOnly
  vars := h.vars.trans h'.vars
  labels := Nat.le_trans h.labels h'.labels
  errors := h.errors.trans h'.errors
  interface kind := (h'.interface kind).trans (h.interface kind)
  other r hr := by
    have hr' : r ≠ t.stream := h.stream ▸ hr
    exact ⟨(h'.other r hr').1.trans (h.other r hr).1, (h'.other r hr').2.trans (h.other r hr).2⟩

theorem Did.refl (s : LowerState) : Did .none s s := by
  constructor <;> simp [Effect.none]

theorem Did.seq {a b : Effect} {s t u : LowerState} (h : Did a s t) (h' : Did b t u) : Did (a.seq b) s u :=
  ⟨fun k => (h'.uses k).trans ((or_congr_left (h.uses k)).trans or_assoc),
    h'.writes.trans ((or_congr_left h.writes).trans or_assoc)⟩

theorem Did.congr {a b : Effect} (same : a.Same b) {s t : LowerState} (h : Did a s t) : Did b s t :=
  ⟨fun k => (h.uses k).trans (or_congr_right (same.1 k)), h.writes.trans (or_congr_right same.2)⟩

theorem Grows.bars {s s' : LowerState} (h : s.Grows s') {k : SlotId} : s'.Bars k ↔ s.Bars k := by
  rw [Bars, Bars, h.mainOnly]

theorem Sound.perm {source : Staged.Program} {owed owed' : List LabelId} {s : LowerState}
    (h : s.Sound source owed) (hp : owed.Perm owed') : s.Sound source owed' := by
  have whole := hp.append_left (Program.labelsOf s.code)
  exact ⟨h.size, h.slots, h.inputs, h.vars, h.interface, h.typed, whole.nodup_iff.1 h.nodup,
    fun l => whole.mem_iff.symm.trans (h.placed l)⟩

end LowerState

open LowerState

/-- A step has an effect: it fails if it uses a slot that exists in the main stream only, and otherwise it
ends in a sound state, and `Q` holds of its result. -/
def Lowers {α : Type} (ctx : LowerContext) (owed owed' : List LabelId) (e : Effect) (m : Lower α)
    (s : LowerState) (Q : α → LowerState → Prop) : Prop :=
  s.Sound ctx.source owed →
    ((∀ k, e.uses k → ¬s.Bars k) → Yields m ctx s fun a s' =>
      s'.Sound ctx.source owed' ∧ s.Grows s' ∧ Did e s s' ∧ Q a s') ∧
    ((∃ k, e.uses k ∧ s.Bars k) → ∃ err, m ctx s = .error err)

namespace Lowers

variable {ctx : LowerContext} {owed owed₁ owed₂ : List LabelId} {e e₁ e₂ : Effect} {α β : Type}
  {m : Lower α} {f : α → Lower β} {s : LowerState} {Q : α → LowerState → Prop}
  {R : β → LowerState → Prop}

theorem pure {a : α} (h : s.Sound ctx.source owed → Q a s) :
    Lowers ctx owed owed .none (Pure.pure a) s Q := by
  intro sound
  refine ⟨fun _ => .pure ⟨sound, .refl s, .refl s, h sound⟩, fun ⟨_, h, _⟩ => h.elim⟩

theorem mono {Q' : α → LowerState → Prop} (h : Lowers ctx owed owed₁ e m s Q)
    (hq : ∀ a s', s'.Sound ctx.source owed₁ → s.Grows s' → Q a s' → Q' a s') :
    Lowers ctx owed owed₁ e m s Q' := by
  intro sound
  refine ⟨fun free => ((h sound).1 free).mono ?_, (h sound).2⟩
  rintro a s' ⟨sound', grows, did, q⟩
  exact ⟨sound', grows, did, hq a s' sound' grows q⟩

theorem congr (same : e₁.Same e₂) (h : Lowers ctx owed owed₁ e₁ m s Q) : Lowers ctx owed owed₁ e₂ m s Q := by
  intro sound
  refine ⟨fun free => ((h sound).1 fun k hk => free k ((same.1 k).1 hk)).mono ?_, ?_⟩
  · rintro a s' ⟨sound', grows, did, q⟩
    exact ⟨sound', grows, did.congr same, q⟩
  · rintro ⟨k, hk, hb⟩
    exact (h sound).2 ⟨k, (same.1 k).2 hk, hb⟩

/-- Steps in a row: the first failure counts. -/
theorem bind (h : Lowers ctx owed owed₁ e₁ m s Q)
    (hf : ∀ a s', s'.Sound ctx.source owed₁ → s.Grows s' → Q a s' → Lowers ctx owed₁ owed₂ e₂ (f a) s' R) :
    Lowers ctx owed owed₂ (e₁.seq e₂) (m >>= f) s R := by
  intro sound
  constructor
  · intro free
    refine ((h sound).1 fun k hk => free k (.inl hk)).bind ?_
    rintro a s' ⟨sound', grows, did, q⟩
    refine ((hf a s' sound' grows q sound').1 fun k hk hb => free k (.inr hk) (grows.bars.1 hb)).mono ?_
    rintro b s'' ⟨sound'', grows', did', r⟩
    exact ⟨sound'', grows.trans grows', did.seq did', r⟩
  · rintro ⟨k, hk, hb⟩
    -- The first step fails if it uses such a slot itself; if not, it ends and the second one fails.
    by_cases early : ∃ k, e₁.uses k ∧ s.Bars k
    · obtain ⟨err, run⟩ := (h sound).2 early
      exact ⟨err, by rw [bind_run, run]; rfl⟩
    · have free : ∀ k, e₁.uses k → ¬s.Bars k := fun k hk hb => early ⟨k, hk, hb⟩
      obtain ⟨a, s', run, sound', grows, -, q⟩ := (h sound).1 free
      have late : e₂.uses k := hk.resolve_left fun hk => free k hk hb
      obtain ⟨err, run'⟩ := (hf a s' sound' grows q sound').2 ⟨k, late, grows.bars.2 hb⟩
      exact ⟨err, by rw [bind_run, run]; exact run'⟩

/-- A step without an effect before another one. -/
theorem quiet (h : Lowers ctx owed owed₁ .none m s Q)
    (hf : ∀ a s', s'.Sound ctx.source owed₁ → s.Grows s' → Q a s' → Lowers ctx owed₁ owed₂ e (f a) s' R) :
    Lowers ctx owed owed₂ e (m >>= f) s R :=
  (h.bind hf).congr e.none_seq

/-- A step without an effect behind another one. -/
theorem ending (h : Lowers ctx owed owed₁ e m s Q)
    (hf : ∀ a s', s'.Sound ctx.source owed₁ → s.Grows s' → Q a s' → Lowers ctx owed₁ owed₂ .none (f a) s' R) :
    Lowers ctx owed owed₂ e (m >>= f) s R :=
  (h.bind hf).congr e.seq_none

theorem get_bind {f : LowerState → Lower β} (h : Lowers ctx owed owed₁ e (f s) s R) :
    Lowers ctx owed owed₁ e (get >>= f) s R := h

theorem read_bind {f : LowerContext → Lower β} (h : Lowers ctx owed owed₁ e (f ctx) s R) :
    Lowers ctx owed owed₁ e (read >>= f) s R := h

/-- A step that leaves the state as it is. -/
theorem result_bind {a : α} (run : m ctx s = .ok (a, s)) (h : Lowers ctx owed owed₁ e (f a) s R) :
    Lowers ctx owed owed₁ e (m >>= f) s R := by
  have same : (m >>= f) ctx s = f a ctx s := by rw [bind_run, run]; rfl
  unfold Lowers Yields at *
  rw [same]
  exact h

theorem orBroken_bind {a : α} {o : Option α} (ho : o = some a) (h : Lowers ctx owed owed₁ e (f a) s R) :
    Lowers ctx owed owed₁ e (Lower.orBroken o >>= f) s R := by
  subst ho
  exact h

/-- A change of the state without an effect. -/
theorem modify {g : LowerState → LowerState} {Q : PUnit → LowerState → Prop}
    (h : s.Sound ctx.source owed →
      (g s).Sound ctx.source owed₁ ∧ s.Grows (g s) ∧ Did e s (g s) ∧ Q () (g s))
    (none : ∀ k, ¬e.uses k) :
    Lowers ctx owed owed₁ e (modifyGet fun s => ((), g s)) s Q := by
  intro sound
  exact ⟨fun _ => ⟨(), g s, rfl, h sound⟩, fun ⟨k, hk, _⟩ => (none k hk).elim⟩

end Lowers

/-! ## Single steps -/

namespace Program

theorem stream_emit (p : Program) (st t : Stream) (i : Instr) :
    (p.emit st i).stream t = if t = st then (p.stream t).push i else p.stream t := by
  cases st <;> cases t <;> rfl

@[simp] theorem vars_emit (p : Program) (st : Stream) (i : Instr) : (p.emit st i).vars = p.vars := by
  cases st <;> rfl

@[simp] theorem errors_emit (p : Program) (st : Stream) (i : Instr) : (p.emit st i).errors = p.errors := by
  cases st <;> rfl

@[simp] theorem labelCount_emit (p : Program) (st t : Stream) (i : Instr) :
    (p.emit st i).labelCount t = p.labelCount t := by
  cases st <;> rfl

@[simp] theorem interface_emit (p : Program) (st : Stream) (i : Instr) (kind : Interface) :
    (p.emit st i).interface kind = p.interface kind := by
  cases st <;> rfl

theorem labelCount_addLabel (p : Program) (st t : Stream) :
    (p.addLabel st).labelCount t = if t = st then p.labelCount t + 1 else p.labelCount t := by
  cases st <;> cases t <;> rfl

@[simp] theorem stream_addLabel (p : Program) (st t : Stream) : (p.addLabel st).stream t = p.stream t := by
  cases st <;> rfl

@[simp] theorem vars_addLabel (p : Program) (st : Stream) : (p.addLabel st).vars = p.vars := by
  cases st <;> rfl

@[simp] theorem errors_addLabel (p : Program) (st : Stream) : (p.addLabel st).errors = p.errors := by
  cases st <;> rfl

@[simp] theorem interface_addLabel (p : Program) (st : Stream) (kind : Interface) :
    (p.addLabel st).interface kind = p.interface kind := by
  cases st <;> rfl

@[simp] theorem stream_addVariable (p : Program) (v : Variable) (t : Stream) :
    (p.addVariable v).stream t = p.stream t := by
  cases t <;> rfl

@[simp] theorem labelCount_addVariable (p : Program) (v : Variable) (t : Stream) :
    (p.addVariable v).labelCount t = p.labelCount t := by
  cases t <;> rfl

@[simp] theorem interface_addVariable (p : Program) (v : Variable) (kind : Interface) :
    (p.addVariable v).interface kind = p.interface kind := by
  cases kind <;> rfl

theorem labelsOf_push (code : Array Instr) (i : Instr) :
    labelsOf (code.push i) = labelsOf code ++ i.label?.toList := by
  rw [labelsOf, labelsOf, Array.toList_push, List.filterMap_append]
  cases h : i.label? <;> simp [h]

end Program

section Single

variable {ctx : LowerContext} {owed owed₁ : List LabelId} {s : LowerState}

/-- Emits a typed instruction; a label it places is owed no longer. -/
theorem lowers_emit {i : Instr} {w : Prop}
    (typed : i.Typed s.out.vars s.stream s.labels s.out.errors.size)
    (hp : owed.Perm (i.label?.toList ++ owed₁)) (hw : i.Writes s.out.inputs ↔ w) :
    Lowers ctx owed owed₁ (.writing w) (Lower.emit i) s fun _ _ => True := by
  refine .modify (fun sound => ?_) fun _ h => h
  generalize hs' : ({ s with out := s.out.emit s.stream i } : LowerState) = s'
  have code : s'.code = s.code.push i := by
    rw [← hs']
    exact (Program.stream_emit ..).trans (if_pos rfl)
  have labels : s'.labels = s.labels := by rw [← hs']; exact Program.labelCount_emit ..
  have stream : s'.stream = s.stream := by rw [← hs']
  have vars : s'.out.vars = s.out.vars := by rw [← hs']; exact Program.vars_emit ..
  have errors : s'.out.errors = s.out.errors := by rw [← hs']; exact Program.errors_emit ..
  have interface : ∀ kind, s'.out.interface kind = s.out.interface kind := by
    rw [← hs']
    exact Program.interface_emit _ _ _
  have inputs : s'.out.inputs = s.out.inputs := interface .input
  have slots : ∀ k, s'.var? k = s.var? k := by rw [← hs']; exact fun _ => rfl
  have bars : ∀ k, s'.Bars k ↔ s.Bars k := by rw [← hs']; exact fun _ => Iff.rfl
  have perm : (Program.labelsOf s.code ++ owed).Perm (Program.labelsOf s'.code ++ owed₁) := by
    rw [code, Program.labelsOf_push, List.append_assoc]
    exact hp.append_left _
  refine ⟨⟨?_, ?_, ?_, ?_, ?_, ?_, ?_, ?_⟩, ⟨stream, ?_, ?_, ?_, ?_, interface, ?_⟩, ⟨?_, ?_⟩, trivial⟩
  · rw [← hs']; exact sound.size
  · intro k id hk
    rw [vars, stream, inputs]
    exact sound.slots k id ((slots k).symm.trans hk)
  · intro k hk
    rw [slots, bars]
    exact sound.inputs k hk
  · rw [vars]; exact sound.vars
  · intro kind id
    rw [vars, interface]
    exact sound.interface kind id
  · intro j hj
    rw [vars, stream, labels, errors]
    rw [code] at hj
    rcases Array.mem_push.1 hj with hj | rfl
    · exact sound.typed j hj
    · exact typed
  · exact perm.nodup_iff.1 sound.nodup
  · intro l
    rw [labels, ← perm.mem_iff]
    exact sound.placed l
  · rw [← hs']
  · rw [vars]; exact .refl _
  · exact Nat.le_of_eq (by rw [labels])
  · rw [errors]; exact .refl _
  · intro t ht
    rw [← hs']
    exact ⟨(Program.stream_emit ..).trans (if_neg ht), Program.labelCount_emit ..⟩
  · intro k
    rw [slots]
    exact (or_iff_left id).symm
  · rw [LowerState.Writes, code, inputs]
    constructor
    · rintro ⟨j, hj, hwrites⟩
      rcases Array.mem_push.1 hj with hj | rfl
      · exact .inl ⟨j, hj, hwrites⟩
      · exact .inr (hw.1 hwrites)
    · rintro (⟨j, hj, hwrites⟩ | hwrites)
      · exact ⟨j, Array.mem_push.2 (.inl hj), hwrites⟩
      · exact ⟨i, Array.mem_push.2 (.inr rfl), hw.2 hwrites⟩

/-- A variable that is no part of the interface. -/
def IsLocal (v : Variable) : Prop :=
  ∃ t l, v = ⟨some t, l⟩ ∧ (t.Storable ∧ l ≠ .unknown) ∧ ∀ kind : Interface, l ≠ kind.location

/-- Making labels, errors and local variables keeps the invariant. -/
theorem LowerState.Sound.grow {s' : LowerState} (sound : s.Sound ctx.source owed) (grows : s.Grows s')
    (code : s'.code = s.code) (slots : s'.slots = s.slots)
    (vars : ∀ (id : VarId) (v : Variable), s'.out.vars[id]? = some v → s.out.vars[id]? = some v ∨ IsLocal v)
    (nodup : (Program.labelsOf s.code ++ owed₁).Nodup)
    (placed : ∀ l, l ∈ Program.labelsOf s.code ++ owed₁ ↔ l < s'.labels) : s'.Sound ctx.source owed₁ := by
  have var? : ∀ k, s'.var? k = s.var? k := fun k => by rw [LowerState.var?, LowerState.var?, slots]
  have inputs : s'.out.inputs = s.out.inputs := grows.interface .input
  constructor
  · rw [slots]; exact sound.size
  · intro k id hk
    obtain ⟨v, hv, holds, hin⟩ := sound.slots k id ((var? k).symm.trans hk)
    rw [grows.stream, inputs]
    exact ⟨v, hv, holds.mono grows.vars, hin⟩
  · intro k hk
    rw [var?, grows.bars]
    exact sound.inputs k hk
  · intro v hv
    obtain ⟨id, hid, rfl⟩ := Array.mem_iff_getElem.1 hv
    rcases vars id _ (Array.getElem?_eq_getElem hid) with old | ⟨t, l, new, ht, -⟩
    · exact sound.vars _ (Array.mem_of_getElem? old)
    · exact ⟨t, l, new, ht⟩
  · intro kind id
    rw [grows.interface, sound.interface]
    constructor
    · rintro ⟨v, hv, hl⟩
      exact ⟨v, grows.vars id v hv, hl⟩
    · rintro ⟨v, hv, hl⟩
      rcases vars id v hv with old | ⟨t, l, rfl, -, hk⟩
      · exact ⟨v, old, hl⟩
      · exact (hk kind hl).elim
  · intro i hi
    rw [grows.stream]
    rw [code] at hi
    exact (sound.typed i hi).mono grows.vars grows.labels grows.errors.size_le
  · rw [code]; exact nodup
  · rw [code]; exact placed

theorem LowerState.Did.still {s' : LowerState} (grows : s.Grows s') (code : s'.code = s.code)
    (slots : s'.slots = s.slots) : Did .none s s' := by
  have inputs : s'.out.inputs = s.out.inputs := grows.interface .input
  constructor
  · intro k
    rw [LowerState.var?, slots]
    exact (or_iff_left id).symm
  · rw [LowerState.Writes, code, inputs]
    exact (or_iff_left id).symm

theorem lowers_label :
    Lowers ctx owed (s.labels :: owed) .none Lower.label s fun l s' => l = s.labels ∧ l < s'.labels := by
  intro sound
  refine ⟨fun _ => ?_, fun ⟨_, h, _⟩ => h.elim⟩
  let s' : LowerState := { s with out := s.out.addLabel s.stream }
  have labels : s'.labels = s.labels + 1 := (Program.labelCount_addLabel ..).trans (if_pos rfl)
  have code : s'.code = s.code := Program.stream_addLabel ..
  have grows : s.Grows s' := by
    refine ⟨rfl, rfl, ?_, ?_, ?_, Program.interface_addLabel _ _, fun t ht => ⟨Program.stream_addLabel .., ?_⟩⟩
    · rw [Program.vars_addLabel]; exact .refl _
    · rw [labels]; exact Nat.le_succ _
    · rw [Program.errors_addLabel]; exact .refl _
    · exact (Program.labelCount_addLabel ..).trans (if_neg ht)
  have perm : (Program.labelsOf s.code ++ s.labels :: owed).Perm (s.labels :: (Program.labelsOf s.code ++ owed)) :=
    List.perm_middle
  refine ⟨s.labels, s', rfl, ?_, grows, .still grows code rfl, rfl, by rw [labels]; exact Nat.lt_succ_self _⟩
  refine sound.grow grows code rfl (fun id v hv => .inl ?_) ?_ fun l => ?_
  · rw [Program.vars_addLabel] at hv
    exact hv
  · rw [perm.nodup_iff, List.nodup_cons]
    exact ⟨fun h => Nat.lt_irrefl _ ((sound.placed _).1 h), sound.nodup⟩
  · rw [perm.mem_iff, List.mem_cons, sound.placed, labels]
    exact or_comm.trans Nat.lt_succ_iff_lt_or_eq.symm

/-- Adds an entry to the error table. -/
theorem lowers_addError {text : String} :
    Lowers ctx owed owed .none (modify fun s => { s with out := s.out.addError text }) s
      fun _ s' => s.out.errors.size < s'.out.errors.size := by
  refine .modify (fun sound => ?_) fun _ h => h
  have size : (s.out.errors.push text).size = s.out.errors.size + 1 := Array.size_push _
  have grows : s.Grows { s with out := s.out.addError text } := by
    exact ⟨rfl, rfl, .refl _, Nat.le_refl _, .push _ _, fun kind => by cases kind <;> rfl,
      fun t _ => by cases t <;> exact ⟨rfl, rfl⟩⟩
  have code : (⟨s.out.addError text, s.stream, s.slots, s.mainOnly⟩ : LowerState).code = s.code := by
    unfold LowerState.code
    cases s.stream <;> rfl
  refine ⟨sound.grow grows code rfl (fun _ _ h => .inl h) sound.nodup fun l => ?_, grows,
    .still grows code rfl, ?_⟩
  · refine (sound.placed l).trans (Eq.to_iff (congrArg (l < ·) ?_))
    unfold LowerState.labels
    cases s.stream <;> rfl
  · show _ < (s.out.errors.push text).size
    omega

theorem mayTouch_location (st : Stream) : Program.mayTouch st st.location = true := by
  cases st <;> rfl

theorem location_ne_unknown (st : Stream) : st.location ≠ .unknown := by
  cases st <;> decide

theorem location_ne_interface (st : Stream) (kind : Interface) : st.location ≠ kind.location := by
  cases st <;> cases kind <;> decide

/-- Makes a local variable. -/
theorem lowers_newVariable {ty : Ty} (ht : ty.Storable) :
    Lowers ctx owed owed .none (Lower.newVariable ty s.stream.location) s fun id s' =>
      HoldsTy s'.out.vars s'.stream id ty ∧ id ∉ s'.out.inputs ∧ s'.slots = s.slots := by
  intro sound
  refine ⟨fun _ => ?_, fun ⟨_, h, _⟩ => h.elim⟩
  let v : Variable := ⟨some ty, s.stream.location⟩
  let s' : LowerState := { s with out := s.out.addVariable v }
  have found : s'.out.vars[s.out.vars.size]? = some v := Array.getElem?_push_size
  have code : s'.code = s.code := Program.stream_addVariable ..
  have labels : s'.labels = s.labels := Program.labelCount_addVariable ..
  have grows : s.Grows s' := ⟨rfl, rfl, .push _ _, Nat.le_of_eq labels.symm, .refl _,
    Program.interface_addVariable _ _,
    fun t _ => ⟨Program.stream_addVariable .., Program.labelCount_addVariable ..⟩⟩
  have fresh : s.out.vars.size ∉ s.out.inputs := by
    intro hmem
    obtain ⟨w, hw, -⟩ := (sound.interface .input _).1 hmem
    exact Nat.lt_irrefl _ (Array.getElem?_eq_some_iff.1 hw).1
  refine ⟨s.out.vars.size, s', rfl, ?_, grows, .still grows code rfl,
    ⟨ht, s.stream.location, found, mayTouch_location _⟩, fresh, rfl⟩
  refine sound.grow grows code rfl (fun id w hw => ?_) sound.nodup fun l => by rw [labels]; exact sound.placed l
  have hw : (s.out.vars.push v)[id]? = some w := hw
  rw [Array.getElem?_push] at hw
  split at hw
  · cases hw
    exact .inr ⟨ty, _, rfl, ⟨ht, location_ne_unknown _⟩, location_ne_interface _⟩
  · exact .inl hw

/-- An operand is a variable, and an input exactly if `w` holds. -/
def LowerState.IsTarget (s : LowerState) (o : Operand) (w : Prop) : Prop :=
  ∃ id, o.viewed.var? = some id ∧ (id ∈ s.out.inputs ↔ w)

theorem LowerState.IsTarget.mono {s' : LowerState} (grows : s.Grows s') {o : Operand} {w : Prop}
    (h : s.IsTarget o w) : s'.IsTarget o w := by
  obtain ⟨id, hid, hw⟩ := h
  have inputs : s'.out.inputs = s.out.inputs := grows.interface .input
  exact ⟨id, hid, by rw [inputs]; exact hw⟩

theorem LowerState.IsTarget.of_var {o o' : Operand} {w : Prop} (h : s.IsTarget o w)
    (same : o'.viewed.var? = o.viewed.var?) : s.IsTarget o' w := by
  obtain ⟨id, hid, hw⟩ := h
  exact ⟨id, same.trans hid, hw⟩

/-- Makes a variable for an intermediate value. -/
theorem lowers_temp {ty : Ty} (ht : ty.Storable) :
    Lowers ctx owed owed .none (Lower.temp ty) s fun o s' =>
      o.IsWhole s'.out.vars s'.stream ty ∧ s'.IsTarget o False := by
  refine .get_bind (.quiet (lowers_newVariable ht) ?_)
  rintro id s' - - ⟨holds, fresh, -⟩
  exact .pure fun _ => ⟨Operand.isWhole_ofVariable holds, id, rfl, iff_false_intro fresh⟩

/-- The state after a slot got a variable. -/
def LowerState.give (s : LowerState) (k : SlotId) (id : VarId) : LowerState :=
  { s with slots := s.slots.setIfInBounds k (some id) }

theorem LowerState.var?_give {k : SlotId} (hk : k < s.slots.size) (id : VarId) (j : SlotId) :
    (s.give k id).var? j = if k = j then some id else s.var? j := by
  simp only [var?, give, Array.getD_eq_getD_getElem?, Array.getElem?_setIfInBounds]
  split <;> simp_all

/-- A slot that has a variable keeps it. -/
theorem variableAt_old {k : SlotId} {id : VarId} {l : Location} (h : s.var? k = some id) :
    Lower.variableAt k l ctx s = .ok (id, s) := by
  have h : s.slots.getD k none = some id := h
  refine bind_ok.2 ⟨s, s, rfl, ?_⟩
  rw [h]
  rfl

/-- A slot that has no variable gets the next one. -/
theorem variableAt_new {k : SlotId} {l : Location} {v : Staged.Variable} (h : s.var? k = none)
    (hv : ctx.source.vars[k]? = some v) : Lower.variableAt k l ctx s = .ok (s.out.vars.size,
      LowerState.give { s with out := s.out.addVariable ⟨some v.ty, l⟩ } k s.out.vars.size) := by
  have h : s.slots.getD k none = none := h
  refine bind_ok.2 ⟨s, s, rfl, ?_⟩
  rw [h]
  refine bind_ok.2 ⟨ctx, s, rfl, ?_⟩
  rw [hv]
  rfl

theorem LowerState.Sound.give {k : SlotId} {id : VarId} {v : Staged.Variable}
    (sound : s.Sound ctx.source owed) (hv : ctx.source.vars[k]? = some v)
    (holds : HoldsTy s.out.vars s.stream id v.ty) (fresh : id ∉ s.out.inputs) (new : k ∉ ctx.source.inputs) :
    (s.give k id).Sound ctx.source owed ∧ s.Grows (s.give k id) ∧
      Did (.reading [k]) s (s.give k id) := by
  have hk : k < s.slots.size := by
    rw [sound.size]
    exact (Array.getElem?_eq_some_iff.1 hv).1
  refine ⟨⟨?_, ?_, ?_, sound.vars, sound.interface, sound.typed, sound.nodup, sound.placed⟩, ?_, ?_, ?_⟩
  · exact Array.size_setIfInBounds.trans sound.size
  · intro j i hj
    rw [var?_give hk] at hj
    split at hj
    · rename_i same
      cases hj
      subst same
      exact ⟨v, hv, holds, iff_of_false fresh new⟩
    · exact sound.slots j i hj
  · intro j hj
    rw [var?_give hk]
    split
    · exact .inl rfl
    · exact sound.inputs j hj
  · exact ⟨rfl, rfl, .refl _, Nat.le_refl _, .refl _, fun _ => rfl, fun _ _ => ⟨rfl, rfl⟩⟩
  · intro j
    simp only [var?_give hk, Effect.touching, List.mem_singleton]
    split
    · rename_i same
      simp [same]
    · rename_i other
      exact (or_iff_left (Ne.symm other)).symm
  · exact (or_iff_left not_false).symm

/-- All of the variable of a slot, which is made if it is new. -/
theorem lowers_ofSlot {k : SlotId} {v : Staged.Variable} (hv : ctx.source.vars[k]? = some v)
    (ht : v.ty.Storable) : Lowers ctx owed owed (.reading [k]) (Lower.ofSlot k) s fun o s' =>
      ∃ id, o = .ofVariable id (some v.ty) ∧ HoldsTy s'.out.vars s'.stream id v.ty ∧
        (id ∈ s'.out.inputs ↔ k ∈ ctx.source.inputs) := by
  intro sound
  constructor
  · intro free
    have free : ¬s.Bars k := free k List.mem_cons_self
    have step : Lower.ofSlot k ctx s = (do
        let id ← Lower.variableAt k s.stream.location
        return .ofVariable id (((← get).out.vars[id]?).bind (·.ty)) : Lower Operand) ctx s := by
      show (if s.mainOnly.getD k false then _ else _ : Lower Operand) ctx s = _
      rw [Bool.eq_false_iff.2 free]
      rfl
    have whole : ∀ {t : LowerState} {id : VarId}, HoldsTy t.out.vars t.stream id v.ty →
        Operand.ofVariable id ((t.out.vars[id]?).bind (·.ty)) = .ofVariable id (some v.ty) := by
      rintro t id ⟨-, l, found, -⟩
      rw [found]
      rfl
    rw [Yields, step]
    cases old : s.var? k with
    | some id =>
      obtain ⟨w, hw, holds, hin⟩ := sound.slots k id old
      obtain rfl : w = v := Option.some.inj (hw.symm.trans hv)
      refine ⟨_, s, bind_ok.2 ⟨id, s, variableAt_old old, rfl⟩, sound, .refl s, ⟨fun j => ?_, ?_⟩,
        id, whole holds, holds, hin⟩
      · refine ⟨.inl, fun h => h.elim (fun h => h) fun h => ?_⟩
        rw [List.mem_singleton.1 h, old]
        rfl
      · exact (or_iff_left not_false).symm
    | none =>
      have new : k ∉ ctx.source.inputs := by
        intro hk
        rcases sound.inputs k hk with has | bars
        · rw [old] at has; cases has
        · exact free bars
      obtain ⟨id, s₁, run, sound₁, grows₁, did₁, holds, fresh, slots⟩ :=
        (lowers_newVariable ht sound).1 fun _ h => h.elim
      obtain ⟨rfl, rfl⟩ : s.out.vars.size = id ∧ _ = s₁ := Prod.mk.inj (Except.ok.inj run)
      obtain ⟨sound₂, grows₂, did₂⟩ := sound₁.give hv holds fresh new
      refine ⟨_, _, bind_ok.2 ⟨_, _, variableAt_new old hv, rfl⟩, sound₂, grows₁.trans grows₂,
        (did₁.seq did₂).congr (Effect.none_seq _), _, whole holds, holds, iff_of_false fresh new⟩
  · rintro ⟨j, hj, hb⟩
    obtain rfl := List.mem_singleton.1 hj
    refine ⟨⟨s.stream, .mainVariable j⟩, ?_⟩
    show (if s.mainOnly.getD j false then _ else _ : Lower Operand) ctx s = _
    rw [show s.mainOnly.getD j false = true from hb]
    rfl

end Single

end SignalLang.Flat
