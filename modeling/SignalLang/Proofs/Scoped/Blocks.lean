import SignalLang.Proofs.Scoped.Naming

/-!
# Scopes are laid where they stand

A scope is opened with everything in sight around it, built, and closed. Between the two only the scope itself changes
(`Builder.Went`), so building goes on around it as if it had not been there, and the scope fits the place behind it
(`Builder.Fits`). With the statements in place every program that is built from a tree has a layout:
`lexical_of_ofTree`.
-/

namespace SignalLang.Scoped

variable {b b' b'' : Builder} {L L' L'' : Layout} {opens : List ScopeId}

/-- Building went on in the current scope, of which nothing is said. -/
structure Builder.Went (b : Builder) (L : Layout) (opens : List ScopeId) (b' : Builder) (L' : Layout) : Prop where
  grows : b.program.Grows L opens b.current b'.program L'
  current : b'.current = b.current
  entry : b'.program.entry = b.program.entry
  builtins : b'.program.builtins = b.program.builtins

namespace Builder

theorem Goes.went (g : b.Goes L opens b' L') : b.Went L opens b' L' := ⟨g.grows, g.current, g.entry, g.builtins⟩

theorem Went.trans (g : b.Went L opens b' L') (g' : b'.Went L' opens b'' L'') : b.Went L opens b'' L'' :=
  ⟨g.grows.trans (g.current ▸ g'.grows), g'.current.trans g.current, g'.entry.trans g.entry,
    g'.builtins.trans g.builtins⟩

/-- A scope is opened inside the current one. -/
def opened (b : Builder) : Builder := { b with
  program := b.program.addScope (some b.current)
  current := b.program.scopes.size
  included := [] :: b.included }

/-- The current scope is left for one around it. -/
def left (b : Builder) (outer : ScopeId) : Builder := { b with current := outer, included := b.included.tail }

/-- The layout with the scope that is opened, as part of a macro body. -/
def openLayout (b : Builder) (L : Layout) (frame : ScopeId) : Layout :=
  L.opened b.program.scopes.size (b.Here L) b.program.vars.size frame

theorem Laid.opened (h : b.Laid L opens) (frame : ScopeId)
    (hframe : frame = L.frame b.current ∨ frame = b.program.scopes.size) :
    b.opened.Laid (b.openLayout L frame) (b.program.scopes.size :: opens) :=
  ⟨h.making.openScope h.mem hframe, opens, rfl⟩

/-- The scope `j` was the last to be closed, and was opened when `n` variables had been made. -/
structure Closed (b : Builder) (L : Layout) (opens : List ScopeId) (frame : ScopeId) (n : VarId) (j : ScopeId) : Prop where
  lt : j < b.program.scopes.size
  closed : j ∉ opens
  frame : L.frame j = frame
  first : L.first j = n
  past : L.past j = b.program.vars.size
  outer : L.first b.current ≤ n
  here : ∀ v, b.Here L v → v < n
  inner : b.current < j

/-- What was built inside a scope is there when the scope is left. -/
theorem Laid.left (h : b.Laid L opens) {frame : ScopeId} {L' : Layout}
    (h' : b'.Laid L' (b.program.scopes.size :: opens))
    (w : b.opened.Went (b.openLayout L frame) (b.program.scopes.size :: opens) b' L') :
    (b'.left b.current).Laid L' opens ∧ b.Goes L opens (b'.left b.current) L' ∧
      (b'.left b.current).Closed L' opens frame b.program.vars.size b.program.scopes.size := by
  have size : b.opened.program.scopes.size = b.program.scopes.size + 1 := Program.scopes_size_addScope _ _
  have fresh : b.program.scopes.size ∉ opens := h.making.not_mem_opens
  have before {i : ScopeId} (hi : i < b.program.scopes.size) : i < b.opened.program.scopes.size :=
    size ▸ Nat.lt_succ_of_lt hi
  have other {i : ScopeId} (hi : i < b.program.scopes.size) : i ≠ b.opened.current := Nat.ne_of_lt hi
  have start : b.program.Grows L opens b.current b.opened.program (b.openLayout L frame) :=
    Program.grows_opened h.making _
  have scope {i : ScopeId} (hi : i < b.program.scopes.size) : b'.program.scope i = b.program.scope i :=
    (w.grows.scope i (before hi) (other hi)).trans (Program.scope_addScope_lt hi _)
  have sees {i : ScopeId} (hi : i < b.program.scopes.size) : L'.sees i = L.sees i :=
    (w.grows.sees i (before hi) (other hi)).trans (if_neg (Nat.ne_of_lt hi))
  have first {i : ScopeId} (hi : i < b.program.scopes.size) : L'.first i = L.first i :=
    (w.grows.first i (before hi)).trans (start.first i hi)
  have new : b.program.scopes.size < b.opened.program.scopes.size := size ▸ Nat.lt_succ_self _
  have here (v : VarId) : (b'.left b.current).Here L' v ↔ b.Here L v := by
    show b'.program.Sight L' b.current (b'.program.statements b.current) v ↔ _
    rw [Program.Sight, Program.statements, scope h.lt, sees h.lt]
    rfl
  refine ⟨⟨h'.making.closeScope, h.current⟩, ⟨⟨?_, w.grows.vars, fun v hv => w.grows.var v hv, fun i hi _ => scope hi,
    fun i hi _ => sees hi, fun i hi => first hi, fun i hi => ?_, fun i hi hclosed => ?_,
    fun i hopen => w.grows.opened i (List.mem_cons_of_mem _ hopen), fun v hv => w.grows.owner v hv⟩, rfl, sees h.lt, ?_,
    fun v hv => (here v).2 hv, fun v hv => .inl ((here v).1 hv), w.entry, w.builtins⟩, ⟨?_, fresh, ?_, ?_, ?_, ?_,
    fun v hv => h.making.made ((here v).1 hv), h.lt⟩⟩
  · exact Nat.le_trans start.scopes w.grows.scopes
  · exact (w.grows.frame i (before hi)).trans (start.frame i hi)
  · refine (w.grows.closed i (before hi) fun hopen => ?_).trans (start.closed i hi hclosed)
    rcases List.mem_cons.1 hopen with rfl | hopen
    · exact Nat.lt_irrefl _ hi
    · exact hclosed hopen
  · show (b'.program.scope b.current).inputs = _
    rw [scope h.lt]
  · exact Nat.lt_of_lt_of_le new w.grows.scopes
  · exact (w.grows.frame _ new).trans (if_pos rfl)
  · exact (w.grows.first _ new).trans (if_pos rfl)
  · exact w.grows.opened _ List.mem_cons_self
  · show L'.first b.current ≤ _
    rw [first h.lt]
    exact Nat.le_trans (h.making.first _ h.lt) (h.making.past _ h.lt)

/-- A scope that was just closed may be nested in the current one. -/
theorem Closed.nests {n : VarId} {j : ScopeId} {T : VarId → Prop} (hc : b.Closed L opens (L.frame b.current) n j)
    (h : b.Laid L opens) (sees : ∀ v, L.sees j v → T v) (inputs : (b.program.scope j).inputs = []) :
    b.program.Nests L b.current (b.Here L) T j := by
  refine ⟨hc.frame, sees, inputs, ?_, ?_, fun v hv => ?_, hc.inner⟩
  · rw [hc.first]
    exact hc.outer
  · exact Nat.le_of_eq (hc.past.trans (h.making.opens_past _ h.mem).symm)
  · rw [hc.first]
    exact fun between => Nat.not_lt.2 between.1 (hc.here v hv)

/-- A scope may stand in a statement here. -/
structure Fits (b : Builder) (L : Layout) (opens : List ScopeId) (j : ScopeId) : Prop where
  nests : b.program.Nests L b.current (b.Here L) (b.Here L) j
  lt : j < b.program.scopes.size
  closed : j ∉ opens

/-- A scope that fits still fits after building has gone on: what was made since then is not inside it. -/
theorem Fits.goes {j : ScopeId} (hf : b.Fits L opens j) (h : b.Laid L opens) (g : b.Goes L opens b' L') :
    b'.Fits L' opens j := by
  have moved := g.grows.nests h.making (Program.ne_of_closed h.mem) h.lt hf.lt hf.closed hf.nests
  have past : L'.past j ≤ b.program.vars.size := by
    rw [g.grows.closed j hf.lt hf.closed]
    exact h.making.past j hf.lt
  refine ⟨?_, Nat.lt_of_lt_of_le hf.lt g.grows.scopes, hf.closed⟩
  rw [g.current]
  refine ⟨moved.frame, fun v hv => g.more v (moved.sees v hv), moved.inputs, moved.first, moved.past, fun v hv => ?_,
    moved.inner⟩
  rcases g.new v hv with hv | hv
  · exact moved.apart v hv
  · exact fun between => Nat.lt_irrefl _ (Nat.lt_of_lt_of_le between.2 (Nat.le_trans past hv))

end Builder

namespace Build

open Builder

variable {α β : Type}

theorem run_bind_ok {m : Build α} {f : α → Build β} {y : β} :
    (m >>= f).run b = (.ok y, b'') ↔ ∃ x b', m.run b = (.ok x, b') ∧ (f x).run b' = (.ok y, b'') := by
  rw [run_bind]
  constructor
  · intro run
    split at run
    · rename_i x b' first
      exact ⟨x, b', first, run⟩
    · cases run
  · rintro ⟨x, b', first, run⟩
    rw [first]
    exact run

theorem run_get_bind {f : Builder → Build α} : (get >>= f).run b = (f b).run b := rfl

/-- When the step ends, the program is laid out, only the current scope has changed, and `Q` holds of the result. -/
def Moves (b : Builder) (L : Layout) (opens : List ScopeId) (m : Build α) (Q : Builder → Layout → α → Prop) : Prop :=
  ∀ a b', m.run b = (.ok a, b') → ∃ L', b'.Laid L' opens ∧ b.Went L opens b' L' ∧ Q b' L' a

theorem Lays.moves {m : Build α} {Q : Builder → Layout → α → Prop} (hm : Lays b L opens m Q) :
    Moves b L opens m fun b' L' a => b.Goes L opens b' L' ∧ Q b' L' a := by
  intro a b' run
  obtain ⟨L', laid, goes, hq⟩ := hm a b' run
  exact ⟨L', laid, goes.went, goes, hq⟩

theorem Moves.bind {m : Build α} {f : α → Build β} {Q : Builder → Layout → α → Prop} {R : Builder → Layout → β → Prop}
    (hm : Moves b L opens m Q)
    (hf : ∀ a b' L', b'.Laid L' opens → b.Went L opens b' L' → Q b' L' a → Moves b' L' opens (f a) R) :
    Moves b L opens (m >>= f) R := by
  intro a b'' run
  obtain ⟨x, b', first, run⟩ := run_bind_ok.1 run
  obtain ⟨L', laid, went, hq⟩ := hm x b' first
  obtain ⟨L'', laid', went', hr⟩ := hf x b' L' laid went hq a b'' run
  exact ⟨L'', laid', went.trans went', hr⟩

theorem Moves.mono {m : Build α} {Q Q' : Builder → Layout → α → Prop} (hm : Moves b L opens m Q)
    (h : ∀ a b' L', b'.Laid L' opens → b.Went L opens b' L' → Q b' L' a → Q' b' L' a) : Moves b L opens m Q' := by
  intro a b' run
  obtain ⟨L', laid, went, hq⟩ := hm a b' run
  exact ⟨L', laid, went, h a b' L' laid went hq⟩

/-- A step that can be taken in every scope. -/
def LaysAll (m : Build Unit) : Prop := ∀ {b L opens}, b.Laid L opens → Lays b L opens m fun _ _ _ => True

/-- Something is built in a scope of its own. -/
theorem lays_inNewScope (h : b.Laid L opens) {frame : ScopeId} {body : ScopeId → Build Unit}
    {P : Program → Layout → Prop}
    (hbody : Moves b.opened (b.openLayout L frame) (b.program.scopes.size :: opens) (body b.program.scopes.size)
      fun b' L' _ => P b'.program L') :
    Lays b L opens (inNewScope body) fun b' L' j => j = b.program.scopes.size ∧
      b'.Closed L' opens frame b.program.vars.size j ∧ P b'.program L' := by
  intro j b' run
  have inside : (do body b.program.scopes.size; closeScope b.current; return b.program.scopes.size :
      Build ScopeId).run b.opened = (.ok j, b') := run
  obtain ⟨u, b₁, built, inside⟩ := run_bind_ok.1 inside
  cases inside
  obtain ⟨L₁, laid, went, hp⟩ := hbody u b₁ built
  obtain ⟨laid', goes, closed⟩ := h.left laid went
  exact ⟨L₁, laid', goes, rfl, closed, hp⟩

/-- A scope without inputs is built and may stand in a statement. -/
theorem lays_nested (h : b.Laid L opens) {m : Build Unit} (hm : LaysAll m) :
    Lays b L opens (inNewScope fun _ => m) fun b' L' j => b'.Fits L' opens j ∧ L'.first j = b.program.vars.size := by
  let j := b.program.scopes.size
  have hj : (b.openLayout L (L.frame b.current)).sees j = b.Here L := if_pos rfl
  have inner : Moves b.opened (b.openLayout L (L.frame b.current)) (j :: opens) m fun b' L' _ =>
      L'.sees j = b.Here L ∧ (b'.program.scope j).inputs = [] := by
    refine (hm (h.opened _ (.inl rfl))).moves.mono fun _ b' L' _ _ hq => ⟨hq.1.sees.trans hj, hq.1.inputs.trans ?_⟩
    show ((b.program.addScope (some b.current)).scope b.program.scopes.size).inputs = []
    rw [Program.scope_addScope_new]
  intro i b' run
  obtain ⟨L', laid, goes, rfl, closed, sees, inputs⟩ := lays_inNewScope (P := fun p' L' =>
    L'.sees j = b.Here L ∧ (p'.scope j).inputs = []) h inner i b' run
  have same : L.frame b.current = L'.frame b'.current := by
    rw [goes.current, goes.grows.frame _ h.lt]
  rw [same] at closed
  refine ⟨L', laid, goes, ⟨closed.nests laid (fun v hv => ?_) inputs, closed.lt, closed.closed⟩, closed.first⟩
  rw [sees] at hv
  exact goes.more v hv

/-! ## Inputs, outputs and exports -/

/-- The inputs of a macro, or the counter of a loop, were brought into sight of a scope without statements. -/
structure Brought (b : Builder) (L : Layout) (b' : Builder) (L' : Layout) (vs : List VarId) : Prop where
  empty : b'.program.statements b.current = []
  parent : (b'.program.scope b.current).parent = (b.program.scope b.current).parent
  inputs : (b'.program.scope b.current).inputs = (b.program.scope b.current).inputs
  sees : ∀ v, L'.sees b.current v ↔ L.sees b.current v ∨ v ∈ vs
  inside : ∀ v ∈ vs, L'.Inside b.current v ∧ (b'.program.var v).initial = none

theorem moves_bring (h : b.Laid L opens) (empty : b.program.statements b.current = []) (id : Tree.Ident) :
    Moves b L opens (defineIdent id) fun b' L' v => v = b.program.vars.size ∧ Brought b L b' L' [v] := by
  intro v b' run
  cases run
  let x : Variable := ⟨id.name, id.span, none, false⟩
  let K : Layout := { L.next opens b.program.vars.size (L.frame b.current) with
    sees := fun i v => L.sees i v ∨ (i = b.current ∧ v = b.program.vars.size) }
  have scope : (b.program.define b.current x).scope b.current = (b.program.scope b.current).bind x.name b.program.vars.size :=
    Program.scope_define_self h.lt x
  have grows : b.program.Grows L opens b.current (b.program.define b.current x) K := by
    refine Program.grows_next (Program.scopes_size_define _ _ _) rfl (fun i hne => Program.scope_define_ne hne x)
      (fun i hne => ?_) rfl rfl rfl rfl
    funext v
    simp [K, hne]
  refine ⟨K, ⟨h.making.bring h.mem h.inner empty rfl, h.current⟩, ⟨grows, rfl, rfl, rfl⟩, rfl, ?_, ?_, ?_, fun v => ?_,
    fun v hv => ?_⟩
  · show ((b.program.define b.current x).scope b.current).body.toList = []
    rw [scope]
    exact empty
  · show ((b.program.define b.current x).scope b.current).parent = _
    rw [scope]
    rfl
  · show ((b.program.define b.current x).scope b.current).inputs = _
    rw [scope]
    rfl
  · simp [K]
  · obtain rfl := List.mem_singleton.1 hv
    have inside := Program.inside_next h.making h.mem
    refine ⟨⟨inside.owner, inside.first, inside.past⟩, ?_⟩
    have var : (b.program.define b.current x).var b.program.vars.size = x := Program.var_push_self rfl
    show ((b.program.define b.current x).var b.program.vars.size).initial = none
    rw [var]

theorem moves_brings (h : b.Laid L opens) (empty : b.program.statements b.current = []) (ids : List Tree.Ident) :
    Moves b L opens (ids.mapM defineIdent) fun b' L' vs => Brought b L b' L' vs := by
  induction ids generalizing b L with
  | nil =>
    rw [List.mapM_nil]
    refine (Lays.pure (Q := fun b' L' vs => Brought b L b' L' vs) h ?_).moves.mono fun _ _ _ _ _ hq => hq.2
    exact ⟨empty, rfl, rfl, fun v => by simp, nofun⟩
  | cons id ids ih =>
    rw [List.mapM_cons]
    refine (moves_bring h empty id).bind fun v b₁ L₁ h₁ w₁ hv => ?_
    obtain ⟨-, one⟩ := hv
    have same := w₁.current
    refine (ih h₁ (same ▸ one.empty)).bind fun vs b₂ L₂ h₂ w₂ more => ?_
    refine (Lays.pure (Q := fun b' L' vs => Brought b L b' L' vs) h₂ ?_).moves.mono fun _ _ _ _ _ hq => hq.2
    obtain ⟨empty', parent, inputs, sees, inside⟩ := more
    rw [same] at empty' parent inputs sees inside
    refine ⟨empty', parent.trans one.parent, inputs.trans one.inputs, fun u => ?_, fun u hu => ?_⟩
    · rw [sees, one.sees]
      simp [or_assoc]
    · rcases List.mem_cons.1 hu with rfl | hu
      · obtain ⟨within, bare⟩ := one.inside u List.mem_cons_self
        have hlt : b.current < b₁.program.scopes.size := same ▸ h₁.lt
        have made : u < b₁.program.vars.size := Nat.lt_of_lt_of_le within.past (h₁.making.past _ hlt)
        exact ⟨w₂.grows.inside h₁.making hlt within, (w₂.grows.var u made) ▸ bare⟩
      · exact inside u hu

/-- What is in sight of the current scope becomes its inputs in part. -/
theorem moves_setInputs (h : b.Laid L opens) {ins : List VarId} {T : VarId → Prop}
    (none : (b.program.scope b.current).inputs = [])
    (parents : ∀ j, (b.program.scope b.current).parent = some j → ∀ v, b.program.InSight L j v → T v)
    (sees : ∀ v, L.sees b.current v ↔ T v ∨ v ∈ ins) :
    Moves b L opens (change (·.modifyScope b.current fun s => { s with inputs := ins })) fun b' L' _ =>
      (b'.program.scope b.current).inputs = ins ∧ L'.sees b.current = T ∧ L'.Inside = L.Inside ∧
        b'.program.var = b.program.var := by
  intro u b' run
  cases run
  let q : Program := b.program.modifyScope b.current fun s => { s with inputs := ins }
  let K : Layout := { L with sees := fun i => if i = b.current then T else L.sees i }
  have scope : q.scope b.current = { b.program.scope b.current with inputs := ins } :=
    Program.scope_modifyScope_self h.lt _
  have other (i : ScopeId) (hne : i ≠ b.current) : q.scope i = b.program.scope i := Program.scope_modifyScope_ne hne _
  have scopes : q.scopes.size = b.program.scopes.size := Program.scopes_size_modifyScope _ _ _
  have making : q.Making K opens := by
    refine h.making.relabel h.mem h.inner scopes rfl other (by rw [scope]) (by rw [scope]) (by rw [scope]) parents
      fun v => ?_
    rw [scope, none, sees v]
    simp [or_comm]
  have grows : b.program.Grows L opens b.current q K :=
    Program.grows_same h.making scopes rfl other (fun i hne => if_neg hne) rfl rfl rfl rfl
  refine ⟨K, ⟨making, h.current⟩, ⟨grows, rfl, rfl, rfl⟩, ?_, if_pos rfl, ?_, rfl⟩
  · show (q.scope b.current).inputs = ins
    rw [scope]
  · funext i v
    exact propext ⟨fun x => ⟨x.owner, x.first, x.past⟩, fun x => ⟨x.owner, x.first, x.past⟩⟩

/-- A change of what a layout does not speak of. -/
theorem Lays.relabel (h : b.Laid L opens) {f : Program → Program} (scopes : (f b.program).scopes.size = b.program.scopes.size)
    (vars : (f b.program).vars = b.program.vars) (other : ∀ i, i ≠ b.current → (f b.program).scope i = b.program.scope i)
    {outs : List VarId} (scope : (f b.program).scope b.current = { b.program.scope b.current with outputs := outs })
    (entry : (f b.program).entry = b.program.entry) (builtins : (f b.program).builtins = b.program.builtins)
    {Q : Builder → Layout → Unit → Prop} (hq : Q { b with program := f b.program } L ()) :
    Lays b L opens (change f) Q := by
  intro u b' run
  cases run
  have making : (f b.program).Making L opens := h.making.setOutputs h.mem h.inner scopes vars other scope
  have grows : b.program.Grows L opens b.current (f b.program) L :=
    Program.grows_same h.making scopes vars other (fun _ _ => rfl) rfl rfl rfl rfl
  have here (v : VarId) : (f b.program).InSight L b.current v ↔ b.Here L v := by
    rw [Program.InSight, Program.Sight, Program.statements, scope]
    rfl
  refine ⟨L, ⟨making, h.current⟩, ⟨grows, rfl, rfl, ?_, fun v hv => (here v).2 hv, fun v hv => .inl ((here v).1 hv), entry,
    builtins⟩, hq⟩
  show ((f b.program).scope b.current).inputs = _
  rw [scope]

theorem lays_setOutputs (h : b.Laid L opens) (outs : List VarId) :
    Lays b L opens (change (·.modifyScope b.current fun s => { s with outputs := outs })) fun b' L' _ =>
      (b'.program.scope b.current).outputs = outs ∧ L' = L ∧ b'.program.var = b.program.var := by
  have scope : (b.program.modifyScope b.current fun s => { s with outputs := outs }).scope b.current =
      { b.program.scope b.current with outputs := outs } := Program.scope_modifyScope_self h.lt _
  refine .relabel h (Program.scopes_size_modifyScope _ _ _) rfl (fun i hne => Program.scope_modifyScope_ne hne _) scope rfl
    rfl ⟨?_, rfl, rfl⟩
  show ((b.program.modifyScope b.current fun s => { s with outputs := outs }).scope b.current).outputs = outs
  rw [scope]

theorem lays_checkSignature (h : b.Laid L opens) (callee : String) (seen ids : List Tree.Ident) :
    Lays b L opens (checkSignature callee seen ids) fun b' L' _ => b' = b ∧ L' = L := by
  induction ids generalizing seen with
  | nil => exact .pure h ⟨rfl, rfl⟩
  | cons id ids ih =>
    unfold checkSignature
    split
    · exact .refuse
    · exact ih (id :: seen)

theorem lays_macroOutputs (h : b.Laid L opens) (callee : String) (header : Span) (ids : List Tree.Ident) :
    Lays b L opens (macroOutputs b.current callee header ids) fun b' L' vs =>
      b' = b ∧ L' = L ∧ ∀ v ∈ vs, b.Here L v := by
  unfold macroOutputs
  induction ids with
  | nil =>
    rw [List.mapM_nil]
    exact .pure h ⟨rfl, rfl, nofun⟩
  | cons id ids ih =>
    rw [List.mapM_cons]
    refine Lays.bind (Q := fun b' L' v => b' = b ∧ L' = L ∧ b.Here L v) (.get_bind ?_) fun v b₁ L₁ h₁ _ hv => ?_
    · split
      · rename_i v found
        exact .pure h ⟨rfl, rfl, h.making.inSight_of_lookup h.mem found⟩
      · exact .refuse
    · obtain ⟨rfl, rfl, hv⟩ := hv
      refine ih.bind fun vs b₂ L₂ h₂ _ hvs => ?_
      obtain ⟨rfl, rfl, hvs⟩ := hvs
      refine .pure h₂ ⟨rfl, rfl, fun u hu => ?_⟩
      rcases List.mem_cons.1 hu with rfl | hu
      · exact hv
      · exact hvs u hu

/-- What the body of a macro has when it is left. -/
structure MacroBody (p : Program) (L : Layout) (j : ScopeId) (around : VarId → Prop) : Prop where
  sees : L.sees j = around
  inputs : ∀ v ∈ (p.scope j).inputs, L.Inside j v ∧ (p.var v).initial = none
  outputs : ∀ v ∈ (p.scope j).outputs, p.InSight L j v

theorem moves_macroBody (h : b.Laid L opens) {m : Build Unit} (hm : LaysAll m) (callee : String) (header : Span)
    (inputs outs : List Tree.Ident) :
    Moves b.opened (b.openLayout L b.program.scopes.size) (b.program.scopes.size :: opens) (do
      checkSignature callee [] (inputs ++ outs)
      modify fun b => { b with macroDepth := b.macroDepth + 1 }
      let ins ← inputs.mapM defineIdent
      change (·.modifyScope b.program.scopes.size fun s => { s with inputs := ins })
      m
      let outs ← macroOutputs b.program.scopes.size callee header outs
      change (·.modifyScope b.program.scopes.size fun s => { s with outputs := outs })
      modify fun b => { b with macroDepth := b.macroDepth - 1 })
      fun b' L' _ => MacroBody b'.program L' b.program.scopes.size (b.Here L) := by
  let j := b.program.scopes.size
  let K := b.openLayout L j
  have h₀ : b.opened.Laid K (j :: opens) := h.opened _ (.inr rfl)
  have scope₀ : b.opened.program.scope j = { parent := some b.current } := Program.scope_addScope_new _ _
  have outer : b.current ≠ j := Nat.ne_of_lt h.lt
  have outerLt : b.current < b.opened.program.scopes.size := by
    show b.current < (b.program.addScope (some b.current)).scopes.size
    rw [Program.scopes_size_addScope]
    exact Nat.lt_succ_of_lt h.lt
  refine (lays_checkSignature h₀ _ _ _).moves.bind fun _ b₁ L₁ h₁ _ same => ?_
  obtain ⟨-, rfl, rfl⟩ := same
  refine (Lays.aside (Q := fun b' L' _ => b'.program = b.opened.program ∧ L' = K) h₁ rfl rfl ⟨rfl, rfl⟩).moves.bind
    fun _ b₂ L₂ h₂ w₂ same => ?_
  obtain ⟨-, program, rfl⟩ := same
  have cur₂ : b₂.current = j := w₂.current
  have empty : b₂.program.statements b₂.current = [] := by
    rw [cur₂, program, Program.statements, scope₀]
  refine (moves_brings h₂ empty inputs).bind fun ins b₃ L₃ h₃ w₃ brought => ?_
  obtain ⟨-, parent, none, sees, inside⟩ := brought
  rw [cur₂] at parent none sees inside
  rw [program, scope₀] at parent none
  have cur₃ : b₃.current = j := w₃.current.trans cur₂
  have since := w₂.trans w₃
  rw [show (b.program.scopes.size : ScopeId) = b₃.current from cur₃.symm]
  refine (moves_setInputs (T := b.Here L) h₃ ?_ (fun i hi v hv => ?_) fun v => ?_).bind fun _ b₄ L₄ h₄ w₄ set => ?_
  · rw [cur₃]
    exact none
  · rw [cur₃, parent] at hi
    cases hi
    have around : b.opened.program.InSight K b.current v := by
      rw [Program.InSight, since.grows.sight_eq outerLt outer, since.grows.statements_eq outerLt outer] at hv
      exact hv
    have start : b.program.Grows L opens j b.opened.program K := Program.grows_opened h.making _
    rw [Program.InSight, start.sight_eq h.lt outer, start.statements_eq h.lt outer] at around
    exact around
  · rw [cur₃, sees]
    show (if j = j then b.Here L else _) v ∨ _ ↔ _
    rw [if_pos rfl]
  · obtain ⟨inputs₄, sees₄, inside₄, var₄⟩ := set
    have cur₄ : b₄.current = b₃.current := w₄.current
    refine (hm h₄).moves.bind fun _ b₅ L₅ h₅ w₅ goes => ?_
    obtain ⟨goes, -⟩ := goes
    have cur₅ : b₅.current = b₃.current := w₅.current.trans cur₄
    rw [← cur₅]
    refine (lays_macroOutputs h₅ callee header outs).moves.bind fun vs b₆ L₆ h₆ _ same => ?_
    obtain ⟨-, rfl, rfl, hvs⟩ := same
    refine (lays_setOutputs h₆ vs).moves.bind fun _ b₇ L₇ h₇ w₇ set => ?_
    obtain ⟨goes₇, outputs₇, rfl, var₇⟩ := set
    have done : MacroBody b₇.program L₇ b₆.current (b.Here L) := by
      refine ⟨?_, fun v hv => ?_, fun v hv => ?_⟩
      · rw [cur₅, ← cur₄, goes.sees, cur₄]
        exact sees₄
      · rw [goes₇.inputs, cur₅, ← cur₄, goes.inputs, cur₄, inputs₄] at hv
        obtain ⟨within, bare⟩ := inside v hv
        have within : L₄.Inside b₄.current v := by
          rw [inside₄, cur₄, cur₃]
          exact within
        have made : v < b₄.program.vars.size := Nat.lt_of_lt_of_le within.past (h₄.making.past _ h₄.lt)
        rw [cur₅, ← cur₄, var₇, w₅.grows.var v made, var₄]
        exact ⟨w₅.grows.inside h₄.making h₄.lt within, bare⟩
      · rw [outputs₇] at hv
        have seen := goes₇.more v (hvs v hv)
        rw [Builder.Here, goes₇.current] at seen
        exact seen
    refine (Lays.aside (Q := fun b' L' _ => MacroBody b'.program L' b₆.current (b.Here L)) h₇ rfl rfl done).moves.mono
      fun _ _ _ _ _ hq => hq.2

/-- What the body of a loop has when it is left. -/
structure LoopBody (p : Program) (L : Layout) (j : ScopeId) (around : VarId → Prop) (counter : VarId) : Prop where
  sees : ∀ v, L.sees j v ↔ around v ∨ v = counter
  inputs : (p.scope j).inputs = []
  inside : L.Inside j counter
  bare : (p.var counter).initial = none

theorem moves_loopBody (h : b.Laid L opens) {m : Build Unit} (hm : LaysAll m) (counter : Tree.Ident) :
    Moves b.opened (b.openLayout L (L.frame b.current)) (b.program.scopes.size :: opens) (do
      let _ ← defineIdent counter
      m)
      fun b' L' _ => LoopBody b'.program L' b.program.scopes.size (b.Here L) b.program.vars.size := by
  let j := b.program.scopes.size
  let n := b.program.vars.size
  have h₀ := h.opened (L.frame b.current) (.inl rfl)
  have scope₀ : b.opened.program.scope j = { parent := some b.current } := Program.scope_addScope_new _ _
  have sees₀ : (b.openLayout L (L.frame b.current)).sees j = b.Here L := if_pos rfl
  have empty : b.opened.program.statements j = [] := by rw [Program.statements, scope₀]
  refine (moves_bring h₀ empty counter).bind fun v b₁ L₁ h₁ w₁ hv => ?_
  obtain ⟨rfl, brought⟩ := hv
  have cur : b₁.current = j := w₁.current
  have sees₁ (v : VarId) : L₁.sees j v ↔ b.Here L v ∨ v ∈ [n] := sees₀ ▸ brought.sees v
  have inputs₁ : (b₁.program.scope j).inputs = (b.opened.program.scope j).inputs := brought.inputs
  obtain ⟨within, bare⟩ := brought.inside n List.mem_cons_self
  have hlt : j < b₁.program.scopes.size := cur ▸ h₁.lt
  have made : n < b₁.program.vars.size := Nat.lt_of_lt_of_le within.past (h₁.making.past j hlt)
  refine (hm h₁).moves.mono fun _ b₂ L₂ _ w₂ hq => ?_
  have sees₂ : L₂.sees j = L₁.sees j := cur ▸ hq.1.sees
  have inputs₂ : (b₂.program.scope j).inputs = (b₁.program.scope j).inputs := cur ▸ hq.1.inputs
  refine ⟨fun v => ?_, ?_, w₂.grows.inside h₁.making hlt within, ?_⟩
  · rw [sees₂, sees₁, List.mem_singleton]
  · rw [inputs₂, inputs₁, scope₀]
  · rw [w₂.grows.var n made]
    exact bare

/-- The names of variables of the scope `j` were bound in the current scope. -/
structure Exported (b : Builder) (j : ScopeId) (vs : List VarId) (b' : Builder) : Prop where
  current : b'.current = b.current
  scopes : b'.program.scopes.size = b.program.scopes.size
  vars : b'.program.vars = b.program.vars
  entry : b'.program.entry = b.program.entry
  builtins : b'.program.builtins = b.program.builtins
  other : ∀ i, i ≠ b.current → b'.program.scope i = b.program.scope i
  scope : ∃ symbols, b'.program.scope b.current = { b.program.scope b.current with symbols := symbols } ∧
    ∀ e ∈ symbols, e ∈ (b.program.scope b.current).symbols ∨ e.2 ∈ vs
  found : ∀ v ∈ vs, ∃ e ∈ (b.program.scope j).symbols, e.2 = v

theorem exported_of_exportNames {j : ScopeId} {names : List Tree.Ident} {vs : List VarId}
    (hlt : b.current < b.program.scopes.size) (hne : j ≠ b.current)
    (run : (exportNames j names).run b = (.ok vs, b')) : Exported b j vs b' := by
  induction names generalizing b vs with
  | nil =>
    cases run
    exact ⟨rfl, rfl, rfl, rfl, rfl, fun _ _ => rfl, ⟨_, rfl, fun e he => .inl he⟩, nofun⟩
  | cons id rest ih =>
    rw [exportNames, List.mapM_cons] at run
    obtain ⟨v, b₁, one, run⟩ := run_bind_ok.1 run
    obtain ⟨ws, b₂, others, run⟩ := run_bind_ok.1 run
    cases run
    rw [run_get_bind] at one
    split at one
    · rename_i v found
      cases one
      let q : Program := b.program.modifyScope b.current (·.bind id.name v)
      have size : q.scopes.size = b.program.scopes.size := Program.scopes_size_modifyScope _ _ _
      have scope₁ : q.scope b.current = (b.program.scope b.current).bind id.name v :=
        Program.scope_modifyScope_self hlt _
      have other₁ (i : ScopeId) (hi : i ≠ b.current) : q.scope i = b.program.scope i :=
        Program.scope_modifyScope_ne hi _
      obtain ⟨current, scopes, vars, entry, builtins, other, ⟨symbols, scope, named⟩, known⟩ :=
        ih (b := { b with program := q }) (size ▸ hlt) hne others
      refine ⟨current, scopes.trans size, vars, entry, builtins, fun i hi => (other i hi).trans (other₁ i hi),
        ⟨symbols, ?_, fun e he => ?_⟩, fun w hw => ?_⟩
      · dsimp only at scope
        rw [scope₁] at scope
        exact scope
      · rcases named e he with he | he
        · dsimp only at he
          rw [scope₁] at he
          rcases List.mem_cons.1 he with rfl | he
          · exact .inr List.mem_cons_self
          · exact .inl (List.mem_filter.1 he).1
        · exact .inr (List.mem_cons_of_mem _ he)
      · rcases List.mem_cons.1 hw with rfl | hw
        · obtain ⟨before, after, eq, -⟩ := List.lookup_eq_some_iff.1 found
          exact ⟨(id.name, w), by rw [eq]; simp, rfl⟩
        · obtain ⟨e, he, hew⟩ := known w hw
          dsimp only at he
          rw [other₁ j hne] at he
          exact ⟨e, he, hew⟩
    · cases one

/-- A static block is built, and its exports come into sight. -/
theorem lays_static (h : b.Laid L opens) {m : Build Unit} (hm : LaysAll m) (names : List Tree.Ident) (span : Span) :
    Lays b L opens (do
      let scope ← inNewScope fun _ => m
      emit (.static scope (← exportNames scope names) span)) fun _ _ _ => True := by
  intro u b' run
  obtain ⟨j, b₁, opened, run⟩ := run_bind_ok.1 run
  obtain ⟨L₁, h₁, goes, fits, first⟩ := lays_nested h hm j b₁ opened
  obtain ⟨vs, b₂, exported, run⟩ := run_bind_ok.1 run
  have hne : j ≠ b₁.current := fun same => fits.closed (same ▸ h₁.mem)
  obtain ⟨current, scopes, vars, entry, builtins, other, ⟨symbols, scope, named⟩, found⟩ :=
    exported_of_exportNames h₁.lt hne exported
  cases run
  let st : Stmt := .static j vs span
  let q : Program := b₂.program.addStmt b₂.current st
  have inside (v : VarId) (hv : v ∈ vs) : L₁.Inside j v ∧ b₁.program.InSight L₁ j v := by
    obtain ⟨e, he, rfl⟩ := found v hv
    obtain ⟨seen, inside⟩ := h₁.making.symbols j e he
    exact ⟨inside, seen⟩
  have hlt : b₂.current < b₂.program.scopes.size := by
    rw [current, scopes]
    exact h₁.lt
  have scope' : q.scope b₁.current = { b₁.program.scope b₁.current with
      symbols := symbols, body := (b₁.program.scope b₁.current).body.push st } := by
    have pushed := Program.scope_modifyScope_self hlt fun s : Scope => { s with body := s.body.push st }
    rw [current, scope] at pushed
    rw [← current] at pushed ⊢
    exact pushed
  have other' (i : ScopeId) (hi : i ≠ b₁.current) : q.scope i = b₁.program.scope i :=
    (Program.scope_modifyScope_ne (current ▸ hi) _).trans (other i hi)
  have scopes' : q.scopes.size = b₁.program.scopes.size := (Program.scopes_size_modifyScope _ _ _).trans scopes
  have making : q.Making L₁ opens := by
    refine h₁.making.addStmt h₁.mem h₁.inner scopes' vars other' scope' ⟨fits.nests, inside⟩
      (fun v hv => fits.nests.inside (inside v hv).1) named fun i hi => ?_
    obtain rfl := List.mem_singleton.1 hi
    exact ⟨fits.lt, fits.closed⟩
  have grows : b₁.program.Grows L₁ opens b₁.current q L₁ :=
    Program.grows_same h₁.making scopes' vars other' (fun _ _ => rfl) rfl rfl rfl rfl
  have here := inSight_extended (rfl : L₁.sees b₁.current = L₁.sees b₁.current) scope'
  have cur : b₂.current = b.current := current.trans goes.current
  refine ⟨L₁, ⟨making, current ▸ h₁.current⟩, ⟨goes.grows.trans (goes.current ▸ grows), cur, goes.sees, ?_, fun v hv => ?_,
    fun v hv => ?_, entry.trans goes.entry, builtins.trans goes.builtins⟩, trivial⟩
  · rw [← goes.inputs, ← goes.current]
    show (q.scope b₁.current).inputs = _
    rw [scope']
  · show q.InSight L₁ b₂.current v
    rw [current]
    exact (here v).2 (.inl (goes.more v hv))
  · have hv : q.InSight L₁ b₂.current v := hv
    rw [current] at hv
    -- What is exported was made since the scope was opened.
    rcases (here v).1 hv with hv | hv
    · exact goes.new v hv
    · exact .inr (first ▸ (inside v hv).1.first)

theorem lays_ioNames (h : b.Laid L opens) {isOutput : Bool} {type : Expr} (htype : type.Known b L) {span : Span}
    {names : List Tree.Ident} : Lays b L opens (ioNames isOutput type span names) fun _ _ _ => True := by
  unfold ioNames
  induction names generalizing b L with
  | nil => exact .pure h trivial
  | cons id rest ih =>
    have one : Lays b L opens (do
        let v ← defineIdent id
        emit (.create v type span)
        change fun p =>
          if isOutput then { p with outputs := p.outputs ++ [v] } else { p with inputs := p.inputs ++ [v] })
        fun _ _ _ => True := by
      refine .declare h htype rfl fun b₁ L₁ v h₁ _ _ => ?_
      cases isOutput with
      | false => exact .relabel h₁ rfl rfl (fun _ _ => rfl) rfl rfl rfl trivial
      | true => exact .relabel h₁ rfl rfl (fun _ _ => rfl) rfl rfl rfl trivial
    exact one.bind fun _ b₁ L₁ h₁ g₁ _ => ih h₁ (htype.goes h g₁)

/-! ## Statements -/

variable {take : List UInt8 → Span → Build Unit}

mutual

theorem lays_stmt (htake : ∀ path span, LaysAll (take path span)) : (st : Tree.Stmt) → LaysAll (stmt take st)
  | .io isOutput type names span, b, L, opens, h => by
    rw [stmt]
    refine .get_bind ?_
    split
    · exact (Lays.refuse (Q := fun _ _ _ => False)).bind fun _ _ _ _ _ never => never.elim
    · exact (lays_value type h).bind fun v b₁ L₁ h₁ _ hv => lays_ioNames h₁ hv
  | .decl type name declSpan _, b, L, opens, h => by
    rw [stmt]
    refine (lays_value type h).bind fun v b₁ L₁ h₁ _ hv => ?_
    have declared : Lays b₁ L₁ opens (do let id ← defineIdent name; emit (.create id v declSpan); pure ())
        fun _ _ _ => True := .declare h₁ hv rfl fun b₂ L₂ id h₂ _ _ => .pure h₂ trivial
    exact declared
  | .assign place source span, b, L, opens, h => by
    rw [stmt]
    refine (lays_value source h).bind fun v b₁ L₁ h₁ _ hv => ?_
    refine (lays_target place h₁).bind fun t b₂ L₂ h₂ g₂ ht => ?_
    exact lays_emit h₂ ⟨hv.goes h₁ g₂, ht⟩ rfl nofun
  | .macroDef name inputs outs body header span, b, L, opens, h => by
    rw [stmt]
    refine (lays_inNewScope (P := fun p' L' => MacroBody p' L' b.program.scopes.size (b.Here L)) h
      (moves_macroBody h (lays_block htake body) name.name header inputs outs)).bind fun j b₁ L₁ h₁ g₁ hj => ?_
    obtain ⟨rfl, closed, laid⟩ := hj
    intro u b' run
    cases run
    obtain ⟨L₂, h₂, g₂, -⟩ := declared h₁ (x := ⟨name.name, header, some (.macroRef ⟨b.program.scopes.size, header⟩), true⟩)
      span (show (typeLiteral (.exactly .macroRef)).Known b₁ L₁ from Bound.isPositive_exactly (Ty.isPositive_prim _))
      (fun value hvalue => by cases hvalue; exact ⟨rfl, trivial, _, rfl⟩) fun site hsite => by
        cases hsite
        refine ⟨⟨closed.frame, closed.past, laid.inputs, laid.outputs⟩, fun w hw => ?_, closed.lt, closed.closed⟩
        rw [laid.sees] at hw
        exact g₁.more w hw
    exact ⟨L₂, h₂, g₂, trivial⟩
  | .call call span, b, L, opens, h => by
    rw [stmt]
    refine (lays_callAlone h call).bind fun v b₁ L₁ h₁ _ hv => ?_
    exact lays_emit h₁ hv rfl nofun
  | .expr e span, b, L, opens, h => by
    rw [stmt]
    refine (lays_value e h).bind fun v b₁ L₁ h₁ _ hv => ?_
    exact lays_emit h₁ hv rfl nofun
  | .branch cs otherwise span, b, L, opens, h => by
    rw [stmt]
    refine (lays_clauses htake cs h).bind fun cs' b₁ L₁ h₁ _ hcs => ?_
    refine (lays_otherwiseScope htake otherwise h₁).bind fun o b₂ L₂ h₂ g₂ ho => ?_
    have fits (x : Clause) (hx : x ∈ cs') := (hcs x hx).2.goes h₁ g₂
    refine lays_emit h₂ ⟨fun x hx => ⟨(hcs x hx).1.goes h₁ g₂, (fits x hx).nests⟩, fun body hbody => ?_⟩ rfl fun j hj => ?_
    · exact (ho body hbody).nests
    · rcases List.mem_append.1 hj with hj | hj
      · obtain ⟨x, hx, rfl⟩ := List.mem_map.1 hj
        exact ⟨(fits x hx).lt, (fits x hx).closed⟩
      · have fit := ho j (Option.mem_toList.1 hj)
        exact ⟨fit.lt, fit.closed⟩
  | .loop counter start stop noUnroll body span, b, L, opens, h => by
    rw [stmt]
    refine (lays_value start h).bind fun l b₁ L₁ h₁ _ hl => ?_
    refine (lays_value stop h₁).bind fun u b₂ L₂ h₂ g₂ hu => .get_bind ?_
    refine (lays_inNewScope (P := fun p' L' => LoopBody p' L' b₂.program.scopes.size (b₂.Here L₂) b₂.program.vars.size)
      h₂ (moves_loopBody h₂ (lays_block htake body) counter)).bind fun j b₃ L₃ h₃ g₃ hj => ?_
    obtain ⟨rfl, closed, laid⟩ := hj
    have same : L₂.frame b₂.current = L₃.frame b₃.current := by
      rw [g₃.current, g₃.grows.frame _ h₂.lt]
    rw [same] at closed
    refine lays_emit h₃ ⟨(hl.goes h₁ g₂).goes h₂ g₃, hu.goes h₂ g₃, laid.inside, (laid.sees _).2 (.inr rfl), laid.bare, ?_⟩
      rfl fun i hi => ?_
    · refine closed.nests h₃ (fun v hv => ?_) laid.inputs
      rcases (laid.sees v).1 hv with hv | hv
      · exact .inl (g₃.more v hv)
      · exact .inr hv
    · obtain rfl := List.mem_singleton.1 hi
      exact ⟨closed.lt, closed.closed⟩
  | .static exports body span, b, L, opens, h => by
    rw [stmt]
    exact lays_static h (lays_block htake body) exports span
  | .assert condition span, b, L, opens, h => by
    rw [stmt]
    refine (lays_value condition h).bind fun v b₁ L₁ h₁ _ hv => ?_
    exact lays_emit h₁ hv rfl nofun
  | .ret span, b, L, opens, h => by
    rw [stmt]
    refine .get_bind ?_
    split
    · exact (Lays.refuse (Q := fun _ _ _ => False)).bind fun _ _ _ _ _ never => never.elim
    · exact lays_emit h trivial rfl nofun
  | .includeFile path span, b, L, opens, h => by
    rw [stmt]
    exact htake path span h
  | .block (.mk statements span), b, L, opens, h => by
    rw [stmt]
    refine (lays_nested h (lays_stmts htake statements)).bind fun j b₁ L₁ h₁ _ hj => ?_
    refine lays_emit h₁ hj.1.nests rfl fun i hi => ?_
    obtain rfl := List.mem_singleton.1 hi
    exact ⟨hj.1.lt, hj.1.closed⟩

theorem lays_block (htake : ∀ path span, LaysAll (take path span)) : (body : Tree.Block) → LaysAll (block take body)
  | .mk statements _, b, L, opens, h => by
    rw [block]
    exact lays_stmts htake statements h

theorem lays_stmts (htake : ∀ path span, LaysAll (take path span)) : (ss : List Tree.Stmt) → LaysAll (stmts take ss)
  | [], b, L, opens, h => by
    rw [stmts]
    exact .pure h trivial
  | st :: ss, b, L, opens, h => by
    rw [stmts]
    exact (lays_stmt htake st h).bind fun _ b₁ L₁ h₁ _ _ => lays_stmts htake ss h₁

theorem lays_clauses (htake : ∀ path span, LaysAll (take path span)) : (cs : List Tree.Clause) →
    ∀ {b L opens}, b.Laid L opens →
    Lays b L opens (clauses take cs) fun b' L' cs' => ∀ x ∈ cs', x.condition.Known b' L' ∧ b'.Fits L' opens x.body
  | [], b, L, opens, h => by
    rw [clauses]
    exact .pure h nofun
  | .mk condition body :: rest, b, L, opens, h => by
    rw [clauses]
    refine (lays_value condition h).bind fun v b₁ L₁ h₁ _ hv => ?_
    refine (lays_nested h₁ (lays_block htake body)).bind fun j b₂ L₂ h₂ g₂ hj => ?_
    refine (lays_clauses htake rest h₂).bind fun cs b₃ L₃ h₃ g₃ hcs => .pure h₃ fun x hx => ?_
    rcases List.mem_cons.1 hx with rfl | hx
    · exact ⟨(hv.goes h₁ g₂).goes h₂ g₃, hj.1.goes h₂ g₃⟩
    · exact hcs x hx

theorem lays_otherwiseScope (htake : ∀ path span, LaysAll (take path span)) : (body : Option Tree.Block) →
    ∀ {b L opens}, b.Laid L opens →
    Lays b L opens (otherwiseScope take body) fun b' L' o => ∀ j, o = some j → b'.Fits L' opens j
  | none, b, L, opens, h => by
    rw [otherwiseScope]
    exact .pure h nofun
  | some body, b, L, opens, h => by
    rw [otherwiseScope]
    refine .map ((lays_nested h (lays_block htake body)).mono fun j b' L' _ hj i hi => ?_)
    cases hi
    exact hj.1

end


theorem lays_loadFile (h : b.Laid L opens) (path : List UInt8) (span : Span) :
    Lays b L opens (loadFile path span) fun _ _ _ => True := by
  refine .get_bind ?_
  split
  · exact .refuse
  · split
    · rename_i library file _
      have stored : Lays b L opens (modify fun b => { b with library := library }) fun _ _ _ => True :=
        .aside h rfl rfl trivial
      have stored : Lays b L opens (set { b with library := library } : Build PUnit) fun _ _ _ => True := stored
      exact stored.bind fun _ b₁ L₁ h₁ _ _ => .pure h₁ trivial
    · exact .refuse
    · exact .fail

theorem lays_takeFile (fuel : Nat) (path : List UInt8) (span : Span) : LaysAll (takeFile fuel path span) := by
  induction fuel generalizing path span with
  | zero => exact fun h => .pure h trivial
  | succ fuel ih =>
    intro b L opens h
    refine (lays_loadFile h path span).bind fun file b₁ L₁ h₁ _ _ => .get_bind ?_
    split
    · exact .pure h₁ trivial
    · refine Lays.bind (Q := fun _ _ _ => True) (.aside h₁ rfl rfl trivial) fun _ b₂ L₂ h₂ _ _ => .get_bind ?_
      split
      · exact .fail
      · exact lays_stmts ih _ h₂

end Build

/-! ## Predefined names -/

namespace Program

variable {p : Program}

/-- The program has predefined names in its outermost scope, which sees nothing. -/
structure Starts (p : Program) (L : Layout) : Prop where
  making : p.Making L [0]
  blind : ∀ v, ¬p.Sight L 0 [] v
  frame : L.frame 0 = 0
  creates : ∀ st ∈ p.statements 0, ∃ v type span, st = .create v type span
  builtins : p.builtins = 0

theorem Starts.inner : ∀ i ∈ [0], i ≤ 0 := by
  intro i hi
  exact Nat.le_of_eq (List.mem_singleton.1 hi)

/-- A predefined name is added, whose body, if it has one, was laid before. -/
theorem Starts.addConstant (h : p.Starts L) (name : String) {ty : Ty} {value : Constant} (hvalue : value.Plain)
    (hty : ty = value.ty)
    (hbody : ∀ site, value = .macroRef site → p.Bodies L p.vars.size site.body ∧
      (∀ w, L.sees site.body w → p.InSight L 0 w) ∧ site.body < p.scopes.size ∧ site.body ∉ [0]) :
    (p.addConstant 0 name ty value).Starts (L.next [0] p.vars.size (L.frame 0)) := by
  have hlt : 0 < p.scopes.size := h.making.opens_lt 0 List.mem_cons_self
  have scope : (p.addConstant 0 name ty value).scope 0 = { p.scope 0 with
      symbols := ((p.scope 0).bind name p.vars.size).symbols
      body := (p.scope 0).body.push (.create p.vars.size (typeLiteral (.exactly ty)) .builtin) } := by
    rw [Program.addConstant, addStmt, scope_modifyScope_self (by simpa using hlt), scope_define_self hlt]
    rfl
  refine ⟨?_, fun v hv => h.blind v ?_, h.frame, fun st hst => ?_, h.builtins⟩
  · have positive : ty.IsPositive := hty ▸ hvalue.isPositive_ty
    refine h.making.declare List.mem_cons_self Starts.inner (Bound.isPositive_exactly positive)
      (fun value' hvalue => ?_) fun site hsite => ?_
    · cases hvalue
      rw [hty]
      exact ⟨rfl, hvalue, _, rfl⟩
    · exact hbody site (Option.some.inj hsite)
  · rw [Sight, scope] at hv
    exact hv
  · rw [statements, scope] at hst
    rcases Array.mem_push.1 (Array.mem_toList_iff.1 hst) with hst | rfl
    · exact h.creates st (Array.mem_toList_iff.2 hst)
    · exact ⟨_, _, _, rfl⟩

/-- The scope `j` is open and has the statements `body`, the input `n` in sight and the output behind it. -/
structure Starts.Body (p : Program) (L : Layout) (body : Array Stmt) (q : Program) (K : Layout) : Prop where
  making : q.Making K [p.scopes.size, 0]
  frame : K.frame p.scopes.size = p.scopes.size
  outer : K.frame 0 = 0
  sees : ∀ v, K.sees p.scopes.size v ↔ p.InSight L 0 v ∨ v = p.vars.size
  blind : ∀ v, K.sees 0 v ↔ L.sees 0 v
  inside : K.Inside p.scopes.size p.vars.size
  input : (q.var p.vars.size).initial = none
  output : (q.var (p.vars.size + 1)).initial = none
  around : q.scope 0 = p.scope 0
  scope : ∃ symbols, q.scope p.scopes.size = { parent := some 0, symbols := symbols, body := body }
  builtins : q.builtins = 0

/-- The input of a predefined macro is brought into sight, and its output is declared. -/
theorem Starts.open (h : p.Starts L) (m : BuiltinMacro) :
    ∃ K, Starts.Body p L #[.create (p.vars.size + 1) (typeLiteral .auto) .builtin]
      ((((p.addScope (some 0)).define p.scopes.size ⟨m.input, .builtin, none, false⟩).define p.scopes.size
        ⟨m.output, .builtin, none, false⟩).addStmt p.scopes.size
          (.create (p.vars.size + 1) (typeLiteral .auto) .builtin)) K := by
  let j := p.scopes.size
  let n := p.vars.size
  let x : Variable := ⟨m.input, .builtin, none, false⟩
  let y : Variable := ⟨m.output, .builtin, none, false⟩
  have mem : j ∈ [j, 0] := List.mem_cons_self
  have inner : ∀ i ∈ [j, 0], i ≤ j := by simp
  have hlt : 0 < p.scopes.size := h.making.opens_lt 0 List.mem_cons_self
  have zero : 0 ≠ j := Nat.ne_of_lt hlt
  let L₁ := L.opened j (p.InSight L 0) n j
  have h₁ : (p.addScope (some 0)).Making L₁ [j, 0] := h.making.openScope List.mem_cons_self (.inr rfl)
  have scope₁ : (p.addScope (some 0)).scope j = { parent := some 0 } := scope_addScope_new _ _
  have empty : (p.addScope (some 0)).statements j = [] := by rw [statements, scope₁]
  let q := (p.addScope (some 0)).define j x
  let L₂ : Layout := { L₁.next [j, 0] n (L₁.frame j) with sees := fun i v => L₁.sees i v ∨ (i = j ∧ v = n) }
  have h₂ : q.Making L₂ [j, 0] := h₁.bring mem inner empty rfl
  have hj : j < q.scopes.size := h₂.opens_lt j mem
  have size : q.vars.size = n + 1 := Array.size_push _
  have scope₂ : q.scope j = ((p.addScope (some 0)).scope j).bind x.name n := scope_define_self (h₁.opens_lt j mem) x
  have declared : ((q.define j y).addStmt j (.create q.vars.size (typeLiteral .auto) .builtin)).Making _ [j, 0] :=
    h₂.declare mem inner (fun t ht => by cases ht) (fun value hvalue => by cases hvalue) fun site hsite => by cases hsite
  rw [size] at declared
  have before : n ≠ n + 1 := Nat.ne_of_lt (Nat.lt_succ_self n)
  have inside := inside_next h₁ mem
  refine ⟨_, declared, if_pos rfl, (if_neg zero).trans h.frame, fun v => ?_, fun v => ?_,
    ⟨(if_neg before).trans inside.owner, inside.first, ?_⟩, ?_, ?_, ?_, ?_, h.builtins⟩
  · show (if j = j then p.InSight L 0 else _) v ∨ (j = j ∧ v = n) ↔ _
    rw [if_pos rfl]
    simp [n]
  · show (if 0 = j then p.InSight L 0 else L.sees 0) v ∨ (0 = j ∧ v = n) ↔ _
    rw [if_neg zero]
    simp [zero]
  · show n < if j ∈ [j, 0] then n + 1 + 1 else _
    rw [if_pos mem]
    omega
  · have var : ((q.define j y).addStmt j (.create (n + 1) (typeLiteral .auto) .builtin)).var n = q.var n :=
      var_push_lt (x := y) rfl (size ▸ Nat.lt_succ_self n)
    have bare : q.var n = x := var_push_self rfl
    exact congrArg Variable.initial (var.trans bare)
  · have var : ((q.define j y).addStmt j (.create (n + 1) (typeLiteral .auto) .builtin)).var q.vars.size = y :=
      var_push_self rfl
    rw [size] at var
    exact congrArg Variable.initial var
  · exact (scope_modifyScope_ne zero _).trans ((scope_define_ne zero _).trans
      ((scope_define_ne zero _).trans (scope_addScope_lt hlt _)))
  · have hj' : j < (q.define j y).scopes.size := by
      rw [scopes_size_define]
      exact hj
    refine ⟨((q.scope j).bind y.name q.vars.size).symbols, (scope_modifyScope_self hj' _).trans ?_⟩
    rw [scope_define_self hj, scope₂, scope₁]
    rfl

/-- The body of a predefined macro assigns its output, and the scope is closed. -/
theorem Starts.Body.close {K : Layout} {q : Program} (op : UnaryOp)
    (h : Starts.Body p L #[.create (p.vars.size + 1) (typeLiteral .auto) .builtin] q K) (start : p.Starts L) :
    let st : Stmt := .assign (.mk (p.vars.size + 1) [] .builtin) (.unary op (.var p.vars.size .builtin) .builtin) .builtin
    let r := (q.addStmt p.scopes.size st).modifyScope p.scopes.size fun s =>
      { s with inputs := [p.vars.size], outputs := [p.vars.size + 1] }
    ∃ K', r.Starts K' ∧ r.Bodies K' r.vars.size p.scopes.size ∧ (∀ w, K'.sees p.scopes.size w → r.InSight K' 0 w) ∧
      p.scopes.size < r.scopes.size ∧ p.scopes.size ∉ [0] := by
  intro st r
  let j := p.scopes.size
  let n := p.vars.size
  obtain ⟨symbols, scope⟩ := h.scope
  have mem : j ∈ [j, 0] := List.mem_cons_self
  have inner : ∀ i ∈ [j, 0], i ≤ j := by simp
  have hlt : 0 < p.scopes.size := start.making.opens_lt 0 List.mem_cons_self
  have zero : 0 ≠ j := Nat.ne_of_lt hlt
  have hj : j < q.scopes.size := h.making.opens_lt j mem
  have seen (v : VarId) (hv : v = n + 1 ∨ v = n) : q.InSight K j v := by
    rcases hv with rfl | rfl
    · refine .inl ⟨.create (n + 1) (typeLiteral .auto) .builtin, ?_, List.mem_cons_self⟩
      rw [statements, scope]
      simp [n]
    · exact .inr (.inr ((h.sees n).2 (.inr rfl)))
  let q' := q.addStmt j st
  have scope' : q'.scope j = { q.scope j with body := (q.scope j).body.push st } := scope_modifyScope_self hj _
  have assigned : q'.Making K [j, 0] := by
    refine h.making.addStmt mem inner (scopes_size_modifyScope _ _ _) rfl (fun i hne => scope_modifyScope_ne hne _) scope'
      ⟨seen n (.inr rfl), ⟨seen (n + 1) (.inl rfl), h.output⟩, trivial⟩ (fun v hv => absurd hv List.not_mem_nil)
      (fun e he => .inl he) fun i hi => absurd hi List.not_mem_nil
  have around : q'.scope 0 = p.scope 0 := (scope_modifyScope_ne zero _).trans h.around
  have around' : r.scope 0 = p.scope 0 := (scope_modifyScope_ne zero _).trans around
  have scopeR : r.scope j = { q'.scope j with inputs := [n], outputs := [n + 1] } :=
    scope_modifyScope_self (assigned.opens_lt j mem) _
  let K' : Layout := { K with sees := fun i => if i = j then p.InSight L 0 else K.sees i }
  have made : r.Making K' [j, 0] := by
    refine assigned.relabel mem inner (scopes_size_modifyScope _ _ _) rfl (fun i hne => scope_modifyScope_ne hne _)
      (by rw [scopeR]) (by rw [scopeR]) (by rw [scopeR]) (fun i hi v hv => ?_) fun v => ?_
    · rw [scope', scope] at hi
      cases hi
      rw [InSight, Sight, statements, around, h.blind] at hv
      exact hv
    · rw [scopeR, scope', scope, h.sees]
      simp [n, or_comm]
  have sees₀ : K'.sees 0 = K.sees 0 := if_neg zero
  have seesJ : K'.sees j = p.InSight L 0 := if_pos rfl
  refine ⟨K', ⟨made.closeScope, fun v hv => start.blind v ?_, h.outer, ?_, h.builtins⟩,
    ⟨h.frame, made.opens_past j mem, fun v hv => ?_, fun v hv => ?_⟩, fun w hw => ?_, made.opens_lt j mem, ?_⟩
  · rw [Sight, around', sees₀, h.blind] at hv
    exact hv
  · rw [statements, around']
    exact start.creates
  · rw [scopeR] at hv
    obtain rfl := List.mem_singleton.1 hv
    exact ⟨⟨h.inside.owner, h.inside.first, h.inside.past⟩, h.input⟩
  · rw [scopeR] at hv
    obtain rfl := List.mem_singleton.1 hv
    refine .inl ⟨.create (n + 1) (typeLiteral .auto) .builtin, ?_, List.mem_cons_self⟩
    rw [statements, scopeR, scope', scope]
    simp [n]
  · rw [seesJ] at hw
    rw [InSight, Sight, statements, around', sees₀, h.blind]
    exact hw
  · exact fun hmem => zero (List.mem_singleton.1 hmem).symm

theorem Starts.addBuiltinMacro (h : p.Starts L) (m : BuiltinMacro) : ∃ L', (p.addBuiltinMacro 0 m).Starts L' := by
  obtain ⟨K, body⟩ := h.open m
  obtain ⟨K', starts, laid⟩ := Starts.Body.close m.op body h
  refine ⟨_, starts.addConstant m.name (show Constant.Plain (.macroRef ⟨p.scopes.size, .builtin⟩) from trivial) rfl fun site hsite => ?_⟩
  cases hsite
  exact laid

theorem starts_empty : ∃ L, (({} : Program).addScope none).Starts L := by
  let L : Layout := ⟨fun _ _ => False, fun _ => 0, fun _ => 0, fun _ => 0, fun _ => 0⟩
  have scope (i : ScopeId) : (({} : Program).addScope none).scope i = { parent := none } := by
    match i with
    | 0 => rfl
    | i + 1 => rfl
  have blind (i : ScopeId) (before : List Stmt) (hb : before = []) (v : VarId) :
      ¬(({} : Program).addScope none).Sight L i before v := by
    rintro (⟨st, hst, -⟩ | hv | hv)
    · rw [hb] at hst
      cases hst
    · rw [scope] at hv
      cases hv
    · exact hv
  have empty (i : ScopeId) : (({} : Program).addScope none).statements i = [] := by rw [statements, scope]
  have bare (v : VarId) : ((({} : Program).addScope none).var v).initial = none := rfl
  refine ⟨L, ⟨⟨fun i before st after eq => ?_, fun i v hv => (blind i _ (empty i) v hv).elim, fun m site hm => ?_⟩,
    fun _ _ _ hv => hv, fun _ _ => Nat.le_refl _, fun _ _ => Nat.le_refl _, fun _ _ => Nat.zero_le _, ?_, ?_, ?_, ?_,
    fun i v hv => (blind i _ (empty i) v hv).elim, fun i e he => ?_, fun i _ k hk => ?_, fun i st hst => ?_,
    fun m site hm => ?_, fun v value hv => ?_⟩, blind 0 [] rfl, rfl, fun st hst => ?_, rfl⟩
  · rw [empty] at eq
    simp at eq
  · rw [bare] at hm
    cases hm
  · exact fun i hi => List.mem_singleton.1 hi ▸ Nat.zero_lt_one
  · exact fun i hi => rfl
  · exact fun i _ => List.mem_cons_self
  · exact List.pairwise_singleton _ _
  · rw [scope] at he
    cases he
  · rw [scope] at hk
    cases hk
  · rw [empty] at hst
    cases hst
  · rw [bare] at hm
    cases hm
  · rw [bare] at hv
    cases hv
  · rw [empty] at hst
    cases hst

theorem Starts.foldl {α : Type} {f : Program → α → Program} {xs : List α}
    (hf : ∀ p L, ∀ x ∈ xs, p.Starts L → ∃ L', (f p x).Starts L') (h : ∃ L, p.Starts L) :
    ∃ L, (xs.foldl f p).Starts L := by
  induction xs generalizing p with
  | nil => exact h
  | cons x xs ih =>
    obtain ⟨L, h⟩ := h
    exact ih (fun q K y hy => hf q K y (List.mem_cons_of_mem _ hy)) (hf p L x List.mem_cons_self h)

theorem ty_builtinConstants : ∀ x ∈ builtinConstants, x.2.1 = x.2.2.ty := by
  simp [builtinConstants, Constant.ty]

/-- The program that building starts from: a program of predefined names, to which an empty scope was added. -/
theorem starts_initial : ∃ (q : Program) (L : Layout), q.Starts L ∧
    initial = { q.addScope (some 0) with entry := q.scopes.size } := by
  have constants : ∃ L, (builtinConstants.foldl (fun p x => p.addConstant 0 x.1 x.2.1 x.2.2)
      (({} : Program).addScope none)).Starts L := by
    refine Starts.foldl (fun p L x hx h => ?_) starts_empty
    refine ⟨_, h.addConstant x.1 (isPlain_builtinConstants x hx).2 (ty_builtinConstants x hx) fun site hsite => ?_⟩
    have plain : ∀ x ∈ builtinConstants, ∀ site, x.2.2 ≠ .macroRef site := by simp [builtinConstants]
    exact absurd hsite (plain x hx site)
  have all := Starts.foldl (fun p L (m : BuiltinMacro) (_ : m ∈ builtinMacros) h => h.addBuiltinMacro m) constants
  obtain ⟨L, macros⟩ := all
  exact ⟨_, L, macros, rfl⟩

end Program

/-- A program built from a tree is lexical. -/
theorem lexical_of_ofTree {lib lib' : Library} {file : Nat} {tree : Tree.File} {p : Program}
    (h : ofTree lib file tree = (.ok p, lib')) : p.Lexical := by
  unfold ofTree at h
  dsimp only at h
  split at h
  · rename_i u b run
    cases h
    obtain ⟨q, L, starts, eq⟩ := Program.starts_initial
    rw [eq] at run
    let K := L.opened q.scopes.size (q.InSight L 0) q.vars.size 0
    let start : Builder := ⟨lib, { q.addScope (some 0) with entry := q.scopes.size }, q.scopes.size, [[file]], 0⟩
    have hlt : 0 < q.scopes.size := starts.making.opens_lt 0 List.mem_cons_self
    have opened : (q.addScope (some 0)).Making K [q.scopes.size, 0] :=
      starts.making.openScope List.mem_cons_self (.inl starts.frame.symm)
    have laid : start.Laid K [q.scopes.size, 0] :=
      ⟨opened.setOutputs List.mem_cons_self (by simp) rfl rfl (fun _ _ => rfl) rfl, [0], rfl⟩
    obtain ⟨L', laid', goes, -⟩ := Build.lays_stmts (Build.lays_takeFile (includeBound lib)) tree.statements laid u b run
    have zero : 0 ≠ start.current := Nat.ne_of_lt hlt
    have zeroLt : 0 < start.program.scopes.size := Nat.lt_of_lt_of_le hlt (Nat.le_of_lt laid.lt)
    have scope : b.program.scope 0 = q.scope 0 :=
      (goes.grows.scope 0 zeroLt zero).trans (Program.scope_addScope_lt hlt _)
    have sees : L'.sees 0 = L.sees 0 := (goes.grows.sees 0 zeroLt zero).trans (if_neg zero)
    have builtins : b.program.builtins = 0 := goes.builtins.trans starts.builtins
    have entry : b.program.entry = start.current := goes.entry
    refine ⟨L', laid'.making.laid, ?_, fun v hv => starts.blind v ?_, fun v => ?_, fun st hst => ?_⟩
    · rw [builtins, entry, goes.grows.frame _ laid.lt, goes.grows.frame 0 zeroLt]
      show (if _ = _ then 0 else _) = if _ = _ then _ else _
      rw [if_pos rfl, if_neg zero]
      exact starts.frame.symm
    · rw [builtins, Program.Sight, scope, sees] at hv
      exact hv
    · have inputs : (start.program.scope start.current).inputs = [] :=
        congrArg Scope.inputs (Program.scope_addScope_new q (some 0))
      have around : K.sees start.current = q.InSight L 0 := if_pos rfl
      rw [builtins, entry, Program.Sight, goes.inputs, goes.sees, inputs, around, Program.statements, scope]
      constructor
      · rintro (⟨st, hst, -⟩ | hv | hv | hv)
        · cases hst
        · cases hv
        · exact hv
        · exact (starts.blind v (.inr hv)).elim
      · exact fun hv => .inr (.inr (.inl hv))
    · rw [builtins, Program.statements, scope] at hst
      exact starts.creates st hst
  · cases h

end SignalLang.Scoped
