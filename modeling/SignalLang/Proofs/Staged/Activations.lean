import SignalLang.Proofs.Staged.KeptLoops

/-!
# Activations of macros

A call opens an activation of its macro. The body is worked out under the table that the macro came with, and the
outputs are read under the caller's table, laid over that of the body. Behind the call the caller has its table again.

Records belong to an activation, but there is one tracked value for a variable, whichever activation looks at it. So a
call leaves a variable as it was if no scope that is entered in it writes that variable (`Stage.call_isolated`). A macro
that is entered again, by way of a macro it was given, writes its own variables a second time, and then the outer
activation goes on with the values of the inner one (`Stage.reentered_call_leaks`).
-/

namespace SignalLang.Staged

open Scoped (VarId Only writtenBy)
open Steps

/-- What is tracked of a variable is left alone: at most a value of which nothing was known takes the lengths of a
type. -/
structure State.Spares (v : VarId) (s s' : State) : Prop where
  tracked : s'.tracked[v]? = s.tracked[v]? ∨
    (s.tracked[v]? = some none ∨ s.tracked[v]? = some (some .unknown)) ∧
      ∃ dims, s'.tracked[v]? = some (some (.unknownOf dims))
  written : v ∈ s'.written → v ∈ s.written

namespace State.Spares

variable {v w : VarId} {d : Datum} {s t u s' : State}

theorem of_same (tracked : s'.tracked = s.tracked) (written : s'.written = s.written) : s.Spares v s' :=
  ⟨.inl (by rw [tracked]), fun hv => written ▸ hv⟩

theorem refl (s : State) : s.Spares v s := of_same rfl rfl

theorem trans (h : s.Spares v t) (h' : t.Spares v u) : s.Spares v u := by
  refine ⟨?_, fun hv => h.written (h'.written hv)⟩
  rcases h.tracked with same | ⟨blank, dims, shaped⟩
  · rw [← same]
    exact h'.tracked
  · rcases h'.tracked with same | ⟨-, dims', shaped'⟩
    · exact .inr ⟨blank, dims, same.trans shaped⟩
    · exact .inr ⟨blank, dims', shaped'⟩

instance : IsPreorder State (State.Spares v) where
  refl := refl
  trans _ _ _ := trans

theorem put (apart : w ≠ v) (tracked : s'.tracked = s.tracked.setIfInBounds w (some d))
    (written : v ∈ s'.written → v ∈ s.written) : s.Spares v s' :=
  ⟨.inl (by rw [tracked, Array.getElem?_setIfInBounds_ne apart]), written⟩

end State.Spares

/-- The table stays the same. -/
def State.SameTable (s s' : State) : Prop := s'.table = s.table

instance : IsPreorder State State.SameTable where
  refl _ := rfl
  trans _ _ _ h h' := h'.trans h

/-- The state with other tables. -/
def State.retabled (s : State) (table : Table) (tables : List Table) : State :=
  { s with table := table, tables := tables }

namespace Stage

variable {α β : Type} {c : Context} {v : VarId} {run : Scoped.ScopeId → Stage Unit} {s s' : State} {a : Value}

/-! ## The table -/

theorem sameTable_emit (st : Stmt) : Respects c State.SameTable (emit st) :=
  .modify fun s => by cases here : s.current <;> rfl

theorem law_sameTable : Law c (fun _ => True) State.SameTable where
  newSlot _ _ := .get_bind fun _ => .bind (.modify fun _ => rfl) fun _ => .pure _
  emit st _ := sameTable_emit st
  settled := respects_settled fun _ _ _ _ _ => rfl
  tracked := respects_tracked fun _ _ _ _ _ => rfl
  track v _ d := respects_track (fun _ _ _ _ _ => rfl) v d
  trackAt v _ r coord d := respects_trackAt (fun _ _ _ _ _ => rfl) v r coord d

/-- A call gives the caller its table back, whatever its body does. -/
theorem inlines_sameTable (run : Scoped.ScopeId → Stage Unit) : Inlines c State.SameTable run := by
  intro site context given outs span _ s a s' ended
  obtain ⟨t, u, -, -, emitted⟩ := inlineCall_inv ended
  split at emitted
  · have back := sameTable_emit _ _ _ _ emitted
    exact back
  · obtain ⟨-, rfl⟩ := pure_ok.1 emitted
    rfl

/-! ## Variables that are not written -/

theorem spares_emit (st : Stmt) : Respects c (State.Spares v) (emit st) :=
  .modify fun s => by
    cases s.current with
    | none => exact .refl s
    | some k => exact .of_same rfl rfl

theorem spares_tracked (w : VarId) (r : Record) : Respects c (State.Spares v) (tracked w r) := by
  have shaped (t : Ty) (s : State) (blank : s.tracked.getD w none = none ∨ s.tracked.getD w none = some .unknown) :
      s.Spares v { s with tracked := s.tracked.setIfInBounds w (some (.unknownOf t.dims)) } := by
    by_cases same : w = v
    · subst same
      rcases Nat.lt_or_ge w s.tracked.size with inside | outside
      · rw [Array.getD_eq_getD_getElem?, Array.getElem?_eq_getElem inside, Option.getD_some] at blank
        refine ⟨.inr ⟨?_, t.dims, by simp [inside]⟩, id⟩
        rw [Array.getElem?_eq_getElem inside]
        exact blank.imp (congrArg some) (congrArg some)
      · refine .of_same ?_ rfl
        exact Array.setIfInBounds_eq_of_size_le outside
    · exact .put same rfl id
  intro s d s' ended
  refine (?_ : Ends .finite c s (tracked w r) fun s' _ => s.Spares v s').ok ended
  refine .get_bind ?_
  dsimp only
  split
  · exact .pure (.refl s)
  · rename_i blank _
    exact .modify_bind (.pure (shaped _ s (.inl blank)))
  · rename_i blank _
    exact .modify_bind (.pure (shaped _ s (.inr blank)))
  · exact .pure (.refl s)

theorem spares_noteWrite {w : Write} (apart : w.var ≠ v) : Respects c (State.Spares v) (noteWrite w) := by
  refine .modify fun s => ⟨.inl rfl, fun hv => ?_⟩
  dsimp only at hv
  split at hv
  · exact hv
  · exact (List.mem_cons.1 hv).resolve_left fun same => apart same.symm

theorem spares_putTracked {w : VarId} (apart : w ≠ v) (d : Datum) : Respects c (State.Spares v) (putTracked w d) :=
  .modify fun _ => .put apart rfl id

theorem spares_track {w : VarId} (apart : w ≠ v) (d : Datum) : Respects c (State.Spares v) (track w d) :=
  .bind (spares_putTracked apart d) fun _ => spares_noteWrite apart

theorem spares_trackAt {w : VarId} (apart : w ≠ v) (r : Record) (coord : List Int) (d : Datum) :
    Respects c (State.Spares v) (trackAt w r coord d) := by
  refine .bind (spares_tracked w r) fun whole => .ite (spares_track apart d) ?_
  exact .bind (.orBadShape _) fun e => .bind (spares_putTracked apart e) fun _ => spares_noteWrite apart

theorem spares_inlined (site : MacroSite) (context : Table) (given : List (VarId × Value)) (outs : Stage Value)
    (span : Span) (hrun : Respects c (State.Spares v) (bindInputs given >>= fun _ => run site.body))
    (houts : Respects c (State.Spares v) outs) :
    Respects c (State.Spares v) (newScope >>= inlineCall run site context given outs span) := by
  intro s a s' ended
  obtain ⟨t, u, body, outputs, emitted⟩ := inlineCall_inv ended
  have inner := hrun _ _ _ body
  have handed := houts _ _ _ outputs
  have called : s.Spares v { u with
      current := s.current, conditional := s.conditional, returned := s.returned, table := s.table
      tables := u.tables.tail } :=
    State.Spares.trans ⟨inner.tracked, inner.written⟩ ⟨handed.tracked, handed.written⟩
  split at emitted
  · exact called.trans (spares_emit _ _ _ _ emitted)
  · obtain ⟨-, rfl⟩ := pure_ok.1 emitted
    exact called

/-- A branch that does not write the variable does not forget it either. -/
theorem spares_inBranch {body : Scoped.ScopeId} (hrun : Respects c (State.Spares v) (run body)) :
    Respects c (State.Spares v) (inBranch (run body)) := by
  intro s _ s' ended
  obtain ⟨t, u, worked, forgot, rfl⟩ := inBranch_inv ended
  have inner := hrun _ _ _ worked
  have unwritten : v ∉ t.written := fun hv => List.not_mem_nil (inner.written hv)
  have kept : u.tracked[v]? = t.tracked[v]? := ((forgets_forget .finite t.written).ok forgot).kept v unwritten
  refine ⟨kept ▸ inner.tracked, fun hv => ?_⟩
  rcases List.mem_append.1 hv with hv | hv
  · exact (unwritten hv).elim
  · exact (List.mem_filter.1 hv).1

theorem law_spares : Law.Branching c (· ≠ v) (State.Spares v) where
  newSlot _ _ := .get_bind fun _ => .bind (.modify fun _ => .of_same rfl rfl) fun _ => .pure _
  emit st _ := spares_emit st
  settled _ _ := .modify fun _ => .of_same rfl rfl
  tracked := spares_tracked
  track _ apart := spares_track apart
  trackAt _ apart := spares_trackAt apart
  create w apart r := .bind (.modify fun _ => .of_same rfl rfl) fun _ => spares_track apart _
  inlined _ site context given outs span hrun houts := spares_inlined site context given outs span hrun houts
  emitted := spares_emit
  returned := .modify fun _ => .of_same rfl rfl
  statics _ := .modify fun _ => .of_same rfl rfl
  withTable _ _ h _ _ _ ended := by
    obtain ⟨t, worked, rfl⟩ := withTable_inv ended
    have inner := h _ _ _ worked
    exact ⟨inner.tracked, inner.written⟩
  guarded _ _ hrun _ _ _ ended := by
    obtain ⟨rfl, t, worked, rfl⟩ := guarded_inv ended
    have inner := spares_inBranch hrun _ _ _ worked
    exact ⟨inner.tracked, inner.written⟩
  firstPass _ _ hrun _ _ _ ended := by
    obtain ⟨t, worked, rfl⟩ := loopPass_inv ended
    have inner := spares_inBranch hrun _ _ _ worked
    exact ⟨inner.tracked, inner.written⟩
  secondPass _ _ hrun _ _ _ ended := by
    obtain ⟨_, _, made, ended⟩ := bind_ok.1 ended
    obtain ⟨rfl, rfl⟩ := newScope_inv made
    obtain ⟨_, _, passed, ended⟩ := bind_ok.1 ended
    obtain ⟨-, rfl⟩ := pure_ok.1 ended
    obtain ⟨t, worked, rfl⟩ := loopPass_inv passed
    have inner := spares_inBranch hrun _ _ _ worked
    exact ⟨inner.tracked, inner.written⟩
  static _ _ exports span hrun _ _ _ ended := by
    obtain ⟨t, u, worked, found, rfl⟩ := staticBody_inv ended
    have inner := (hrun _ _ _ worked).trans (respects_exported exports span _ _ _ found)
    exact ⟨inner.tracked, inner.written⟩

/-- What `confined` works out is sound, and no record of a variable outside of `W` changes. -/
theorem runs_confined {W : VarId → Prop} [DecidablePred W] (hp : c.source.Plain) (depth : Nat) :
    Runs c W (confined W depth) := by
  induction depth with
  | zero => exact fun o s i _ => .fail
  | succ depth ih =>
    intro o s i h
    refine .read_bind ?_
    dsimp only
    split
    · rename_i only
      refine keeps_statements ih h hp (fun st hst => ?_) fun st hst v hv => only v ?_
      · exact hp.stmts i st (Array.mem_toList_iff.1 hst)
      · exact List.mem_append_right _ (List.mem_flatMap.2 ⟨st, hst, hv⟩)
    · exact .fail

/-! ## Reading outputs -/

/-- The step does not look at the tables and leaves them alone. -/
def Blind (c : Context) (m : Stage α) : Prop :=
  ∀ s a s' table tables, m c s = .ok (a, s') → m c (s.retabled table tables) = .ok (a, s'.retabled table tables)

namespace Blind

theorem pure (a : α) : Blind c (Pure.pure a) := by
  intro s b s' table tables ended
  obtain ⟨rfl, rfl⟩ := pure_ok.1 ended
  rfl

theorem fail (e : Failure) : Blind c (throw e : Stage α) := fun _ _ _ _ _ ended => (throw_ok.1 ended).elim

theorem bind {m : Stage α} {f : α → Stage β} (hm : Blind c m) (hf : ∀ a, Blind c (f a)) : Blind c (m >>= f) := by
  intro s b s' table tables ended
  obtain ⟨a, t, first, rest⟩ := bind_ok.1 ended
  exact bind_ok.2 ⟨a, _, hm s a t table tables first, hf a t b s' table tables rest⟩

theorem get_bind {f : State → Stage β} (hf : ∀ s, Blind c (f s))
    (same : ∀ s table tables, f (s.retabled table tables) = f s) : Blind c (get >>= f) := by
  intro s b s' table tables ended
  have first : f s c (s.retabled table tables) = .ok (b, s'.retabled table tables) := hf s s b s' table tables ended
  rw [← same s table tables] at first
  exact first

theorem read_bind {f : Context → Stage β} (h : Blind c (f c)) : Blind c (read >>= f) := h

theorem modify {g : State → State}
    (same : ∀ s table tables, g (s.retabled table tables) = (g s).retabled table tables) : Blind c (modify g) := by
  intro s u s' table tables ended
  obtain rfl := modify_ok.1 ended
  exact modify_ok.2 (same s table tables)

theorem ite {p : Prop} [Decidable p] {m n : Stage α} (hm : Blind c m) (hn : Blind c n) :
    Blind c (if p then m else n) := by
  split
  · exact hm
  · exact hn

end Blind

theorem blind_tracked (v : VarId) (r : Record) : Blind c (tracked v r) := by
  have shaped (t : Ty) : Blind c (do let d := Datum.unknownOf t.dims; putTracked v d; return d) :=
    .bind (.modify fun _ _ _ => rfl) fun _ => .pure _
  refine .get_bind (fun s => ?_) fun _ _ _ => rfl
  dsimp only
  split
  · exact .pure _
  · exact shaped _
  · exact shaped _
  · exact .pure _

/-- Reading a variable looks at the tables for nothing but its record. -/
theorem readVar_retabled {span : Span} {table : Table} {tables : List Table}
    (same : table.lookup v = s.table.lookup v) (ended : readVar v span c s = .ok (a, s')) :
    readVar v span c (s.retabled table tables) = .ok (a, s'.retabled table tables) := by
  obtain ⟨p, t, found, ended⟩ := bind_ok.1 ended
  have found' : recordOf v c (s.retabled table tables) = .ok (p, t.retabled table tables) := by
    obtain ⟨_, _, got, found⟩ := bind_ok.1 found
    cases got
    have looked : recordId? v c (s.retabled table tables) = .ok (s.table.lookup v, s.retabled table tables) := by
      rw [← same]
      rfl
    refine bind_ok.2 ⟨_, _, looked, ?_⟩
    cases listed : s.table.lookup v with
    | none =>
      rw [listed] at found
      obtain ⟨_, _, -, stopped⟩ := bind_ok.1 found
      exact (throw_ok.1 stopped).elim
    | some id =>
      rw [listed] at found
      exact Blind.get_bind (fun _ => .pure _) (fun _ _ _ => rfl) _ _ _ table tables found
  refine bind_ok.2 ⟨p, _, found', ?_⟩
  obtain ⟨id, r⟩ := p
  refine (?_ : Blind c _) t a s' table tables ended
  dsimp only
  split
  · exact .read_bind (.fail _)
  · refine .get_bind (fun s => .ite (.read_bind (.fail _)) ?_) fun _ _ _ => rfl
    refine .bind (blind_tracked v r) fun d => .ite (.pure _) (.ite (.read_bind (.fail _)) ?_)
    split
    · exact .read_bind (.fail _)
    · exact .get_bind (fun _ => .pure _) fun _ _ _ => rfl

theorem withTable_ok {table : Table} {m : Stage α} {b : α}
    (h : m c (s.retabled table (s.table :: s.tables)) = .ok (b, s'.retabled table (s.table :: s.tables))) :
    withTable table m c s = .ok (b, s'.retabled s.table s.tables) :=
  bind_ok.2 ⟨s, s, rfl, bind_ok.2 ⟨(), _, rfl, bind_ok.2 ⟨b, _, h, rfl⟩⟩⟩

/-- Hands outputs on like `callOutputs`, but reads each one under the table `own`. -/
def handOn (run : Scoped.ScopeId → Stage Unit) (own : Table) (result : Value) (span : Span) :
    List VarId → List Scoped.Output → Stage Value
  | v :: vars, .inline _ :: rest => do handOn run own (← withTable own (readVar v span)) span vars rest
  | v :: vars, .target target outSpan :: rest => do
    let p ← place run target
    assign p (← withTable own (readVar v outSpan)) outSpan
    handOn run own result span vars rest
  | _, _ => return result

theorem readVar_own {caller own : Table} {span : Span} (unlisted : caller.lookup v = none)
    (table : s.table = caller ++ own) (found : readVar v span c s = .ok (a, s')) :
    withTable own (readVar v span) c s = .ok (a, s') ∧ s'.table = caller ++ own := by
  have same : own.lookup v = s.table.lookup v := by
    rw [table, List.lookup_append, unlisted, Option.none_or]
  have kept : s' = s'.retabled s.table s.tables :=
    congrArg Prod.snd (Except.ok.inj (found.symm.trans (readVar_retabled rfl found)))
  refine ⟨?_, (congrArg State.table kept).trans table⟩
  rw [withTable_ok (readVar_retabled same found), ← kept]

/-- Outputs that the caller's table does not list are read from the activation that ended. -/
theorem handOn_of_callOutputs {caller own : Table} {result : Value} {span : Span} {vars : List VarId}
    {outs : List Scoped.Output} (unlisted : ∀ w ∈ vars, caller.lookup w = none) (table : s.table = caller ++ own)
    (ended : callOutputs run result span vars outs c s = .ok (a, s')) :
    handOn run own result span vars outs c s = .ok (a, s') := by
  induction outs generalizing vars result s with
  | nil =>
    rw [callOutputs] at ended
    cases vars <;> exact ended
  | cons out rest ih =>
    cases vars with
    | nil => cases out <;> (rw [callOutputs] at ended; exact ended)
    | cons w vars =>
      have listed := unlisted w List.mem_cons_self
      have unlisted' : ∀ u ∈ vars, caller.lookup u = none := fun u hu => unlisted u (List.mem_cons_of_mem _ hu)
      cases out with
      | inline outSpan =>
        rw [callOutputs] at ended
        obtain ⟨b, t, found, ended⟩ := bind_ok.1 ended
        obtain ⟨read, here⟩ := readVar_own listed table found
        exact bind_ok.2 ⟨b, t, read, ih unlisted' here ended⟩
      | target target outSpan =>
        rw [callOutputs] at ended
        obtain ⟨p, t, placed, ended⟩ := bind_ok.1 ended
        obtain ⟨b, u, found, ended⟩ := bind_ok.1 ended
        obtain ⟨_, w', assigned, ended⟩ := bind_ok.1 ended
        have there : t.table = s.table :=
          respects_place law_sameTable (inlines_sameTable run) target (fun _ _ => trivial) s p t placed
        obtain ⟨read, here⟩ := readVar_own listed (there.trans table) found
        have behind : w'.table = u.table := respects_assign law_sameTable trivial b outSpan u () w' assigned
        exact bind_ok.2 ⟨p, t, placed, bind_ok.2 ⟨b, u, read, bind_ok.2 ⟨(), w', assigned,
          ih unlisted' (behind.trans here) ended⟩⟩⟩

/-! ## Calls -/

/-- An activation of a macro: the macro with its table, the values it was given, the state it was called in, the one
behind its body, and the one behind its outputs. -/
structure Activation where
  site : MacroSite
  context : Table
  given : List Value
  called : State
  ended : State
  handed : State

/-- The activation is that of a call from `s` to `s'`, which has the value `a`. -/
structure Activation.Of (run : Scoped.ScopeId → Stage Unit) (c : Context) (call : Scoped.Call) (span : Span) (s : State)
    (a : Value) (s' : State) (f : Activation) : Prop where
  callee : ∃ m t at_, readVar call.callee at_ c s = .ok (m, t) ∧ m.content = .known (.macroRef f.site f.context) ∧
    values run call.inputs c t = .ok (f.given, f.called)
  table : f.called.table = s.table
  body : (bindInputs ((c.source.scope f.site.body).inputs.zip f.given) >>= fun _ => run f.site.body) c { f.called with
    out := f.called.out.addScope, current := some f.called.out.scopes.size, conditional := 0, returned := false
    table := f.context, tables := f.called.table :: f.called.tables } = .ok ((), f.ended)
  outputs : callOutputs run (.known .void .void span) span (c.source.scope f.site.body).outputs call.outputs c
    { f.ended with returned := false, table := s.table ++ f.ended.table } = .ok (a, f.handed)
  behind : s'.records = f.handed.records ∧ s'.tracked = f.handed.tracked

theorem exists_activation {callee : VarId} {calleeSpan span : Span} {inputs : List Scoped.Expr}
    {outputs : List Scoped.Output}
    (ended : expression run (.call callee calleeSpan inputs outputs span) c s = .ok (a, s')) :
    ∃ f : Activation, f.Of run c ⟨callee, inputs, outputs⟩ span s a s' := by
  rw [expression] at ended
  obtain ⟨m, t, found, ended⟩ := bind_ok.1 ended
  rcases ite_ok.1 ended with ⟨-, ended⟩ | ⟨-, ended⟩
  · obtain ⟨_, _, refused, -⟩ := bind_ok.1 ended
    exact (throw_ok.1 refused).elim
  · split at ended
    · exact (throw_ok.1 ended).elim
    · rename_i site context content
      obtain ⟨_, _, got, ended⟩ := bind_ok.1 ended
      obtain ⟨rfl, rfl⟩ := read_ok.1 got
      obtain ⟨given, u, worked, ended⟩ := bind_ok.1 ended
      rcases ite_ok.1 ended with ⟨-, ended⟩ | ⟨-, ended⟩
      · obtain ⟨_, _, refused, -⟩ := bind_ok.1 ended
        exact (throw_ok.1 refused).elim
      rcases ite_ok.1 ended with ⟨-, ended⟩ | ⟨-, ended⟩
      · obtain ⟨_, _, refused, -⟩ := bind_ok.1 ended
        exact (throw_ok.1 refused).elim
      have called : t.table = s.table := respects_readVar law_sameTable _ _ _ _ _ found
      have table : u.table = t.table :=
        respects_values law_sameTable (inlines_sameTable run) inputs (fun _ _ => trivial) _ _ _ worked
      obtain ⟨v, w, body, outs, emitted⟩ := inlineCall_inv ended
      rw [table.trans called] at outs
      refine ⟨⟨site, context, given, u, v, w⟩, ⟨m, t, calleeSpan, found, content, worked⟩, table.trans called, body,
        outs, ?_⟩
      split at emitted
      · obtain rfl := modify_ok.1 emitted
        dsimp only
        cases u.current <;> exact ⟨rfl, rfl⟩
      · obtain ⟨-, rfl⟩ := pure_ok.1 emitted
        exact ⟨rfl, rfl⟩
    · exact (throw_ok.1 ended).elim

/-- While an expression is worked out no scope is entered that writes the variable, and no call in the expression has it
for a target. -/
def Unwritten (c : Context) (depth : Nat) (e : Scoped.Expr) (s : State) (v : VarId) : Prop :=
  v ∉ writtenBy e.calls ∧ ∃ r, expression (confined (· ≠ v) depth) e c s = .ok r

/-- What is tracked of a variable that is not written, and all its records, are as they were. -/
theorem spares_unwritten {depth : Nat} {e : Scoped.Expr} {o : Owners} (hp : c.source.Plain) (plain : e.Plain)
    (sound : s.Sound c.source o) (unwritten : Unwritten c depth e s v)
    (ended : expression (block depth) e c s = .ok (a, s')) :
    s.Spares v s' ∧ ∀ id : Nat, o[id]? = some v → s'.records[id]? = s.records[id]? := by
  obtain ⟨outside, r, confinedly⟩ := unwritten
  have only : Only (· ≠ v) (writtenBy e.calls) := fun w hw same => outside (same ▸ hw)
  have ended' : expression (confined (· ≠ v) depth) e c s = .ok (a, s') := by
    rcases within_expression (within_confined (· ≠ v) depth) e c s with deep | same
    · rw [confinedly] at deep
      cases deep
    · exact same.trans ended
  have law : Law.Branching c (· ≠ v) (State.Spares v) := law_spares
  have opens := opens_confined law.extended depth
  obtain ⟨o', reach, -⟩ := keeps_expression (runs_confined hp depth) e plain only sound a s' ended'
  refine ⟨respects_expression law.toLaw (opens.inlines law.toEntering) e only s a s' ended', fun id owned => ?_⟩
  exact reach.apart id v owned fun apart => apart rfl

/-- A call gives the caller its table back, and leaves all types that are settled. It leaves a variable as it was,
whichever activation that belongs to, if nothing that is entered writes it. Outputs that the caller's table does not
list are read from the activation that ended. -/
theorem call_isolated {depth : Nat} {callee : VarId} {calleeSpan span : Span} {inputs : List Scoped.Expr}
    {outputs : List Scoped.Output} {o : Owners} (hp : c.source.Plain)
    (plain : (Scoped.Expr.call callee calleeSpan inputs outputs span).Plain) (sound : s.Sound c.source o)
    (ended : expression (block depth) (.call callee calleeSpan inputs outputs span) c s = .ok (a, s')) :
    (s'.table = s.table ∧
      ∀ (id : Nat) r, s.records[id]? = some r → r.bound.actual.isSome → s'.records[id]? = some r) ∧
    (∀ v, Unwritten c depth (.call callee calleeSpan inputs outputs span) s v →
      s.Spares v s' ∧ ∀ id : Nat, o[id]? = some v → s'.records[id]? = s.records[id]?) ∧
    ∃ f : Activation, f.Of (block depth) c ⟨callee, inputs, outputs⟩ span s a s' ∧
      ((∀ w ∈ (c.source.scope f.site.body).outputs, s.table.lookup w = none) →
        handOn (block depth) f.ended.table (.known .void .void span) span (c.source.scope f.site.body).outputs outputs c
          { f.ended with returned := false, table := s.table ++ f.ended.table } = .ok (a, f.handed)) := by
  refine ⟨⟨?_, ?_⟩, fun v unwritten => spares_unwritten hp plain sound unwritten ended, ?_⟩
  · exact respects_expression law_sameTable (inlines_sameTable _) _ (fun _ _ => trivial) s a s' ended
  · have runs : Runs c (fun _ => True) (block depth) := runs_block hp (fun _ => trivial) depth
    obtain ⟨o', reach, -⟩ := keeps_expression runs _ plain (fun _ _ => trivial) sound a s' ended
    exact reach.grows.settled
  · obtain ⟨f, is⟩ := exists_activation ended
    exact ⟨f, is, fun unlisted => handOn_of_callOutputs unlisted rfl is.outputs⟩

/-- States on the way to a statement of the entry are sound. -/
theorem sound_upTo {depth place : Nat} (hp : c.source.Plain)
    (reached : upTo depth place c { tracked := Array.replicate c.source.vars.size none } = .ok ((), s)) :
    ∃ o, s.Sound c.source o := by
  have runs : Runs c (fun _ => True) (block depth) := runs_block hp (fun _ => trivial) depth
  obtain ⟨_, _, got, reached⟩ := bind_ok.1 reached
  obtain ⟨rfl, rfl⟩ := read_ok.1 got
  obtain ⟨_, t, builtins, reached⟩ := bind_ok.1 reached
  obtain ⟨o, reach, -⟩ := runs #[] _ c.source.builtins (sound_start c.source) _ _ builtins
  obtain ⟨_, _, entered, reached⟩ := bind_ok.1 reached
  obtain rfl := modify_ok.1 entered
  have sound : State.Sound c.source o { t with current := some t.out.entry } :=
    { reach.sound with current := fun i hi => by cases hi; exact reach.sound.out.entry }
  obtain ⟨o', reach', -⟩ := keeps_statements runs sound hp (fun st hst => hp.stmts c.source.entry st
    (Array.mem_toList_iff.1 (List.mem_of_mem_take hst))) (fun _ _ _ _ => trivial) _ _ reached
  exact ⟨o', reach'.sound⟩

/-- A call whose value a statement of the entry assigns, with the states around it. -/
structure CallAt where
  callee : VarId
  calleeSpan : Span
  inputs : List Scoped.Expr
  outputs : List Scoped.Output
  span : Span
  before : State
  value : Value
  behind : State

/-- The expression of a call. -/
def CallAt.expr (f : CallAt) : Scoped.Expr := .call f.callee f.calleeSpan f.inputs f.outputs f.span

/-- Works a call of the entry of a program out. -/
def stageCall (depth place : Nat) (c : Context) : Except Failure CallAt := do
  let (_, s) ← upTo depth place c { tracked := Array.replicate c.source.vars.size none }
  match (c.source.scope c.source.entry).body[place]? with
  | some (.assign _ (.call callee calleeSpan inputs outputs span) _) => do
    let (a, s') ← expression (block depth) (.call callee calleeSpan inputs outputs span) c s
    return ⟨callee, calleeSpan, inputs, outputs, span, s, a, s'⟩
  | _ => throw .tooDeep

theorem stageCall_ok {depth place : Nat} {f : CallAt} (h : stageCall depth place c = .ok f) :
    upTo depth place c { tracked := Array.replicate c.source.vars.size none } = .ok ((), f.before) ∧
      (∃ target span, (c.source.scope c.source.entry).body[place]? = some (.assign target f.expr span)) ∧
      expression (block depth) f.expr c f.before = .ok (f.value, f.behind) := by
  obtain ⟨⟨_, _⟩, reached, h⟩ := except_bind_ok.1 h
  dsimp only at h
  split at h
  · rename_i stands
    obtain ⟨⟨_, _⟩, ended, h⟩ := except_bind_ok.1 h
    cases h
    exact ⟨reached, ⟨_, _, stands⟩, ended⟩
  · cases h

/-- A macro that calls the macro it is given. -/
def applies : String :=
  "macro Inc(x): y \x7b AUTO y = x + 1; \x7d\nmacro Apply(f, z): o \x7b AUTO o = f(z); \x7d\n" ++
    "output INT out;\nINT k = 5;\nout = Apply(Inc, k);\n"

/-- The variable `k` is left alone by a call in which two macros are entered, and the output is that of the macro. -/
theorem call_isolated_apply :
    ∃ p c', (Compiler.scopedOf "main").run (Compiler.ofText applies) = (.ok p, c') ∧
      ∃ k f, (p.var k).name = "k" ∧ stageCall 6 5 ⟨p, {}⟩ = .ok f ∧ f.behind.table = f.before.table ∧
        (f.before.tracked.getD k none).bind Datum.int? = some 5 ∧ f.before.Spares k f.behind ∧
        ∃ act : Activation, act.Of (block 6) ⟨p, {}⟩ ⟨f.callee, f.inputs, f.outputs⟩ f.span f.before f.value f.behind ∧
          handOn (block 6) act.ended.table (.known .void .void f.span) f.span (p.scope act.site.body).outputs f.outputs
            ⟨p, {}⟩ { act.ended with returned := false, table := f.before.table ++ act.ended.table } =
              .ok (f.value, act.handed) := by
  obtain ⟨p, c', built, tested⟩ := Compiler.ok_of_any (x := Compiler.scopedOf "main") (c := Compiler.ofText applies)
    (P := fun p => (stageCall 6 5 ⟨p, {}⟩).toOption.any fun (f : CallAt) =>
      (expression (confined (· ≠ 61) 6) f.expr ⟨p, {}⟩ f.before).toOption.any (fun _ => true) &&
        decide ((p.var 61).name = "k" ∧ 61 ∉ writtenBy f.expr.calls ∧
          (f.before.tracked.getD 61 none).bind Datum.int? = some 5 ∧
          ∀ i < p.scopes.size, ∀ w ∈ (p.scope i).outputs, f.before.table.lookup w = none)) (by decide +kernel)
  obtain ⟨f, staged, tested⟩ := exists_ok_of_any tested
  rw [Bool.and_eq_true, decide_eq_true_eq] at tested
  obtain ⟨confinedly, named, outside, five, unlisted⟩ := tested
  obtain ⟨r, confinedly, -⟩ := exists_ok_of_any confinedly
  obtain ⟨reached, ⟨target, span, stands⟩, ended⟩ := stageCall_ok staged
  have plain := Compiler.plain_of_scopedOf built
  obtain ⟨o, sound⟩ := sound_upTo plain reached
  have call : f.expr.Plain := (plain.stmts p.entry _ (Array.mem_of_getElem? stands)).2
  obtain ⟨⟨table, -⟩, spares, act, is, handed⟩ := call_isolated plain call sound ended
  refine ⟨p, c', built, 61, f, named, staged, table, five, (spares 61 ⟨outside, r, confinedly⟩).1, act, is, handed ?_⟩
  intro w hw
  rcases Nat.lt_or_ge act.site.body p.scopes.size with inside | beyond
  · exact unlisted _ inside w hw
  · have nothing : p.scope act.site.body = default := by
      rw [Scoped.Program.scope, Array.getD_eq_getD_getElem?, Array.getElem?_eq_none beyond]
      rfl
    exact absurd (nothing ▸ hw) List.not_mem_nil

/-- A macro that is entered again while it is worked out: `Apply` hands its input on, behind a call of the macro it was
given. -/
def reentered : String :=
  "macro Id(x): y \x7b AUTO y = x; \x7d\nmacro Apply(f, x): o \x7b AUTO t = f(x); AUTO o = x; \x7d\n" ++
    "macro Inner(x): r \x7b AUTO r = Apply(Id, x + 1); \x7d\noutput INT out;\nout = Apply(Inner, 1);\n"

/-- Whether a run ends with the one output 2. -/
def isTwo : Except Halt (List Datum × List Datum) → Bool
  | .ok ([.int 2], []) => true
  | _ => false

theorem eq_of_isTwo {result : Except Halt (List Datum × List Datum)} (h : isTwo result = true) :
    result = .ok ([.int 2], []) := by
  unfold isTwo at h
  split at h
  · rfl
  · cases h

/-- The outer activation of `Apply` was given one, and hands on what the inner one was given. -/
theorem reentered_call_leaks :
    ∃ p c', (Compiler.stagedOf "main").run (Compiler.ofText reentered) = (.ok p, c') ∧
      p.run [] [] = .ok ([.int 2], []) := by
  obtain ⟨p, c', built, leaked⟩ := Compiler.ok_of_any (x := Compiler.stagedOf "main") (c := Compiler.ofText reentered)
    (P := fun p => isTwo (p.run [] [])) (by decide +kernel)
  exact ⟨p, c', built, eq_of_isTwo leaked⟩

end Stage

end SignalLang.Staged
