import SignalLang.Proofs.Staged.KeptLoops

/-!
# Staging is framed

`State.Framed s s'` says what no step of staging touches. Where statements go, what kind of code is worked out, the keys
of the table and what is kept on the stacks are as before, scopes and variables of the output stay, and statements are
only appended: to the scope that statements go to, to the static initialization, and to scopes that are made meanwhile.
It holds across every scope and every statement that is worked out (`framed_block`, `framed_statement`).

So whatever is left finds on top of a stack what was put there when it was entered (`withTable_pops`, `inBranch_pops`,
`inlineCall_pops`).
-/

namespace SignalLang.Staged

open Scoped (VarId)
open Steps

/-- What no step of staging touches. -/
structure State.Framed (s s' : State) : Prop where
  current : s'.current = s.current
  inStatic : s'.inStatic = s.inStatic
  discarding : s'.discarding = s.discarding
  conditional : s'.conditional = s.conditional
  table : s.table <:+ s'.table
  tables : s'.tables = s.tables
  writtenBefore : s'.writtenBefore = s.writtenBefore
  vars : Extends s.out.vars s'.out.vars
  staticInit : s'.out.staticInit = s.out.staticInit
  entry : s'.out.entry = s.out.entry
  scopes : s.out.scopes.size ≤ s'.out.scopes.size
  /-- Statements are only appended. -/
  stmts : ∀ i, (s.out.scope i).toList <+: (s'.out.scope i).toList
  /-- Only few scopes get more statements. -/
  others : ∀ i < s.out.scopes.size, s.current ≠ some i → i ≠ s.out.staticInit → s'.out.scope i = s.out.scope i

namespace State.Framed

theorem refl (s : State) : s.Framed s :=
  ⟨rfl, rfl, rfl, rfl, List.suffix_refl _, rfl, rfl, .refl _, rfl, rfl, Nat.le_refl _, fun _ => List.prefix_refl _,
    fun _ _ _ _ => rfl⟩

theorem trans {s t u : State} (h : s.Framed t) (h' : t.Framed u) : s.Framed u where
  current := h'.current.trans h.current
  inStatic := h'.inStatic.trans h.inStatic
  discarding := h'.discarding.trans h.discarding
  conditional := h'.conditional.trans h.conditional
  table := h.table.trans h'.table
  tables := h'.tables.trans h.tables
  writtenBefore := h'.writtenBefore.trans h.writtenBefore
  vars := h.vars.trans h'.vars
  staticInit := h'.staticInit.trans h.staticInit
  entry := h'.entry.trans h.entry
  scopes := Nat.le_trans h.scopes h'.scopes
  stmts i := (h.stmts i).trans (h'.stmts i)
  others i hi apart hstatic := by
    have later := h'.others i (Nat.lt_of_lt_of_le hi h.scopes) (h.current ▸ apart) (h.staticInit ▸ hstatic)
    rw [later, h.others i hi apart hstatic]

instance : IsPreorder State State.Framed where
  refl := refl
  trans _ _ _ := trans

/-- A step may work in another scope, if that is one made meanwhile or the static initialization. -/
theorem elsewhere {s t u s' : State} (inner : t.Framed u) (out : t.out = s.out ∨ t.out = s.out.addScope)
    (away : ∀ i, t.current = some i → i = s.out.staticInit ∨ s.out.scopes.size ≤ i) (back : s'.out = u.out)
    (current : s'.current = s.current) (inStatic : s'.inStatic = s.inStatic)
    (discarding : s'.discarding = s.discarding) (conditional : s'.conditional = s.conditional)
    (table : s.table <:+ s'.table) (tables : s'.tables = s.tables)
    (writtenBefore : s'.writtenBefore = s.writtenBefore) : s.Framed s' := by
  have vars : t.out.vars = s.out.vars := by rcases out with h | h <;> rw [h]; rfl
  have staticInit : t.out.staticInit = s.out.staticInit := by rcases out with h | h <;> rw [h]; rfl
  have entry : t.out.entry = s.out.entry := by rcases out with h | h <;> rw [h]; rfl
  have scope (i : ScopeId) : t.out.scope i = s.out.scope i := by rcases out with h | h <;> simp [h]
  have size : s.out.scopes.size ≤ t.out.scopes.size := by rcases out with h | h <;> simp [h]
  refine ⟨current, inStatic, discarding, conditional, table, tables, writtenBefore, ?_, ?_, ?_, ?_, fun i => ?_,
    fun i hi apart hstatic => ?_⟩
  · rw [back, ← vars]
    exact inner.vars
  · rw [back, inner.staticInit, staticInit]
  · rw [back, inner.entry, entry]
  · rw [back]
    exact Nat.le_trans size inner.scopes
  · rw [back, ← scope i]
    exact inner.stmts i
  · rw [back, ← scope i]
    refine inner.others i (Nat.lt_of_lt_of_le hi size) (fun here => ?_) (staticInit ▸ hstatic)
    rcases away i here with h | h
    · exact hstatic h
    · omega

end State.Framed

namespace Stage

variable {c : Context} {α : Type} {run : Scoped.ScopeId → Stage Unit} {s s' : State}

theorem framed_quiet (s : State) (records : Array Record) (tracked : Array (Option Datum)) (written : List VarId)
    (log : Array Write) :
    s.Framed { s with records := records, tracked := tracked, written := written, log := log } :=
  { State.Framed.refl s with }

theorem framed_emit (st : Stmt) : Respects c State.Framed (emit st) := by
  refine .modify fun s => ?_
  cases here : s.current with
  | none => exact .refl s
  | some k =>
    refine { State.Framed.refl s with
      current := here.symm
      scopes := Nat.le_of_eq (Program.scopes_size_addStmt _ _ _).symm
      stmts := fun i => ?_
      others := fun i hi apart _ => ?_ }
    · by_cases same : k = i
      · subst same
        rcases Nat.lt_or_ge k s.out.scopes.size with hk | hk
        · simp [Program.scope_addStmt_self hk]
        · simp [Program.scope_of_size_le hk]
      · simp [Program.scope_addStmt_of_ne same]
    · exact Program.scope_addStmt_of_ne (fun same => apart (here.trans (congrArg some same))) st

theorem framed_newSlot (ty : Ty) (definition : Span) : Respects c State.Framed (newSlot ty definition) :=
  .get_bind fun _ => .bind (.modify fun s => { State.Framed.refl s with vars := .push _ _ }) fun _ => .pure _

/-- What a call works out is framed, from where its body starts to where its outputs are handed on. -/
theorem framed_inside {site : MacroSite} {given : List (VarId × Value)} {outs : Stage Value} {t u : State} {a : Value}
    {table : Table} (hrun : Respects c State.Framed (bindInputs given >>= fun _ => run site.body))
    (houts : Respects c State.Framed outs)
    (body : (bindInputs given >>= fun _ => run site.body) c s = .ok ((), t))
    (outputs : outs c { t with returned := false, table := table ++ t.table } = .ok (a, u)) : s.Framed u := by
  have joined : t.Framed { t with returned := false, table := table ++ t.table } :=
    { State.Framed.refl t with table := List.suffix_append _ _ }
  exact ((hrun _ _ _ body).trans joined).trans (houts _ _ _ outputs)

theorem framed_inlined (site : MacroSite) (context : Table) (given : List (VarId × Value)) (outs : Stage Value)
    (span : Span) (hrun : Respects c State.Framed (bindInputs given >>= fun _ => run site.body))
    (houts : Respects c State.Framed outs) :
    Respects c State.Framed (newScope >>= inlineCall run site context given outs span) := by
  intro s a s' ended
  obtain ⟨t, u, body, outputs, emitted⟩ := inlineCall_inv ended
  have inner := framed_inside hrun houts body outputs
  have called : s.Framed { u with
      current := s.current, conditional := s.conditional, returned := s.returned, table := s.table
      tables := u.tables.tail } := by
    refine inner.elsewhere (.inr rfl) (fun i here => ?_) rfl rfl inner.inStatic inner.discarding rfl
      (List.suffix_refl _) (congrArg List.tail inner.tables) inner.writtenBefore
    exact .inr (Nat.le_of_eq (Option.some.inj here))
  split at emitted
  · exact called.trans (framed_emit _ _ _ _ emitted)
  · obtain ⟨-, rfl⟩ := pure_ok.1 emitted
    exact called

/-- A branch works in the scope it is sent to. -/
theorem framed_inBranch {body : Scoped.ScopeId} (hrun : Respects c State.Framed (run body)) :
    Respects c State.Framed (inBranch (run body)) := by
  intro s _ s' ended
  obtain ⟨t, u, worked, forgot, rfl⟩ := inBranch_inv ended
  have both := (hrun _ _ _ worked).trans (respects_forget framed_quiet _ _ _ _ forgot)
  refine { both with
    writtenBefore := congrArg List.tail both.writtenBefore
    conditional := ?_ }
  show u.conditional - 1 = s.conditional
  rw [both.conditional]
  rfl

theorem framed_guarded {body : Scoped.ScopeId} (hrun : Respects c State.Framed (run body)) :
    Respects c State.Framed (guarded run body) := by
  intro s scope s' ended
  obtain ⟨rfl, t, worked, rfl⟩ := guarded_inv ended
  have inner := framed_inBranch hrun _ _ _ worked
  refine inner.elsewhere (.inr rfl) (fun i here => ?_) rfl rfl inner.inStatic inner.discarding inner.conditional
    inner.table inner.tables inner.writtenBefore
  exact .inr (Nat.le_of_eq (Option.some.inj here))

/-- The first pass over a loop body leaves no statements. -/
theorem framed_firstPass {body : Scoped.ScopeId} (hrun : Respects c State.Framed (run body)) :
    Respects c State.Framed (loopPass run body none) := by
  intro s _ s' ended
  obtain ⟨t, worked, rfl⟩ := loopPass_inv ended
  have inner := framed_inBranch hrun _ _ _ worked
  exact inner.elsewhere (.inl rfl) nofun rfl rfl inner.inStatic rfl inner.conditional (List.suffix_refl _)
    (congrArg List.tail inner.tables) inner.writtenBefore

theorem framed_secondPass {body : Scoped.ScopeId} (hrun : Respects c State.Framed (run body)) :
    Respects c State.Framed (do
      let scope ← newScope
      loopPass run body (some scope)
      return scope) := by
  intro s scope s' ended
  obtain ⟨_, _, made, ended⟩ := bind_ok.1 ended
  obtain ⟨rfl, rfl⟩ := newScope_inv made
  obtain ⟨_, _, passed, ended⟩ := bind_ok.1 ended
  obtain ⟨-, rfl⟩ := pure_ok.1 ended
  obtain ⟨t, worked, rfl⟩ := loopPass_inv passed
  have inner := framed_inBranch hrun _ _ _ worked
  refine inner.elsewhere (.inr rfl) (fun i here => ?_) rfl rfl inner.inStatic rfl inner.conditional (List.suffix_refl _)
    (congrArg List.tail inner.tables) inner.writtenBefore
  exact .inr (Nat.le_of_eq (Option.some.inj here))

theorem framed_static {body : Scoped.ScopeId} (hrun : Respects c State.Framed (run body)) (exports : List VarId)
    (span : Span) : Respects c State.Framed (staticBody run body exports span) := by
  intro s records s' ended
  obtain ⟨t, u, worked, found, rfl⟩ := staticBody_inv ended
  have inner := (hrun _ _ _ worked).trans (respects_exported exports span _ _ _ found)
  refine inner.elsewhere (.inl rfl) (fun i here => .inl ?_) rfl rfl rfl inner.discarding inner.conditional
    (List.suffix_refl _) (congrArg List.tail inner.tables) inner.writtenBefore
  have here : staticScope s = some i := here
  unfold staticScope at here
  split at here
  · cases here
  · exact (Option.some.inj here).symm

theorem law_framed : Law.Branching c (fun _ => True) State.Framed where
  newSlot := framed_newSlot
  emit st _ := framed_emit st
  settled := respects_settled framed_quiet
  tracked := respects_tracked framed_quiet
  track v _ d := respects_track framed_quiet v d
  trackAt v _ r coord d := respects_trackAt framed_quiet v r coord d
  create v _ r := respects_create framed_quiet
    (fun s _ => { State.Framed.refl s with table := List.suffix_cons _ _ }) v r
  inlined _ site context given outs span hrun houts := framed_inlined site context given outs span hrun houts
  emitted := framed_emit
  returned := .modify fun s => { State.Framed.refl s with }
  statics _ := .modify fun s => { State.Framed.refl s with }
  withTable _ _ h _ _ _ ended := by
    obtain ⟨t, worked, rfl⟩ := withTable_inv ended
    have inner := h _ _ _ worked
    exact { inner with table := List.suffix_refl _, tables := congrArg List.tail inner.tables }
  guarded _ _ hrun := framed_guarded hrun
  firstPass _ _ hrun := framed_firstPass hrun
  secondPass _ _ hrun := framed_secondPass hrun
  static _ _ exports span hrun := framed_static hrun exports span

theorem framed_expression (hrun : ∀ i, Respects c State.Framed (run i)) (e : Scoped.Expr) :
    Respects c State.Framed (expression run e) :=
  respects_expression law_framed.toLaw
    ((opens_of_all law_framed.toEntering (fun _ => trivial) hrun).inlines law_framed.toEntering) e fun _ _ => trivial

theorem framed_block (depth : Nat) (i : Scoped.ScopeId) : Respects c State.Framed (block depth i) :=
  respects_block law_framed.extended (fun _ => trivial) depth i

/-! ## The stacks -/

/-- The table that is current again is the one on top of the stack. -/
theorem withTable_pops {table : Table} {m : Stage α} {a : α} (hm : Respects c State.Framed m)
    (ended : withTable table m c s = .ok (a, s')) :
    ∃ t, m c { s with table := table, tables := s.table :: s.tables } = .ok (a, t) ∧
      s' = { t with table := t.tables.headD [], tables := t.tables.tail } := by
  obtain ⟨t, worked, rfl⟩ := withTable_inv ended
  have kept : t.tables = s.table :: s.tables := (hm _ _ _ worked).tables
  exact ⟨t, worked, by rw [kept]; rfl⟩

/-- What was written before a branch is on top of the stack when it is left. -/
theorem inBranch_pops {body : Scoped.ScopeId} (hrun : Respects c State.Framed (run body))
    (ended : inBranch (run body) c s = .ok ((), s')) :
    ∃ t u, run body c { s with
        written := [], writtenBefore := s.written :: s.writtenBefore, conditional := s.conditional + 1 } = .ok ((), t) ∧
      forget t.written c t = .ok ((), u) ∧ s' = { u with
        written := t.written ++ (u.writtenBefore.headD []).filter (!t.written.contains ·)
        writtenBefore := u.writtenBefore.tail, conditional := u.conditional - 1 } := by
  obtain ⟨t, u, worked, forgot, rfl⟩ := inBranch_inv ended
  have both := (hrun _ _ _ worked).trans (respects_forget framed_quiet _ _ _ _ forgot)
  have kept : u.writtenBefore = s.written :: s.writtenBefore := both.writtenBefore
  exact ⟨t, u, worked, forgot, by rw [kept]; rfl⟩

/-- The caller's table is on top of the stack when a call ends. -/
theorem inlineCall_pops {site : MacroSite} {context : Table} {given : List (VarId × Value)} {outs : Stage Value}
    {span : Span} {a : Value} (hrun : Respects c State.Framed (bindInputs given >>= fun _ => run site.body))
    (houts : Respects c State.Framed outs)
    (ended : (newScope >>= inlineCall run site context given outs span) c s = .ok (a, s')) :
    ∃ t u,
      (bindInputs given >>= fun _ => run site.body) c { s with
        out := s.out.addScope, current := some s.out.scopes.size, conditional := 0, returned := false
        table := context, tables := s.table :: s.tables } = .ok ((), t) ∧
      outs c { t with returned := false, table := s.table ++ t.table } = .ok (a, u) ∧
      (if !(u.out.scope s.out.scopes.size).isEmpty then emit (.inlined s.out.scopes.size span) else pure ()) c { u with
        current := s.current, conditional := s.conditional, returned := s.returned, table := u.tables.headD []
        tables := u.tables.tail } = .ok ((), s') := by
  obtain ⟨t, u, body, outputs, emitted⟩ := inlineCall_inv ended
  have kept : u.tables = s.table :: s.tables := (framed_inside hrun houts body outputs).tables
  refine ⟨t, u, body, outputs, ?_⟩
  rw [kept] at emitted ⊢
  exact emitted

/-! ## Statements -/

/-- A statement of any kind is framed, in whatever state it is worked out. -/
theorem framed_statement {depth : Nat} {st : Scoped.Stmt} (ended : statement (block depth) st c s = .ok ((), s')) :
    s.Framed s' ∧ ∀ v, (s.table.lookup v).isSome → (s'.table.lookup v).isSome := by
  have law : Law.Extended c (fun _ => True) State.Framed := law_framed.extended
  have opens := opens_of_all law.toEntering (fun _ => trivial) (framed_block depth)
  have framed : s.Framed s' := respects_statement law opens (fun _ _ => trivial) s () s' ended
  refine ⟨framed, fun v listed => ?_⟩
  obtain ⟨added, table⟩ := framed.table
  rw [← table, List.lookup_append, Option.isSome_or, listed, Bool.or_true]

/-- A loop whose body starts with a branch that holds a static block. -/
def staticInBranch : String :=
  "input INT a;\noutput INT out;\nout = 0;\nfor i = 0 to a \x7b\n" ++
    "    if i == 1 \x7b static k \x7b INT k; k = 2; \x7d out = k; \x7d\n\x7d\n"

/-- Works out the first statement in the body of a loop of the entry, in the second pass. -/
def stageInLoop (depth place : Nat) (c : Context) : Except Failure (Scoped.Stmt × State × State) :=
  match (c.source.scope c.source.entry).body[place]? with
  | some (.loop counter _ _ body _ _) => do
    let (_, s) ← upTo depth place c { tracked := Array.replicate c.source.vars.size none }
    let w ← twoPasses (block depth) counter body c s
    let inside := w.between.withScope.entering (some w.between.out.scopes.size)
    match (c.source.scope body).body[0]? with
    | some st => do
      let (_, s') ← statement (block depth) st c inside
      return (st, inside, s')
    | none => throw .tooDeep
  | _ => throw .tooDeep

theorem stageInLoop_ok {depth place : Nat} {st : Scoped.Stmt}
    (h : stageInLoop depth place c = .ok (st, s, s')) : statement (block depth) st c s = .ok ((), s') := by
  unfold stageInLoop at h
  split at h
  · obtain ⟨⟨_, s₀⟩, -, h⟩ := except_bind_ok.1 h
    obtain ⟨w, -, h⟩ := except_bind_ok.1 h
    dsimp only at h
    split at h
    · obtain ⟨⟨_, t⟩, ended, h⟩ := except_bind_ok.1 h
      cases h
      exact ended
    · cases h
  · cases h

/-- The branch goes to the scope of the loop, the static block to the static initialization. A table and a set of
written variables are on the stacks and stay there. -/
theorem framed_statement_static :
    ∃ p c', (Compiler.scopedOf "main").run (Compiler.ofText staticInBranch) = (.ok p, c') ∧
      ∃ st s s', stageInLoop 6 3 ⟨p, {}⟩ = .ok (st, s, s') ∧
        (s.Framed s' ∧ ∀ v, (s.table.lookup v).isSome → (s'.table.lookup v).isSome) ∧
        s.tables.length = 1 ∧ s.writtenBefore.length = 1 ∧ s.current = some 3 ∧ s'.out.scopes.size = 5 ∧
        (s.out.scope 3).size = 0 ∧ (s'.out.scope 3).size = 1 ∧
        (s.out.scope s.out.staticInit).size = 0 ∧ (s'.out.scope s.out.staticInit).size = 1 := by
  obtain ⟨p, c', built, tested⟩ := Compiler.ok_of_any (x := Compiler.scopedOf "main")
    (c := Compiler.ofText staticInBranch) (P := fun p => (stageInLoop 6 3 ⟨p, {}⟩).toOption.any fun (_, s, s') =>
      decide (s.tables.length = 1 ∧ s.writtenBefore.length = 1 ∧ s.current = some 3 ∧ s'.out.scopes.size = 5 ∧
        (s.out.scope 3).size = 0 ∧ (s'.out.scope 3).size = 1 ∧
        (s.out.scope s.out.staticInit).size = 0 ∧ (s'.out.scope s.out.staticInit).size = 1))
    (by decide +kernel)
  obtain ⟨⟨st, s, s'⟩, staged, tested⟩ := exists_ok_of_any tested
  exact ⟨p, c', built, st, s, s', staged, framed_statement (stageInLoop_ok staged), of_decide_eq_true tested⟩

end Stage

end SignalLang.Staged
