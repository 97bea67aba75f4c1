import Mathlib.Data.List.Forall2
import SignalLang.Proofs.Staged.MacroFlow

/-!
# Two runs side by side

Two runs of staging are compared step by step (`Pair`). Their contexts may differ in names, and their states in what
they began with: the statements, the log, and the tracked values of the variables that they do not share. A step then
has results of one kind in both, or it stops in both for one reason, and it adds the same to both states
(`Pair.States`, `Pair.Run`). Here are the steps of the state, and those of values and targets.
-/

namespace SignalLang

/-- Two problems are of one kind, with the error in one place. -/
structure Problem.Alike (p q : Problem) : Prop where
  kind : p.kind = q.kind
  span : p.span = q.span

theorem Problem.Alike.refl (p : Problem) : p.Alike p := ⟨rfl, rfl⟩

theorem Problem.alike_error (kind : Kind) (span : Span) (caption caption' : String) :
    (Problem.error kind span caption).Alike (.error kind span caption') := ⟨rfl, rfl⟩

/-- Hints do not count. -/
theorem Problem.alike_hint (kind : Kind) (span near near' : Span) (caption caption' text text' : String) :
    ((Problem.error kind span caption).hint near text).Alike ((Problem.error kind span caption').hint near' text') :=
  ⟨rfl, rfl⟩

/-- Two computations both succeed with results that `R` relates, or both fail for reasons that `E` relates. -/
inductive Outcomes {ε ε' α β : Type} (R : α → β → Prop) (E : ε → ε' → Prop) : Except ε α → Except ε' β → Prop
  | ok {a b} (h : R a b) : Outcomes R E (.ok a) (.ok b)
  | error {e e'} (h : E e e') : Outcomes R E (.error e) (.error e')

theorem Outcomes.bind {ε ε' α β γ δ : Type} {R : α → β → Prop} {S : γ → δ → Prop} {E : ε → ε' → Prop} {x : Except ε α}
    {y : Except ε' β} {f : α → Except ε γ} {g : β → Except ε' δ} (h : Outcomes R E x y)
    (hf : ∀ a b, R a b → Outcomes S E (f a) (g b)) : Outcomes S E (x.bind f) (y.bind g) := by
  cases h with
  | ok h => exact hf _ _ h
  | error h => exact .error h

/-- What is known of the first result can be used beside the second. -/
theorem Outcomes.and {ε ε' α β : Type} {R : α → β → Prop} {S : α → Prop} {E : ε → ε' → Prop} {x : Except ε α}
    {y : Except ε' β} (h : Outcomes R E x y) (hx : ∀ a, x = .ok a → S a) : Outcomes (fun a b => R a b ∧ S a) E x y := by
  cases h with
  | ok h => exact .ok ⟨h, hx _ rfl⟩
  | error h => exact .error h

theorem Outcomes.mono {ε ε' α β : Type} {R S : α → β → Prop} {E : ε → ε' → Prop} {x : Except ε α} {y : Except ε' β}
    (h : Outcomes R E x y) (hS : ∀ a b, R a b → S a b) : Outcomes S E x y := by
  cases h with
  | ok h => exact .ok (hS _ _ h)
  | error h => exact .error h

/-- The second program has other names. -/
structure Scoped.Program.Renames (p q : Scoped.Program) : Prop where
  body : ∀ i, (q.scope i).body = (p.scope i).body
  ins : ∀ i, (q.scope i).inputs = (p.scope i).inputs
  outs : ∀ i, (q.scope i).outputs = (p.scope i).outputs
  var : ∀ v, ∃ name, q.var v = { p.var v with name := name }
  vars : q.vars.size = p.vars.size
  builtins : q.builtins = p.builtins
  entry : q.entry = p.entry
  inputs : q.inputs = p.inputs
  outputs : q.outputs = p.outputs

namespace Staged

open Scoped (VarId)

/-- Staging stopped for one reason, whatever names stand in its words. -/
inductive Failure.Alike : Failure → Failure → Prop
  | problem {p q : Problem} (h : p.Alike q) : Failure.Alike (.problem p) (.problem q)
  | fault {f g : Fault} : Failure.Alike (.fault f) (.fault g)
  | tooDeep : Failure.Alike .tooDeep .tooDeep

/-- The second context has other names. -/
structure Context.Renames (c c' : Context) : Prop where
  source : c.source.Renames c'.source
  options : c'.options = c.options

theorem Context.Renames.refl (c : Context) : c.Renames c :=
  ⟨⟨fun _ => rfl, fun _ => rfl, fun _ => rfl, fun _ => ⟨_, rfl⟩, rfl, rfl, rfl, rfl, rfl⟩, rfl⟩

/-- What two states must have in common to go on alike. -/
def State.common (s : State) : State :=
  { s with
    out := { s.out with scopes := #[] }
    tables := [], tracked := #[], written := [], writtenBefore := [], log := #[] }

/-- The parts of a state that two runs may have apart. -/
def State.own (s : State) : Array (Array Stmt) × Array (Option Datum) × List VarId × Array Write :=
  (s.out.scopes, s.tracked, s.written, s.log)

/-- Two runs of staging under contexts that differ in names only. Each began in a state of its own, and keeps inside the
scopes `inside`, where only variables of `shared` are mentioned. -/
structure Pair where
  c : Context
  c' : Context
  s₀ : State
  t₀ : State
  inside : Scoped.ScopeId → Prop
  shared : VarId → Prop
  renames : c.Renames c'
  leads : ∀ {i j}, inside i → c.source.Leads i j → inside j
  mentions : ∀ {i}, inside i → Scoped.Only shared (c.source.scope i).vars

namespace Pair

variable {α β γ δ : Type} {P : Pair} {strict : Prop} {s t : State}

/-- Two states of the runs. If `strict`, what was written is the same too. -/
structure States (P : Pair) (strict : Prop) (s t : State) : Prop where
  common : t.common = s.common
  size : t.out.scopes.size = s.out.scopes.size
  grown : P.s₀.out.scopes.size ≤ s.out.scopes.size ∧ P.t₀.out.scopes.size ≤ s.out.scopes.size
  /-- Both runs added the same to each scope. -/
  added : ∀ i, ∃ new, s.out.scope i = P.s₀.out.scope i ++ new ∧ t.out.scope i = P.t₀.out.scope i ++ new
  width : t.tracked.size = s.tracked.size
  tracked : ∀ v, P.shared v → t.tracked[v]? = s.tracked[v]?
  written : strict → t.written = s.written
  log : ∃ new, s.log = P.s₀.log ++ new ∧ t.log = P.t₀.log ++ new

namespace States

variable (h : P.States strict s t)

include h

theorem current : t.current = s.current := (congrArg State.current h.common :)

theorem records : t.records = s.records := (congrArg State.records h.common :)

theorem table : t.table = s.table := (congrArg State.table h.common :)

theorem inStatic : t.inStatic = s.inStatic := (congrArg State.inStatic h.common :)

theorem discarding : t.discarding = s.discarding := (congrArg State.discarding h.common :)

theorem conditional : t.conditional = s.conditional := (congrArg State.conditional h.common :)

theorem returned : t.returned = s.returned := (congrArg State.returned h.common :)

theorem vars : t.out.vars = s.out.vars := congrArg (·.out.vars) h.common

theorem staticInit : t.out.staticInit = s.out.staticInit := congrArg (·.out.staticInit) h.common

theorem entry : t.out.entry = s.out.entry := congrArg (·.out.entry) h.common

/-- A step that changes both states in one way, and nothing of what they have apart. -/
theorem still {s' t' : State} (common : t'.common = s'.common) (own : s'.own = s.own) (own' : t'.own = t.own) :
    P.States strict s' t' := by
  simp only [State.own, Prod.mk.injEq] at own own'
  obtain ⟨scopes, tracked, written, log⟩ := own
  obtain ⟨scopes', tracked', written', log'⟩ := own'
  have same (i : ScopeId) : s'.out.scope i = s.out.scope i := by rw [Program.scope, Program.scope, scopes]
  have same' (i : ScopeId) : t'.out.scope i = t.out.scope i := by rw [Program.scope, Program.scope, scopes']
  constructor
  · exact common
  · rw [scopes, scopes', h.size]
  · rw [scopes]
    exact h.grown
  · intro i
    rw [same, same']
    exact h.added i
  · rw [tracked, tracked', h.width]
  · intro v hv
    rw [tracked, tracked', h.tracked v hv]
  · intro strictly
    rw [written, written', h.written strictly]
  · rw [log, log']
    exact h.log

/-- What both runs write. -/
theorem write (w : Write) (f : List VarId → List VarId) : P.States strict
    { s with written := f s.written, log := s.log.push w } { t with written := f t.written, log := t.log.push w } := by
  refine ⟨h.common, h.size, h.grown, h.added, h.width, h.tracked, fun strictly => ?_, ?_⟩
  · rw [h.written strictly]
  · obtain ⟨new, hs, ht⟩ := h.log
    exact ⟨new.push w, by rw [hs, Array.append_push], by rw [ht, Array.append_push]⟩

theorem put {v : VarId} {x : Option Datum} : P.States strict { s with tracked := s.tracked.setIfInBounds v x }
    { t with tracked := t.tracked.setIfInBounds v x } := by
  refine ⟨h.common, h.size, h.grown, h.added, ?_, fun u hu => ?_, h.written, h.log⟩
  · simp only [Array.size_setIfInBounds, h.width]
  · simp only [Array.getElem?_setIfInBounds, h.width, h.tracked u hu]

theorem addScope : P.States strict { s with out := s.out.addScope } { t with out := t.out.addScope } := by
  refine ⟨h.common, ?_, ?_, fun i => ?_, h.width, h.tracked, h.written, h.log⟩
  · simp only [Program.size_addScope, h.size]
  · simp only [Program.size_addScope]
    exact ⟨Nat.le_succ_of_le h.grown.1, Nat.le_succ_of_le h.grown.2⟩
  · simp only [Program.scope_addScope]
    exact h.added i

theorem addStmt (i : ScopeId) (st : Stmt) :
    P.States strict { s with out := s.out.addStmt i st } { t with out := t.out.addStmt i st } := by
  refine ⟨h.common, ?_, ?_, fun j => ?_, h.width, h.tracked, h.written, h.log⟩
  · simp only [Program.scopes_size_addStmt, h.size]
  · simp only [Program.scopes_size_addStmt]
    exact h.grown
  · obtain ⟨new, hs, ht⟩ := h.added j
    rcases eq_or_ne i j with rfl | other
    · rcases Nat.lt_or_ge i s.out.scopes.size with made | missing
      · refine ⟨new.push st, ?_, ?_⟩
        · rw [Program.scope_addStmt_self made, hs, Array.append_push]
        · rw [Program.scope_addStmt_self (h.size ▸ made), ht, Array.append_push]
      · refine ⟨new, ?_, ?_⟩
        · rw [← hs, Program.scope_of_size_le missing, Program.scope_of_size_le]
          rwa [Program.scopes_size_addStmt]
        · have missing : t.out.scopes.size ≤ i := h.size ▸ missing
          rw [← ht, Program.scope_of_size_le missing, Program.scope_of_size_le]
          rwa [Program.scopes_size_addStmt]
    · exact ⟨new, by rw [Program.scope_addStmt_of_ne other, hs], by rw [Program.scope_addStmt_of_ne other, ht]⟩

/-- A scope that was made in the runs is empty in both or in none. -/
theorem isEmpty {i : ScopeId} (made : P.s₀.out.scopes.size ≤ i ∧ P.t₀.out.scopes.size ≤ i) :
    (t.out.scope i).isEmpty = (s.out.scope i).isEmpty := by
  obtain ⟨new, hs, ht⟩ := h.added i
  rw [hs, ht, Program.scope_of_size_le made.1, Program.scope_of_size_le made.2]

end States

/-- In both runs a step ends with results that `R` relates, or it stops for one reason. -/
def Run (P : Pair) (strict : Prop) (s t : State) (m : Stage α) (m' : Stage β) (R : α → β → Prop) : Prop :=
  Outcomes (fun x y => P.States strict x.2 y.2 ∧ R x.1 y.1) Failure.Alike (m P.c s) (m' P.c' t)

namespace Run

open Stage (Ends)

variable {m : Stage α} {m' : Stage β} {f : α → Stage γ} {f' : β → Stage δ} {R : α → β → Prop} {Q : γ → δ → Prop}

theorem pure {a : α} {b : β} (h : P.States strict s t) (hr : R a b) :
    P.Run strict s t (Pure.pure a) (Pure.pure b) R := .ok ⟨h, hr⟩

/-- The first step may be one of a branch, where what was written before does not count. -/
theorem bind_inner {inner : Prop} (hm : P.Run inner s t m m' R)
    (hf : ∀ a b s' t', P.States inner s' t' → R a b → P.Run strict s' t' (f a) (f' b) Q) :
    P.Run strict s t (m >>= f) (m' >>= f') Q := by
  unfold Run
  rw [Steps.bind_run, Steps.bind_run]
  exact Outcomes.bind hm fun x y h => hf x.1 y.1 x.2 y.2 h.1 h.2

theorem bind (hm : P.Run strict s t m m' R)
    (hf : ∀ a b s' t', P.States strict s' t' → R a b → P.Run strict s' t' (f a) (f' b) Q) :
    P.Run strict s t (m >>= f) (m' >>= f') Q := hm.bind_inner hf

/-- What comes behind a step may use what the step leaves in the first run. -/
theorem bind_ends {E : State → α → Prop} (hm : P.Run strict s t m m' R) (he : Ends (.faulty True) P.c s m E)
    (hf : ∀ a b s' t', P.States strict s' t' → R a b → E s' a → P.Run strict s' t' (f a) (f' b) Q) :
    P.Run strict s t (m >>= f) (m' >>= f') Q := by
  unfold Run
  rw [Steps.bind_run, Steps.bind_run]
  refine Outcomes.bind (Outcomes.and hm fun x ran => he.ok ran) fun x y h => ?_
  exact hf x.1 y.1 x.2 y.2 h.1.1 h.1.2 h.2

theorem mono {R' : α → β → Prop} (hm : P.Run strict s t m m' R) (h : ∀ a b, R a b → R' a b) :
    P.Run strict s t m m' R' :=
  Outcomes.mono hm fun _ _ related => related.imp_right (h _ _)

theorem map {g : α → γ} {g' : β → δ} (hm : P.Run strict s t m m' fun a b => Q (g a) (g' b)) :
    P.Run strict s t (g <$> m) (g' <$> m') Q := by
  rw [map_eq_pure_bind, map_eq_pure_bind]
  exact hm.bind fun a b s' t' h hr => .pure h hr

theorem get_bind {f : State → Stage γ} {f' : State → Stage δ} (h : P.Run strict s t (f s) (f' t) Q) :
    P.Run strict s t (get >>= f) (get >>= f') Q := h

theorem read_bind {f : Context → Stage γ} {f' : Context → Stage δ} (h : P.Run strict s t (f P.c) (f' P.c') Q) :
    P.Run strict s t (read >>= f) (read >>= f') Q := h

theorem set_bind {s' t' : State} {f : PUnit → Stage γ} {f' : PUnit → Stage δ} (h : P.Run strict s' t' (f ⟨⟩) (f' ⟨⟩) Q) :
    P.Run strict s t (set s' >>= f) (set t' >>= f') Q := h

theorem modify_bind {g g' : State → State} {f : PUnit → Stage γ} {f' : PUnit → Stage δ}
    (h : P.Run strict (g s) (g' t) (f ⟨⟩) (f' ⟨⟩) Q) : P.Run strict s t (modify g >>= f) (modify g' >>= f') Q := h

theorem modify {g g' : State → State} (h : P.States strict (g s) (g' t)) :
    P.Run strict s t (modify g) (modify g') fun _ _ => True := .ok ⟨h, trivial⟩

theorem refuse {p q : Problem} (h : p.Alike q) : P.Run strict s t (Stage.refuse p) (Stage.refuse q) R :=
  .error (.problem h)

theorem refuse_bind {p q : Problem} (h : p.Alike q) :
    P.Run strict s t (Stage.refuse p >>= f) (Stage.refuse q >>= f') Q := .error (.problem h)

theorem breakDown (x y : Fault) : P.Run strict s t (Stage.breakDown x) (Stage.breakDown y) R := .error .fault

/-- A check that both runs make alike. -/
theorem check {c : Prop} [Decidable c] {p q : Problem} (h : p.Alike q) (hm : ¬c → P.Run strict s t m m' R)
    {g : γ → Stage α} {g' : γ → Stage β} : P.Run strict s t (if c then Stage.refuse p >>= g else m)
      (if c then Stage.refuse q >>= g' else m') R := by
  split
  · exact .refuse_bind h
  · exact hm ‹_›

/-- A variable of the source has one definition and one value from the start; only its name depends on the context. -/
theorem sourceVar_bind {v : VarId} {f : Scoped.Variable → Stage γ} {f' : Scoped.Variable → Stage δ}
    (h : ∀ (x : Scoped.Variable) (name : String), P.c.source.var v = x →
      P.Run strict s t (f x) (f' { x with name := name }) Q) :
    P.Run strict s t (Stage.sourceVar v >>= f) (Stage.sourceVar v >>= f') Q := by
  obtain ⟨name, same⟩ := P.renames.source.var v
  have both := h _ name rfl
  rw [← same] at both
  exact both

theorem mapM {xs : List α} {ys : List β} {f : α → Stage γ} {f' : β → Stage δ} (hxs : List.Forall₂ R xs ys)
    (h : P.States strict s t)
    (hf : ∀ a b s t, R a b → P.States strict s t → P.Run strict s t (f a) (f' b) Q) :
    P.Run strict s t (xs.mapM f) (ys.mapM f') (List.Forall₂ Q) := by
  induction hxs generalizing s t with
  | nil => exact .pure h .nil
  | cons hr _ ih =>
    rw [List.mapM_cons, List.mapM_cons]
    refine (hf _ _ s t hr h).bind fun a b s₁ t₁ h₁ hab => (ih h₁).bind fun as bs s₂ t₂ h₂ hs => ?_
    exact .pure h₂ (.cons hab hs)

theorem forM {xs : List α} {f f' : α → Stage PUnit} (h : P.States strict s t)
    (hf : ∀ a ∈ xs, ∀ s t, P.States strict s t → P.Run strict s t (f a) (f' a) fun _ _ => True) :
    P.Run strict s t (xs.forM f) (xs.forM f') fun _ _ => True := by
  induction xs generalizing s t with
  | nil => exact .pure h trivial
  | cons x xs ih =>
    refine (hf x List.mem_cons_self s t h).bind fun _ _ s₁ t₁ h₁ _ => ?_
    exact ih h₁ fun y hy => hf y (List.mem_cons_of_mem _ hy)

end Run

/-! ## The state -/

section Steps

open Stage

variable (h : P.States strict s t)

include h

theorem run_orBadShape (x : Option α) : P.Run strict s t (orBadShape x) (orBadShape x) Eq := by
  unfold orBadShape
  split
  · exact .pure h rfl
  · exact .breakDown _ _

theorem run_emit (st : Stmt) : P.Run strict s t (emit st) (emit st) fun _ _ => True := by
  refine .modify ?_
  have current := h.current
  split
  · rename_i scope here
    rw [here] at current
    split
    · rename_i scope' there
      obtain rfl : scope' = scope := Option.some.inj (there.symm.trans current)
      exact h.addStmt _ st
    · rename_i there
      cases there.symm.trans current
  · rename_i here
    rw [here] at current
    split
    · rename_i scope' there
      cases there.symm.trans current
    · exact h

/-- A new scope has one number in both runs, and neither began with it. -/
theorem run_newScope : P.Run strict s t newScope newScope fun i j =>
    i = j ∧ P.s₀.out.scopes.size ≤ i ∧ P.t₀.out.scopes.size ≤ i :=
  .get_bind (.modify_bind (.pure h.addScope ⟨h.size.symm, h.grown⟩))

theorem run_newSlot (ty : Ty) (definition : Span) :
    P.Run strict s t (newSlot ty definition) (newSlot ty definition) Eq := by
  refine .get_bind (.modify_bind (.pure ?_ (congrArg Array.size h.vars).symm))
  exact h.still (congrArg (fun u : State => { u with out := u.out.addVariable ⟨ty, definition⟩ }) h.common) rfl rfl

theorem run_recordId (v : VarId) : P.Run strict s t (recordId? v) (recordId? v) Eq :=
  .get_bind (.pure h (by rw [h.table]))

theorem run_record (id : Nat) : P.Run strict s t (record id) (record id) Eq :=
  .get_bind (.pure h (by rw [h.records]))

theorem run_recordOf (v : VarId) : P.Run strict s t (recordOf v) (recordOf v) Eq := by
  refine (run_recordId h v).bind fun id id' s₁ t₁ h₁ same => ?_
  subst same
  split
  · refine (run_record h₁ _).bind fun r r' s₂ t₂ h₂ same => .pure h₂ ?_
    rw [same]
  · exact .read_bind (.breakDown _ _)

theorem run_track (v : VarId) (d : Datum) : P.Run strict s t (track v d) (track v d) fun _ _ => True :=
  .modify_bind (.modify (h.put.write _ fun written => if written.contains v then written else v :: written))

theorem run_tracked {v : VarId} (hv : P.shared v) (r : Record) : P.Run strict s t (tracked v r) (tracked v r) Eq := by
  have same : t.tracked.getD v none = s.tracked.getD v none := by
    rw [Array.getD_eq_getD_getElem?, Array.getD_eq_getD_getElem?, h.tracked v hv]
  refine .get_bind ?_
  dsimp only
  rw [same]
  split
  · exact .pure h rfl
  · exact .modify_bind (.pure h.put rfl)
  · exact .modify_bind (.pure h.put rfl)
  · exact .pure h rfl

theorem run_trackAt {v : VarId} (hv : P.shared v) (r : Record) (coord : List Int) (d : Datum) :
    P.Run strict s t (trackAt v r coord d) (trackAt v r coord d) fun _ _ => True := by
  refine (run_tracked h hv r).bind fun whole whole' s₁ t₁ h₁ same => ?_
  subst same
  split
  · exact run_track h₁ v d
  · refine (run_orBadShape h₁ _).bind fun new new' s₂ t₂ h₂ same => ?_
    subst same
    exact .modify_bind (.modify
      (h₂.put.write _ fun written => if written.contains v then written else v :: written))

theorem run_create (v : VarId) (r : Record) : P.Run strict s t (create v r) (create v r) fun _ _ => True := by
  refine .modify_bind (run_track ?_ _ _)
  exact h.still (congrArg (fun u : State =>
    { u with records := u.records.push r, table := (v, u.records.size) :: u.table }) h.common) rfl rfl

theorem run_forget (written : List VarId) :
    P.Run strict s t (forget written) (forget written) fun _ _ => True := by
  refine .forM h fun v _ s t h => (run_recordId h v).bind fun id id' s₁ t₁ h₁ same => ?_
  subst same
  split
  · exact .pure h₁ trivial
  · refine (run_record h₁ _).bind fun r r' s₂ t₂ h₂ same => ?_
    subst same
    split
    · exact .modify_bind (.modify (h₂.put.write _ id))
    · exact .pure h₂ trivial

/-- A step under a table of its own. -/
theorem run_withTable {act : Stage α} {act' : Stage β} {R : α → β → Prop} (flows : s.Flows P.c.source) (table : Table)
    (hact : ∀ s t, P.States strict s t → s.Flows P.c.source → P.Run strict s t act act' R) :
    P.Run strict s t (withTable table act) (withTable table act') R := by
  have inner : P.States strict { s with table := table, tables := s.table :: s.tables }
      { t with table := table, tables := t.table :: t.tables } :=
    h.still (congrArg (fun u : State => { u with table := table }) h.common) rfl rfl
  refine .get_bind (.modify_bind ((hact _ _ inner ⟨flows.tracked, flows.log⟩).bind fun a b s₁ t₁ h₁ hab => ?_))
  refine .modify_bind (.pure ?_ hab)
  rw [h.table]
  exact h₁.still (congrArg (fun u : State => { u with table := s.table }) h₁.common) rfl rfl

/-- A branch begins with nothing written, so inside of it the same is written in both runs. -/
theorem run_inBranch {act : Stage Unit} (flows : s.Flows P.c.source)
    (hact : ∀ s t, P.States True s t → s.Flows P.c.source → P.Run True s t act act fun _ _ => True) :
    P.Run strict s t (inBranch act) (inBranch act) fun _ _ => True := by
  have inner : P.States True
      { s with written := [], writtenBefore := s.written :: s.writtenBefore, conditional := s.conditional + 1 }
      { t with written := [], writtenBefore := t.written :: t.writtenBefore, conditional := t.conditional + 1 } :=
    ⟨congrArg (fun u : State => { u with conditional := u.conditional + 1 }) h.common, h.size, h.grown, h.added,
      h.width, h.tracked, fun _ => rfl, h.log⟩
  refine .get_bind (.modify_bind ?_)
  refine (hact _ _ inner ⟨flows.tracked, flows.log⟩).bind_inner fun _ _ s₁ t₁ h₁ _ => .get_bind ?_
  dsimp only
  rw [h₁.written trivial]
  refine (run_forget h₁ s₁.written).bind_inner fun _ _ s₂ t₂ h₂ _ => .modify ?_
  refine ⟨?_, h₂.size, h₂.grown, h₂.added, h₂.width, h₂.tracked, fun strictly => ?_, h₂.log⟩
  · exact congrArg (fun u : State => { u with conditional := u.conditional - 1 }) h₂.common
  · rw [h.written strictly]

end Steps

/-! ## Values and targets -/

/-- Two views of one part, taken at one time of the runs. -/
inductive Views (P : Pair) : Glimpse → Glimpse → Prop
  | mk (var : VarId) (path : List Int) (seen : Datum) (n : Nat) (attached : Bool) :
    Views P ⟨var, path, seen, P.s₀.log.size + n, attached⟩ ⟨var, path, seen, P.t₀.log.size + n, attached⟩

/-- Two values that are the same but for the times of their views. -/
inductive Values (P : Pair) : Value → Value → Prop
  | known (d : Datum) (ty : Ty) (span : Span) : Values P ⟨.known d, ty, span⟩ ⟨.known d, ty, span⟩
  | runtime (e : Expr) (ty : Ty) (span : Span) {g h : Option Glimpse} (views : Option.Rel P.Views g h) :
    Values P ⟨.runtime e g, ty, span⟩ ⟨.runtime e h, ty, span⟩

theorem Views.see {g h : Glimpse} (hv : P.Views g h) (w : Write) : P.Views (g.see w) (h.see w) := by
  obtain ⟨var, path, seen, n, attached⟩ := hv
  unfold Glimpse.see
  dsimp only
  split
  · exact .mk ..
  · split
    · exact .mk ..
    · split
      · split
        · exact .mk ..
        · exact .mk ..
      · exact .mk ..

theorem Views.foldl_see {g h : Glimpse} (hv : P.Views g h) (ws : List Write) :
    P.Views (ws.foldl Glimpse.see g) (ws.foldl Glimpse.see h) := by
  induction ws generalizing g h with
  | nil => exact hv
  | cons w ws ih => exact ih (hv.see w)

theorem Views.refresh {g h : Glimpse} (hv : P.Views g h) (hs : P.States strict s t) :
    P.Views (g.refresh s.log) (h.refresh t.log) := by
  obtain ⟨new, log, log'⟩ := hs.log
  obtain ⟨var, path, seen, n, attached⟩ := hv
  rw [log, log']
  unfold Glimpse.refresh
  have later (xs : Array Write) : (xs ++ new).extract (xs.size + n) (xs ++ new).size = new.extract n new.size := by
    simp [Array.extract_append]
  simp only [Array.size_append, Nat.add_left_cancel_iff] at later ⊢
  split
  · exact .mk ..
  · rw [later, later, ← Array.foldl_toList, ← Array.foldl_toList]
    have seen := Views.foldl_see (.mk (P := P) var path seen n attached) (new.extract n new.size).toList
    generalize List.foldl _ _ _ = g at seen ⊢
    generalize List.foldl _ _ _ = h at seen ⊢
    cases seen
    exact .mk ..

theorem Values.ty {v v' : Value} (hv : P.Values v v') : v'.ty = v.ty := by
  cases hv <;> rfl

theorem Values.span {v v' : Value} (hv : P.Values v v') : v'.span = v.span := by
  cases hv <;> rfl

theorem Values.known? {v v' : Value} (hv : P.Values v v') : v'.known? = v.known? := by
  cases hv <;> rfl

theorem Values.type? {v v' : Value} (hv : P.Values v v') : v'.type? = v.type? := by
  cases hv <;> rfl

section Steps

open Stage

variable (h : P.States strict s t)

include h

theorem run_asExpr {v w : Value} (hv : P.Values v w) : P.Run strict s t (asExpr v) (asExpr w) Eq := by
  unfold asExpr
  cases hv with
  | known d ty span =>
    dsimp only
    split
    · exact .pure h rfl
    · exact .refuse (.refl _)
  | runtime e ty span views => exact .pure h rfl

theorem run_datumOf (c : Constant) : P.Run strict s t (datumOf c) (datumOf c) Eq := by
  refine .get_bind (.pure h ?_)
  rw [h.table]

omit h in
theorem run_crossStream {R : α → β → Prop} (v : VarId) (span : Span) :
    P.Run strict s t (crossStream v span) (crossStream v span) R :=
  .sourceVar_bind fun _ _ _ => .refuse (Problem.alike_hint ..)

/-- A variable that both runs share has one value in both. -/
theorem run_readVar {v : VarId} (hv : P.shared v) (span : Span) :
    P.Run strict s t (readVar v span) (readVar v span) P.Values := by
  refine (run_recordOf h v).bind fun p p' s₁ t₁ h₁ same => ?_
  subst same
  obtain ⟨id, r⟩ := p
  dsimp only
  split
  · exact .sourceVar_bind fun _ _ _ => .refuse (Problem.alike_hint ..)
  · refine .get_bind ?_
    rw [h₁.inStatic]
    split
    · exact run_crossStream v span
    · refine (run_tracked h₁ hv r).bind fun d d' s₂ t₂ h₂ same => ?_
      subst same
      split
      · exact .pure h₂ (.known ..)
      · split
        · exact run_crossStream v span
        · split
          · exact .sourceVar_bind fun _ _ _ => .refuse (Problem.alike_error ..)
          · refine .get_bind (.pure h₂ (.runtime _ _ _ (.some ?_)))
            obtain ⟨new, log, log'⟩ := h₂.log
            rw [log, log', Array.size_append, Array.size_append]
            exact .mk ..

theorem run_checkIndex {index index' : Value} (hi : P.Values index index') (length : Int) (whole : Span) :
    P.Run strict s t (checkIndex index length whole) (checkIndex index' length whole) fun _ _ => True := by
  unfold checkIndex
  cases hi with
  | known d ty span =>
    refine .check (.refl _) fun _ => ?_
    dsimp only
    split
    · exact .pure h trivial
    · refine .check (.refl _) fun _ => ?_
      split
      · exact .refuse (.refl _)
      · exact .pure h trivial
    · exact .breakDown _ _
  | runtime e ty span views => exact .check (.refl _) fun _ => .pure h trivial

theorem run_glimpseAt {g g' : Glimpse} (hg : P.Views g g') (i : Int) :
    P.Run strict s t (glimpseAt g i) (glimpseAt g' i) (Option.Rel P.Views) := by
  have refreshed := hg.refresh h
  refine .get_bind ?_
  dsimp only
  generalize g.refresh s.log = g at refreshed ⊢
  generalize g'.refresh t.log = g' at refreshed ⊢
  obtain ⟨var, path, seen, n, attached⟩ := refreshed
  dsimp only
  split
  · refine (run_orBadShape h _).bind fun d d' s₁ t₁ h₁ same => .pure h₁ ?_
    subst same
    exact .some (.mk ..)
  · exact .pure h .none

theorem run_runtimeElement {v v' index index' : Value} (span : v'.span = v.span) (hi : P.Values index index')
    (base : Expr) (ty : Ty) {g g' : Option Glimpse} (hg : Option.Rel P.Views g g') :
    P.Run strict s t (runtimeElement v base index ty g) (runtimeElement v' base index' ty g') P.Values := by
  refine (run_asExpr h hi).bind fun e e' s₁ t₁ h₁ same => .pure h₁ ?_
  subst same
  rw [span, hi.span]
  exact .runtime _ _ _ hg

theorem run_elementOf {v v' index index' : Value} (hv : P.Values v v') (hi : P.Values index index') (ty : Ty)
    (whole : Span) : P.Run strict s t (elementOf v index ty whole) (elementOf v' index' ty whole) P.Values := by
  have atRuntime {w w' : Value} (span : w'.span = w.span) (base : Expr) {g g' : Option Glimpse}
      (hg : Option.Rel P.Views g g') {s t : State} (h : P.States strict s t) :
      P.Run strict s t (runtimeElement w base index ty g) (runtimeElement w' base index' ty g') P.Values :=
    run_runtimeElement h span hi base ty hg
  unfold elementOf
  cases hv with
  | known d vty span =>
    cases hi with
    | known i ity ispan =>
      cases i with
      | int n =>
        refine (run_orBadShape h _).bind fun d d' s₁ t₁ h₁ same => .pure h₁ ?_
        subst same
        exact .known ..
      | _ => exact .breakDown _ _
    | runtime e ity ispan views =>
      dsimp only
      split
      · exact .refuse (.refl _)
      · exact atRuntime rfl _ .none h
  | runtime base vty span views =>
    cases views with
    | none => exact atRuntime rfl _ .none h
    | some views =>
      cases hi with
      | runtime e ity ispan views => exact atRuntime rfl _ .none h
      | known i ity ispan =>
        cases i with
        | int n =>
          refine (run_glimpseAt h views n).bind fun part part' s₁ t₁ h₁ parts => ?_
          cases parts with
          | none => exact atRuntime rfl _ .none h₁
          | some views =>
            obtain ⟨var, path, seen, m, attached⟩ := views
            dsimp only
            split
            · exact .pure h₁ (.known ..)
            · exact atRuntime rfl _ (.some (.mk ..)) h₁
        | _ => exact atRuntime rfl _ .none h

theorem run_folded (span : Span) (result : Except FoldError Datum) :
    P.Run strict s t (folded span result) (folded span result) Eq := by
  unfold folded
  split
  · exact .pure h rfl
  · exact .refuse (.refl _)
  · exact .refuse (.refl _)
  · exact .breakDown _ _
  · exact .breakDown _ _

theorem run_unaryValue (op : UnaryOp) {v v' : Value} (hv : P.Values v v') (span : Span) :
    P.Run strict s t (unaryValue op v span) (unaryValue op v' span) P.Values := by
  unfold unaryValue
  cases hv with
  | known d ty vspan =>
    refine .check (.refl _) fun _ => (run_folded h _ _).bind fun d d' s₁ t₁ h₁ same => .pure h₁ ?_
    subst same
    exact .known ..
  | runtime e ty vspan views => exact .check (.refl _) fun _ => .pure h (.runtime _ _ _ .none)

theorem run_rightType (op : BinaryOp) {v v' : Value} (hv : P.Values v v') :
    P.Run strict s t (rightType op v) (rightType op v') Eq := by
  unfold rightType
  cases hv with
  | known d ty span =>
    refine .check (.refl _) fun _ => ?_
    dsimp only
    split
    · exact .refuse (.refl _)
    · exact .pure h rfl
    · exact .breakDown _ _
  | runtime e ty span views => exact .check (.refl _) fun _ => .refuse (.refl _)

theorem run_isInValue {l l' r r' : Value} (hl : P.Values l l') (hr : P.Values r r') (span : Span) :
    P.Run strict s t (isInValue l r span) (isInValue l' r' span) P.Values := by
  refine (run_rightType h _ hr).bind fun b b' s₁ t₁ h₁ same => .pure h₁ ?_
  subst same
  rw [hl.ty]
  exact .known ..

theorem run_asTypeValue {l l' r r' : Value} (hl : P.Values l l') (hr : P.Values r r') (span : Span) :
    P.Run strict s t (asTypeValue l r span) (asTypeValue l' r' span) P.Values := by
  refine (run_rightType h _ hr).bind fun b b' s₁ t₁ h₁ same => ?_
  subst same
  dsimp only
  split
  · cases hl with
    | known d ty lspan =>
      refine .check (.refl _) fun _ => ?_
      refine (run_orBadShape h₁ _).bind fun d d' s₂ t₂ h₂ same => .pure h₂ ?_
      subst same
      exact .known ..
    | runtime e ty lspan views =>
      refine .check (.refl _) fun _ => ?_
      dsimp only
      split
      · exact .pure h₁ (.runtime _ _ _ views)
      · refine (run_newSlot h₁ _ _).bind fun slot slot' s₂ t₂ h₂ same => ?_
        subst same
        exact (run_emit h₂ _).bind fun _ _ s₃ t₃ h₃ _ => .pure h₃ (.runtime _ _ _ .none)
  · rw [hr.span]
    exact .refuse (.refl _)

theorem run_binaryValue (op : BinaryOp) {l l' r r' : Value} (hl : P.Values l l') (hr : P.Values r r') (span : Span) :
    P.Run strict s t (binaryValue op l r span) (binaryValue op l' r' span) P.Values := by
  unfold binaryValue
  rw [hl.ty, hr.ty, hl.span, hr.span]
  split
  · exact .refuse (.refl _)
  · rename_i common _
    have atRuntime {ty : Ty} : P.Run strict s t
        (do let left ← asExpr l; let right ← asExpr r; return .runtime (.binary op left right ty span) none)
        (do let left ← asExpr l'; let right ← asExpr r'; return .runtime (.binary op left right ty span) none)
        P.Values := by
      refine (run_asExpr h hl).bind fun e e' s₁ t₁ h₁ same => (run_asExpr h₁ hr).bind fun f f' s₂ t₂ h₂ same' => ?_
      subst same same'
      exact .pure h₂ (.runtime _ _ _ .none)
    refine .check (.refl _) fun _ => ?_
    cases hl with
    | runtime e ty lspan views => exact atRuntime
    | known a ty lspan =>
      cases hr with
      | runtime e ty' rspan views => exact atRuntime
      | known b ty' rspan =>
        refine (run_folded h _ _).bind fun d d' s₁ t₁ h₁ same => .pure h₁ ?_
        subst same
        exact .known ..

theorem run_lengths (dims : List Int) (span : Span) : P.Run strict s t
    (match dims with
      | [] => return .known (.int 1) .int span
      | dims => return .known (.array (dims.map .int)) (.array dims.length .int) span)
    (match dims with
      | [] => return .known (.int 1) .int span
      | dims => return .known (.array (dims.map .int)) (.array dims.length .int) span) P.Values := by
  split
  · exact .pure h (.known ..)
  · exact .pure h (.known ..)

theorem run_propertyValue {v v' : Value} (hv : P.Values v v') (property : Scoped.Property) (span : Span) :
    P.Run strict s t (propertyValue v property span) (propertyValue v' property span) P.Values := by
  unfold propertyValue
  rw [hv.ty, hv.type?]
  dsimp only
  split
  · exact .pure h (.known ..)
  · split
    · split
      · exact run_lengths h _ span
      · exact .refuse_bind (.refl _)
    · exact run_lengths h _ span

theorem run_typeOf (kind : Problem.Kind) {v v' : Value} (hv : P.Values v v') :
    P.Run strict s t (typeOf kind v) (typeOf kind v') Eq := by
  unfold typeOf
  cases hv with
  | known d ty span =>
    refine .check (.refl _) fun _ => ?_
    dsimp only
    split
    · exact .refuse (.refl _)
    · exact .pure h rfl
    · exact .breakDown _ _
  | runtime e ty span views => exact .check (.refl _) fun _ => .refuse (.refl _)

theorem run_concreteTypeOf (span : Span) {v v' : Value} (hv : P.Values v v') :
    P.Run strict s t (concreteTypeOf span v) (concreteTypeOf span v') Eq := by
  refine (run_typeOf h _ hv).bind fun b b' s₁ t₁ h₁ same => ?_
  subst same
  split
  · exact .pure h₁ rfl
  · exact .refuse (.refl _)

theorem run_boundValue (lower upper : Option Ty) (span : Span) :
    P.Run strict s t (boundValue lower upper span) (boundValue lower upper span) P.Values := by
  unfold boundValue
  split
  · exact .check (.refl _) fun _ => .pure h (.known ..)
  · exact .pure h (.known ..)

theorem run_lengthOf {v v' : Value} (hv : P.Values v v') :
    P.Run strict s t (lengthOf v) (lengthOf v') Eq := by
  unfold lengthOf
  cases hv with
  | known d ty span =>
    dsimp only
    split
    · exact .refuse (.refl _)
    · split
      · exact .refuse (.refl _)
      · exact .pure h rfl
    · exact .refuse (.refl _)
  | runtime e ty span views => exact .refuse (.refl _)

omit h in
theorem known_of_forall₂ {vs ws : List Value} (hvs : List.Forall₂ P.Values vs ws) :
    ws.mapM Value.known? = vs.mapM Value.known? := by
  induction hvs with
  | nil => rfl
  | cons hv _ ih => rw [List.mapM_cons, List.mapM_cons, hv.known?, ih]

theorem run_collected {vs ws : List Value} (hvs : List.Forall₂ P.Values vs ws) (first : Ty) (span : Span) :
    P.Run strict s t (collected vs first span) (collected ws first span) P.Values := by
  unfold collected
  rw [known_of_forall₂ hvs, hvs.length_eq]
  dsimp only
  split
  · exact .pure h (.known ..)
  · refine (Run.mapM hvs h fun v w s t hv h => run_asExpr h hv).bind fun es es' s₁ t₁ h₁ same => .pure h₁ ?_
    rw [List.forall₂_eq_eq_eq] at same
    subst same
    exact .runtime _ _ _ .none

theorem run_addIndex (p : Place) (slot : Option SlotId) {index index' : Value} (hi : P.Values index index')
    (elem : Ty) : P.Run strict s t (addIndex p slot index elem) (addIndex p slot index' elem) Eq := by
  have behind {f : Expr → Place} : P.Run strict s t (return f (← asExpr index)) (return f (← asExpr index')) Eq :=
    (run_asExpr h hi).bind fun e e' s₁ t₁ h₁ same => .pure h₁ (congrArg f same)
  have first : P.Run strict s t
      (do
        if slot.isNone then
          refuse (.runtimeIndexOfVariable p.span (← sourceVar p.var).name)
        let leading := p.fixed.map fun k => Expr.ofIndex k p.span
        return { p with dynamic := some (leading ++ [← asExpr index]), ty := some elem })
      (do
        if slot.isNone then
          refuse (.runtimeIndexOfVariable p.span (← sourceVar p.var).name)
        let leading := p.fixed.map fun k => Expr.ofIndex k p.span
        return { p with dynamic := some (leading ++ [← asExpr index']), ty := some elem }) Eq := by
    dsimp only
    split
    · exact .sourceVar_bind fun _ _ _ => .refuse_bind (Problem.alike_error ..)
    · exact behind
  unfold addIndex
  cases hi with
  | known d ty span =>
    split
    · exact .pure h rfl
    · exact behind
    · exact first
  | runtime e ty span views =>
    obtain ⟨var, record, fixed, dynamic, pty, pspan⟩ := p
    cases dynamic with
    | some indexes => exact behind
    | none => exact first

theorem run_settle (p : Place) {v v' : Value} (hv : P.Values v v') :
    P.Run strict s t (settle p v) (settle p v') fun _ _ => True := by
  unfold settle
  rw [hv.ty, hv.span]
  refine (run_record h _).bind fun r r' s₁ t₁ h₁ same => .sourceVar_bind fun x name _ => ?_
  subst same
  have settled {s t : State} (h : P.States strict s t) (new : Record) : P.Run strict s t
      (modify fun s => { s with records := s.records.setIfInBounds p.record new })
      (modify fun s => { s with records := s.records.setIfInBounds p.record new }) fun _ _ => True :=
    .modify (h.still (congrArg (fun u : State =>
      { u with records := u.records.setIfInBounds p.record new }) h.common) rfl rfl)
  dsimp only
  split
  · exact .refuse (.refl _)
  · exact .refuse (.refl _)
  · split
    · refine Run.bind (R := Eq) (.map ((run_newSlot h₁ _ _).mono fun _ _ => congrArg some)) ?_
      intro slot slot' s₂ t₂ h₂ same
      subst same
      exact settled h₂ _
    · exact settled h₁ _

theorem run_trackKnown {p : Place} (hp : P.shared p.var) (r : Record) (ty : Ty) (d : Datum) (valueTy : Ty) :
    P.Run strict s t (trackKnown p r ty d valueTy) (trackKnown p r ty d valueTy) fun _ _ => True := by
  unfold trackKnown
  split
  · exact run_trackAt h hp _ _ _
  · refine .forM h fun coord _ s t h => (run_orBadShape h _).bind fun e e' s₁ t₁ h₁ same => ?_
    subst same
    exact run_trackAt h₁ hp _ _ _

theorem run_store (p : Place) {v v' : Value} (hv : P.Values v v') (span : Span) (ty : Ty) (slot : Option SlotId) :
    P.Run strict s t
      (match slot with
        | none => return
        | some slot => do
          let value ← asExpr v
          emit (.assign ⟨slot, p.indexes, ty, p.span⟩ value span))
      (match slot with
        | none => return
        | some slot => do
          let value ← asExpr v'
          emit (.assign ⟨slot, p.indexes, ty, p.span⟩ value span)) fun _ _ => True := by
  split
  · exact .pure h trivial
  · refine (run_asExpr h hv).bind fun e e' s₁ t₁ h₁ same => ?_
    subst same
    exact run_emit h₁ _

theorem run_assignAs {p : Place} (hp : P.shared p.var) {v v' : Value} (hv : P.Values v v') (span : Span) (ty : Ty) :
    P.Run strict s t (assignAs p v span ty) (assignAs p v' span ty) fun _ _ => True := by
  refine (run_record h _).bind fun r r' s₁ t₁ h₁ same => ?_
  subst same
  have store {s t : State} (h : P.States strict s t) := run_store h p hv span ty r.slot
  have unknown (d : Datum) := (run_trackAt h₁ hp r p.fixed d).bind fun _ _ s₂ t₂ h₂ _ => store h₂
  cases hv with
  | known d vty vspan =>
    dsimp only
    split
    · exact (run_trackKnown h₁ hp r ty _ vty).bind fun _ _ s₂ t₂ h₂ _ => store h₂
    · split
      · exact .sourceVar_bind fun _ _ _ => .refuse_bind (Problem.alike_error ..)
      · exact unknown _
  | runtime e vty vspan views =>
    dsimp only
    split
    · exact .sourceVar_bind fun _ _ _ => .refuse_bind (Problem.alike_error ..)
    · exact unknown _

theorem run_assign {p : Place} (hp : P.shared p.var) {v v' : Value} (hv : P.Values v v') (span : Span) :
    P.Run strict s t (assign p v span) (assign p v' span) fun _ _ => True := by
  rw [assign_eq, assign_eq, hv.ty, hv.span]
  split
  · exact (run_settle h p hv).bind fun _ _ s₁ t₁ h₁ _ => run_assignAs h₁ hp hv span v.ty
  · exact .check (.refl _) fun _ => run_assignAs h hp hv span _

/-- Inputs with values that are the same but for the times of their views. -/
def Bindings (P : Pair) (given given' : List (VarId × Value)) : Prop :=
  List.Forall₂ (fun x y => x.1 = y.1 ∧ P.Values x.2 y.2) given given'

theorem run_bindInputs {given given' : List (VarId × Value)} (hg : P.Bindings given given') :
    P.Run strict s t (bindInputs given) (bindInputs given') fun _ _ => True := by
  induction hg generalizing s t with
  | nil => exact .pure h trivial
  | @cons x y rest rest' hx _ ih =>
    obtain ⟨v, w⟩ := x
    obtain ⟨v', w'⟩ := y
    obtain ⟨rfl, hw⟩ := hx
    refine .get_bind ?_
    rw [h.inStatic]
    cases hw with
    | known d ty span =>
      refine (run_create h _ _).bind fun _ _ s₁ t₁ h₁ _ => (run_track h₁ _ _).bind fun _ _ s₂ t₂ h₂ _ => ?_
      exact ih h₂
    | runtime e ty span views =>
      refine (run_newSlot h _ _).bind fun slot slot' s₁ t₁ h₁ same => ?_
      subst same
      refine (run_create h₁ _ _).bind fun _ _ s₂ t₂ h₂ _ => (run_emit h₂ _).bind fun _ _ s₃ t₃ h₃ _ => ?_
      exact ih h₃

end Steps

end Pair

end Staged

end SignalLang
