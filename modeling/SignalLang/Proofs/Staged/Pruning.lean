import SignalLang.Proofs.Staged.Framing
import SignalLang.Proofs.Staged.KeptLoops

/-!
# Branches that are pruned

A branch is worked out clause by clause. Clauses that are known to fail are dropped, and a clause that is known to hold
settles the branch when no clause is left for run time before it. Whatever is left, the body that runs is that of the
first clause that holds (`branch_keeps_choice`).

Statements that working out a condition leaves, those of inlined macros among them, come before the branch
(`conditions_before_branch`). So they run whatever the conditions before them are (`condition_runs_unguarded`).
-/

namespace SignalLang.Staged

open Scoped (VarId)
open Steps

/-- One state comes before another: tables, variables, scopes and statements are only added. -/
structure State.Earlier (s t : State) : Prop where
  table : s.table <:+ t.table
  vars : Extends s.out.vars t.out.vars
  scopes : s.out.scopes.size ≤ t.out.scopes.size
  stmts : ∀ i, (s.out.scope i).toList <+: (t.out.scope i).toList

theorem State.Framed.earlier {s t : State} (h : s.Framed t) : s.Earlier t := ⟨h.table, h.vars, h.scopes, h.stmts⟩

theorem State.Earlier.trans {s t u : State} (h : s.Earlier t) (h' : t.Earlier u) : s.Earlier u :=
  ⟨h.table.trans h'.table, h.vars.trans h'.vars, Nat.le_trans h.scopes h'.scopes,
    fun i => (h.stmts i).trans (h'.stmts i)⟩

/-! ## Conditions without calls -/

/-- The statement sets the whole of a variable that is not one of the first `n`. -/
def Stmt.Drafts (n : Nat) : Stmt → Prop
  | .assign target _ _ => n ≤ target.var ∧ target.indexes = []
  | _ => False

theorem Stmt.Drafts.scopes {n : Nat} {st : Stmt} (h : st.Drafts n) : st.scopes = [] := by
  cases st with
  | assign => rfl
  | _ => cases h

theorem Stmt.Drafts.le {m n : Nat} (hm : m ≤ n) {st : Stmt} (h : st.Drafts n) : st.Drafts m := by
  cases st with
  | assign => exact ⟨Nat.le_trans hm h.1, h.2⟩
  | _ => cases h

/-- Between two states variables are made and set, and nothing else is put into a scope. -/
structure State.Drafts (s t : State) : Prop where
  vars : s.out.vars.size ≤ t.out.vars.size
  stmts : ∀ i, ∃ more, (t.out.scope i).toList = (s.out.scope i).toList ++ more ∧
    ∀ st ∈ more, st.Drafts s.out.vars.size

theorem State.Drafts.refl (s : State) : s.Drafts s := ⟨Nat.le_refl _, fun _ => ⟨[], by simp, List.forall_mem_nil _⟩⟩

theorem State.Drafts.trans {s t u : State} (h : s.Drafts t) (h' : t.Drafts u) : s.Drafts u := by
  refine ⟨Nat.le_trans h.vars h'.vars, fun i => ?_⟩
  obtain ⟨more, eq, drafts⟩ := h.stmts i
  obtain ⟨more', eq', drafts'⟩ := h'.stmts i
  refine ⟨more ++ more', by rw [eq', eq, List.append_assoc], fun st hst => ?_⟩
  rcases List.mem_append.1 hst with old | new
  · exact drafts st old
  · exact (drafts' st new).le h.vars

instance : IsPreorder State State.Drafts where
  refl := .refl
  trans _ _ _ := .trans

namespace Stage

section Drafts

variable {c : Context} {run : Scoped.ScopeId → Stage Unit}

theorem drafts_quiet (s : State) (records : Array Record) (tracked : Array (Option Datum)) (written : List VarId)
    (log : Array Write) :
    s.Drafts { s with records := records, tracked := tracked, written := written, log := log } :=
  { State.Drafts.refl s with }

theorem drafts_readVar (v : VarId) (span : Span) : Respects c State.Drafts (readVar v span) :=
  respects_reading (respects_tracked drafts_quiet) v span

/-- A statement that is emitted is the only one that is added. -/
theorem emit_adds {st : Stmt} {s t : State} (emitted : emit st c s = .ok ((), t)) :
    t.out.vars = s.out.vars ∧
      ∀ i, ∃ more, (t.out.scope i).toList = (s.out.scope i).toList ++ more ∧ ∀ x ∈ more, x = st := by
  obtain rfl := modify_ok.1 emitted
  cases s.current with
  | none => exact ⟨rfl, fun i => ⟨[], by simp, List.forall_mem_nil _⟩⟩
  | some k =>
    refine ⟨rfl, fun i => ?_⟩
    by_cases same : k = i
    · subst same
      rcases Nat.lt_or_ge k s.out.scopes.size with hk | hk
      · exact ⟨[st], by simp [hk], by simp⟩
      · exact ⟨[], by simp [Program.scope_of_size_le, hk], List.forall_mem_nil _⟩
    · exact ⟨[], by simp [same], List.forall_mem_nil _⟩

/-- A value that is stretched at run time is copied to a new variable. -/
theorem drafts_copy (ty : Ty) (e : Expr) (span : Span) : Respects c State.Drafts (do
    let slot ← newSlot ty span
    emit (.assign ⟨slot, [], ty, span⟩ e span)
    return .runtime (.var slot ty span) none : Stage Value) := by
  intro s a s' ended
  simp only [newSlot, bind_ok, get_ok, modify_ok, pure_ok] at ended
  obtain ⟨slot, t, ⟨_, _, ⟨rfl, rfl⟩, _, _, rfl, rfl, rfl⟩, _, _, emitted, -, rfl⟩ := ended
  obtain ⟨vars, stmts⟩ := emit_adds emitted
  refine ⟨?_, fun i => ?_⟩
  · rw [vars]
    exact Nat.le_of_lt (Nat.lt_of_lt_of_eq (Nat.lt_succ_self _) (Array.size_push _).symm)
  · obtain ⟨more, eq, all⟩ := stmts i
    exact ⟨more, eq, fun st hst => all st hst ▸ ⟨Nat.le_refl _, rfl⟩⟩

theorem drafts_asTypeValue (l r : Value) (span : Span) : Respects c State.Drafts (asTypeValue l r span) := by
  refine .bind (respects_rightType .asType r) fun b => ?_
  split
  · refine .check ?_
    split
    · exact .bind (.orBadShape _) fun _ => .pure _
    · exact .ite (.pure _) (drafts_copy _ _ span)
  · exact .refuse _

mutual

/-- An expression without calls puts no more into a scope than copies of what it stretches. -/
theorem drafts_expression : (e : Scoped.Expr) → e.calls = [] → Respects c State.Drafts (expression run e)
  | .literal value span, _ => by
    rw [expression]
    exact .get_bind fun _ => .pure _
  | .var id span, _ => by
    rw [expression]
    exact drafts_readVar id span
  | .collect [] span, _ => by
    rw [expression]
    exact .refuse _
  | .collect (e :: es) span, free => by
    rw [expression]
    rw [Scoped.Expr.calls, Scoped.callsOf, List.append_eq_nil_iff] at free
    refine .bind (drafts_expression e free.1) fun first => ?_
    exact .bind (drafts_items first es free.2) fun rest => respects_collected _ _ _
  | .openBound span, _ => by
    rw [expression]
    exact respects_boundValue _ _ _
  | .upperBound upper span, free => by
    rw [expression]
    rw [Scoped.Expr.calls] at free
    refine .bind (drafts_expression upper free) fun _ => ?_
    exact .bind (respects_concreteTypeOf _ _) fun _ => respects_boundValue _ _ _
  | .closedBound lower upper span, free => by
    rw [expression]
    rw [Scoped.Expr.calls, List.append_eq_nil_iff] at free
    refine .bind (drafts_expression lower free.1) fun _ => .bind (respects_concreteTypeOf _ _) fun _ => ?_
    refine .bind (drafts_expression upper free.2) fun _ => ?_
    exact .bind (respects_concreteTypeOf _ _) fun _ => respects_boundValue _ _ _
  | .arrayType dims base span, free => by
    rw [expression]
    rw [Scoped.Expr.calls, List.append_eq_nil_iff] at free
    refine .bind (drafts_lengthList dims free.1) fun _ => .bind (drafts_expression base free.2) fun _ => ?_
    exact .bind (respects_typeOf _ _) fun _ => .pure _
  | .index base indexes span, free => by
    rw [expression]
    rw [Scoped.Expr.calls, List.append_eq_nil_iff] at free
    exact .bind (drafts_expression base free.1) fun v => drafts_indexed v span indexes free.2
  | .property base property span, free => by
    rw [expression]
    rw [Scoped.Expr.calls] at free
    exact .bind (drafts_expression base free) fun _ => respects_propertyValue _ _ _
  | .unary op operand span, free => by
    rw [expression]
    rw [Scoped.Expr.calls] at free
    exact .bind (drafts_expression operand free) fun _ => respects_unaryValue _ _ _
  | .binary op left right span, free => by
    rw [expression]
    rw [Scoped.Expr.calls, List.append_eq_nil_iff] at free
    refine .bind (drafts_expression left free.1) fun l => .bind (drafts_expression right free.2) fun r => ?_
    split
    · exact drafts_asTypeValue _ _ _
    · exact respects_isInValue _ _ _
    · exact respects_binaryValue _ _ _ _
  | .call callee calleeSpan inputs outputs span, free => by
    rw [Scoped.Expr.calls] at free
    cases free

theorem drafts_items (first : Value) : (es : List Scoped.Expr) → Scoped.callsOf es = [] →
    Respects c State.Drafts (items run first es)
  | [], _ => by
    rw [items]
    exact .pure _
  | e :: es, free => by
    rw [items]
    rw [Scoped.callsOf, List.append_eq_nil_iff] at free
    refine .bind (drafts_expression e free.1) fun v => .check ?_
    exact .bind (drafts_items first es free.2) fun _ => .pure _

theorem drafts_lengthList : (es : List Scoped.Expr) → Scoped.callsOf es = [] →
    Respects c State.Drafts (lengthList run es)
  | [], _ => by
    rw [lengthList]
    exact .pure _
  | e :: es, free => by
    rw [lengthList]
    rw [Scoped.callsOf, List.append_eq_nil_iff] at free
    refine .bind (drafts_expression e free.1) fun _ => .bind (respects_lengthOf _) fun _ => ?_
    exact .bind (drafts_lengthList es free.2) fun _ => .pure _

theorem drafts_indexed (v : Value) (whole : Span) : (args : List Scoped.IndexArg) → Scoped.indexCalls args = [] →
    Respects c State.Drafts (indexed run v whole args)
  | [], _ => by
    rw [indexed]
    exact .pure _
  | .mk e optional :: rest, free => by
    rw [indexed]
    rw [Scoped.indexCalls, List.append_eq_nil_iff] at free
    refine .bind (drafts_expression e free.1) fun index => ?_
    split
    · refine .bind (respects_checkIndex _ _ _) fun _ => .bind (respects_elementOf _ _ _ _) fun a => ?_
      exact drafts_indexed a whole rest free.2
    · exact .ite (drafts_indexed v whole rest free.2) (.refuse _)

end

end Drafts

end Stage

/-! ## The meaning of conditions -/

/-- Whether a condition holds, where `holds` says so of those left to run time. -/
def Value.truth (holds : Expr → Bool) (v : Value) : Bool :=
  match v.content with
  | .known (.bool b) => b
  | .known _ => false
  | .runtime e _ => holds e

/-- A condition that is known to hold is not taken to fail. -/
def Sincere (holds : Expr → Bool) : Prop := ∀ ty span, holds (.literal (.bool true) ty span) = true

/-- The body of the first clause that holds, or the last body; `vs` are the conditions as they were worked out. -/
def select (holds : Expr → Bool) (otherwise : Option Scoped.ScopeId) :
    List Scoped.Clause → (vs : List Value) → Option Scoped.ScopeId
  | x :: cs, v :: vs => if v.truth holds then some x.body else select holds otherwise cs vs
  | _, _ => otherwise

/-- The scope that a staged branch enters. -/
def chosen (holds : Expr → Bool) (otherwise : Option ScopeId) : List Clause → Option ScopeId
  | [] => otherwise
  | x :: xs => if holds x.condition then some x.body else chosen holds otherwise xs

theorem choose_eq {holds : Expr → Bool} {xs : List Clause} {m : Memory}
    (h : ∀ x ∈ xs, x.condition.eval m = some (.bool (holds x.condition)))
    (enter : ScopeId → Memory → Except Halt Memory) (otherwise : Option ScopeId) :
    choose enter otherwise m xs = (chosen holds otherwise xs).elim (.ok m) (enter · m) := by
  induction xs with
  | nil => rfl
  | cons x xs ih =>
    rw [choose, chosen, h x List.mem_cons_self]
    cases holds x.condition with
    | true => rfl
    | false => exact ih fun y hy => h y (List.mem_cons_of_mem _ hy)

namespace Stage

/-- Between two states a scope of the source was worked out, into the scope `k`, where it left `code`. -/
def Left (run : Scoped.ScopeId → Stage Unit) (c : Context) (s s' : State) (body : Scoped.ScopeId) (k : ScopeId)
    (code : List Stmt) : Prop :=
  ∃ t t', s.Earlier t ∧ t.current = some k ∧ run body c t = .ok ((), t') ∧ t'.Earlier s' ∧
    (t'.out.scope k).toList = (t.out.scope k).toList ++ code

/-- Clauses are tried in order: their conditions turn out to be `vs`, and leave `codes` in the scope `k`. Behind one that
is known to hold none need be tried. -/
inductive Tried (run : Scoped.ScopeId → Stage Unit) (c : Context) (k : ScopeId) :
    State → List Scoped.Clause → List Value → List (List Stmt) → Prop where
  | none {s : State} : Tried run c k s [] [] []
  | next {s t u : State} {x : Scoped.Clause} {cs : List Scoped.Clause} {v : Value} {vs : List Value}
    {code : List Stmt} {codes : List (List Stmt)} :
    expression run x.condition c s = .ok (v, t) →
    (t.out.scope k).toList = (s.out.scope k).toList ++ code → t.Framed u → Tried run c k u cs vs codes →
    Tried run c k s (x :: cs) (v :: vs) (code :: codes)
  | last {s t : State} {x : Scoped.Clause} {cs : List Scoped.Clause} {v : Value} {code : List Stmt} :
    expression run x.condition c s = .ok (v, t) →
    (t.out.scope k).toList = (s.out.scope k).toList ++ code → v.content = .known (.bool true) →
    Tried run c k s (x :: cs) [v] [code]

/-- A body that may not run leaves nothing in the scope `k`, unless `k` is the scope `init` where static blocks go: there
it leaves what it leaves when it is worked out into a scope of its own. -/
def Spills (run : Scoped.ScopeId → Stage Unit) (c : Context) (init k : ScopeId) (body : Scoped.ScopeId)
    (more : List Stmt) : Prop :=
  more = [] ∨ k = init ∧ ∃ t scope u, t.out.staticInit = init ∧ guarded run body c t = .ok (scope, u) ∧
    (u.out.scope k).toList = (t.out.scope k).toList ++ more

/-- What stands in the scope `k` ahead of a branch: what each condition leaves, and next to it what the body of its clause
spills if the clause is kept. A clause that is known to fail adds nothing, and so does one that settles the branch. -/
inductive Ahead (run : Scoped.ScopeId → Stage Unit) (c : Context) (init k : ScopeId)
    (otherwise : Option Scoped.ScopeId) :
    List Scoped.Clause → List Value → List (List Stmt) → List Stmt → Prop where
  | none : Ahead run c init k otherwise [] [] [] []
  | otherwise {body : Scoped.ScopeId} {more : List Stmt} : otherwise = some body → Spills run c init k body more →
    Ahead run c init k otherwise [] [] [] more
  | dropped {x : Scoped.Clause} {cs : List Scoped.Clause} {v : Value} {vs : List Value} {code rest : List Stmt}
    {codes : List (List Stmt)} : v.content = .known (.bool false) → Ahead run c init k otherwise cs vs codes rest →
    Ahead run c init k otherwise (x :: cs) (v :: vs) (code :: codes) (code ++ rest)
  | settled {x : Scoped.Clause} {cs : List Scoped.Clause} {v : Value} {code : List Stmt} :
    v.content = .known (.bool true) → Ahead run c init k otherwise (x :: cs) [v] [code] code
  | kept {x : Scoped.Clause} {cs : List Scoped.Clause} {v : Value} {vs : List Value} {code more rest : List Stmt}
    {codes : List (List Stmt)} : (∀ d, v.content = .known d → d = .bool true) → Spills run c init k x.body more →
    Ahead run c init k otherwise cs vs codes rest →
    Ahead run c init k otherwise (x :: cs) (v :: vs) (code :: codes) (code ++ more ++ rest)

/-- What is left of a branch behind the clauses that were kept already: `tail` stands at the end of the scope `k`. -/
inductive Remains (run : Scoped.ScopeId → Stage Unit) (c : Context) (otherwise : Option Scoped.ScopeId) (span : Span)
    (k : ScopeId) (s s' : State) (done : List Clause) (cs : List Scoped.Clause) (vs : List Value) :
    (tail : List Stmt) → Prop where
  | nothing : done = [] → (∀ holds, select holds otherwise cs vs = none) →
    Remains run c otherwise span k s s' done cs vs []
  | inPlace {body : Scoped.ScopeId} {code : List Stmt} : done = [] →
    (∀ holds, select holds otherwise cs vs = some body) → Left run c s s' body k code →
    Remains run c otherwise span k s s' done cs vs code
  | branch {more : List Clause} {last : Option ScopeId} :
    (∀ holds, Sincere holds → Option.Rel
      (fun body scope => s.out.scopes.size ≤ scope ∧ Left run c s s' body scope (s'.out.scope scope).toList)
      (select holds otherwise cs vs) (chosen holds last more)) →
    Remains run c otherwise span k s s' done cs vs [.branch (done ++ more) last span]

variable {c : Context} {run : Scoped.ScopeId → Stage Unit} {otherwise : Option Scoped.ScopeId} {span : Span}
  {k : ScopeId} {s s' : State}

/-- A condition that is kept means what it was worked out to be. -/
theorem truth_asExpr {holds : Expr → Bool} (sincere : Sincere holds) {v : Value} {e : Expr}
    (known : ∀ d, v.content = .known d → d = .bool true) (asked : asExpr v c s = .ok (e, s')) :
    v.truth holds = holds e := by
  obtain ⟨content, ty, span⟩ := v
  cases content with
  | runtime e' glimpse =>
    cases asked
    rfl
  | known d =>
    obtain rfl := known d rfl
    cases asked
    exact (sincere _ _).symm

/-! ## All clauses -/

/-- What working a scope out leaves in a scope of its own stays there. -/
theorem left_of_guarded (hrun : ∀ i, Respects c State.Framed (run i)) {body : Scoped.ScopeId} {scope : ScopeId}
    {t u : State} (before : s.Earlier t) (made : guarded run body c t = .ok (scope, u)) (after : u.Framed s')
    (inside : k < t.out.scopes.size) (here : t.current = some k) (hstatic : t.out.staticInit < t.out.scopes.size) :
    s.out.scopes.size ≤ scope ∧ Left run c s s' body scope (s'.out.scope scope).toList := by
  have framed := framed_guarded (hrun body) _ _ _ made
  obtain ⟨rfl, v, worked, rfl⟩ := guarded_inv made
  obtain ⟨w, w', entered, forgot, rfl⟩ := inBranch_inv worked
  have inner := hrun body _ _ _ entered
  have forgotten := respects_forget framed_quiet _ _ _ _ forgot
  have grown : t.out.scopes.size < w'.out.scopes.size := by
    refine Nat.lt_of_lt_of_le ?_ (Nat.le_trans inner.scopes forgotten.scopes)
    show _ < t.out.addScope.scopes.size
    rw [Program.size_addScope]
    exact Nat.lt_succ_self _
  have kept : s'.out.scope t.out.scopes.size = w'.out.scope t.out.scopes.size := by
    refine after.others _ grown (fun same => ?_) (fun same => ?_)
    · have same : t.current = some t.out.scopes.size := same
      rw [here] at same
      exact absurd (Option.some.inj same) (Nat.ne_of_lt inside)
    · rw [framed.staticInit] at same
      exact absurd same (Nat.ne_of_gt hstatic)
  refine ⟨before.scopes, _, w, before.trans ?_, rfl, entered, ?_, ?_⟩
  · exact ⟨List.suffix_refl _, .refl _, by simp, fun i => by simp⟩
  · refine forgotten.earlier.trans (.trans ?_ after.earlier)
    exact ⟨List.suffix_refl _, .refl _, Nat.le_refl _, fun i => List.prefix_refl _⟩
  · have same : w'.out = w.out := by rw [((forgets_forget .finite _).ok forgot).same]
    have empty : t.out.addScope.scope t.out.scopes.size = #[] := by
      rw [Program.scope_addScope, Program.scope_of_size_le (Nat.le_refl _)]
    rw [kept, same]
    show _ = (t.out.addScope.scope t.out.scopes.size).toList ++ _
    rw [empty]
    rfl

/-- Off the static initialization, only what the conditions leave stands ahead of a branch. -/
theorem Ahead.eq_flatten {init : ScopeId} {cs : List Scoped.Clause} {vs : List Value} {codes : List (List Stmt)}
    {before : List Stmt} (h : Ahead run c init k otherwise cs vs codes before) (apart : k ≠ init) :
    before = codes.flatten := by
  have silent {body : Scoped.ScopeId} {more : List Stmt} (spills : Spills run c init k body more) : more = [] :=
    spills.resolve_right fun same => apart same.1
  induction h with
  | none => rfl
  | otherwise _ spills => exact silent spills
  | dropped _ _ ih => rw [List.flatten_cons, ih]
  | settled _ => simp
  | kept _ spills _ ih => rw [List.flatten_cons, ih, silent spills, List.append_nil]

/-- A scope that may not run leaves the others alone, but for static blocks in it. -/
theorem guarded_spills (hrun : ∀ i, Respects c State.Framed (run i)) {body : Scoped.ScopeId} {scope : ScopeId}
    {t u : State} (made : guarded run body c t = .ok (scope, u)) (inside : k < t.out.scopes.size) :
    ∃ more, (u.out.scope k).toList = (t.out.scope k).toList ++ more ∧ Spills run c t.out.staticInit k body more := by
  obtain ⟨more, grown⟩ := (framed_guarded (hrun body) _ _ _ made).stmts k
  refine ⟨more, grown.symm, ?_⟩
  by_cases apart : k = t.out.staticInit
  · exact .inr ⟨apart, t, scope, u, rfl, made, grown.symm⟩
  · refine .inl ?_
    obtain ⟨rfl, v, worked, rfl⟩ := guarded_inv made
    have kept : v.out.scope k = t.out.addScope.scope k := by
      refine (framed_inBranch (hrun body) _ _ _ worked).others k ?_ (fun same => ?_) apart
      · exact Nat.lt_of_lt_of_le inside (by simp)
      · exact absurd (Option.some.inj same) (Nat.ne_of_gt inside)
    rw [Program.scope_addScope] at kept
    have grown : (t.out.scope k).toList ++ more = (v.out.scope k).toList := grown
    rw [kept] at grown
    exact List.append_right_eq_self.1 grown

theorem emit_here {st : Stmt} {u : State} (here : u.current = some k) (inside : k < u.out.scopes.size)
    (emitted : emit st c u = .ok ((), s')) : (s'.out.scope k).toList = (u.out.scope k).toList ++ [st] := by
  obtain rfl := modify_ok.1 emitted
  rw [here]
  simp [Program.scope_addStmt_self inside]

theorem Left.earlier {s₀ s s' : State} {body : Scoped.ScopeId} {code : List Stmt} (before : s₀.Earlier s)
    (h : Left run c s s' body k code) : Left run c s₀ s' body k code := by
  obtain ⟨t, t', ht, rest⟩ := h
  exact ⟨t, t', before.trans ht, rest⟩

theorem rel_mono {α β : Type} {r r' : α → β → Prop} (h : ∀ a b, r a b → r' a b) {a? : Option α} {b? : Option β}
    (rel : Option.Rel r a? b?) : Option.Rel r' a? b? := by
  cases rel with
  | none => exact .none
  | some related => exact .some (h _ _ related)

/-- What is left of a branch is left since any earlier state. -/
theorem Remains.earlier {s₀ s s' : State} {done : List Clause} {cs : List Scoped.Clause} {vs : List Value}
    {tail : List Stmt} (before : s₀.Earlier s) (h : Remains run c otherwise span k s s' done cs vs tail) :
    Remains run c otherwise span k s₀ s' done cs vs tail := by
  cases h with
  | nothing none selects => exact .nothing none selects
  | inPlace none selects left => exact .inPlace none selects (left.earlier before)
  | branch enters =>
    refine .branch fun holds sincere => rel_mono (fun body scope entered => ?_) (enters holds sincere)
    exact ⟨Nat.le_trans before.scopes entered.1, entered.2.earlier before⟩

/-- A clause that is known to fail changes nothing for those behind it. -/
theorem Remains.dropped {done : List Clause} {x : Scoped.Clause} {cs : List Scoped.Clause} {v : Value}
    {vs : List Value} {tail : List Stmt} (fails : v.content = .known (.bool false))
    (h : Remains run c otherwise span k s s' done cs vs tail) :
    Remains run c otherwise span k s s' done (x :: cs) (v :: vs) tail := by
  have selects (holds : Expr → Bool) :
      select holds otherwise (x :: cs) (v :: vs) = select holds otherwise cs vs := by
    rw [select, Value.truth, fails]
    rfl
  cases h with
  | nothing none none_holds => exact .nothing none fun holds => (selects holds).trans (none_holds holds)
  | inPlace none holds_it left => exact .inPlace none (fun holds => (selects holds).trans (holds_it holds)) left
  | branch enters => exact .branch fun holds sincere => selects holds ▸ enters holds sincere

/-- A clause that is kept is entered when it holds; otherwise what is behind it counts. -/
theorem Remains.kept {done : List Clause} {x : Scoped.Clause} {cs : List Scoped.Clause} {v : Value}
    {vs : List Value} {tail : List Stmt} {e : Expr} {scope : ScopeId}
    (is : ∀ holds, Sincere holds → v.truth holds = holds e)
    (made : s.out.scopes.size ≤ scope ∧ Left run c s s' x.body scope (s'.out.scope scope).toList)
    (h : Remains run c otherwise span k s s' (done ++ [⟨e, scope⟩]) cs vs tail) :
    Remains run c otherwise span k s s' done (x :: cs) (v :: vs) tail := by
  cases h with
  | nothing none _ => exact absurd none (by simp)
  | inPlace none _ _ => exact absurd none (by simp)
  | branch enters =>
    rw [List.append_assoc]
    refine .branch fun holds sincere => ?_
    rw [select, is holds sincere, List.singleton_append, chosen]
    cases holds e with
    | true => exact .some made
    | false => exact enters holds sincere

/-- What is left of a branch behind its last clause. -/
theorem clauses_nil (hrun : ∀ i, Respects c State.Framed (run i)) {done : List Clause}
    (here : s.current = some k) (inside : k < s.out.scopes.size) (hstatic : s.out.staticInit < s.out.scopes.size)
    (ended : clauses run otherwise span done [] c s = .ok ((), s')) :
    ∃ before tail, (s'.out.scope k).toList = (s.out.scope k).toList ++ before ++ tail ∧
      Ahead run c s.out.staticInit k otherwise [] [] [] before ∧
      Remains run c otherwise span k s s' done [] [] tail := by
  unfold clauses at ended
  cases done with
  | nil =>
    cases otherwise with
    | none =>
      obtain ⟨-, rfl⟩ := pure_ok.1 ended
      exact ⟨[], [], by simp, .none, .nothing rfl fun _ => rfl⟩
    | some body =>
      obtain ⟨tail, grown⟩ := (hrun body _ _ _ ended).stmts k
      refine ⟨[], tail, by simp [grown], .none, .inPlace rfl (fun _ => rfl) ?_⟩
      exact ⟨s, s', (State.Framed.refl s).earlier, here, ended, (State.Framed.refl s').earlier, grown.symm⟩
  | cons x xs =>
    cases otherwise with
    | none =>
      refine ⟨[], _, by simpa using emit_here here inside ended, .none, ?_⟩
      have remains : Remains run c none span k s s' (x :: xs) [] [] [.branch ((x :: xs) ++ []) none span] :=
        .branch fun _ _ => .none
      rwa [List.append_nil] at remains
    | some body =>
      obtain ⟨scope, t, made, emitted⟩ := bind_ok.1 ended
      have framed := framed_guarded (hrun body) _ _ _ made
      obtain ⟨more, grown, spills⟩ := guarded_spills hrun made inside
      have stands := emit_here (framed.current.trans here) (Nat.lt_of_lt_of_le inside framed.scopes) emitted
      refine ⟨more, _, by rw [stands, grown], .otherwise rfl spills, ?_⟩
      have left :=
        left_of_guarded hrun (State.Framed.refl s).earlier made (framed_emit _ _ _ _ emitted) inside here hstatic
      have remains : Remains run c (some body) span k s s' (x :: xs) [] []
          [.branch ((x :: xs) ++ []) (some scope) span] := .branch fun _ _ => .some left
      rwa [List.append_nil] at remains

/-- What the clauses of a branch leave in the scope that statements go to: what their conditions leave, and then what is
left of the branch itself. -/
theorem clauses_layout (hrun : ∀ i, Respects c State.Framed (run i)) {done : List Clause} {cs : List Scoped.Clause}
    (here : s.current = some k) (inside : k < s.out.scopes.size) (hstatic : s.out.staticInit < s.out.scopes.size)
    (ended : clauses run otherwise span done cs c s = .ok ((), s')) :
    ∃ vs codes before tail, Tried run c k s cs vs codes ∧
      (s'.out.scope k).toList = (s.out.scope k).toList ++ before ++ tail ∧
      Ahead run c s.out.staticInit k otherwise cs vs codes before ∧
      Remains run c otherwise span k s s' done cs vs tail := by
  induction cs generalizing s done with
  | nil =>
    obtain ⟨before, tail, stands, ahead, remains⟩ := clauses_nil hrun here inside hstatic ended
    exact ⟨[], [], before, tail, .none, stands, ahead, remains⟩
  | cons x cs ih =>
    obtain ⟨v, t, asked, how⟩ := clauses_cons_inv ended
    have framed : s.Framed t := framed_expression hrun x.condition _ _ _ asked
    obtain ⟨code, grown⟩ := framed.stmts k
    have here' := framed.current.trans here
    have inside' := Nat.lt_of_lt_of_le inside framed.scopes
    have hstatic' : t.out.staticInit < t.out.scopes.size := by
      rw [framed.staticInit]
      exact Nat.lt_of_lt_of_le hstatic framed.scopes
    rcases how with ⟨fails, ended⟩ | ⟨known, rfl, entered⟩ | ⟨e, scope, u, known, kept, made, ended⟩
    · obtain ⟨vs, codes, before, tail, tried, stands, ahead, remains⟩ := ih here' inside' hstatic' ended
      refine ⟨v :: vs, code :: codes, code ++ before, tail, .next asked grown.symm (.refl t) tried, ?_,
        .dropped fails (framed.staticInit ▸ ahead), ?_⟩
      · rw [stands, ← grown]
        simp
      · exact (remains.earlier framed.earlier).dropped fails
    · obtain ⟨tail, grown'⟩ := (hrun x.body _ _ _ entered).stmts k
      have selects (holds : Expr → Bool) : select holds otherwise (x :: cs) [v] = some x.body := by
        rw [select, Value.truth, known]
        rfl
      have left : Left run c s s' x.body k tail :=
        ⟨t, s', framed.earlier, here', entered, (State.Framed.refl s').earlier, grown'.symm⟩
      refine ⟨[v], [code], code, tail, .last asked grown.symm known, ?_, .settled known, .inPlace rfl selects left⟩
      rw [← grown', ← grown]
    · have framed' := framed_guarded (hrun x.body) _ _ _ made
      have framed'' : u.Framed s' := by
        exact law_framed.respects_clauses hrun otherwise span _ cs (fun y _ => framed_expression hrun _) _ _ _ ended
      obtain ⟨more, grown', spills⟩ := guarded_spills hrun made inside'
      obtain ⟨vs, codes, before, tail, tried, stands, ahead, remains⟩ := ih (framed'.current.trans here')
        (Nat.lt_of_lt_of_le inside' framed'.scopes)
        (framed'.staticInit ▸ Nat.lt_of_lt_of_le hstatic' framed'.scopes) ended
      refine ⟨v :: vs, code :: codes, code ++ more ++ before, tail, .next asked grown.symm framed' tried, ?_,
        .kept known (framed.staticInit ▸ spills) ?_, ?_⟩
      · rw [stands, grown', ← grown]
        simp
      · rw [← framed.staticInit, ← framed'.staticInit]
        exact ahead
      · have left := left_of_guarded hrun framed.earlier made framed'' inside' here' hstatic'
        exact (remains.earlier (framed.earlier.trans framed'.earlier)).kept
          (fun _ sincere => truth_asExpr sincere known kept) left

/-- Conditions without calls leave copies of what they stretch and nothing else. -/
theorem Tried.drafts {cs : List Scoped.Clause} {vs : List Value} {codes : List (List Stmt)}
    (h : Tried run c k s cs vs codes) (free : ∀ x ∈ cs, x.condition.calls = []) :
    ∀ st ∈ codes.flatten, st.Drafts s.out.vars.size := by
  have leaves {s t : State} {e : Scoped.Expr} {v : Value} {code : List Stmt} (asked : expression run e c s = .ok (v, t))
      (grown : (t.out.scope k).toList = (s.out.scope k).toList ++ code) (free : e.calls = []) :
      s.out.vars.size ≤ t.out.vars.size ∧ ∀ st ∈ code, st.Drafts s.out.vars.size := by
    have drafts := drafts_expression e free _ _ _ asked
    obtain ⟨more, eq, all⟩ := drafts.stmts k
    obtain rfl : more = code := List.append_cancel_left (eq.symm.trans grown)
    exact ⟨drafts.vars, all⟩
  induction h with
  | none => exact List.forall_mem_nil _
  | next asked grown framed _ ih =>
    obtain ⟨more, drafts⟩ := leaves asked grown (free _ List.mem_cons_self)
    rw [List.flatten_cons, List.forall_mem_append]
    refine ⟨drafts, fun st hst => ?_⟩
    exact (ih (fun x hx => free x (List.mem_cons_of_mem _ hx)) st hst).le (Nat.le_trans more framed.vars.size_le)
  | last asked grown _ =>
    rw [List.flatten_cons, List.forall_mem_append]
    exact ⟨(leaves asked grown (free _ List.mem_cons_self)).2, List.forall_mem_nil _⟩

/-! ## Branches -/

/-- A branch with the states around it. -/
structure BranchAt where
  clauses : List Scoped.Clause
  otherwise : Option Scoped.ScopeId
  span : Span
  before : State
  behind : State

/-- Works a branch of the entry of a program out. -/
def stageBranch (depth place : Nat) (c : Context) : Except Failure BranchAt := do
  let (_, s) ← upTo depth place c { tracked := Array.replicate c.source.vars.size none }
  match (c.source.scope c.source.entry).body[place]? with
  | some (.branch cs otherwise span) => do
    let (_, s') ← statement (block depth) (.branch cs otherwise span) c s
    return ⟨cs, otherwise, span, s, s'⟩
  | _ => throw .tooDeep

theorem stageBranch_ok {depth place : Nat} {b : BranchAt} (h : stageBranch depth place c = .ok b) :
    upTo depth place c { tracked := Array.replicate c.source.vars.size none } = .ok ((), b.before) ∧
      (c.source.scope c.source.entry).body[place]? = some (.branch b.clauses b.otherwise b.span) ∧
      statement (block depth) (.branch b.clauses b.otherwise b.span) c b.before = .ok ((), b.behind) := by
  obtain ⟨⟨_, _⟩, reached, h⟩ := except_bind_ok.1 h
  dsimp only at h
  split at h
  · rename_i stands
    obtain ⟨⟨_, _⟩, ended, h⟩ := except_bind_ok.1 h
    cases h
    exact ⟨reached, stands, ended⟩
  · cases h

/-- A branch that was worked out runs the body of the first clause that holds, or else the last one, or else nothing.
It is left out when no body runs whatever holds, and a body stands in its place when that one always runs; otherwise a
staged branch enters the scope where the body was worked out.

Ahead of it stands what its conditions leave, and no body of a clause. When they call no macro, this only sets new
variables, to values that are stretched. In the static initialization the static blocks of clauses that are kept are
there as well. -/
theorem branch_keeps_choice {depth : Nat} {cs : List Scoped.Clause} (here : s.current = some k)
    (inside : k < s.out.scopes.size) (hstatic : s.out.staticInit < s.out.scopes.size)
    (ended : statement (block depth) (.branch cs otherwise span) c s = .ok ((), s')) :
    ∃ vs codes before tail, Tried (block depth) c k s cs vs codes ∧
      (s'.out.scope k).toList = (s.out.scope k).toList ++ before ++ tail ∧
      (Ahead (block depth) c s.out.staticInit k otherwise cs vs codes before ∧
        (k ≠ s.out.staticInit → before = codes.flatten) ∧
        ((∀ x ∈ cs, x.condition.calls = []) → ∀ st ∈ codes.flatten, st.Drafts s.out.vars.size)) ∧
      (((∀ holds, select holds otherwise cs vs = none) ∧ tail = []) ∨
        (∃ body, (∀ holds, select holds otherwise cs vs = some body) ∧ Left (block depth) c s s' body k tail) ∨
        ∃ kept last, tail = [.branch kept last span] ∧ ∀ holds, Sincere holds →
          Option.Rel (fun body scope => s.out.scopes.size ≤ scope ∧
              Left (block depth) c s s' body scope (s'.out.scope scope).toList)
            (select holds otherwise cs vs) (chosen holds last kept) ∧
          ∀ enter m, (∀ x ∈ kept, x.condition.eval m = some (.bool (holds x.condition))) →
            execAll enter tail m = (chosen holds last kept).elim (.ok m) (enter · m)) := by
  obtain ⟨vs, codes, before, tail, tried, stands, ahead, remains⟩ :=
    clauses_layout (framed_block depth) here inside hstatic ended
  refine ⟨vs, codes, before, tail, tried, stands, ⟨ahead, ahead.eq_flatten, tried.drafts⟩, ?_⟩
  cases remains with
  | nothing _ selects => exact .inl ⟨selects, rfl⟩
  | inPlace _ selects left => exact .inr (.inl ⟨_, selects, left⟩)
  | @branch kept last enters =>
    refine .inr (.inr ⟨kept, last, rfl, fun holds sincere => ⟨enters holds sincere, fun enter m means => ?_⟩⟩)
    simp only [List.nil_append, execAll, Stmt.exec, choose_eq means]
    cases (chosen holds last kept).elim (Except.ok m) (enter · m) <;> rfl

/-- A clause that is known to fail, one left to run time, and one that is known to hold. -/
def mixedConditions : String :=
  "input INT a;\noutput INT out;\nif 1 == 2 \x7b out = 1; \x7d else if a == 0 \x7b out = 2; \x7d" ++
    " else if 1 == 1 \x7b out = 3; \x7d\n"

/-- Where a branch of a program stands when it is worked out. -/
structure BranchAt.Stands (b : BranchAt) (k : ScopeId) : Prop where
  here : b.before.current = some k
  inside : k < b.before.out.scopes.size
  staticInit : b.before.out.staticInit < b.before.out.scopes.size
  apart : k ≠ b.before.out.staticInit

instance (b : BranchAt) (k : ScopeId) : Decidable (b.Stands k) :=
  decidable_of_iff (b.before.current = some k ∧ k < b.before.out.scopes.size ∧
    b.before.out.staticInit < b.before.out.scopes.size ∧ k ≠ b.before.out.staticInit)
    ⟨fun h => ⟨h.1, h.2.1, h.2.2.1, h.2.2.2⟩, fun h => ⟨h.here, h.inside, h.staticInit, h.apart⟩⟩

/-- Of the three clauses only two are left in the branch, and no body stands ahead of it. -/
theorem branch_keeps_choice_mixed :
    ∃ p c', (Compiler.scopedOf "main").run (Compiler.ofText mixedConditions) = (.ok p, c') ∧
      ∃ b, stageBranch 5 2 ⟨p, {}⟩ = .ok b ∧ b.clauses.length = 3 ∧ (∀ x ∈ b.clauses, x.condition.calls = []) ∧
        ∃ vs codes before tail, Tried (block 5) ⟨p, {}⟩ 1 b.before b.clauses vs codes ∧
          (b.behind.out.scope 1).toList = (b.before.out.scope 1).toList ++ before ++ tail ∧
          before = codes.flatten ∧ before = [] ∧ tail.map Stmt.scopes = [[2, 3]] := by
  obtain ⟨p, c', built, tested⟩ := Compiler.ok_of_any (x := Compiler.scopedOf "main")
    (c := Compiler.ofText mixedConditions) (P := fun p => (stageBranch 5 2 ⟨p, {}⟩).toOption.any fun (b : BranchAt) =>
      decide (b.Stands 1 ∧ b.clauses.length = 3 ∧ (b.clauses.map (·.condition.calls.length)) = [0, 0, 0] ∧
        ((b.behind.out.scope 1).toList.drop (b.before.out.scope 1).size).map Stmt.scopes = [[2, 3]]))
    (by decide +kernel)
  obtain ⟨b, staged, tested⟩ := exists_ok_of_any tested
  obtain ⟨stands, three, uncalled, added⟩ := of_decide_eq_true tested
  obtain ⟨-, -, ended⟩ := stageBranch_ok staged
  have free : ∀ x ∈ b.clauses, x.condition.calls = [] := by
    intro x hx
    have zero : x.condition.calls.length ∈ [0, 0, 0] := uncalled ▸ List.mem_map_of_mem hx
    exact List.length_eq_zero_iff.1 (by simpa using zero)
  obtain ⟨vs, codes, before, tail, tried, grown, ⟨-, flat, drafts⟩, -⟩ :=
    branch_keeps_choice stands.here stands.inside stands.staticInit ended
  have flat := flat stands.apart
  rw [grown, List.append_assoc, ← Array.length_toList, List.drop_left, List.map_append] at added
  have none_before : before = [] := by
    cases before with
    | nil => rfl
    | cons st rest =>
      -- a statement ahead of the branch enters no scope, and the only one that was added enters two
      have silent := (drafts free st (flat ▸ List.mem_cons_self)).scopes
      rw [List.map_cons, silent] at added
      cases added
  subst none_before
  exact ⟨p, c', built, b, staged, three, free, vs, codes, [], tail, tried, grown, flat, rfl, added⟩

/-- What working out the conditions of a branch leaves, the statements of inlined macros among it, comes before the
branch. So it runs before any of the conditions is looked at, whichever of them hold. -/
theorem conditions_before_branch {depth : Nat} {cs : List Scoped.Clause} (here : s.current = some k)
    (inside : k < s.out.scopes.size) (hstatic : s.out.staticInit < s.out.scopes.size) (apart : k ≠ s.out.staticInit)
    (ended : statement (block depth) (.branch cs otherwise span) c s = .ok ((), s')) :
    ∃ vs codes tail, Tried (block depth) c k s cs vs codes ∧
      (s'.out.scope k).toList = (s.out.scope k).toList ++ codes.flatten ++ tail ∧
      (tail = [] ∨ (∃ body, Left (block depth) c s s' body k tail) ∨ ∃ kept last, tail = [.branch kept last span]) ∧
      ∀ enter m, execAll enter (s'.out.scope k).toList m =
        ((execAll enter (s.out.scope k).toList m).bind (execAll enter codes.flatten)).bind (execAll enter tail) := by
  obtain ⟨vs, codes, before, tail, tried, stands, ahead, remains⟩ :=
    clauses_layout (framed_block depth) here inside hstatic ended
  rw [ahead.eq_flatten apart] at stands
  refine ⟨vs, codes, tail, tried, stands, ?_, fun enter m => ?_⟩
  · cases remains with
    | nothing _ _ => exact .inl rfl
    | inPlace _ _ left => exact .inr (.inl ⟨_, left⟩)
    | branch _ => exact .inr (.inr ⟨_, _, rfl⟩)
  · rw [stands, execAll_append, execAll_append]

/-- A guard, and behind it a macro whose inlined body has an assertion. -/
def guardedCheck : String :=
  "macro Check(x): b \x7b assert x != 0; BOOL b = 10 / x > 1; \x7d\ninput INT a;\noutput INT out;\nout = 0;\n" ++
    "if a == 0 \x7b out = 1; \x7d else if Check(a) \x7b out = 2; \x7d\n"

/-- The inlined body comes before the branch. -/
theorem conditions_before_branch_check :
    ∃ p c', (Compiler.scopedOf "main").run (Compiler.ofText guardedCheck) = (.ok p, c') ∧
      ∃ b, stageBranch 5 4 ⟨p, {}⟩ = .ok b ∧ ∃ vs codes tail,
        Tried (block 5) ⟨p, {}⟩ 1 b.before b.clauses vs codes ∧
          (b.behind.out.scope 1).toList = (b.before.out.scope 1).toList ++ codes.flatten ++ tail ∧
          (b.behind.out.scope 1).toList.map Stmt.scopes = [[], [3], [2, 4]] := by
  obtain ⟨p, c', built, tested⟩ := Compiler.ok_of_any (x := Compiler.scopedOf "main")
    (c := Compiler.ofText guardedCheck) (P := fun p => (stageBranch 5 4 ⟨p, {}⟩).toOption.any fun (b : BranchAt) =>
      decide (b.Stands 1 ∧ (b.behind.out.scope 1).toList.map Stmt.scopes = [[], [3], [2, 4]])) (by decide +kernel)
  obtain ⟨b, staged, tested⟩ := exists_ok_of_any tested
  obtain ⟨stands, three⟩ := of_decide_eq_true tested
  obtain ⟨-, -, ended⟩ := stageBranch_ok staged
  obtain ⟨vs, codes, tail, tried, grown, -⟩ :=
    conditions_before_branch stands.here stands.inside stands.staticInit stands.apart ended
  exact ⟨p, c', built, b, staged, vs, codes, tail, tried, grown, three⟩

/-- With the input zero the guard holds, and still the run ends at the assertion behind it. -/
theorem condition_runs_unguarded :
    ∃ p c', (Compiler.stagedOf "main").run (Compiler.ofText guardedCheck) = (.ok p, c') ∧
      ∃ span, p.run [.int 0] [] = .error (.failed span) := by
  obtain ⟨p, c', built, failed⟩ := Compiler.ok_of_any (x := Compiler.stagedOf "main")
    (c := Compiler.ofText guardedCheck) (P := fun p => match p.run [.int 0] [] with
      | .error (.failed _) => true
      | _ => false) (by decide +kernel)
  refine ⟨p, c', built, ?_⟩
  split at failed
  · rename_i span ended
    exact ⟨span, ended⟩
  · cases failed

end Stage

end SignalLang.Staged
