import Mathlib.Data.List.Nodup
import Mathlib.Logic.Relation
import SignalLang.Proofs.Staged.Laws

/-!
# The scopes of a staged program form a forest

A scope of the output is made by the step that emits the statement it belongs to, and by no other step is it put
into a statement (`State.Nests`). So each scope belongs to at most one statement, and walking a program from static
initialization and from its entry meets each scope at most once: `forest_of_program`, `Program.Forest.nodup_walk`.
-/

namespace SignalLang.Staged

open Scoped (VarId)
open Steps

namespace Program

/-- The scopes that stand in statements, as often as they do. -/
def nested (p : Program) : List ScopeId := p.scopes.toList.flatMap fun body => body.toList.flatMap Stmt.scopes

/-- The scopes met from one on, as often as they are; `depth` bounds their nesting. -/
def reached (p : Program) : (depth : Nat) → ScopeId → List ScopeId
  | 0, _ => []
  | depth + 1, i => i :: ((p.scope i).toList.flatMap Stmt.scopes).flatMap (p.reached depth)

/-- The scope `j` stands in a statement of the scope `i`. -/
def Inside (p : Program) (i j : ScopeId) : Prop := j ∈ (p.scope i).toList.flatMap Stmt.scopes

theorem count_nested_modify_le (bodies : List (Array Stmt)) (i : Nat) (st : Stmt) (j : ScopeId) :
    ((bodies.modify i (·.push st)).flatMap fun body => body.toList.flatMap Stmt.scopes).count j ≤
      (bodies.flatMap fun body => body.toList.flatMap Stmt.scopes).count j + st.scopes.count j := by
  induction bodies generalizing i with
  | nil => simp
  | cons body bodies ih =>
    cases i with
    | zero =>
      simp only [List.modify_zero_cons, List.flatMap_cons, List.count_append, Array.toList_push,
        List.flatMap_append, List.flatMap_nil, List.append_nil]
      omega
    | succ i =>
      have := ih i
      simp only [List.modify_succ_cons, List.flatMap_cons, List.count_append]
      omega

theorem count_nested_addStmt_le (p : Program) (i : ScopeId) (st : Stmt) (j : ScopeId) :
    (p.addStmt i st).nested.count j ≤ p.nested.count j + st.scopes.count j := by
  unfold nested addStmt
  rw [Array.toList_modify]
  exact count_nested_modify_le _ i st j

theorem nested_addScope (p : Program) : p.addScope.nested = p.nested := by
  simp [nested, addScope]

end Program

/-- No statement has a scope that was not made. -/
def State.Tidy (s : State) : Prop := ∀ j, s.out.scopes.size ≤ j → s.out.nested.count j = 0

/-- Between two states no old scope was put into a statement, and every new one into at most one. -/
structure State.Nests (s s' : State) : Prop where
  size : s.out.scopes.size ≤ s'.out.scopes.size
  old : ∀ j < s.out.scopes.size, s'.out.nested.count j ≤ s.out.nested.count j
  new : ∀ j, s.out.scopes.size ≤ j → s'.out.nested.count j ≤ 1
  staticInit : s'.out.staticInit = s.out.staticInit
  entry : s'.out.entry = s.out.entry

theorem State.Nests.refl {s : State} (h : s.Tidy) : s.Nests s :=
  ⟨Nat.le_refl _, fun _ _ => Nat.le_refl _, fun j hj => by rw [h j hj]; exact Nat.zero_le _, rfl, rfl⟩

theorem State.Nests.trans {s t u : State} (h : s.Nests t) (h' : t.Nests u) : s.Nests u := by
  refine ⟨Nat.le_trans h.size h'.size, fun j hj => ?_, fun j hj => ?_, h'.staticInit.trans h.staticInit,
    h'.entry.trans h.entry⟩
  · exact Nat.le_trans (h'.old j (Nat.lt_of_lt_of_le hj h.size)) (h.old j hj)
  · rcases Nat.lt_or_ge j t.out.scopes.size with old | new
    · exact Nat.le_trans (h'.old j old) (h.new j hj)
    · exact h'.new j new

/-- A change that leaves the scopes and where the program starts alone. -/
theorem State.Nests.of_same {s t : State} (h : s.Tidy) (scopes : t.out.scopes = s.out.scopes)
    (staticInit : t.out.staticInit = s.out.staticInit) (entry : t.out.entry = s.out.entry) :
    t.Tidy ∧ s.Nests t := by
  have nested : t.out.nested = s.out.nested := by unfold Program.nested; rw [scopes]
  have tidy : t.Tidy := fun j hj => by rw [nested]; exact h j (scopes ▸ hj)
  exact ⟨tidy, Nat.le_of_eq (by rw [scopes]), fun j _ => Nat.le_of_eq (by rw [nested]),
    fun j hj => by rw [nested, h j hj]; exact Nat.zero_le _, staticInit, entry⟩

/-- A statement may be added with scopes that were made since `s` and are in no statement yet. -/
theorem State.Nests.addStmt {s t t' : State} (h : s.Nests t) (tidy : t.Tidy) {st : Stmt} {i : ScopeId}
    (made : ∀ j ∈ st.scopes, s.out.scopes.size ≤ j ∧ j < t.out.scopes.size ∧ t.out.nested.count j = 0)
    (distinct : st.scopes.Nodup) (out : t'.out = t.out.addStmt i st) : t'.Tidy ∧ s.Nests t' := by
  have count (j : ScopeId) : t'.out.nested.count j ≤ t.out.nested.count j + st.scopes.count j := by
    rw [out]
    exact t.out.count_nested_addStmt_le i st j
  have other (j : ScopeId) (hj : j ∉ st.scopes) : t'.out.nested.count j ≤ t.out.nested.count j := by
    have := count j
    rw [List.count_eq_zero_of_not_mem hj] at this
    exact this
  have size : t'.out.scopes.size = t.out.scopes.size := by
    rw [out]
    exact Program.scopes_size_addStmt _ _ _
  refine ⟨fun j hj => Nat.le_zero.1 ?_, ⟨size.symm ▸ h.size, fun j hj => ?_, fun j hj => ?_, ?_, ?_⟩⟩
  · have hj : t.out.scopes.size ≤ j := size ▸ hj
    refine Nat.le_trans (other j fun hmem => ?_) (Nat.le_of_eq (tidy j hj))
    exact absurd (made j hmem).2.1 (Nat.not_lt.2 hj)
  · refine Nat.le_trans (other j fun hmem => ?_) (h.old j hj)
    exact absurd hj (Nat.not_lt.2 (made j hmem).1)
  · by_cases hmem : j ∈ st.scopes
    · have := count j
      have := List.nodup_iff_count.1 distinct j
      have := (made j hmem).2.2
      omega
    · exact Nat.le_trans (other j hmem) (h.new j hj)
  · rw [out]
    exact h.staticInit
  · rw [out]
    exact h.entry

/-- No old scope is put into a statement, and every new one into at most one. -/
def State.Moves (s s' : State) : Prop := s.Tidy → s'.Tidy ∧ s.Nests s'

instance : IsPreorder State State.Moves where
  refl _ tidy := ⟨tidy, .refl tidy⟩
  trans _ _ _ h h' tidy :=
    have ⟨tidy', nests⟩ := h tidy
    have ⟨tidy'', nests'⟩ := h' tidy'
    ⟨tidy'', nests.trans nests'⟩

namespace Stage

variable {α β : Type} {c : Context}

/-- A change that leaves the scopes and where the program starts alone. -/
theorem moves_modify {g : State → State} (scopes : ∀ s, (g s).out.scopes = s.out.scopes)
    (staticInit : ∀ s, (g s).out.staticInit = s.out.staticInit)
    (entry : ∀ s, (g s).out.entry = s.out.entry) : Respects c State.Moves (modify g) :=
  .modify fun s tidy => State.Nests.of_same tidy (scopes s) (staticInit s) (entry s)

theorem moves_quiet (s : State) (records : Array Record) (tracked : Array (Option Datum)) (written : List VarId)
    (log : Array Write) :
    s.Moves { s with records := records, tracked := tracked, written := written, log := log } :=
  fun tidy => State.Nests.of_same tidy rfl rfl rfl

theorem moves_create (v : VarId) (r : Record) : Respects c State.Moves (create v r) :=
  respects_create moves_quiet (fun _ _ tidy => State.Nests.of_same tidy rfl rfl rfl) v r

/-! ## Steps of the state -/

/-- Emitting a statement whose scopes were made since `s` and are in no statement yet. -/
theorem nests_emit {s t t' : State} {st : Stmt} {u : Unit} (h : s.Nests t) (tidy : t.Tidy)
    (made : ∀ j ∈ st.scopes, s.out.scopes.size ≤ j ∧ j < t.out.scopes.size ∧ t.out.nested.count j = 0)
    (distinct : st.scopes.Nodup) (run : emit st c t = .ok (u, t')) : t'.Tidy ∧ s.Nests t' := by
  obtain rfl := modify_ok.1 run
  split
  · exact h.addStmt tidy made distinct rfl
  · exact ⟨tidy, h⟩

theorem moves_emit {st : Stmt} (h : st.scopes = []) : Respects c State.Moves (emit st) := by
  intro s u t run tidy
  refine nests_emit (.refl tidy) tidy ?_ ?_ run
  · rw [h]
    exact nofun
  · rw [h]
    exact .nil

theorem moves_newScope : Respects c State.Moves newScope := by
  intro s id t run tidy
  simp only [newScope, bind_ok, get_ok, modify_ok, pure_ok] at run
  obtain ⟨_, _, ⟨rfl, rfl⟩, _, _, rfl, rfl, rfl⟩ := run
  have size : s.out.addScope.scopes.size = s.out.scopes.size + 1 := Array.size_push _
  have same (j : ScopeId) : s.out.addScope.nested.count j = s.out.nested.count j := by
    rw [Program.nested_addScope]
  refine ⟨fun j hj => ?_, by rw [size]; exact Nat.le_succ _, fun j _ => Nat.le_of_eq (same j),
    fun j hj => ?_, rfl, rfl⟩
  · rw [same]
    have hj : s.out.addScope.scopes.size ≤ j := hj
    exact tidy j (by omega)
  · rw [same, tidy j hj]
    exact Nat.zero_le _

/-- A scope that was just made is in no statement. -/
theorem newScope_ok {s t : State} {id : ScopeId} (tidy : s.Tidy)
    (run : newScope c s = .ok (id, t)) :
    id = s.out.scopes.size ∧ id < t.out.scopes.size ∧ t.out.nested.count id = 0 ∧ t.Tidy ∧ s.Nests t := by
  have moved := moves_newScope s id t run tidy
  obtain ⟨rfl, rfl⟩ := newScope_inv run
  refine ⟨rfl, ?_, ?_, moved⟩
  · exact (Array.size_push _).symm ▸ Nat.lt_succ_self _
  · show s.out.addScope.nested.count s.out.scopes.size = 0
    rw [Program.nested_addScope]
    exact tidy _ (Nat.le_refl _)

theorem moves_newSlot (ty : Ty) (definition : Span) : Respects c State.Moves (newSlot ty definition) :=
  .get_bind fun _ => .bind (moves_modify (fun _ => rfl) (fun _ => rfl) fun _ => rfl) fun _ => .pure _

theorem moves_withTable {table : Table} {act : Stage α} (h : Respects c State.Moves act) :
    Respects c State.Moves (withTable table act) :=
  .get_bind fun _ => .bind (moves_modify (fun _ => rfl) (fun _ => rfl) fun _ => rfl) fun _ =>
    .bind h fun _ => .bind (moves_modify (fun _ => rfl) (fun _ => rfl) fun _ => rfl) fun _ => .pure _

theorem moves_withCurrent {scope : Option ScopeId} {act : Stage α} (h : Respects c State.Moves act) :
    Respects c State.Moves (withCurrent scope act) :=
  .get_bind fun _ => .bind (moves_modify (fun _ => rfl) (fun _ => rfl) fun _ => rfl) fun _ =>
    .bind h fun _ => .bind (moves_modify (fun _ => rfl) (fun _ => rfl) fun _ => rfl) fun _ => .pure _

theorem moves_inBranch {act : Stage Unit} (h : Respects c State.Moves act) : Respects c State.Moves (inBranch act) :=
  .get_bind fun _ => .bind (moves_modify (fun _ => rfl) (fun _ => rfl) fun _ => rfl) fun _ => .bind h fun _ =>
    .get_bind fun s => .bind (respects_forget moves_quiet s.written) fun _ =>
      moves_modify (fun _ => rfl) (fun _ => rfl) fun _ => rfl

theorem moves_set_bind {t : State → State} {f : State → Stage β} (scopes : ∀ s, (t s).out.scopes = s.out.scopes)
    (staticInit : ∀ s, (t s).out.staticInit = s.out.staticInit) (entry : ∀ s, (t s).out.entry = s.out.entry)
    (hf : ∀ s, Respects c State.Moves (f s)) :
    Respects c State.Moves (get >>= fun s => set (t s) >>= fun _ => f s) := by
  intro s b u run
  obtain ⟨_, _, got, run⟩ := bind_ok.1 run
  obtain ⟨rfl, rfl⟩ := get_ok.1 got
  obtain ⟨_, _, put, run⟩ := bind_ok.1 run
  obtain rfl := set_ok.1 put
  have changed : s.Moves (t s) := fun tidy => State.Nests.of_same tidy (scopes s) (staticInit s) (entry s)
  exact trans_of State.Moves changed (hf s (t s) b u run)

/-! ## Expressions -/

variable {run : Scoped.ScopeId → Stage Unit}

/-- A call makes the scope it puts into the statement it emits. -/
theorem moves_inlined {site : MacroSite} {context : Table} {given : List (VarId × Value)} {outs : Stage Value}
    {span : Span} (hrun : Respects c State.Moves (bindInputs given >>= fun _ => run site.body))
    (houts : Respects c State.Moves outs) :
    Respects c State.Moves (newScope >>= inlineCall run site context given outs span) := by
  intro s result s' ended tidy
  obtain ⟨t, u, body, outputs, emitted⟩ := inlineCall_inv ended
  obtain ⟨-, inside, unused, tidy₀, nests₀⟩ := newScope_ok (c := c) tidy rfl
  have same {a b : State} (ha : a.Tidy) (h : b.out = a.out) : b.Tidy ∧ a.Nests b :=
    State.Nests.of_same ha (by rw [h]) (by rw [h]) (by rw [h])
  obtain ⟨tidy₁, nests₁⟩ := same (b := { s with
    out := s.out.addScope, current := some s.out.scopes.size, conditional := 0, returned := false
    table := context, tables := s.table :: s.tables }) tidy₀ rfl
  obtain ⟨tidy₂, nests₂⟩ := hrun _ _ _ body tidy₁
  obtain ⟨tidy₃, nests₃⟩ := same (b := { t with returned := false, table := s.table ++ t.table }) tidy₂ rfl
  obtain ⟨tidy₄, nests₄⟩ := houts _ _ _ outputs tidy₃
  obtain ⟨tidy₅, nests₅⟩ := same (b := { u with
    current := s.current, conditional := s.conditional, returned := s.returned, table := s.table
    tables := u.tables.tail }) tidy₄ rfl
  have since := ((nests₁.trans nests₂).trans (nests₃.trans nests₄)).trans nests₅
  split at emitted
  · refine nests_emit (nests₀.trans since) tidy₅ (fun j hj => ?_) (by simp [Stmt.scopes]) emitted
    obtain rfl := List.mem_singleton.1 hj
    refine ⟨Nat.le_refl _, Nat.lt_of_lt_of_le inside since.size, Nat.le_zero.1 ?_⟩
    exact Nat.le_trans (since.old _ inside) (Nat.le_of_eq unused)
  · obtain ⟨-, rfl⟩ := pure_ok.1 emitted
    exact ⟨tidy₅, nests₀.trans since⟩

/-! ## Statements -/

/-- A scope that may not run is made by the step, and nothing is put into a statement yet. -/
theorem guarded_ok (hrun : ∀ i, Respects c State.Moves (run i)) {body : Scoped.ScopeId} {s t : State}
    {scope : ScopeId} (tidy : s.Tidy) (ended : guarded run body c s = .ok (scope, t)) :
    s.out.scopes.size ≤ scope ∧ scope < t.out.scopes.size ∧ t.out.nested.count scope = 0 ∧ t.Tidy ∧
      s.Nests t := by
  obtain ⟨id, s₁, made, ended⟩ := bind_ok.1 ended
  obtain ⟨rfl, inside, unused, tidy₁, nests₁⟩ := newScope_ok tidy made
  obtain ⟨_, s₂, entered, ended⟩ := bind_ok.1 ended
  obtain ⟨rfl, rfl⟩ := pure_ok.1 ended
  obtain ⟨tidy₂, nests₂⟩ := moves_withCurrent (moves_inBranch (hrun body)) _ _ _ entered tidy₁
  refine ⟨Nat.le_refl _, Nat.lt_of_lt_of_le inside nests₂.size, Nat.le_zero.1 ?_, tidy₂, nests₁.trans nests₂⟩
  exact Nat.le_trans (nests₂.old _ inside) (Nat.le_of_eq unused)

/-- The clauses that were kept since `s` have different scopes, which are in no statement yet. -/
structure Pending (s t : State) (done : List Clause) : Prop where
  made : ∀ x ∈ done, s.out.scopes.size ≤ x.body ∧ x.body < t.out.scopes.size ∧ t.out.nested.count x.body = 0
  distinct : (done.map (·.body)).Nodup

theorem Pending.mono {s t u : State} {done : List Clause} (h : Pending s t done) (nests : t.Nests u) :
    Pending s u done := by
  refine ⟨fun x hx => ?_, h.distinct⟩
  obtain ⟨since, inside, unused⟩ := h.made x hx
  refine ⟨since, Nat.lt_of_lt_of_le inside nests.size, Nat.le_zero.1 ?_⟩
  exact Nat.le_trans (nests.old _ inside) (Nat.le_of_eq unused)

/-- A scope made in `t` comes in addition to those of the clauses kept before. -/
theorem Pending.snoc {s t u : State} {done : List Clause} {e : Expr} {scope : ScopeId} (h : Pending s t done)
    (nests : s.Nests t) (nests' : t.Nests u) (since : t.out.scopes.size ≤ scope)
    (inside : scope < u.out.scopes.size) (unused : u.out.nested.count scope = 0) :
    Pending s u (done ++ [⟨e, scope⟩]) := by
  refine ⟨fun x hx => ?_, ?_⟩
  · rcases List.mem_append.1 hx with hx | hx
    · exact (h.mono nests').made x hx
    · obtain rfl := List.mem_singleton.1 hx
      exact ⟨Nat.le_trans nests.size since, inside, unused⟩
  · rw [List.map_append]
    refine List.nodup_append.2 ⟨h.distinct, by simp, fun i hi j hj => ?_⟩
    obtain ⟨x, hx, rfl⟩ := List.mem_map.1 hi
    obtain rfl := List.mem_singleton.1 hj
    exact Nat.ne_of_lt (Nat.lt_of_lt_of_le (h.made x hx).2.1 since)

theorem nests_clauses (hrun : ∀ i, Respects c State.Moves (run i)) {otherwise : Option Scoped.ScopeId} {span : Span}
    {s t t' : State} {done : List Clause} {cs : List Scoped.Clause} {u : Unit}
    (hcs : ∀ x ∈ cs, Respects c State.Moves (expression run x.condition)) (nests : s.Nests t) (tidy : t.Tidy)
    (pending : Pending s t done)
    (ended : clauses run otherwise span done cs c t = .ok (u, t')) : t'.Tidy ∧ s.Nests t' := by
  induction cs generalizing t done with
  | nil =>
    unfold clauses at ended
    split at ended
    · obtain ⟨-, rfl⟩ := pure_ok.1 ended
      exact ⟨tidy, nests⟩
    · obtain ⟨tidy', nests'⟩ := hrun _ t _ t' ended tidy
      exact ⟨tidy', nests.trans nests'⟩
    · refine nests_emit nests tidy (fun j hj => ?_) ?_ ended
      · simp only [Stmt.scopes, Option.toList_none, List.append_nil, List.mem_map] at hj
        obtain ⟨x, hx, rfl⟩ := hj
        exact pending.made x hx
      · simpa [Stmt.scopes] using pending.distinct
    · rename_i body _
      obtain ⟨scope, t₁, made, ended⟩ := bind_ok.1 ended
      obtain ⟨since, inside, unused, tidy₁, nests₁⟩ := guarded_ok hrun tidy made
      have all : Pending s t₁ (done ++ [⟨.missing, scope⟩]) :=
        pending.snoc nests nests₁ since inside unused
      refine nests_emit (nests.trans nests₁) tidy₁ (fun j hj => ?_) ?_ ended
      · have hj : j ∈ (done ++ [(⟨.missing, scope⟩ : Clause)]).map (·.body) := by simpa [Stmt.scopes] using hj
        obtain ⟨x, hx, rfl⟩ := List.mem_map.1 hj
        exact all.made x hx
      · simpa [Stmt.scopes] using all.distinct
  | cons x rest ih =>
    obtain ⟨condition, t₁, computed, how⟩ := clauses_cons_inv ended
    obtain ⟨tidy₁, nests₁⟩ := hcs x List.mem_cons_self t _ t₁ computed tidy
    have nests := nests.trans nests₁
    have pending := pending.mono nests₁
    have ih {t : State} {done : List Clause} := @ih t done fun y hy => hcs y (List.mem_cons_of_mem _ hy)
    rcases how with ⟨-, ended⟩ | ⟨-, -, entered⟩ | ⟨e, scope, t₂, -, -, made, ended⟩
    · exact ih nests tidy₁ pending ended
    · obtain ⟨tidy', nests'⟩ := hrun _ t₁ _ t' entered tidy₁
      exact ⟨tidy', nests.trans nests'⟩
    · obtain ⟨since, inside, unused, tidy₂, nests₂⟩ := guarded_ok hrun tidy₁ made
      exact ih (nests.trans nests₂) tidy₂ (pending.snoc nests nests₂ since inside unused) ended

theorem moves_clauses (hrun : ∀ i, Respects c State.Moves (run i)) (otherwise : Option Scoped.ScopeId) (span : Span)
    (cs : List Scoped.Clause) (hcs : ∀ x ∈ cs, Respects c State.Moves (expression run x.condition)) :
    Respects c State.Moves (clauses run otherwise span [] cs) :=
  fun s _ _ ended tidy =>
    have none : Pending s s [] := ⟨by simp, by simp⟩
    nests_clauses hrun hcs (.refl tidy) tidy none ended

theorem moves_loopPass {body : Scoped.ScopeId} (hrun : Respects c State.Moves (run body)) (into : Option ScopeId) :
    Respects c State.Moves (loopPass run body into) := by
  refine moves_set_bind (fun _ => rfl) (fun _ => rfl) (fun _ => rfl) fun s => ?_
  refine .bind (moves_withTable (moves_inBranch hrun)) fun _ => ?_
  exact moves_modify (fun _ => rfl) (fun _ => rfl) fun _ => rfl

/-- A loop that is kept makes its scope before the second pass over its body. -/
theorem moves_keptLoop {body : Scoped.ScopeId} (hrun : Respects c State.Moves (run body)) (counter : VarId)
    (start stop : Value) (span : Span) : Respects c State.Moves (keptLoop run counter start stop body span) := by
  refine .read_bind (.bind (moves_newSlot _ _) fun slot => .get_bind fun s => ?_)
  refine .bind (moves_create _ _) fun _ => .bind (moves_loopPass hrun none) fun _ => ?_
  intro s u t ended tidy
  obtain ⟨scope, s₁, made, ended⟩ := bind_ok.1 ended
  obtain ⟨rfl, inside, unused, tidy₁, nests₁⟩ := newScope_ok tidy made
  obtain ⟨_, s₂, pass, rest₂⟩ := bind_ok.1 ended
  obtain ⟨tidy₂, nests₂⟩ := moves_loopPass hrun _ _ _ _ pass tidy₁
  obtain ⟨_, s₃, first, rest₃⟩ := bind_ok.1 rest₂
  obtain rfl : s₃ = s₂ := Ends.ok (k := .finite) (flows_asExpr start) first
  obtain ⟨_, s₄, last, rest₄⟩ := bind_ok.1 rest₃
  obtain rfl : s₄ = s₃ := Ends.ok (k := .finite) (flows_asExpr stop) last
  refine nests_emit (nests₁.trans nests₂) tidy₂ (fun j hj => ?_) (by simp [Stmt.scopes]) rest₄
  obtain rfl := List.mem_singleton.1 hj
  refine ⟨Nat.le_refl _, Nat.lt_of_lt_of_le inside nests₂.size, Nat.le_zero.1 ?_⟩
  exact Nat.le_trans (nests₂.old _ inside) (Nat.le_of_eq unused)

theorem moves_static {body : Scoped.ScopeId} (hrun : Respects c State.Moves (run body)) (exports : List VarId)
    (span : Span) : Respects c State.Moves (staticBody run body exports span) := by
  refine moves_set_bind (fun _ => rfl) (fun _ => rfl) (fun _ => rfl) fun s => ?_
  refine .bind (moves_withTable (.bind hrun fun _ => respects_exported exports span)) fun records => ?_
  exact .bind (moves_modify (fun _ => rfl) (fun _ => rfl) fun _ => rfl) fun _ => .pure _

theorem law_moves : Law.Extended c (fun _ => True) State.Moves where
  newSlot := moves_newSlot
  emit _ h := moves_emit h
  settled := respects_settled moves_quiet
  tracked := respects_tracked moves_quiet
  track v _ d := respects_track moves_quiet v d
  trackAt v _ r coord d := respects_trackAt moves_quiet v r coord d
  create v _ r := moves_create v r
  inlined _ _ _ _ _ _ hrun houts := moves_inlined hrun houts
  returned := moves_modify (fun _ => rfl) (fun _ => rfl) fun _ => rfl
  statics _ := moves_modify (fun _ => rfl) (fun _ => rfl) fun _ => rfl
  withTable _ _ h := moves_withTable h
  clauses _ otherwise span cs hrun hcs := moves_clauses hrun otherwise span cs hcs
  keptLoop _ counter start stop _ span _ hrun := moves_keptLoop hrun counter start stop span
  static _ _ exports span hrun := moves_static hrun exports span

/-- The slot of a variable, or a problem that names it. -/
theorem moves_slotOr (slot : Option SlotId) (problem : Span → String → Problem) (v : VarId) :
    Respects c State.Moves (match slot with
      | some slot => return slot
      | none => do
        let var ← sourceVar v
        refuse (problem var.definition var.name) : Stage SlotId) := by
  split
  · exact .pure _
  · exact .read_bind (.refuse _)

theorem moves_ioSlots (problem : Span → String → Bound → Problem) (vars : List VarId) :
    Respects c State.Moves (ioSlots problem vars) := by
  refine .mapM _ fun v => .get_bind fun s => ?_
  have slot (r : Record) := moves_slotOr (c := c) r.slot (fun span name => problem span name r.bound) v
  dsimp only
  split
  · exact .get_bind fun _ => slot _
  · exact .bind (.pure _) slot

end Stage

/-! ## Programs -/

namespace Program

/-- Every scope stands in at most one statement; the two that the program starts with differ and stand in none. -/
structure Forest (p : Program) : Prop where
  once : ∀ j, p.nested.count j ≤ 1
  staticInit : p.nested.count p.staticInit = 0
  entry : p.nested.count p.entry = 0
  apart : p.staticInit ≠ p.entry

namespace Forest

variable {p : Program} {i j k : ScopeId}

theorem inside_nodup (h : p.Forest) (i : ScopeId) : ((p.scope i).toList.flatMap Stmt.scopes).Nodup := by
  unfold scope
  rw [Array.getD_eq_getD_getElem?]
  cases found : p.scopes[i]? with
  | none => simp
  | some body =>
    refine List.nodup_iff_count.2 fun j => ?_
    refine Nat.le_trans ?_ (h.once j)
    have mem : body ∈ p.scopes.toList := Array.mem_toList_iff.2 (Array.mem_of_getElem? found)
    obtain ⟨before, after, split⟩ := List.append_of_mem mem
    unfold nested
    rw [split]
    simp only [Option.getD_some, List.flatMap_append, List.flatMap_cons, List.count_append]
    omega

/-- A scope stands in one other scope at most. -/
theorem inside_unique (h : p.Forest) (hi : p.Inside i k) (hj : p.Inside j k) : i = j := by
  by_contra different
  have body {i : ScopeId} (hi : p.Inside i k) : ∃ body, p.scopes[i]? = some body ∧
      1 ≤ (body.toList.flatMap Stmt.scopes).count k := by
    unfold Inside scope at hi
    rw [Array.getD_eq_getD_getElem?] at hi
    cases found : p.scopes[i]? with
    | none => simp [found] at hi
    | some body =>
      rw [found, Option.getD_some] at hi
      exact ⟨body, rfl, List.count_pos_iff.2 hi⟩
  -- Two different places in the list of scopes would each count once.
  have twice (bodies : List (Array Stmt)) (m n : Nat) (hmn : m < n) {x y : Array Stmt}
      (hx : bodies[m]? = some x) (hy : bodies[n]? = some y)
      (hxk : 1 ≤ (x.toList.flatMap Stmt.scopes).count k) (hyk : 1 ≤ (y.toList.flatMap Stmt.scopes).count k) :
      2 ≤ (bodies.flatMap fun body => body.toList.flatMap Stmt.scopes).count k := by
    have split := List.take_append_drop n bodies
    have before : x ∈ bodies.take n := List.mem_iff_getElem?.2 ⟨m, by rw [List.getElem?_take_of_lt hmn, hx]⟩
    have after : y ∈ bodies.drop n := List.mem_iff_getElem?.2 ⟨0, by rw [List.getElem?_drop]; exact hy⟩
    have counted {z : Array Stmt} {zs : List (Array Stmt)} (hz : z ∈ zs)
        (hzk : 1 ≤ (z.toList.flatMap Stmt.scopes).count k) :
        1 ≤ (zs.flatMap fun body => body.toList.flatMap Stmt.scopes).count k :=
      List.count_pos_iff.2 (List.mem_flatMap.2 ⟨z, hz, List.count_pos_iff.1 hzk⟩)
    rw [← split, List.flatMap_append, List.count_append]
    exact Nat.add_le_add (counted before hxk) (counted after hyk)
  obtain ⟨x, hx, hxk⟩ := body hi
  obtain ⟨y, hy, hyk⟩ := body hj
  rw [← Array.getElem?_toList] at hx hy
  have once := h.once k
  unfold nested at once
  rcases Nat.lt_or_gt_of_ne different with less | more
  · exact absurd (twice _ i j less hx hy hxk hyk) (by omega)
  · exact absurd (twice _ j i more hy hx hyk hxk) (by omega)

theorem not_inside_of_count (hk : p.nested.count k = 0) : ¬p.Inside i k := by
  intro hi
  unfold Inside scope at hi
  rw [Array.getD_eq_getD_getElem?] at hi
  cases found : p.scopes[i]? with
  | none => simp [found] at hi
  | some body =>
    rw [found, Option.getD_some] at hi
    have mem : body ∈ p.scopes.toList := Array.mem_toList_iff.2 (Array.mem_of_getElem? found)
    have : k ∈ p.nested := List.mem_flatMap.2 ⟨body, mem, hi⟩
    exact absurd (List.count_pos_iff.2 this) (by omega)

theorem le_of_reached (hlt : ∀ i j, p.Inside i j → i < j) (path : Relation.ReflTransGen p.Inside i j) :
    i ≤ j := by
  induction path with
  | refl => exact Nat.le_refl _
  | tail _ step ih => exact Nat.le_of_lt (Nat.lt_of_le_of_lt ih (hlt _ _ step))

theorem reflTransGen_of_mem_reached {depth : Nat} (h : j ∈ p.reached depth i) :
    Relation.ReflTransGen p.Inside i j := by
  induction depth generalizing i with
  | zero => cases h
  | succ depth ih =>
    rcases List.mem_cons.1 h with rfl | h
    · exact .refl
    · obtain ⟨k, hk, hj⟩ := List.mem_flatMap.1 h
      exact .head hk (ih hj)

/-- What two scopes both contain makes one of them contain the other. -/
theorem nested_of_common (h : p.Forest) (hi : Relation.ReflTransGen p.Inside i k)
    (hj : Relation.ReflTransGen p.Inside j k) :
    Relation.ReflTransGen p.Inside i j ∨ Relation.ReflTransGen p.Inside j i := by
  induction hi with
  | refl => exact .inr hj
  | tail path step ih =>
    rcases Relation.ReflTransGen.cases_tail hj with rfl | ⟨m, path', step'⟩
    · exact .inl (path.tail step)
    · exact ih (h.inside_unique step step' ▸ path')

theorem nodup_reached (h : p.Forest) (hlt : ∀ i j, p.Inside i j → i < j) (depth : Nat) (i : ScopeId) :
    (p.reached depth i).Nodup := by
  induction depth generalizing i with
  | zero => exact .nil
  | succ depth ih =>
    have above {j k : ScopeId} (hj : p.Inside i j) (hk : k ∈ p.reached depth j) : i < k :=
      Nat.lt_of_lt_of_le (hlt i j hj) (le_of_reached hlt (reflTransGen_of_mem_reached hk))
    -- Of two scopes inside `i` neither contains the other: it would stand in `i` and in something below.
    have apart {j k : ScopeId} (hj : p.Inside i j) (hk : p.Inside i k) (different : j ≠ k) :
        ¬Relation.ReflTransGen p.Inside j k := by
      intro path
      rcases Relation.ReflTransGen.cases_tail path with rfl | ⟨m, path', step⟩
      · exact different rfl
      · have := h.inside_unique hk step ▸ le_of_reached hlt path'
        exact absurd (hlt i j hj) (Nat.not_lt.2 this)
    refine List.nodup_cons.2 ⟨fun hmem => ?_, List.nodup_flatMap.2 ⟨fun j _ => ih j, ?_⟩⟩
    · obtain ⟨j, hj, hi⟩ := List.mem_flatMap.1 hmem
      exact Nat.lt_irrefl _ (above hj hi)
    · refine (h.inside_nodup i).imp_of_mem fun {j k} hj hk different => ?_
      intro x hx hx'
      rcases h.nested_of_common (reflTransGen_of_mem_reached hx) (reflTransGen_of_mem_reached hx') with path | path
      · exact apart hj hk different path
      · exact apart hk hj (Ne.symm different) path

/-- A walk from static initialization and from the entry meets each scope at most once. -/
theorem nodup_walk (h : p.Forest) (hlt : ∀ i j, p.Inside i j → i < j) (depth : Nat) :
    (p.reached depth p.staticInit ++ p.reached depth p.entry).Nodup := by
  refine List.nodup_append'.2 ⟨h.nodup_reached hlt depth _, h.nodup_reached hlt depth _, fun x hx hx' => ?_⟩
  have root {i j : ScopeId} (hj : p.nested.count j = 0) (path : Relation.ReflTransGen p.Inside i j) : i = j := by
    rcases Relation.ReflTransGen.cases_tail path with rfl | ⟨m, -, step⟩
    · rfl
    · exact (not_inside_of_count hj step).elim
  rcases h.nested_of_common (reflTransGen_of_mem_reached hx) (reflTransGen_of_mem_reached hx') with path | path
  · exact h.apart (root h.entry path)
  · exact h.apart (root h.staticInit path).symm

end Forest

end Program

theorem forest_of_program {c : Context} {depth : Nat} {s s' : State} {p : Program}
    (start : s.out = {}) (run : Stage.program depth c s = .ok (p, s')) : p.Forest := by
  have empty (j : ScopeId) : s.out.nested.count j = 0 := by rw [start]; rfl
  have tidy : s.Tidy := fun j _ => empty j
  obtain ⟨_, _, got, run⟩ := bind_ok.1 run
  obtain ⟨rfl, rfl⟩ := read_ok.1 got
  obtain ⟨_, s₁, builtins, run⟩ := bind_ok.1 run
  obtain ⟨tidy₁, nests₁⟩ := Stage.respects_block Stage.law_moves (fun _ => trivial) depth _ s _ s₁ builtins tidy
  obtain ⟨_, s₂, enter, run⟩ := bind_ok.1 run
  obtain rfl := modify_ok.1 enter
  obtain ⟨tidy₂, nests₂⟩ := State.Nests.of_same (t := { s₁ with current := some s₁.out.entry }) tidy₁ rfl rfl rfl
  obtain ⟨_, s₃, entry, run⟩ := bind_ok.1 run
  obtain ⟨tidy₃, nests₃⟩ := Stage.respects_block Stage.law_moves (fun _ => trivial) depth _ _ _ s₃ entry tidy₂
  obtain ⟨inputs, s₄, hin, run⟩ := bind_ok.1 run
  obtain ⟨tidy₄, nests₄⟩ := Stage.moves_ioSlots _ _ _ _ s₄ hin tidy₃
  obtain ⟨outputs, s₅, hout, run⟩ := bind_ok.1 run
  obtain ⟨tidy₅, nests₅⟩ := Stage.moves_ioSlots _ _ _ _ s₅ hout tidy₄
  obtain ⟨_, _, got, run⟩ := bind_ok.1 run
  obtain ⟨rfl, rfl⟩ := get_ok.1 got
  obtain ⟨rfl, rfl⟩ := pure_ok.1 run
  have all := ((nests₁.trans nests₂).trans nests₃).trans (nests₄.trans nests₅)
  have size : s.out.scopes.size = 2 := by rw [start]; rfl
  have root (j : ScopeId) (hj : j < 2) : s₅.out.nested.count j = 0 :=
    Nat.le_zero.1 (Nat.le_trans (all.old j (size ▸ hj)) (Nat.le_of_eq (empty j)))
  have staticInit : s₅.out.staticInit = 0 := by rw [all.staticInit, start]
  have entry : s₅.out.entry = 1 := by rw [all.entry, start]
  refine ⟨fun j => ?_, ?_, ?_, ?_⟩
  · rcases Nat.lt_or_ge j 2 with hj | hj
    · exact Nat.le_trans (Nat.le_of_eq (root j hj)) (Nat.zero_le _)
    · exact all.new j (size ▸ hj)
  · exact staticInit ▸ root 0 (by decide)
  · exact entry ▸ root 1 (by decide)
  · show s₅.out.staticInit ≠ s₅.out.entry
    rw [staticInit, entry]
    decide

end SignalLang.Staged
