import SignalLang.Proofs.Staged.Framing
import SignalLang.Proofs.Staged.Parallel

/-!
# What static initialization finds

Static initialization comes before the program proper, but what is known of a variable is kept in one place for both.
What a static block adds depends on the variables that are mentioned in it and in the scopes it leads to, and on nothing
else that was worked out before (`static_alike`). So an assignment of the program proper reaches the static blocks behind
it only where they mention its variable, and only if what is known of that is not what was known before
(`static_behind_assignment`).
-/

namespace SignalLang.Staged

open Scoped (VarId)
open Steps

/-- A variable whose type is settled was written, by statements that went to the current scope. -/
structure State.Wrote (v : VarId) (s t : State) : Prop where
  common : t.common = s.common
  size : t.out.scopes.size = s.out.scopes.size
  others : ∀ i, s.current ≠ some i → t.out.scope i = s.out.scope i
  width : t.tracked.size = s.tracked.size
  tracked : ∀ u, u ≠ v → t.tracked[u]? = s.tracked[u]?

namespace State.Wrote

variable {v : VarId} {s t u : State}

theorem refl (s : State) : s.Wrote v s := ⟨rfl, rfl, fun _ _ => rfl, rfl, fun _ _ => rfl⟩

theorem trans (h : s.Wrote v t) (h' : t.Wrote v u) : s.Wrote v u where
  common := h'.common.trans h.common
  size := h'.size.trans h.size
  others i apart := by
    have current : t.current = s.current := (congrArg State.current h.common :)
    rw [h'.others i (current ▸ apart), h.others i apart]
  width := h'.width.trans h.width
  tracked w apart := (h'.tracked w apart).trans (h.tracked w apart)

instance : IsPreorder State (State.Wrote v) where
  refl := refl
  trans _ _ _ := trans

end State.Wrote

namespace Stage

variable {c : Context} {v : VarId} {s t : State} {run : Scoped.ScopeId → Stage Unit}

theorem wrote_emit (st : Stmt) : Respects c (State.Wrote v) (emit st) := by
  refine .modify fun s => ?_
  cases here : s.current with
  | none => exact .refl s
  | some k =>
    refine ⟨congrArg (fun k => { s.common with current := k }) here.symm, Program.scopes_size_addStmt _ _ _,
      fun i apart => ?_, rfl, fun _ _ => rfl⟩
    exact Program.scope_addStmt_of_ne (fun same => apart (here.trans (congrArg some same))) st

theorem wrote_putTracked (d : Datum) : Respects c (State.Wrote v) (putTracked v d) :=
  .modify fun s => ⟨rfl, rfl, fun _ _ => rfl, Array.size_setIfInBounds, fun u apart => by
    rw [Array.getElem?_setIfInBounds_ne (Ne.symm apart)]⟩

theorem wrote_noteWrite (w : Write) : Respects c (State.Wrote v) (noteWrite w) :=
  .modify fun _ => ⟨rfl, rfl, fun _ _ => rfl, rfl, fun _ _ => rfl⟩

theorem wrote_trackAt (r : Record) (coord : List Int) (d : Datum) :
    Respects c (State.Wrote v) (trackAt v r coord d) := by
  refine .bind (.get_bind fun s => ?_) fun whole => .ite ?_ ?_
  · dsimp only
    split
    · exact .pure _
    · exact .bind (wrote_putTracked _) fun _ => .pure _
    · exact .bind (wrote_putTracked _) fun _ => .pure _
    · exact .pure _
  · exact .bind (wrote_putTracked d) fun _ => wrote_noteWrite _
  · exact .bind (.orBadShape _) fun new => .bind (wrote_putTracked new) fun _ => wrote_noteWrite _

theorem wrote_assign {p : Place} (hp : p.var = v) {ty : Ty} (settled : p.ty = some ty) (a : Value) (span : Span) :
    Respects c (State.Wrote v) (assign p a span) := by
  rw [assign_eq, settled]
  subst hp
  exact .check (respects_assignAs (fun st _ => wrote_emit st) wrote_trackAt a span ty)

theorem place_settled {ty : Ty} (settled : s.typeOf? v = some ty) (span : Span) :
    Ends .finite c s (place run (.mk v [] span)) fun s' p => s' = s ∧ p.var = v ∧ p.ty = some ty := by
  rw [place]
  refine (recordOf_typed settled).bind fun found s₁ actual => .get_bind ?_
  obtain ⟨rfl, actual⟩ := actual
  dsimp only
  split
  · exact (flows_crossStream v span (Q := fun _ _ => False)).bind fun _ _ never => never.elim
  · rw [placeUnder]
    exact .pure ⟨rfl, rfl, actual⟩

/-- A literal is assigned to a variable of a settled type. -/
theorem wrote_statement {value : Constant} {ty : Ty} {targetSpan valueSpan span : Span}
    (settled : s.typeOf? v = some ty)
    (ended : statement run (.assign (.mk v [] targetSpan) (.literal value valueSpan) span) c s = .ok ((), t)) :
    s.Wrote v t := by
  have literal : Ends .finite c s (expression run (.literal value valueSpan)) fun s' _ => s' = s := by
    rw [expression]
    exact .get_bind (.pure rfl)
  obtain ⟨a, s₁, valued, ended⟩ := bind_ok.1 ended
  obtain ⟨p, s₂, placed, assigned⟩ := bind_ok.1 ended
  obtain rfl := literal.ok valued
  obtain ⟨rfl, var, settled⟩ := (place_settled settled targetSpan).ok placed
  exact wrote_assign var settled a span _ () t assigned

/-! ## Two runs of a static block -/

/-- Two runs of a step add the same statements to every scope, or they stop for one reason. -/
def AddsAlike (s t : State) (x y : Except Failure (Unit × State)) : Prop :=
  Outcomes (fun x y => ∀ i, ∃ new, x.2.out.scope i = s.out.scope i ++ new ∧ y.2.out.scope i = t.out.scope i ++ new)
    Failure.Alike x y

/-- A static block adds the same in two states in which the same is known of every variable that is mentioned in its
scope, or in one that this leads to. -/
theorem static_alike {body : Scoped.ScopeId} (common : t.common = s.common)
    (size : t.out.scopes.size = s.out.scopes.size) (width : t.tracked.size = s.tracked.size)
    (same : ∀ i, Relation.ReflTransGen c.source.Leads body i → ∀ v ∈ (c.source.scope i).vars,
      t.tracked[v]? = s.tracked[v]?)
    (flows : s.Flows c.source) (depth : Nat) (exports : List VarId) (span : Span) :
    AddsAlike s t (static (block depth) body exports span c s) (static (block depth) body exports span c t) := by
  let P : Pair :=
    { c := c, c' := c, s₀ := s, t₀ := t
      inside := Relation.ReflTransGen c.source.Leads body
      shared := fun v => t.tracked[v]? = s.tracked[v]?
      renames := .refl c
      leads := fun path lead => path.tail lead
      mentions := fun path => same _ path }
  have begun : P.States False s t :=
    ⟨common, size, ⟨Nat.le_refl _, Nat.le_of_eq size⟩, fun _ => ⟨#[], rfl, rfl⟩, width, fun _ hv => hv, nofun, #[], rfl, rfl⟩
  have ended := Pair.run_static (P.entered_block depth) begun flows .refl exports span
  exact Outcomes.mono ended fun x y related => related.1.added

/-- Behind statements of the entry, statements go to the scope that runs every time, which is not the static
initialization. -/
theorem upTo_entry {depth place n : Nat} (reached : upTo depth place c { tracked := Array.replicate n none } = .ok ((), s)) :
    s.current = some s.out.entry ∧ s.out.entry ≠ s.out.staticInit := by
  obtain ⟨_, _, got, reached⟩ := bind_ok.1 reached
  obtain ⟨rfl, rfl⟩ := read_ok.1 got
  obtain ⟨_, t, builtins, reached⟩ := bind_ok.1 reached
  obtain ⟨_, _, entered, reached⟩ := bind_ok.1 reached
  obtain rfl := modify_ok.1 entered
  have before := framed_block depth c.source.builtins _ _ _ builtins
  have opens := opens_of_all law_framed.toEntering (fun _ => trivial) (framed_block (c := c) depth)
  have behind := respects_statements law_framed.extended opens (fun _ _ _ _ => trivial) _ _ _ reached
  refine ⟨by rw [behind.current, behind.entry], ?_⟩
  rw [behind.entry, behind.staticInit]
  show t.out.entry ≠ t.out.staticInit
  rw [before.entry, before.staticInit]
  exact Nat.one_ne_zero

theorem flows_upTo {depth place n : Nat} (reached : upTo depth place c { tracked := Array.replicate n none } = .ok ((), s)) :
    s.Flows c.source := by
  have ends : Ends (.faulty True) c { tracked := Array.replicate n none } (upTo depth place) fun s' _ =>
      s'.Flows c.source := by
    refine .read_bind ((flows_toDepth depth _ (State.flows_start _ n)).bind fun _ t ht => .modify_bind ?_)
    refine flows_statements (i := c.source.entry) (fun j _ s hs => flows_toDepth depth j hs) ?_ fun st hst => ?_
    · exact ⟨ht.tracked, ht.log⟩
    · exact Array.mem_toList_iff.1 (List.mem_of_mem_take hst)
  exact ends.ok reached

/-- What the program proper assigns to a variable reaches a static block only where that mentions the variable, and only
if what is known of the variable is something else then. Otherwise the block adds what it adds without the assignment. -/
theorem static_behind_assignment {depth place : Nat} {value : Constant} {ty : Ty} {targetSpan valueSpan span blockSpan : Span}
    {body : Scoped.ScopeId} {exports : List VarId}
    (reached : upTo depth place c { tracked := Array.replicate c.source.vars.size none } = .ok ((), s))
    (settled : s.typeOf? v = some ty)
    (assigned : statement (block depth) (.assign (.mk v [] targetSpan) (.literal value valueSpan) span) c s = .ok ((), t))
    (unseen : t.tracked[v]? = s.tracked[v]? ∨
      ∀ i, Relation.ReflTransGen c.source.Leads body i → v ∉ (c.source.scope i).vars) :
    t.out.scope t.out.staticInit = s.out.scope s.out.staticInit ∧
      AddsAlike s t (statement (block depth) (.static body exports blockSpan) c s)
        (statement (block depth) (.static body exports blockSpan) c t) := by
  obtain ⟨current, apart⟩ := upTo_entry reached
  have wrote := wrote_statement settled assigned
  have staticInit : t.out.staticInit = s.out.staticInit := congrArg (·.out.staticInit) wrote.common
  refine ⟨?_, static_alike wrote.common wrote.size wrote.width (fun i path u mentioned => ?_) (flows_upTo reached) depth
    exports blockSpan⟩
  · rw [staticInit]
    exact wrote.others _ (current ▸ fun same => apart (Option.some.inj same))
  · rcases eq_or_ne u v with rfl | other
    · exact unseen.elim id fun never => (never i path mentioned).elim
    · exact wrote.tracked u other

/-- A static block behind an assignment that does not concern it. -/
def staticApart : String := "static s, u \x7b INT s = 1; INT u = 2; \x7d\ns = 5;\nstatic t \x7b INT t = u; \x7d\n"

/-- An assignment of a literal and the static block behind it, with the states before and behind the assignment. -/
structure AssignedAt where
  var : VarId
  targetSpan : Span
  value : Constant
  valueSpan : Span
  span : Span
  body : Scoped.ScopeId
  exports : List VarId
  blockSpan : Span
  before : State
  behind : State

/-- Works an assignment of the entry of a program out that stands in front of a static block. -/
def stageAssigned (depth place : Nat) (c : Context) : Except Failure AssignedAt := do
  let (_, s) ← upTo depth place c { tracked := Array.replicate c.source.vars.size none }
  match (c.source.scope c.source.entry).body[place]?, (c.source.scope c.source.entry).body[place + 1]? with
  | some (.assign (.mk v [] targetSpan) (.literal value valueSpan) span), some (.static body exports blockSpan) => do
    let (_, t) ← statement (block depth) (.assign (.mk v [] targetSpan) (.literal value valueSpan) span) c s
    return ⟨v, targetSpan, value, valueSpan, span, body, exports, blockSpan, s, t⟩
  | _, _ => throw .tooDeep

theorem stageAssigned_ok {depth place : Nat} {a : AssignedAt} (h : stageAssigned depth place c = .ok a) :
    upTo depth place c { tracked := Array.replicate c.source.vars.size none } = .ok ((), a.before) ∧
      statement (block depth) (.assign (.mk a.var [] a.targetSpan) (.literal a.value a.valueSpan) a.span) c a.before =
        .ok ((), a.behind) := by
  obtain ⟨⟨_, _⟩, reached, h⟩ := except_bind_ok.1 h
  dsimp only at h
  split at h
  · obtain ⟨⟨_, _⟩, assigned, h⟩ := except_bind_ok.1 h
    cases h
    exact ⟨reached, assigned⟩
  · cases h

/-- The block adds one statement in both runs, which reads the other variable. -/
theorem static_behind_assignment_apart :
    ∃ p c', (Compiler.scopedOf "main").run (Compiler.ofText staticApart) = (.ok p, c') ∧
      ∃ a, stageAssigned 6 1 ⟨p, {}⟩ = .ok a ∧
        (a.behind.out.scope a.behind.out.staticInit = a.before.out.scope a.before.out.staticInit ∧
          AddsAlike a.before a.behind
            (statement (block 6) (.static a.body a.exports a.blockSpan) ⟨p, {}⟩ a.before)
            (statement (block 6) (.static a.body a.exports a.blockSpan) ⟨p, {}⟩ a.behind)) ∧
        (a.before.out.scope a.before.out.staticInit).size = 2 ∧
        (statement (block 6) (.static a.body a.exports a.blockSpan) ⟨p, {}⟩ a.behind).toOption.any
          (fun x => (x.2.out.scope x.2.out.staticInit).size = 3) := by
  obtain ⟨p, c', built, tested⟩ := Compiler.ok_of_any (x := Compiler.scopedOf "main")
    (c := Compiler.ofText staticApart) (P := fun p => (stageAssigned 6 1 ⟨p, {}⟩).toOption.any fun a : AssignedAt =>
      (a.before.typeOf? a.var).isSome &&
      (p.scope a.body).body.all (fun st => st.calls.isEmpty && st.scopes.isEmpty) &&
      !(p.scope a.body).vars.contains a.var &&
      decide ((a.before.out.scope a.before.out.staticInit).size = 2) &&
      (statement (block 6) (.static a.body a.exports a.blockSpan) ⟨p, {}⟩ a.behind).toOption.any
        fun x : Unit × State => decide ((x.2.out.scope x.2.out.staticInit).size = 3))
    (by decide +kernel)
  obtain ⟨a, staged, tested⟩ := exists_ok_of_any tested
  simp only [Bool.and_eq_true, decide_eq_true_eq] at tested
  obtain ⟨⟨⟨⟨settled, leaf⟩, unmentioned⟩, two⟩, three⟩ := tested
  obtain ⟨ty, settled⟩ := Option.isSome_iff_exists.1 settled
  obtain ⟨reached, assigned⟩ := stageAssigned_ok staged
  refine ⟨p, c', built, a, staged, static_behind_assignment reached settled assigned (.inr fun i path => ?_), two, three⟩
  have here : i = a.body := Scoped.Program.eq_of_reaches_leaf (fun st hst => by
    simpa using Array.all_eq_true_iff_forall_mem.1 leaf st hst) path
  subst here
  simpa using unmentioned

end Stage

end SignalLang.Staged
