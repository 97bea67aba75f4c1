import SignalLang.Proofs.Compiler
import SignalLang.Proofs.Staged.Laws
import SignalLang.Proofs.Staged.Meaning

/-!
# Loops that are kept

The body of a loop that is kept is worked out twice, and only the second pass leaves statements. The first one is there
to find out what the body writes: behind it nothing is known of a variable that it wrote, so the second pass leaves
reads of such a variable to run time (`keptLoop_second_pass`). Of other variables as much is known as the first pass
ended with.

The first pass chooses branches by what is known before the loop. A variable that only later rounds write is therefore
not among those it writes, and the second pass may be the first to write it (`loop_writes_anew`).
-/

namespace SignalLang.Staged

open Scoped (VarId)
open Steps

/-- The type of a variable, where it has a record with a type. -/
def State.typeOf? (s : State) (v : VarId) : Option Ty :=
  (s.table.lookup v).bind fun id => (s.records.getD id default).bound.actual

/-- Nothing is known of a variable of a type. -/
def State.Unknown (s : State) (v : VarId) (ty : Ty) : Prop :=
  ∀ d, s.tracked[v]? = some d → d = some (.unknownOf ty.dims)

/-- One state comes from another by forgetting variables: nothing is known of those that have a type, and nothing else
is changed. -/
structure State.Forgets (vs : List VarId) (s s' : State) : Prop where
  same : s' = { s with tracked := s'.tracked, log := s'.log }
  unknown : ∀ v ∈ vs, ∀ ty, s.typeOf? v = some ty → s'.Unknown v ty
  kept : ∀ v, v ∉ vs → s'.tracked[v]? = s.tracked[v]?

theorem State.Forgets.cons {s s₁ s₂ : State} {v : VarId} {vs : List VarId} (one : s.Forgets [v] s₁)
    (rest : s₁.Forgets vs s₂) : s.Forgets (v :: vs) s₂ := by
  have typeOf (w : VarId) : s₁.typeOf? w = s.typeOf? w := by rw [one.same]; rfl
  refine ⟨by rw [rest.same, one.same], fun w mem ty typed => ?_, fun w apart => ?_⟩
  · by_cases again : w ∈ vs
    · exact rest.unknown w again ty (typeOf w ▸ typed)
    · obtain rfl := (List.mem_cons.1 mem).resolve_right again
      intro d known
      exact one.unknown w (List.mem_singleton_self w) ty typed d (rest.kept w again ▸ known)
  · rw [List.mem_cons, not_or] at apart
    rw [rest.kept w apart.2, one.kept w (by simpa using apart.1)]

/-- The state in which a pass over a loop body starts to work it out. -/
def State.entering (s : State) (into : Option ScopeId) : State :=
  { s with
    current := into, discarding := s.discarding || into.isNone, tables := s.table :: s.tables, written := []
    writtenBefore := s.written :: s.writtenBefore, conditional := s.conditional + 1 }

/-- The state between the passes over a loop, with a scope for the statements of the second one. -/
def State.withScope (s : State) : State := { s with out := s.out.addScope }

theorem Datum.isKnown_unknownOf {dims : List Int} (positive : ∀ d ∈ dims, 0 < d) :
    (unknownOf dims).isKnown = false := by
  induction dims with
  | nil => rfl
  | cons d ds ih =>
    obtain ⟨n, count⟩ : ∃ n, d.toNat = n + 1 := ⟨d.toNat - 1, by have := positive d List.mem_cons_self; omega⟩
    rw [unknownOf, isKnown, count, List.replicate_succ, allKnown, ih fun e he => positive e (List.mem_cons_of_mem _ he),
      Bool.false_and]

namespace Stage

variable {run : Scoped.ScopeId → Stage Unit} {c : Context} {body : Scoped.ScopeId} {into : Option ScopeId}
  {s s' t : State} {v : VarId} {ty : Ty}

/-! ## Forgetting -/

theorem forgets_forget (k : Stops) (vs : List VarId) : Ends k c s (forget vs) fun s' _ => s.Forgets vs s' := by
  induction vs generalizing s with
  | nil => exact .pure ⟨rfl, nofun, fun _ _ => rfl⟩
  | cons v vs ih =>
    refine Ends.bind (Q := fun s₁ _ => s.Forgets [v] s₁) ?_ fun _ s₁ one => ih.mono fun _ _ rest => one.cons rest
    have untyped (none : s.typeOf? v = none) : s.Forgets [v] s := by
      refine ⟨rfl, fun w mem ty typed => ?_, fun _ _ => rfl⟩
      rw [List.mem_singleton.1 mem, none] at typed
      cases typed
    refine .recordId_bind ?_
    split
    · rename_i missing
      exact .pure (untyped (by rw [State.typeOf?, missing]; rfl))
    · rename_i id found
      have typeOf : s.typeOf? v = (s.records.getD id default).bound.actual := by rw [State.typeOf?, found]; rfl
      refine .get_bind ?_
      split
      · refine .modify_bind (.modify ⟨rfl, fun w mem ty typed d known => ?_, fun w apart => ?_⟩)
        · obtain rfl := List.mem_singleton.1 mem
          have unknown : unknownFor (s.records.getD id default).bound = .unknownOf ty.dims := by
            rw [unknownFor, typeOf.symm.trans typed, Option.elim_some]
          dsimp only at known
          rw [Array.getElem?_setIfInBounds_self, unknown] at known
          split at known
          · exact (Option.some.inj known).symm
          · cases known
        · exact Array.getElem?_setIfInBounds_ne fun same => apart (List.mem_singleton.2 same.symm)
      · rename_i untyped'
        exact .pure (untyped (by rw [typeOf]; exact Option.not_isSome_iff_eq_none.1 untyped'))

/-! ## Passes -/

theorem loopPass_ok (h : loopPass run body into c s = .ok ((), s')) :
    ∃ t u, run body c (s.entering into) = .ok ((), t) ∧ forget t.written c t = .ok ((), u) ∧
      s' = { u with
        table := s.table, tables := u.tables.tail, current := s.current, discarding := s.discarding
        written := t.written ++ s.written.filter (!t.written.contains ·), writtenBefore := u.writtenBefore.tail
        conditional := u.conditional - 1 } := by
  obtain ⟨_, passed, rfl⟩ := loopPass_inv h
  obtain ⟨t, u, worked, forgot, rfl⟩ := inBranch_inv passed
  exact ⟨t, u, worked, forgot, rfl⟩

/-- One pass over a loop body, from `s` to `s'`. The body is worked out up to `t`, before its writes are forgotten. -/
structure Pass (run : Scoped.ScopeId → Stage Unit) (c : Context) (body : Scoped.ScopeId) (into : Option ScopeId)
    (s t s' : State) : Prop where
  worked : run body c (s.entering into) = .ok ((), t)
  passed : loopPass run body into c s = .ok ((), s')

theorem exists_pass (h : loopPass run body into c s = .ok ((), s')) : ∃ t, Pass run c body into s t s' := by
  obtain ⟨t, u, worked, -, -⟩ := loopPass_ok h
  exact ⟨t, worked, h⟩

/-- A pass ends with what its body found out, but for the variables that were written, and in the table it started
with. -/
theorem Pass.forgets (h : Pass run c body into s t s') :
    ∃ u, t.Forgets t.written u ∧ s'.tracked = u.tracked ∧ s'.records = t.records ∧ s'.table = s.table := by
  obtain ⟨t', u, worked, forgot, rfl⟩ := loopPass_ok h.passed
  obtain rfl : t = t' := by
    rw [h.worked] at worked
    cases worked
    rfl
  have forgets := (forgets_forget .finite t.written).ok forgot
  exact ⟨u, forgets, rfl, by rw [forgets.same], rfl⟩

/-! ## Reading what is unknown -/

theorem tracked_unknown (unknown : s.Unknown v ty) {r : Record} (typed : r.bound.actual = some ty) :
    Ends .finite c s (tracked v r) fun _ d => d = .unknownOf ty.dims := by
  refine .get_bind ?_
  dsimp only
  rw [typed]
  split
  · rename_i none
    cases none
  · rename_i t _ same
    cases same
    exact .modify_bind (.pure rfl)
  · rename_i t _ same
    cases same
    exact .modify_bind (.pure rfl)
  · rename_i d found _
    refine .pure (Option.some.inj (unknown (some d) ?_))
    rw [Array.getD_eq_getD_getElem?] at found
    cases known : s.tracked[v]? with
    | none =>
      rw [known] at found
      cases found
    | some e =>
      rw [known] at found
      exact congrArg some found

theorem recordOf_typed (typed : s.typeOf? v = some ty) :
    Ends .finite c s (recordOf v) fun s' p => s' = s ∧ p.2.bound.actual = some ty := by
  refine .recordId_bind ?_
  rw [State.typeOf?] at typed
  split
  · rename_i id found
    rw [found] at typed
    exact .get_bind (.pure ⟨rfl, typed⟩)
  · rename_i missing
    rw [missing] at typed
    cases typed

/-- A read of a variable of which nothing is known is left to run time. -/
theorem readVar_unknown (typed : s.typeOf? v = some ty) (positive : ty.IsPositive) (unknown : s.Unknown v ty)
    (span : Span) : Ends .finite c s (readVar v span) fun _ a => ∃ k g, a.content = .runtime (.var k ty span) g := by
  refine (recordOf_typed typed).bind fun p s₁ found => ?_
  obtain ⟨rfl, actual⟩ := found
  obtain ⟨id, r⟩ := p
  dsimp only at actual ⊢
  rw [actual]
  dsimp only
  refine .get_bind ?_
  split
  · exact flows_crossStream v span
  · refine (tracked_unknown unknown actual).bind fun d s₂ same => ?_
    rw [same, Datum.isKnown_unknownOf positive, if_neg Bool.false_ne_true]
    split
    · exact flows_crossStream v span
    · split
      · exact .read_bind .refuse
      · exact .get_bind (.pure ⟨_, _, rfl⟩)

/-! ## Two passes -/

/-- Makes the counter of a loop that is kept. -/
def openLoop (counter : VarId) : Stage SlotId := do
  let slot ← newSlot .int (← sourceVar counter).definition
  create counter ⟨some slot, .exactly .int, (← get).inStatic⟩
  return slot

theorem keptLoop_eq (counter : VarId) (start stop : Value) (span : Span) :
    keptLoop run counter start stop body span = (do
      let slot ← openLoop counter
      loopPass run body none
      let scope ← newScope
      loopPass run body (some scope)
      let startExpr ← asExpr start
      let stopExpr ← asExpr stop
      emit (.loop slot startExpr stopExpr scope span)) := rfl

/-- The states around the two passes over the body of a loop: with its counter, where the first pass has worked the body
out, between the passes, where the second one has worked the body out, and behind it. -/
structure TwoPasses where
  opened : State
  found : State
  between : State
  again : State
  behind : State

/-- The passes are those of a loop that is kept. -/
structure TwoPasses.Of (run : Scoped.ScopeId → Stage Unit) (c : Context) (counter : VarId) (body : Scoped.ScopeId)
    (s : State) (w : TwoPasses) : Prop where
  counted : ∃ slot, openLoop counter c s = .ok (slot, w.opened)
  first : Pass run c body none w.opened w.found w.between
  second : Pass run c body (some w.between.out.scopes.size) w.between.withScope w.again w.behind

/-- Works out the passes over the body of a loop. -/
def twoPasses (run : Scoped.ScopeId → Stage Unit) (counter : VarId) (body : Scoped.ScopeId) (c : Context) (s : State) :
    Except Failure TwoPasses := do
  let (_, opened) ← openLoop counter c s
  let (_, found) ← run body c (opened.entering none)
  let (_, between) ← loopPass run body none c opened
  let (_, again) ← run body c (between.withScope.entering (some between.out.scopes.size))
  let (_, behind) ← loopPass run body (some between.out.scopes.size) c between.withScope
  return ⟨opened, found, between, again, behind⟩

theorem twoPasses_ok {counter : VarId} {w : TwoPasses} :
    twoPasses run counter body c s = .ok w ↔ w.Of run c counter body s := by
  constructor
  · intro h
    obtain ⟨⟨slot, _⟩, counted, h⟩ := except_bind_ok.1 h
    obtain ⟨⟨_, _⟩, found, h⟩ := except_bind_ok.1 h
    obtain ⟨⟨_, _⟩, first, h⟩ := except_bind_ok.1 h
    obtain ⟨⟨_, _⟩, again, h⟩ := except_bind_ok.1 h
    obtain ⟨⟨_, _⟩, second, h⟩ := except_bind_ok.1 h
    cases h
    exact ⟨⟨slot, counted⟩, ⟨found, first⟩, ⟨again, second⟩⟩
  · rintro ⟨⟨slot, counted⟩, ⟨found, first⟩, ⟨again, second⟩⟩
    exact except_bind_ok.2 ⟨_, counted, except_bind_ok.2 ⟨_, found, except_bind_ok.2 ⟨_, first,
      except_bind_ok.2 ⟨_, again, except_bind_ok.2 ⟨_, second, rfl⟩⟩⟩⟩⟩

theorem exists_twoPasses {counter : VarId} {start stop : Value} {span : Span}
    (kept : keptLoop run counter start stop body span c s = .ok ((), s')) :
    ∃ w : TwoPasses, w.Of run c counter body s ∧ s'.tracked = w.behind.tracked := by
  rw [keptLoop_eq] at kept
  obtain ⟨slot, s₁, counted, rest₁⟩ := bind_ok.1 kept
  obtain ⟨_, s₂, pass₁, rest₂⟩ := bind_ok.1 rest₁
  obtain ⟨scope, s₀, made, rest₃⟩ := bind_ok.1 rest₂
  obtain ⟨rfl, rfl⟩ := newScope_inv made
  obtain ⟨_, s₃, pass₂, rest₄⟩ := bind_ok.1 rest₃
  obtain ⟨_, s₄, low, rest₅⟩ := bind_ok.1 rest₄
  obtain ⟨_, s₅, high, emitted⟩ := bind_ok.1 rest₅
  obtain rfl : s₄ = s₃ := Ends.ok (k := .finite) (flows_asExpr start) low
  obtain rfl : s₅ = s₄ := Ends.ok (k := .finite) (flows_asExpr stop) high
  obtain rfl := modify_ok.1 emitted
  obtain ⟨t₁, first⟩ := exists_pass pass₁
  obtain ⟨t₂, second⟩ := exists_pass pass₂
  refine ⟨⟨s₁, t₁, s₂, t₂, _⟩, ⟨⟨slot, counted⟩, first, second⟩, ?_⟩
  split <;> rfl

/-- Stages a program up to a statement of its entry. -/
def upTo (depth place : Nat) : Stage Unit := do
  let p := (← read).source
  block depth p.builtins
  modify fun s => { s with current := some s.out.entry }
  statements (block depth) ((p.scope p.entry).body.toList.take place)

/-- A program is staged up to a loop of its entry that is not to be unrolled, which then ends well. -/
inductive LoopAt (depth place : Nat) (c : Context) (s : State) (w : TwoPasses) : Prop where
  | mk {counter : VarId} {start stop : Scoped.Expr} {body : Scoped.ScopeId} {span : Span} {lower upper : Value}
    {s₀ s₁ s' : State}
    (isLoop : (c.source.scope c.source.entry).body[place]? = some (.loop counter start stop body false span))
    (reached : upTo depth place c { tracked := Array.replicate c.source.vars.size none } = .ok ((), s₀))
    (isLower : expression (block depth) start c s₀ = .ok (lower, s₁))
    (isUpper : expression (block depth) stop c s₁ = .ok (upper, s))
    (kept : keptLoop (block depth) counter lower upper body span c s = .ok ((), s'))
    (passes : w.Of (block depth) c counter body s)

/-- Tests the passes over a loop. -/
def testLoop (depth place : Nat) (c : Context) (test : State → TwoPasses → Bool) : Except Failure Bool :=
  match (c.source.scope c.source.entry).body[place]? with
  | some (.loop counter start stop body false span) => do
    let (_, s₀) ← upTo depth place c { tracked := Array.replicate c.source.vars.size none }
    let (lower, s₁) ← expression (block depth) start c s₀
    let (upper, s) ← expression (block depth) stop c s₁
    let _ ← keptLoop (block depth) counter lower upper body span c s
    let w ← twoPasses (block depth) counter body c s
    return test s w
  | _ => return false

theorem exists_of_testLoop {depth place : Nat} {test : State → TwoPasses → Bool}
    (h : (testLoop depth place c test).toOption = some true) : ∃ s w, LoopAt depth place c s w ∧ test s w = true := by
  have ended : testLoop depth place c test = .ok true := by
    cases run : testLoop depth place c test with
    | error _ =>
      rw [run] at h
      cases h
    | ok b =>
      rw [run] at h
      exact congrArg Except.ok (Option.some.inj h)
  unfold testLoop at ended
  split at ended
  · rename_i isLoop
    obtain ⟨⟨_, s₀⟩, reached, ended⟩ := except_bind_ok.1 ended
    obtain ⟨⟨lower, s₁⟩, isLower, ended⟩ := except_bind_ok.1 ended
    obtain ⟨⟨upper, s⟩, isUpper, ended⟩ := except_bind_ok.1 ended
    obtain ⟨⟨_, s'⟩, kept, ended⟩ := except_bind_ok.1 ended
    obtain ⟨w, passes, ended⟩ := except_bind_ok.1 ended
    exact ⟨s, w, ⟨isLoop, reached, isLower, isUpper, kept, twoPasses_ok.1 passes⟩, Except.ok.inj ended⟩
  · cases ended

/-- A program with a loop that takes another branch in its second round, and fails in its third. -/
def secondBranch : String :=
  "INT x = 0;\nINT y = 0;\nfor i = 0 to 3 no_unroll \x7b\n    assert y == 0;\n" ++
    "    if x == 0 \x7b x = 1; \x7d else \x7b y = 1; \x7d\n\x7d\n"

/-- The variables `x` and `y` of the program, around the passes over its loop. -/
theorem passes_secondBranch :
    ∃ p c', (Compiler.scopedOf "main").run (Compiler.ofText secondBranch) = (.ok p, c') ∧
      ((p.var 53).name = "x" ∧ (p.var 54).name = "y") ∧ ∃ s w, LoopAt 5 4 ⟨p, {}⟩ s w ∧
        (53 ∈ w.found.written ∧ w.found.table.lookup 53 = w.opened.table.lookup 53 ∧ w.found.typeOf? 53 = some .int ∧
          (readVar 53 .builtin ⟨p, {}⟩ (w.between.withScope.entering (some w.between.out.scopes.size))).toOption.isSome) ∧
        (s.table.lookup 54).isSome ∧ 54 ∉ w.found.written ∧ 54 ∈ w.again.written ∧
        (w.between.tracked.getD 54 none).bind Datum.int? = some 0 ∧
        (w.behind.out.scope w.between.out.scopes.size).size = 1 := by
  obtain ⟨p, c', built, found⟩ := Compiler.ok_of_any (x := Compiler.scopedOf "main") (c := Compiler.ofText secondBranch)
    (P := fun p => ((p.var 53).name = "x" ∧ (p.var 54).name = "y") && (testLoop 5 4 ⟨p, {}⟩ fun s w => decide
      ((53 ∈ w.found.written ∧ w.found.table.lookup 53 = w.opened.table.lookup 53 ∧ w.found.typeOf? 53 = some .int ∧
        (readVar 53 .builtin ⟨p, {}⟩ (w.between.withScope.entering (some w.between.out.scopes.size))).toOption.isSome) ∧
      (s.table.lookup 54).isSome ∧ 54 ∉ w.found.written ∧ 54 ∈ w.again.written ∧
        (w.between.tracked.getD 54 none).bind Datum.int? = some 0 ∧
        (w.behind.out.scope w.between.out.scopes.size).size = 1)).toOption = some true) (by decide +kernel)
  rw [Bool.and_eq_true, decide_eq_true_eq, decide_eq_true_eq] at found
  obtain ⟨s, w, loop, tests⟩ := exists_of_testLoop found.2
  exact ⟨p, c', built, found.1, s, w, loop, of_decide_eq_true tests⟩

/-- The body of a loop that is kept is worked out in two passes. Where the second one starts, reads of the variables
that the first one wrote are left to run time, and as much is known of other ones as the first pass ended with. -/
theorem keptLoop_second_pass {counter : VarId} {start stop : Value} {span : Span}
    (kept : keptLoop run counter start stop body span c s = .ok ((), s')) :
    ∃ w : TwoPasses, w.Of run c counter body s ∧ s'.tracked = w.behind.tracked ∧
      (∀ v ∈ w.found.written, w.found.table.lookup v = w.opened.table.lookup v → ∀ ty, w.found.typeOf? v = some ty →
        ty.IsPositive → ∀ place a u,
          readVar v place c (w.between.withScope.entering (some w.between.out.scopes.size)) = .ok (a, u) →
            ∃ k g, a.content = .runtime (.var k ty place) g) ∧
      ∀ v, v ∉ w.found.written → w.between.tracked[v]? = w.found.tracked[v]? := by
  obtain ⟨w, passes, behind⟩ := exists_twoPasses kept
  obtain ⟨u, forgets, known, records, table⟩ := passes.first.forgets
  refine ⟨w, passes, behind, fun v wrote same ty typed positive place a s₆ read => ?_, fun v apart => ?_⟩
  · refine (readVar_unknown ?_ positive (fun d here => ?_) place).ok read
    · rw [← typed, State.typeOf?, State.typeOf?, same, ← table, ← records]
      rfl
    · exact forgets.unknown v wrote ty typed d (known ▸ here)
  · rw [known]
    exact forgets.kept v apart

/-- The first pass writes `x`, so the second one reads it at run time. -/
theorem keptLoop_second_pass_reads :
    ∃ p c', (Compiler.scopedOf "main").run (Compiler.ofText secondBranch) = (.ok p, c') ∧
      ∃ x s w a u k g, (p.var x).name = "x" ∧ LoopAt 5 4 ⟨p, {}⟩ s w ∧ x ∈ w.found.written ∧
        readVar x .builtin ⟨p, {}⟩ (w.between.withScope.entering (some w.between.out.scopes.size)) = .ok (a, u) ∧
        a.content = .runtime (.var k .int .builtin) g := by
  obtain ⟨p, c', built, ⟨named, -⟩, s, w, loop, ⟨wrote, same, typed, ends⟩, -⟩ := passes_secondBranch
  have atLoop := loop
  obtain ⟨-, -, -, -, kept, passes⟩ := loop
  obtain ⟨w', passes', -, reads, -⟩ := keptLoop_second_pass kept
  obtain rfl : w = w' := Except.ok.inj ((twoPasses_ok.2 passes).symm.trans (twoPasses_ok.2 passes'))
  cases read : readVar 53 .builtin ⟨p, {}⟩ (w.between.withScope.entering (some w.between.out.scopes.size)) with
  | error _ =>
    rw [read] at ends
    cases ends
  | ok r =>
    obtain ⟨a, u⟩ := r
    obtain ⟨k, g, content⟩ := reads 53 wrote same .int typed (Ty.isPositive_prim _) .builtin a u read
    exact ⟨p, c', built, 53, s, w, a, u, k, g, named, atLoop, wrote, read, content⟩

/-- The first pass takes only the branch that the first round takes. So `y` is still known to be zero where the second
pass starts, which leaves the assertion out and is the first to write `y`. -/
theorem loop_writes_anew :
    ∃ p c', (Compiler.scopedOf "main").run (Compiler.ofText secondBranch) = (.ok p, c') ∧
      ∃ y s w, (p.var y).name = "y" ∧ LoopAt 5 4 ⟨p, {}⟩ s w ∧ (s.table.lookup y).isSome ∧
        y ∉ w.found.written ∧ y ∈ w.again.written ∧ (w.between.tracked.getD y none).bind Datum.int? = some 0 ∧
        (w.behind.out.scope w.between.out.scopes.size).size = 1 := by
  obtain ⟨p, c', built, ⟨-, named⟩, s, w, loop, -, anew⟩ := passes_secondBranch
  exact ⟨p, c', built, 54, s, w, named, loop, anew⟩

end Stage

end SignalLang.Staged
