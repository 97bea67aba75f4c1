import Mathlib.Data.List.Nodup
import Mathlib.Data.Fintype.Card
import SignalLang.Proofs.Compiler
import SignalLang.Proofs.Staged.Depth
import SignalLang.Proofs.Staged.MacroFlow

/-!
# Staging comes to an end

The scopes that are entered one inside the other form a path along which each scope leads to the next. In an
acyclic program such a path repeats no scope, so it is no longer than the program has scopes, and a depth beyond
that number is never used up: `resolveTo_of_acyclic`.

A macro that is passed to itself is the way around this: `resolveTo_selfApplied`.
-/

namespace SignalLang.Staged

open Scoped (VarId)
open Steps

namespace Stage

variable {c : Context} {s : State}

/-- A list of different scopes of the program is no longer than the program has scopes. -/
theorem length_le_of_nodup {path : List Scoped.ScopeId} {n : Nat} (h : path.Nodup) (hlt : ∀ j ∈ path, j < n) :
    path.length ≤ n := by
  have sub : path ⊆ List.range n := fun j hj => List.mem_range.2 (hlt j hj)
  simpa using (List.subperm_of_subset h sub).length_le

/-- The path of scopes around `i` and the depth left below it exceed the number of scopes. -/
theorem flows_block (acyclic : c.source.Acyclic) (depth : Nat) {i : Scoped.ScopeId}
    (path : List Scoped.ScopeId) (distinct : path.Nodup)
    (hpath : ∀ j ∈ path, j < c.source.scopes.size ∧ Relation.TransGen c.source.Leads j i)
    (enough : c.source.scopes.size < path.length + depth) (h : s.Flows c.source) :
    Ends .finite c s (block depth i) fun s' _ => s'.Flows c.source := by
  induction depth generalizing i path s with
  | zero =>
    have := length_le_of_nodup distinct fun j hj => (hpath j hj).1
    omega
  | succ depth ih =>
    refine .read_bind ?_
    rcases Nat.lt_or_ge i c.source.scopes.size with made | missing
    · have fresh : i ∉ path := fun hi => acyclic i (hpath i hi).2
      have enters : Enters False c i (block depth) := by
        intro j lead t ht
        refine ih (i :: path) (List.nodup_cons.2 ⟨fresh, distinct⟩) (fun k hk => ?_) ?_ ht
        · rcases List.mem_cons.1 hk with rfl | hk
          · exact ⟨made, .single lead⟩
          · exact ⟨(hpath k hk).1, (hpath k hk).2.tail lead⟩
        · rw [List.length_cons]
          omega
      exact flows_statements enters h fun st hst => Array.mem_toList_iff.1 hst
    · have empty : (c.source.scope i).body.toList = [] := by
        unfold Scoped.Program.scope
        rw [Array.getD_eq_getD_getElem?, Array.getElem?_eq_none missing]
        rfl
      rw [empty]
      exact .pure h

theorem ends_slotOr {k : Stops} (problem : Span → String → Bound → Problem) (v : VarId) (r : Record) :
    Ends k c s (match r.slot with
      | some slot => return slot
      | none => do
        let var ← sourceVar v
        refuse (problem var.definition var.name r.bound) : Stage SlotId) fun t _ => t = s := by
  split
  · exact .pure rfl
  · exact .read_bind .refuse

/-- The interface of a program is read off, or there is a problem with it. -/
theorem ends_ioSlots {k : Stops} {problem : Span → String → Bound → Problem} {vars : List VarId} :
    Ends k c s (ioSlots problem vars) fun s' _ => s' = s := by
  unfold ioSlots
  induction vars generalizing s with
  | nil => exact .pure rfl
  | cons v rest ih =>
    rw [List.mapM_cons]
    refine Ends.bind (Q := fun t _ => t = s) ?_ fun k s₁ same => ?_
    · refine .recordId_bind ?_
      dsimp only
      split
      · exact .get_bind (ends_slotOr problem v _)
      · exact ends_slotOr problem v ⟨none, .auto, false⟩
    · subst same
      exact ih.bind fun _ s₂ same => .pure same

end Stage

/-- What staging ends with is what working the program out ends with. -/
theorem resolveTo_ends {k : Stops} {source : Scoped.Program} {options : Options} {depth : Nat} {Q : Program → Prop}
    (h : Stage.Ends k ⟨source, options⟩ { tracked := Array.replicate source.vars.size none } (Stage.program depth)
      fun _ q => Q q) :
    (∀ q, resolveTo depth source options = .ok q → Q q) ∧ ∀ e, resolveTo depth source options = .error e → k.Allows e := by
  have run : resolveTo depth source options = (Stage.program depth ⟨source, options⟩
    { tracked := Array.replicate source.vars.size none }).map Prod.fst := rfl
  rw [run]
  cases ended : Stage.program depth ⟨source, options⟩ { tracked := Array.replicate source.vars.size none } with
  | ok r =>
    refine ⟨fun q hq => ?_, nofun⟩
    cases hq
    exact h.ok ended
  | error e =>
    refine ⟨nofun, fun e' he => ?_⟩
    cases he
    exact h.error ended

/-- An acyclic program is worked out at a depth beyond its number of scopes, whatever the options: the depth is
not used up, and no greater one changes the answer. -/
theorem resolveTo_of_acyclic {source : Scoped.Program} (acyclic : source.Acyclic) (options : Options)
    {depth : Nat} (h : source.scopes.size < depth) :
    (∀ e, resolveTo depth source options = .error e → e ≠ .tooDeep) ∧
      resolveTo depth source options = resolveTo (source.scopes.size + 1) source options := by
  have finite (depth : Nat) (h : source.scopes.size < depth) (e : Failure)
      (stopped : resolveTo depth source options = .error e) : e ≠ .tooDeep := by
    have acyclic : (⟨source, options⟩ : Context).source.Acyclic := acyclic
    have whole : Stage.Ends .finite ⟨source, options⟩
        { tracked := Array.replicate source.vars.size none } (Stage.program depth) fun _ _ => True := by
      have block {i : Scoped.ScopeId} {s : State} (hs : s.Flows source) :
          Stage.Ends .finite ⟨source, options⟩ s (Stage.block depth i) fun s' _ => s'.Flows source :=
        Stage.flows_block acyclic depth [] .nil (by simp) (by simpa using h) hs
      refine .read_bind ((block (State.flows_start _ _)).bind fun _ s₁ h₁ => .modify_bind ((block ?_).bind fun _ s₂ h₂ => ?_))
      · exact ⟨h₁.tracked, h₁.log⟩
      · exact Stage.ends_ioSlots.bind fun _ _ _ => Stage.ends_ioSlots.bind fun _ _ _ =>
          .get_bind (.pure trivial)
    rintro rfl
    exact (resolveTo_ends whole).2 _ stopped
  exact ⟨finite depth h, resolveTo_of_le h source options (finite _ (Nat.lt_succ_self _))⟩

/-! ## A macro that is passed to itself -/

/-- A variable without a slot is known to be the macro of a site. -/
structure State.Knows (s : State) (v : VarId) (site : MacroSite) : Prop where
  found : ∃ id, s.table.lookup v = some id ∧ s.records[id]? = some ⟨none, .exactly .macroRef, false⟩
  tracked : ∃ context, s.tracked[v]? = some (some (.macroRef site context))
  main : s.inStatic = false

namespace Stage

variable {c : Context} {s : State} {v f : VarId} {site : MacroSite} {run : Scoped.ScopeId → Stage Unit}

theorem error_of_bind {α β : Type} {m : Stage α} {g : α → Stage β} {e : Failure} {P : α → State → Prop}
    (hm : Yields m c s P) (hg : ∀ a t, P a t → g a c t = .error e) : (m >>= g) c s = .error e := by
  obtain ⟨a, t, ran, hp⟩ := hm
  rw [bind_run, ran]
  exact hg a t hp

theorem error_bind {α β : Type} {m : Stage α} {g : α → Stage β} {e : Failure} (h : m c s = .error e) :
    (m >>= g) c s = .error e := by
  rw [bind_run, h]
  rfl

theorem error_read_bind {β : Type} {g : Context → Stage β} {e : Failure} (h : g c c s = .error e) :
    (read >>= g) c s = .error e := h

theorem error_get_bind {β : Type} {g : State → Stage β} {e : Failure} (h : g s c s = .error e) :
    (get >>= g) c s = .error e := h

theorem error_set_bind {β : Type} {t : State} {g : PUnit → Stage β} {e : Failure} (h : g ⟨⟩ c t = .error e) :
    (set t >>= g) c s = .error e := h

theorem yields_readVar (h : s.Knows v site) (span : Span) : Yields (readVar v span) c s fun a t =>
    t = s ∧ ∃ context, a = .known (.macroRef site context) .macroRef span := by
  obtain ⟨id, found, record⟩ := h.found
  obtain ⟨context, known⟩ := h.tracked
  refine Yields.bind (P := fun r t => t = s ∧ r.2 = ⟨none, .exactly .macroRef, false⟩) ?_ fun r t ht => ?_
  · refine Yields.bind (P := fun a t => t = s ∧ a = some id) ⟨_, s, rfl, rfl, found⟩ fun a t ha => ?_
    obtain ⟨rfl, rfl⟩ := ha
    refine .get_bind (.pure ⟨rfl, ?_⟩)
    rw [Array.getD_eq_getD_getElem?, record, Option.getD_some]
  · obtain ⟨id, r⟩ := r
    obtain ⟨rfl, rfl⟩ := ht
    refine .get_bind ?_
    dsimp only
    rw [if_neg (by simp)]
    refine Yields.bind (P := fun d u => u = t ∧ d = .macroRef site context) ?_ fun d u hd => ?_
    · refine .get_bind ?_
      rw [Array.getD_eq_getD_getElem?, known]
      exact .pure ⟨rfl, rfl⟩
    · obtain ⟨rfl, rfl⟩ := hd
      exact .pure ⟨rfl, context, rfl⟩

/-- An input that is given a macro is known to be that macro. -/
theorem yields_bindInput (main : s.inStatic = false) (hf : f < s.tracked.size) {context : Table} {span : Span} :
    Yields (bindInputs [(f, .known (.macroRef site context) .macroRef span)]) c s fun _ t =>
      t.Knows f site ∧ t.tracked.size = s.tracked.size := by
  let made : State := { s with
    records := s.records.push ⟨none, .exactly .macroRef, s.inStatic⟩
    table := (f, s.records.size) :: s.table
    tracked := (s.tracked.setIfInBounds f (some (unknownFor (.exactly .macroRef)))).setIfInBounds f
      (some (.macroRef site context))
    written := if (if s.written.contains f then s.written else f :: s.written).contains f
      then if s.written.contains f then s.written else f :: s.written
      else f :: if s.written.contains f then s.written else f :: s.written
    log := (s.log.push ⟨f, [], unknownFor (.exactly .macroRef)⟩).push ⟨f, [], .macroRef site context⟩ }
  refine ⟨(), made, rfl, ⟨⟨s.records.size, ?_, ?_⟩, ⟨context, ?_⟩, main⟩, ?_⟩
  · simp [made]
  · simp [made, main]
  · simp [made, hf]
  · simp [made]

theorem error_selfCall (h : s.Knows v site) (hin : (c.source.scope site.body).inputs = [f])
    (hout : (c.source.scope site.body).outputs = []) (hf : f < s.tracked.size)
    (hrun : ∀ t : State, t.Knows f site → t.tracked.size = s.tracked.size →
      run site.body c t = .error .tooDeep) {calleeSpan argSpan span : Span} :
    expression run (.call v calleeSpan [.var v argSpan] [] span) c s = .error .tooDeep := by
  rw [expression]
  refine error_of_bind (yields_readVar h calleeSpan) fun m t hm => ?_
  obtain ⟨rfl, context, rfl⟩ := hm
  rw [if_neg (by simp [Value.known])]
  have given : Yields (values run [.var v argSpan]) c t fun vs u => u = t ∧ ∃ context',
      vs = [.known (.macroRef site context') .macroRef argSpan] := by
    rw [values, values, expression]
    refine (yields_readVar h argSpan).bind fun a u ha => ?_
    obtain ⟨rfl, context', rfl⟩ := ha
    exact .pure ⟨rfl, context', rfl⟩
  refine error_read_bind (error_of_bind given fun vs u hvs => ?_)
  obtain ⟨rfl, context', rfl⟩ := hvs
  rw [if_neg (by simp [hin]), if_neg (by simp [hout]), hin]
  refine error_of_bind (P := fun _ w => w.inStatic = false ∧ w.tracked = u.tracked) ?_ fun scope w hw => ?_
  · exact ⟨_, _, rfl, h.main, rfl⟩
  · have size : w.tracked.size = u.tracked.size := congrArg Array.size hw.2
    refine error_get_bind (error_set_bind ?_)
    refine error_of_bind (P := fun _ t => t.Knows f site ∧ t.tracked.size = w.tracked.size) ?_ fun _ t ht => ?_
    · apply yields_bindInput
      · exact hw.1
      · exact size ▸ hf
    · exact error_bind (hrun t ht.1 (ht.2.trans size))

/-- The body of a macro calls its input with that input. -/
def CallsItself (p : Scoped.Program) (b : Scoped.ScopeId) (f : VarId) : Prop :=
  (p.scope b).inputs = [f] ∧ (p.scope b).outputs = [] ∧ ∃ calleeSpan argSpan span stmtSpan,
    (p.scope b).body.toList = [.expr (.call f calleeSpan [.var f argSpan] [] span) stmtSpan]

theorem error_block (calls : CallsItself c.source site.body f) (depth : Nat) (h : s.Knows f site)
    (hf : f < s.tracked.size) : block depth site.body c s = .error .tooDeep := by
  obtain ⟨hin, hout, calleeSpan, argSpan, span, stmtSpan, body⟩ := calls
  induction depth generalizing s with
  | zero => rfl
  | succ depth ih =>
    show statements (block depth) (c.source.scope site.body).body.toList c s = _
    rw [body]
    refine error_bind (error_bind (error_selfCall h hin hout hf fun t ht size => ih ht ?_))
    rw [size]
    exact hf

theorem yields_macroDef (hm : (c.source.var v).initial = some (.macroRef site)) (main : s.inStatic = false)
    (hv : v < s.tracked.size) {typeSpan span : Span} :
    Yields (statement run (.create v (.literal (.type (.exactly .macroRef)) typeSpan) span)) c s fun _ t =>
      t.Knows v site ∧ t.tracked.size = s.tracked.size ∧ t.returned = s.returned := by
  show Yields (creation run v (.literal (.type (.exactly .macroRef)) typeSpan)) c s _
  unfold creation
  rw [expression]
  refine Yields.bind (P := fun a t => t = s ∧ a = .known (.type (.exactly .macroRef)) .dataType typeSpan) ?_
    fun a t ha => ?_
  · exact .get_bind (.pure ⟨rfl, rfl⟩)
  obtain ⟨rfl, rfl⟩ := ha
  refine Yields.bind (P := fun b u => u = t ∧ b = .exactly .macroRef) ⟨_, _, rfl, rfl, rfl⟩ fun b u hb => ?_
  obtain ⟨rfl, rfl⟩ := hb
  refine Yields.bind (P := fun var w => w = u ∧ var = c.source.var v) ⟨_, _, rfl, rfl, rfl⟩ fun var w hw => ?_
  obtain ⟨rfl, rfl⟩ := hw
  refine .get_bind ?_
  dsimp only
  rw [hm]
  -- The variable is made open to nothing and then takes the macro, under the table that already has it.
  refine ⟨(), _, rfl, ⟨⟨w.records.size, ?_, ?_⟩, ⟨(v, w.records.size) :: w.table, ?_⟩, main⟩, ?_, rfl⟩
  · simp
  · simp [main]
  · simp [hv, Datum.ofConstant]
  · simp

/-- A macro is made and called with itself. -/
theorem error_selfApplied (hm : (c.source.var v).initial = some (.macroRef site))
    (calls : CallsItself c.source site.body f) (main : s.inStatic = false) (going : s.returned = false)
    (hv : v < s.tracked.size) (hf : f < s.tracked.size) (depth : Nat)
    {typeSpan span calleeSpan argSpan callSpan stmtSpan : Span} :
    statements (block depth) [.create v (.literal (.type (.exactly .macroRef)) typeSpan) span,
      .expr (.call v calleeSpan [.var v argSpan] [] callSpan) stmtSpan] c s = .error .tooDeep := by
  refine error_of_bind (yields_macroDef hm main hv) fun _ t ht => ?_
  obtain ⟨knows, size, same⟩ := ht
  refine error_get_bind ?_
  rw [if_neg (by rw [same, going]; exact Bool.false_ne_true)]
  refine error_bind (error_bind (error_selfCall knows calls.1 calls.2.1 (size ▸ hf) fun u hu size' => ?_))
  exact error_block calls depth hu (by rw [size', size]; exact hf)

end Stage

/-- A scope takes one of the first `n` variables as its input, and all it does is call it with itself. -/
def callsInput (n : Nat) (s : Scoped.Scope) : Bool :=
  match s.inputs, s.outputs, s.body.toList with
  | [f], [], [.expr (.call f₁ _ [.var f₂ _] [] _) _] => f₁ == f && f₂ == f && decide (f < n)
  | _, _, _ => false

theorem callsItself_of_callsInput {p : Scoped.Program} {n : Nat} {b : Scoped.ScopeId}
    (h : callsInput n (p.scope b) = true) : ∃ f, Stage.CallsItself p b f ∧ f < n := by
  unfold callsInput at h
  split at h
  · rename_i f f₁ calleeSpan f₂ argSpan span stmtSpan hin hout body
    simp only [Bool.and_eq_true, beq_iff_eq, decide_eq_true_eq] at h
    obtain ⟨⟨rfl, rfl⟩, hf⟩ := h
    exact ⟨_, ⟨hin, hout, calleeSpan, argSpan, span, stmtSpan, body⟩, hf⟩
  · cases h

/-- The program makes such a macro and calls it with itself; its predefined names are made without a nested
scope. -/
def appliesItself (p : Scoped.Program) : Bool :=
  (match (p.scope p.entry).body.toList with
    | [.create m (.literal (.type b) _) _, .expr (.call m₁ _ [.var m₂ _] [] _) _] =>
      m₁ == m && m₂ == m && b == .exactly .macroRef && decide (m < p.vars.size) &&
        (match (p.var m).initial with
          | some (.macroRef site) => callsInput p.vars.size (p.scope site.body)
          | _ => false)
    | _ => false) &&
  (match Stage.block 1 p.builtins ⟨p, {}⟩ { tracked := Array.replicate p.vars.size none } with
    | .ok (_, s) => !s.inStatic && !s.returned && s.tracked.size == p.vars.size
    | .error _ => false)

theorem error_of_appliesItself {p : Scoped.Program} (h : appliesItself p = true) (depth : Nat) :
    resolveTo depth p {} = .error .tooDeep := by
  obtain ⟨entry, builtins⟩ := Bool.and_eq_true_iff.1 h
  suffices Stage.program depth ⟨p, {}⟩ { tracked := Array.replicate p.vars.size none } = .error .tooDeep by
    show (Stage.program depth ⟨p, {}⟩ { tracked := Array.replicate p.vars.size none }).map Prod.fst = _
    rw [this]
    rfl
  refine Stage.error_read_bind ?_
  cases depth with
  | zero => exact Stage.error_bind rfl
  | succ depth =>
    split at builtins
    · rename_i s ran
      simp only [Bool.and_eq_true, Bool.not_eq_true', beq_iff_eq] at builtins
      obtain ⟨⟨main, going⟩, size⟩ := builtins
      have ran : Stage.block (depth + 1) p.builtins ⟨p, {}⟩ { tracked := Array.replicate p.vars.size none } =
          .ok ((), s) := by
        rcases Stage.within_block (Nat.le_add_left 1 depth) p.builtins ⟨p, {}⟩
          { tracked := Array.replicate p.vars.size none } with stopped | same
        · rw [ran] at stopped
          cases stopped
        · rw [← same, ran]
      refine Stage.error_of_bind (P := fun _ t => t = s) ⟨_, _, ran, rfl⟩ fun _ t ht => ?_
      subst ht
      split at entry
      · rename_i m b typeSpan span m₁ calleeSpan m₂ argSpan callSpan stmtSpan body
        simp only [Bool.and_eq_true, beq_iff_eq, decide_eq_true_eq] at entry
        obtain ⟨⟨⟨⟨rfl, rfl⟩, rfl⟩, hm⟩, calls⟩ := entry
        split at calls
        · rename_i site initial
          obtain ⟨f, calls, hf⟩ := callsItself_of_callsInput calls
          let entered : State := { t with current := some t.out.entry }
          refine Stage.error_of_bind (P := fun _ u => u = entered) ⟨_, _, rfl, rfl⟩ fun _ u hu => ?_
          subst hu
          refine Stage.error_bind (Stage.error_read_bind ?_)
          show Stage.statements (Stage.block depth) (p.scope p.entry).body.toList _ _ = _
          rw [body]
          apply Stage.error_selfApplied
          · exact initial
          · exact calls
          · exact main
          · exact going
          · exact size ▸ hm
          · exact size ▸ hf
        · cases calls
      · cases entry
    · cases builtins

end SignalLang.Staged

namespace SignalLang.Compiler

/-- A macro that is given itself is inlined without end, so no depth is enough. -/
theorem resolveTo_selfApplied :
    ∃ p c', (scopedOf "main").run (ofText "macro M(f) { f(f); }\nM(M);\n") = (.ok p, c') ∧
      ∀ depth, Staged.resolveTo depth p {} = .error .tooDeep := by
  obtain ⟨p, c', built, applies⟩ := ok_of_any (P := Staged.appliesItself)
    (show ((scopedOf "main").run (ofText "macro M(f) { f(f); }\nM(M);\n")).1.toOption.any
      Staged.appliesItself = true by decide +kernel)
  exact ⟨p, c', built, Staged.error_of_appliesItself applies⟩

end SignalLang.Compiler
