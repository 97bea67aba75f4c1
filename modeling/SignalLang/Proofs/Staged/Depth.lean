import SignalLang.Proofs.Steps
import SignalLang.Staged.Resolve

/-!
# Staging to a greater depth

A bound on the nesting of scopes only cuts staging off: a step that works scopes out to a smaller depth either
stops because they are nested too deep or does just what it does with a greater depth (`Within`). So a result
that was reached once is the result of every greater depth: `resolveTo_of_le`.
-/

namespace SignalLang.Staged

open Scoped (VarId)
open Steps

namespace Stage

variable {α β : Type}

/-- The first step stops for its depth, or the two do the same. -/
def Within (m m' : Stage α) : Prop := ∀ c s, m c s = .error .tooDeep ∨ m c s = m' c s

namespace Within

theorem refl (m : Stage α) : Within m m := fun _ _ => .inr rfl

theorem bind {m m' : Stage α} {f f' : α → Stage β} (hm : Within m m') (hf : ∀ a, Within (f a) (f' a)) :
    Within (m >>= f) (m' >>= f') := by
  intro c s
  rw [bind_run, bind_run]
  rcases hm c s with stopped | same
  · left
    rw [stopped]
    rfl
  · rw [same]
    cases m' c s with
    | error e => exact .inr rfl
    | ok r => exact hf r.1 c r.2

theorem map {m m' : Stage α} {g : α → β} (hm : Within m m') : Within (g <$> m) (g <$> m') := by
  have unfolded (m : Stage α) : g <$> m = m >>= fun a => pure (g a) := (bind_pure_comp g m).symm
  rw [unfolded, unfolded]
  exact hm.bind fun _ => .refl _

theorem same_bind (m : Stage α) {f f' : α → Stage β} (hf : ∀ a, Within (f a) (f' a)) :
    Within (m >>= f) (m >>= f') :=
  (refl m).bind hf

theorem ite {p : Prop} [Decidable p] {m m' n n' : Stage α} (hm : Within m m') (hn : Within n n') :
    Within (if p then m else n) (if p then m' else n') := by
  split
  · exact hm
  · exact hn

end Within

variable {run run' : Scoped.ScopeId → Stage Unit}

mutual

theorem within_expression (h : ∀ i, Within (run i) (run' i)) : (e : Scoped.Expr) →
    Within (expression run e) (expression run' e)
  | .literal _ _ | .var _ _ | .collect [] _ | .openBound _ => by
    rw [expression, expression]
    exact .refl _
  | .collect (e :: es) span => by
    rw [expression, expression]
    refine (within_expression h e).bind fun first => (within_items h first es).bind fun rest => .refl _
  | .upperBound upper span => by
    rw [expression, expression]
    exact (within_expression h upper).bind fun _ => .refl _
  | .closedBound lower upper span => by
    rw [expression, expression]
    refine (within_expression h lower).bind fun _ => .same_bind _ fun _ => ?_
    exact (within_expression h upper).bind fun _ => .refl _
  | .arrayType dims base span => by
    rw [expression, expression]
    refine (within_lengthList h dims).bind fun _ => ?_
    exact (within_expression h base).bind fun _ => .refl _
  | .index base indexes span => by
    rw [expression, expression]
    exact (within_expression h base).bind fun v => within_indexed h v span indexes
  | .property base property span => by
    rw [expression, expression]
    exact (within_expression h base).bind fun _ => .refl _
  | .unary op operand span => by
    rw [expression, expression]
    exact (within_expression h operand).bind fun _ => .refl _
  | .binary op left right span => by
    rw [expression, expression]
    refine (within_expression h left).bind fun _ => ?_
    exact (within_expression h right).bind fun _ => .refl _
  | .call callee calleeSpan inputs outputs span => by
    rw [expression, expression]
    refine .same_bind _ fun m => .ite (.same_bind _ fun _ => ?_) ?_
    all_goals
      split
      · exact .refl _
      · refine .same_bind _ fun c => (within_values h inputs).bind fun given => ?_
        refine .ite (.same_bind _ fun _ => ?_) ?_
        all_goals
          refine .ite (.same_bind _ fun _ => ?_) ?_
          all_goals
            refine .same_bind _ fun scope => .same_bind _ fun s => .same_bind _ fun _ => ?_
            refine .same_bind _ fun _ => (h _).bind fun _ => .same_bind _ fun _ => ?_
            exact (within_callOutputs h _ span _ outputs).bind fun _ => .refl _
      · exact .refl _

theorem within_items (h : ∀ i, Within (run i) (run' i)) (first : Value) : (es : List Scoped.Expr) →
    Within (items run first es) (items run' first es)
  | [] => by
    rw [items, items]
    exact .refl _
  | e :: es => by
    rw [items, items]
    refine (within_expression h e).bind fun v => .ite (.same_bind _ fun _ => ?_) ?_
    all_goals exact (within_items h first es).bind fun _ => .refl _

theorem within_values (h : ∀ i, Within (run i) (run' i)) : (es : List Scoped.Expr) →
    Within (values run es) (values run' es)
  | [] => by
    rw [values, values]
    exact .refl _
  | e :: es => by
    rw [values, values]
    exact (within_expression h e).bind fun v => (within_values h es).bind fun _ => .refl _

theorem within_lengthList (h : ∀ i, Within (run i) (run' i)) : (es : List Scoped.Expr) →
    Within (lengthList run es) (lengthList run' es)
  | [] => by
    rw [lengthList, lengthList]
    exact .refl _
  | e :: es => by
    rw [lengthList, lengthList]
    refine (within_expression h e).bind fun v => .same_bind _ fun _ => ?_
    exact (within_lengthList h es).bind fun _ => .refl _

theorem within_indexed (h : ∀ i, Within (run i) (run' i)) (v : Value) (whole : Span) :
    (args : List Scoped.IndexArg) → Within (indexed run v whole args) (indexed run' v whole args)
  | [] => by
    rw [indexed, indexed]
    exact .refl _
  | .mk e optional :: rest => by
    rw [indexed, indexed]
    refine (within_expression h e).bind fun index => ?_
    split
    · exact .same_bind _ fun _ => .same_bind _ fun a => within_indexed h a whole rest
    · exact .ite (within_indexed h v whole rest) (.refl _)

theorem within_callOutputs (h : ∀ i, Within (run i) (run' i)) (result : Value) (span : Span)
    (vars : List VarId) : (outs : List Scoped.Output) →
    Within (callOutputs run result span vars outs) (callOutputs run' result span vars outs)
  | [] => by
    rw [callOutputs, callOutputs]
    exact .refl _
  | .inline _ :: rest => by
    cases vars with
    | nil =>
      rw [callOutputs, callOutputs]
      exact .refl _
    | cons v vars =>
      rw [callOutputs, callOutputs]
      exact .same_bind _ fun v => within_callOutputs h v span vars rest
  | .target target outSpan :: rest => by
    cases vars with
    | nil =>
      rw [callOutputs, callOutputs]
      exact .refl _
    | cons v vars =>
      rw [callOutputs, callOutputs]
      refine (within_place h target).bind fun p => .same_bind _ fun v => .same_bind _ fun _ => ?_
      exact within_callOutputs h result span vars rest

theorem within_place (h : ∀ i, Within (run i) (run' i)) : (t : Scoped.Target) →
    Within (place run t) (place run' t)
  | .mk var indexes span => by
    rw [place, place]
    refine .same_bind _ fun r => .same_bind _ fun s => .ite (.same_bind _ fun _ => ?_) ?_
    all_goals exact within_placeUnder h _ indexes

theorem within_placeUnder (h : ∀ i, Within (run i) (run' i)) (p : Place) : (es : List Scoped.Expr) →
    Within (placeUnder run p es) (placeUnder run' p es)
  | [] => by
    rw [placeUnder, placeUnder]
    exact .refl _
  | e :: rest => by
    rw [placeUnder, placeUnder]
    split
    · refine (within_expression h e).bind fun index => .same_bind _ fun _ => .same_bind _ fun r => ?_
      exact .same_bind _ fun q => within_placeUnder h q rest
    · exact .refl _
    · exact .refl _

end

theorem within_guarded (h : ∀ i, Within (run i) (run' i)) (body : Scoped.ScopeId) :
    Within (guarded run body) (guarded run' body) := by
  refine .same_bind _ fun scope => .bind ?_ fun _ => .refl _
  refine .same_bind _ fun _ => .same_bind _ fun _ => .bind ?_ fun _ => .refl _
  exact .same_bind _ fun _ => .same_bind _ fun _ => (h body).bind fun _ => .refl _

theorem within_clauses (h : ∀ i, Within (run i) (run' i)) (otherwise : Option Scoped.ScopeId) (span : Span)
    (done : List Clause) (cs : List Scoped.Clause) :
    Within (clauses run otherwise span done cs) (clauses run' otherwise span done cs) := by
  induction cs generalizing done with
  | nil =>
    unfold clauses
    split
    · exact .refl _
    · exact h _
    · exact .refl _
    · exact (within_guarded h _).bind fun _ => .refl _
  | cons x rest ih =>
    unfold clauses
    refine (within_expression h x.condition).bind fun condition => .ite (.same_bind _ fun _ => ?_) ?_
    all_goals
      dsimp only
      split
      · exact ih done
      · exact .ite (h x.body) (.same_bind _ fun e => (within_guarded h x.body).bind fun _ => ih _)
      · exact .refl _
      · exact .same_bind _ fun e => (within_guarded h x.body).bind fun _ => ih _

theorem within_withTable {table : Table} {m m' : Stage α} (h : Within m m') :
    Within (withTable table m) (withTable table m') :=
  .same_bind _ fun _ => .same_bind _ fun _ => h.bind fun _ => .refl _

theorem within_loopPass (h : ∀ i, Within (run i) (run' i)) (body : Scoped.ScopeId) (into : Option ScopeId) :
    Within (loopPass run body into) (loopPass run' body into) := by
  refine .same_bind _ fun s => .same_bind _ fun _ => .bind (within_withTable ?_) fun _ => .refl _
  exact .same_bind _ fun _ => .same_bind _ fun _ => (h body).bind fun _ => .refl _

theorem within_rounds (h : ∀ i, Within (run i) (run' i)) (counter : VarId) (body : Scoped.ScopeId)
    (count : Nat) (i : Int) : Within (rounds run counter body count i) (rounds run' counter body count i) := by
  induction count generalizing i with
  | zero => exact .refl _
  | succ count ih =>
    refine .same_bind _ fun s => .ite (.refl _) (.bind (within_withTable ?_) fun _ => ih (i + 1))
    exact .same_bind _ fun _ => .same_bind _ fun _ => h body

theorem within_keptLoop (h : ∀ i, Within (run i) (run' i)) (counter : VarId) (start stop : Value)
    (body : Scoped.ScopeId) (span : Span) :
    Within (keptLoop run counter start stop body span) (keptLoop run' counter start stop body span) := by
  refine .same_bind _ fun var => .same_bind _ fun slot => .same_bind _ fun s => .same_bind _ fun _ => ?_
  refine (within_loopPass h body none).bind fun _ => .same_bind _ fun scope => ?_
  exact (within_loopPass h body (some scope)).bind fun _ => .refl _

theorem within_loop (h : ∀ i, Within (run i) (run' i)) (counter : VarId) (start stop : Scoped.Expr)
    (body : Scoped.ScopeId) (allowUnroll : Bool) (span : Span) :
    Within (loop run counter start stop body allowUnroll span)
      (loop run' counter start stop body allowUnroll span) := by
  refine (within_expression h start).bind fun lower => (within_expression h stop).bind fun upper => ?_
  refine .ite (.same_bind _ fun _ => ?_) ?_
  all_goals
    refine .ite (.same_bind _ fun _ => ?_) ?_
    all_goals
      split
      · refine .same_bind _ fun c => .ite (within_rounds h counter body _ _) ?_
        exact within_keptLoop h counter lower upper body span
      · exact .same_bind _ fun c => .ite (.refl _) (within_keptLoop h counter lower upper body span)
      · exact within_keptLoop h counter lower upper body span

theorem within_static (h : ∀ i, Within (run i) (run' i)) (body : Scoped.ScopeId) (exports : List VarId)
    (span : Span) : Within (static run body exports span) (static run' body exports span) := by
  refine .same_bind _ fun s => .same_bind _ fun _ => .bind (within_withTable ?_) fun _ => .refl _
  exact (h body).bind fun _ => .refl _

theorem within_statement (h : ∀ i, Within (run i) (run' i)) (st : Scoped.Stmt) :
    Within (statement run st) (statement run' st) := by
  cases st with
  | create v type span => exact (within_expression h type).bind fun _ => .refl _
  | assign target value span =>
    refine (within_expression h value).bind fun v => ?_
    exact (within_place h target).bind fun _ => .refl _
  | assert condition span => exact (within_expression h condition).bind fun _ => .refl _
  | branch cs otherwise span => exact within_clauses h otherwise span [] cs
  | loop counter start stop body allowUnroll span =>
    exact within_loop h counter start stop body allowUnroll span
  | static body exports span => exact within_static h body exports span
  | block body span => exact h body
  | ret span => exact .refl _
  | expr value span => exact (within_expression h value).bind fun _ => .refl _

theorem within_statements (h : ∀ i, Within (run i) (run' i)) (ss : List Scoped.Stmt) :
    Within (statements run ss) (statements run' ss) := by
  induction ss with
  | nil => exact .refl _
  | cons st ss ih =>
    refine (within_statement h st).bind fun _ => .same_bind _ fun s => ?_
    exact .ite (.refl _) ih

/-- One more level changes nothing but a stop for the depth. -/
theorem within_block_succ (depth : Nat) (i : Scoped.ScopeId) : Within (block depth i) (block (depth + 1) i) := by
  induction depth generalizing i with
  | zero => exact fun _ _ => .inl rfl
  | succ depth ih => exact .same_bind _ fun c => within_statements ih _

theorem within_block {depth more : Nat} (h : depth ≤ more) (i : Scoped.ScopeId) :
    Within (block depth i) (block more i) := by
  induction h with
  | refl => exact .refl _
  | step _ ih =>
    intro c s
    rcases ih c s with stopped | same
    · exact .inl stopped
    · rw [same]
      exact within_block_succ _ i c s

theorem within_program {depth more : Nat} (h : depth ≤ more) : Within (program depth) (program more) := by
  refine .same_bind _ fun c => (within_block h _).bind fun _ => .same_bind _ fun _ => ?_
  exact (within_block h _).bind fun _ => .refl _

end Stage

/-- What was worked out to some depth is worked out the same to every greater depth. -/
theorem resolveTo_of_le {depth more : Nat} (h : depth ≤ more) (source : Scoped.Program) (options : Options)
    (done : ∀ e, resolveTo depth source options = .error e → e ≠ .tooDeep) :
    resolveTo more source options = resolveTo depth source options := by
  let start : State := { tracked := Array.replicate source.vars.size none }
  have run (depth : Nat) : resolveTo depth source options =
      (Stage.program depth ⟨source, options⟩ start).map Prod.fst := rfl
  rcases Stage.within_program h ⟨source, options⟩ start with stopped | same
  · rw [run, stopped] at done
    exact (done .tooDeep rfl rfl).elim
  · rw [run, run, same]

end SignalLang.Staged
