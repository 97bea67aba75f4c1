import SignalLang.Proofs.Steps
import SignalLang.Staged.State

/-!
# How staging can end

A step of staging ends with a result or stops. It may always stop with a problem; which faults it may stop with,
and whether it may stop for its depth, is said by a `Stops`. `Ends k c s m Q` is how a step `m` is specified: it
stops only as `k` allows, and otherwise `Q` holds of its state and its result.
-/

namespace SignalLang.Staged

open Steps

/-- The ways a step may stop, besides with a problem. -/
structure Stops where
  fault : Fault → Prop
  deep : Prop

/-- Whether a step may stop with a failure. -/
def Stops.Allows (k : Stops) : Failure → Prop
  | .problem _ => True
  | .fault f => k.fault f
  | .tooDeep => k.deep

namespace Stage

variable {α β : Type}

/-- The step stops only as `k` allows, and otherwise its state and its result are as `Q` says. -/
def Ends (k : Stops) (c : Context) (s : State) (m : Stage α) (Q : State → α → Prop) : Prop :=
  match m c s with
  | .ok (a, s') => Q s' a
  | .error e => k.Allows e

namespace Ends

variable {k : Stops} {c : Context} {s : State} {m : Stage α} {f : α → Stage β} {Q : State → α → Prop}
  {R : State → β → Prop}

theorem ok (h : Ends k c s m Q) {a : α} {s' : State} (run : m c s = .ok (a, s')) : Q s' a := by
  unfold Ends at h
  rw [run] at h
  exact h

theorem error (h : Ends k c s m Q) {e : Failure} (run : m c s = .error e) : k.Allows e := by
  unfold Ends at h
  rw [run] at h
  exact h

theorem pure {a : α} (h : Q s a) : Ends k c s (Pure.pure a) Q := h

theorem bind (hm : Ends k c s m Q) (hf : ∀ a s', Q s' a → Ends k c s' (f a) R) :
    Ends k c s (m >>= f) R := by
  unfold Ends at hm ⊢
  rw [bind_run]
  cases run : m c s with
  | error e =>
    rw [run] at hm
    exact hm
  | ok r =>
    rw [run] at hm
    exact hf r.1 r.2 hm

theorem mono {Q' : State → α → Prop} (hm : Ends k c s m Q) (h : ∀ a s', Q s' a → Q' s' a) :
    Ends k c s m Q' := by
  unfold Ends at hm ⊢
  cases run : m c s with
  | error e =>
    rw [run] at hm
    exact hm
  | ok r =>
    rw [run] at hm
    exact h r.1 r.2 hm

theorem map {g : α → β} (hm : Ends k c s m fun s' a => R s' (g a)) : Ends k c s (g <$> m) R := by
  rw [← bind_pure_comp g m]
  exact hm.bind fun _ _ hr => .pure hr

theorem get_bind {f : State → Stage β} (h : Ends k c s (f s) R) : Ends k c s (get >>= f) R := h

theorem read_bind {f : Context → Stage β} (h : Ends k c s (f c) R) : Ends k c s (read >>= f) R := h

theorem recordId_bind {v : Scoped.VarId} {f : Option Nat → Stage β} (h : Ends k c s (f (s.table.lookup v)) R) :
    Ends k c s (recordId? v >>= f) R := h

theorem modify_bind {g : State → State} {f : PUnit → Stage β} (h : Ends k c (g s) (f ⟨⟩) R) :
    Ends k c s (modify g >>= f) R := h

theorem set_bind {t : State} {f : PUnit → Stage β} (h : Ends k c t (f ⟨⟩) R) :
    Ends k c s (set t >>= f) R := h

theorem modify {g : State → State} {R : State → PUnit → Prop} (h : R (g s) ⟨⟩) :
    Ends k c s (modify g) R := h

theorem refuse {p : Problem} : Ends k c s (Stage.refuse p) Q := trivial

theorem refuse_bind {p : Problem} {f : α → Stage β} : Ends k c s (Stage.refuse p >>= f) R := trivial

theorem breakDown {f : Fault} (h : k.fault f) : Ends k c s (Stage.breakDown f) Q := h

/-- A check that stops with a problem; what comes behind it may use that it passed. -/
theorem check {p : Prop} [Decidable p] {problem : Problem} {f : β → Stage α} (h : ¬p → Ends k c s m Q) :
    Ends k c s (if p then Stage.refuse problem >>= f else m) Q := by
  split
  · exact .refuse_bind
  · exact h ‹_›

theorem orBadShape {a? : Option α} (hb : a? = none → k.fault .badShape)
    (hq : ∀ a, a? = some a → Q s a) : Ends k c s (Stage.orBadShape a?) Q := by
  cases a? with
  | none => exact .breakDown (hb rfl)
  | some a => exact .pure (hq a rfl)

/-- A step for each entry of a list keeps what each of them keeps. -/
theorem forM {xs : List α} {f : α → Stage PUnit} {I : State → Prop} (h : I s)
    (hf : ∀ x ∈ xs, ∀ s', I s' → Ends k c s' (f x) fun s'' _ => I s'') :
    Ends k c s (xs.forM f) fun s' _ => I s' := by
  induction xs generalizing s with
  | nil => exact .pure h
  | cons x xs ih =>
    refine (hf x List.mem_cons_self s h).bind fun _ s' h' => ?_
    exact ih h' fun y hy => hf y (List.mem_cons_of_mem _ hy)

end Ends

end Stage

end SignalLang.Staged
