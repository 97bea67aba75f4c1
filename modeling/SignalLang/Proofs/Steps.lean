/-!
# Steps that end

Staging, flattening and generating are all steps over a context that never changes and a state, and they
may fail. These lemmas take a step that ended apart: it ended exactly when each of its parts did, one
after the other.

`Yields m c s Q` is the converse: the step does end, in a result and a state of which `Q` holds.

What steps make is numbered and never removed. `Extends a b` says that the array `b` has everything `a` has,
under the same numbers.
-/

namespace SignalLang.Steps

variable {ρ σ ε α β : Type}

/-- A step over a context `ρ` and a state `σ` that may fail with `ε`. -/
abbrev Step (ρ σ ε : Type) := ReaderT ρ (StateT σ (Except ε))

variable {x : Step ρ σ ε α} {f : α → Step ρ σ ε β} {c : ρ} {s s' : σ}

theorem bind_run : (x >>= f) c s = (x c s).bind fun r => f r.1 c r.2 := rfl

theorem bind_ok {r : β × σ} :
    (x >>= f) c s = .ok r ↔ ∃ a t, x c s = .ok (a, t) ∧ f a c t = .ok r := by
  rw [bind_run]
  cases h : x c s with
  | error e => simp [Except.bind]
  | ok p => obtain ⟨a, t⟩ := p; simp [Except.bind, and_assoc]

theorem pure_ok {a b : α} : (pure a : Step ρ σ ε α) c s = .ok (b, s') ↔ a = b ∧ s = s' := by
  show Except.ok (a, s) = Except.ok (b, s') ↔ _
  simp

theorem map_ok {g : α → β} {r : β × σ} :
    (g <$> x) c s = .ok r ↔ ∃ a t, x c s = .ok (a, t) ∧ (g a, t) = r := by
  show ((fun p => (g p.1, p.2)) <$> x c s) = .ok r ↔ _
  cases h : x c s with
  | error e => simp [Functor.map, Except.map]
  | ok p => obtain ⟨a, t⟩ := p; simp [Functor.map, Except.map, and_assoc]

theorem get_ok {t : σ} : (get : Step ρ σ ε σ) c s = .ok (t, s') ↔ s = t ∧ s = s' := by
  show Except.ok (s, s) = Except.ok (t, s') ↔ _
  simp

theorem read_ok {d : ρ} : (read : Step ρ σ ε ρ) c s = .ok (d, s') ↔ c = d ∧ s = s' := by
  show Except.ok (c, s) = Except.ok (d, s') ↔ _
  simp

theorem set_ok {t : σ} {u : PUnit} : (set t : Step ρ σ ε PUnit) c s = .ok (u, s') ↔ t = s' := by
  show Except.ok (PUnit.unit, t) = Except.ok (u, s') ↔ _
  simp

theorem modify_ok {g : σ → σ} {u : PUnit} :
    (modify g : Step ρ σ ε PUnit) c s = .ok (u, s') ↔ g s = s' := by
  show Except.ok (PUnit.unit, g s) = Except.ok (u, s') ↔ _
  simp

theorem throw_ok {e : ε} {r : α × σ} : (throw e : Step ρ σ ε α) c s = .ok r ↔ False := by
  show Except.error e = Except.ok r ↔ _
  simp

theorem ite_ok {p : Prop} [Decidable p] {y : Step ρ σ ε α} {r : α × σ} :
    (if p then x else y) c s = .ok r ↔ (p ∧ x c s = .ok r) ∨ (¬p ∧ y c s = .ok r) := by
  split <;> simp_all

theorem except_bind_ok {x : Except ε α} {f : α → Except ε β} {b : β} :
    (x >>= f) = .ok b ↔ ∃ a, x = .ok a ∧ f a = .ok b := by
  cases x with
  | error e => simp [bind, Except.bind]
  | ok a => simp [bind, Except.bind]

theorem exists_ok_of_any {x : Except ε α} {P : α → Bool} (h : x.toOption.any P = true) :
    ∃ a, x = .ok a ∧ P a = true := by
  cases x with
  | error e => cases h
  | ok a => exact ⟨a, rfl, h⟩

theorem except_bind_error {x : Except ε α} {f : α → Except ε β} {e : ε} :
    (x >>= f) = .error e ↔ x = .error e ∨ ∃ a, x = .ok a ∧ f a = .error e := by
  cases x with
  | error e => simp [bind, Except.bind]
  | ok a => simp [bind, Except.bind]

theorem except_map_ok {x : Except ε α} {f : α → β} {b : β} :
    f <$> x = .ok b ↔ ∃ a, x = .ok a ∧ f a = b := by
  cases x with
  | error e => simp [Functor.map, Except.map]
  | ok a => simp [Functor.map, Except.map]

/-- What a list of results holds came from some entry. -/
theorem mem_of_mapM_ok {f : α → Except ε β} {xs : List α} {ys : List β} (h : xs.mapM f = .ok ys)
    {y : β} (hy : y ∈ ys) : ∃ x ∈ xs, f x = .ok y := by
  induction xs generalizing ys with
  | nil =>
    cases h
    cases hy
  | cons x xs ih =>
    rw [List.mapM_cons] at h
    obtain ⟨z, hz, h⟩ := except_bind_ok.1 h
    obtain ⟨zs, hzs, h⟩ := except_bind_ok.1 h
    cases h
    rcases List.mem_cons.1 hy with rfl | hy
    · exact ⟨x, List.mem_cons_self, hz⟩
    · obtain ⟨w, hw, hf⟩ := ih hzs hy
      exact ⟨w, List.mem_cons_of_mem _ hw, hf⟩

/-- The step ends, and its result and its state are as `Q` says. -/
def Yields (m : Step ρ σ ε α) (c : ρ) (s : σ) (Q : α → σ → Prop) : Prop :=
  ∃ a s', m c s = .ok (a, s') ∧ Q a s'

namespace Yields

theorem pure {Q : α → σ → Prop} {a : α} (h : Q a s) : Yields (Pure.pure a : Step ρ σ ε α) c s Q :=
  ⟨a, s, rfl, h⟩

theorem bind {P : α → σ → Prop} {Q : β → σ → Prop} (hx : Yields x c s P)
    (hf : ∀ a t, P a t → Yields (f a) c t Q) : Yields (x >>= f) c s Q := by
  obtain ⟨a, t, run, p⟩ := hx
  obtain ⟨b, u, run', q⟩ := hf a t p
  exact ⟨b, u, bind_ok.2 ⟨a, t, run, run'⟩, q⟩

theorem mono {P Q : α → σ → Prop} (hx : Yields x c s P) (h : ∀ a t, P a t → Q a t) : Yields x c s Q := by
  obtain ⟨a, t, run, p⟩ := hx
  exact ⟨a, t, run, h a t p⟩

theorem get_bind {f : σ → Step ρ σ ε β} {Q : β → σ → Prop} (h : Yields (f s) c s Q) :
    Yields (get >>= f) c s Q := h

end Yields

/-- Every entry of the first array is in the second, under its number. -/
def Extends (a b : Array α) : Prop := ∀ (i : Nat) (v : α), a[i]? = some v → b[i]? = some v

namespace Extends

variable {a b d : Array α}

theorem refl (a : Array α) : Extends a a := fun _ _ h => h

theorem trans (h : Extends a b) (h' : Extends b d) : Extends a d := fun i v hv => h' i v (h i v hv)

theorem push (a : Array α) (v : α) : Extends a (a.push v) := by
  intro i w hw
  have := (Array.getElem?_eq_some_iff.1 hw).1
  rw [Array.getElem?_push, if_neg (by omega)]
  exact hw

theorem size_le (h : Extends a b) : a.size ≤ b.size := by
  rcases Nat.lt_or_ge b.size a.size with hb | hle
  · have found := h b.size a[b.size] (Array.getElem?_eq_getElem hb)
    simp at found
  · exact hle

end Extends

end SignalLang.Steps
