/-!
# Machines and simulations

A machine steps from state to state, shows labels as it goes, and stops in a state without a step. `Runs` counts
the steps. A `Simulation` relates a machine to another one that needs several steps where the first needs one;
then every run of either is matched by a run of the other that shows the same labels, and both stop alike
(`Simulation.forward`, `Simulation.backward`).
-/

namespace SignalLang

/-- The step from a state, with the labels it shows. -/
abbrev Machine (S L : Type) := S → Option (List L × S)

variable {S T L M F : Type}

/-- A machine comes from one state to another in a number of steps and shows labels on the way. -/
inductive Runs (step : Machine S L) : (count : Nat) → S → List L → S → Prop where
  | zero (a : S) : Runs step 0 a [] a
  | succ {n : Nat} {a b c : S} {l ls : List L} (first : step a = some (l, b)) (rest : Runs step n b ls c) :
      Runs step (n + 1) a (l ++ ls) c

/-- A machine comes from one state to another and shows labels on the way. -/
def Reaches (step : Machine S L) (a : S) (ls : List L) (b : S) : Prop := ∃ n, Runs step n a ls b

namespace Runs

variable {step : Machine S L} {a b c : S} {l ls ks : List L} {m n : Nat}

theorem single (h : step a = some (l, b)) : Runs step 1 a l b := by
  have run := succ h (zero b)
  rwa [List.append_nil] at run

theorem append (h : Runs step m a ls b) (h' : Runs step n b ks c) : Runs step (m + n) a (ls ++ ks) c := by
  induction h with
  | zero => rwa [Nat.zero_add]
  | succ first _ ih =>
    rw [Nat.add_right_comm, List.append_assoc]
    exact succ first (ih h')

/-- A run is the beginning of every longer run from its state. -/
theorem split (h : Runs step m a ls b) (h' : Runs step n a ks c) (le : m ≤ n) :
    ∃ rest, ks = ls ++ rest ∧ Runs step (n - m) b rest c := by
  induction h generalizing n ks with
  | zero => exact ⟨ks, rfl, h'⟩
  | succ first _ ih =>
    cases h' with
    | zero => omega
    | succ first' rest' =>
      rw [first] at first'
      cases first'
      obtain ⟨rest, rfl, run⟩ := ih rest' (by omega)
      refine ⟨rest, (List.append_assoc ..).symm, ?_⟩
      rwa [Nat.add_sub_add_right]

/-- A run from a state without a step is empty. -/
theorem of_stop (stop : step a = none) (h : Runs step n a ls b) : n = 0 ∧ ls = [] ∧ a = b := by
  cases h with
  | zero => exact ⟨rfl, rfl, rfl⟩
  | succ first _ =>
    rw [stop] at first
    cases first

/-- No run is longer than one that stops. -/
theorem le_of_stop (h : Runs step m a ls b) (stop : step b = none) (h' : Runs step n a ks c) : n ≤ m := by
  rcases Nat.lt_or_ge m n with lt | le
  · obtain ⟨rest, -, run⟩ := h.split h' (Nat.le_of_lt lt)
    have := (run.of_stop stop).1
    omega
  · exact le

end Runs

/-- A machine that goes no further where it leaves a set of states. -/
def Machine.inside (step : Machine S L) (here : S → Bool) : Machine S L := fun a => if here a then step a else none

theorem Machine.inside_of {step : Machine S L} {here : S → Bool} {a : S} (h : here a = true) :
    step.inside here a = step a := if_pos h

theorem Machine.outside {step : Machine S L} {here : S → Bool} {a : S} (h : here a = false) :
    step.inside here a = none := if_neg (by rw [h]; exact Bool.false_ne_true)

theorem Machine.inside_eq_some {step : Machine S L} {here : S → Bool} {a : S} {r : List L × S}
    (h : step.inside here a = some r) : here a = true ∧ step a = some r := by
  unfold inside at h
  split at h
  · exact ⟨‹_›, h⟩
  · cases h

/-- A run inside a set of states is one inside every set with these states. -/
theorem Runs.widen {step : Machine S L} {here here' : S → Bool} {a b : S} {ls : List L} {n : Nat}
    (h : Runs (step.inside here) n a ls b) (le : ∀ a, here a = true → here' a = true) :
    Runs (step.inside here') n a ls b := by
  induction h with
  | zero => exact .zero _
  | succ first _ ih =>
    obtain ⟨within, first⟩ := Machine.inside_eq_some first
    exact .succ ((Machine.inside_of (le _ within)).trans first) ih

theorem Runs.of_inside {step : Machine S L} {here : S → Bool} {a b : S} {ls : List L} {n : Nat}
    (h : Runs (step.inside here) n a ls b) : Runs step n a ls b := by
  induction h with
  | zero => exact .zero _
  | succ first _ ih => exact .succ (Machine.inside_eq_some first).2 ih

theorem Reaches.of_inside {step : Machine S L} {here : S → Bool} {a b : S} {ls : List L}
    (h : Reaches (step.inside here) a ls b) : Reaches step a ls b := h.imp fun _ run => run.of_inside

theorem Reaches.trans {step : Machine S L} {a b c : S} {ls ks : List L} (h : Reaches step a ls b)
    (h' : Reaches step b ks c) : Reaches step a (ls ++ ks) c := by
  obtain ⟨m, run⟩ := h
  obtain ⟨n, run'⟩ := h'
  exact ⟨m + n, run.append run'⟩

/-- A run of a machine, with the marks of the states that it leaves. -/
inductive Visits {X : Type} (step : Machine S L) (mark : S → Option X) : S → List L → List X → S → Prop where
  | zero (a : S) : Visits step mark a [] [] a
  | succ {a b c : S} {l ls : List L} {xs : List X} (first : step a = some (l, b)) (rest : Visits step mark b ls xs c) :
      Visits step mark a (l ++ ls) ((mark a).toList ++ xs) c

/-- What a step keeps up, together with the marks so far, a run keeps up. -/
theorem Visits.invariant {X : Type} {step : Machine S L} {mark : S → Option X} (Inv : List X → S → Prop) (P : L → Prop)
    (keep : ∀ xs a l b, Inv xs a → step a = some (l, b) → Inv (xs ++ (mark a).toList) b ∧ ∀ w ∈ l, P w)
    {a b : S} {ls : List L} {xs ys : List X} (run : Visits step mark a ls ys b) (h : Inv xs a) :
    Inv (xs ++ ys) b ∧ ∀ w ∈ ls, P w := by
  induction run generalizing xs with
  | zero =>
    rw [List.append_nil]
    exact ⟨h, fun _ hw => (List.not_mem_nil hw).elim⟩
  | succ first _ ih =>
    obtain ⟨h, here⟩ := keep _ _ _ _ h first
    obtain ⟨h, later⟩ := ih h
    rw [List.append_assoc] at h
    exact ⟨h, fun w hw => (List.mem_append.1 hw).elim (here w) (later w)⟩

theorem Visits.single {X : Type} {step : Machine S L} {mark : S → Option X} {a b : S} {l : List L}
    (h : step a = some (l, b)) : Visits step mark a l (mark a).toList b := by
  have run : Visits step mark a (l ++ []) ((mark a).toList ++ []) b := .succ h (.zero b)
  rwa [List.append_nil, List.append_nil] at run

theorem Visits.append {X : Type} {step : Machine S L} {mark : S → Option X} {a b c : S} {ls ks : List L}
    {xs ys : List X} (h : Visits step mark a ls xs b) (h' : Visits step mark b ks ys c) :
    Visits step mark a (ls ++ ks) (xs ++ ys) c := by
  induction h with
  | zero => exact h'
  | succ first _ ih =>
    rw [List.append_assoc, List.append_assoc]
    exact .succ first (ih h')

/-- Every run has marks. -/
theorem Runs.exists_visits {X : Type} {step : Machine S L} {a b : S} {ls : List L} {n : Nat} (h : Runs step n a ls b)
    (mark : S → Option X) : ∃ xs, Visits step mark a ls xs b := by
  induction h with
  | zero a => exact ⟨[], .zero a⟩
  | succ first _ ih =>
    obtain ⟨xs, rest⟩ := ih
    exact ⟨_, .succ first rest⟩

/-- The run from a state comes to an end. -/
def Halts (step : Machine S L) (a : S) : Prop := ∃ ls b, Reaches step a ls b ∧ step b = none

namespace Halts

variable {step : Machine S L} {a b : S} {l : List L}

theorem of_stop (stop : step a = none) : Halts step a := ⟨[], a, ⟨0, .zero a⟩, stop⟩

theorem of_reaches (run : Reaches step a l b) (h : Halts step b) : Halts step a := by
  obtain ⟨ls, c, rest, stop⟩ := h
  exact ⟨l ++ ls, c, run.trans rest, stop⟩

theorem of_step (first : step a = some (l, b)) (h : Halts step b) : Halts step a := of_reaches ⟨1, .single first⟩ h

/-- What holds where a machine stops, and before a step if it holds after it, holds where its run comes to an end. -/
theorem induct {P : S → Prop} (h : Halts step a) (stop : ∀ a, step a = none → P a)
    (next : ∀ a l b, step a = some (l, b) → P b → P a) : P a := by
  obtain ⟨ls, c, ⟨n, run⟩, stopped⟩ := h
  induction run with
  | zero a => exact stop a stopped
  | succ first _ ih => exact next _ _ _ first (ih stopped)

end Halts

/-- Related states of two machines lead to related states again, or both machines stop with the same outcome. A
step of the first machine shows at most one label, and the second needs at least one step for it. -/
structure Simulation (step : Machine S L) (step' : Machine T M) (image : L → M) (related : S → T → Prop)
    (outcome : S → F) (outcome' : T → F) : Prop where
  advance : ∀ s t, related s t →
    (∃ l u n v, step s = some (l, u) ∧ l.length ≤ 1 ∧ Runs step' (n + 1) t (l.map image) v ∧ related u v) ∨
    ∃ m u n v, Runs step m s [] u ∧ Runs step' n t [] v ∧ step u = none ∧ step' v = none ∧
      outcome u = outcome' v

namespace Simulation

variable {step : Machine S L} {step' : Machine T M} {image : L → M} {related : S → T → Prop}
  {outcome : S → F} {outcome' : T → F}

/-- Where the first machine comes, the second comes too; it stops if the first has. -/
theorem forward (sim : Simulation step step' image related outcome outcome') {s u : S} {t : T} {ls : List L}
    {n : Nat} (h : related s t) (run : Runs step n s ls u) :
    ∃ v, Reaches step' t (ls.map image) v ∧ (step u = none → step' v = none ∧ outcome u = outcome' v) := by
  induction run generalizing t with
  | zero s =>
    rcases sim.advance s t h with ⟨l, u, n, v, first, -⟩ | ⟨m, u, n, v, run, run', -, stop', same⟩
    · refine ⟨t, ⟨0, .zero t⟩, fun stop => ?_⟩
      rw [stop] at first
      cases first
    · refine ⟨v, ⟨n, run'⟩, fun stop => ?_⟩
      obtain ⟨-, -, rfl⟩ := run.of_stop stop
      exact ⟨stop', same⟩
  | @succ n s u w l ls first rest ih =>
    rcases sim.advance s t h with ⟨l', u', n', v, first', -, run', h'⟩ | ⟨m, u', n', v, run, run', stop, stop', same⟩
    · rw [first] at first'
      cases first'
      obtain ⟨x, ⟨k, more⟩, stops⟩ := ih h'
      rw [List.map_append]
      exact ⟨x, ⟨_, run'.append more⟩, stops⟩
    · -- The first machine is on its way to a stop, so it shows nothing more.
      have whole := Runs.succ first rest
      obtain ⟨rest', split, more⟩ := whole.split run (run.le_of_stop stop whole)
      obtain ⟨nothing, -⟩ := List.append_eq_nil_iff.1 split.symm
      rw [nothing]
      refine ⟨v, ⟨n', run'⟩, fun stopped => ?_⟩
      obtain ⟨-, -, rfl⟩ := more.of_stop stopped
      exact ⟨stop', same⟩

/-- Where the second machine comes, it shows what the first one does, and if it stops, the first stops too. -/
theorem backward (sim : Simulation step step' image related outcome outcome') {s : S} {t v : T} {ms : List M}
    {n : Nat} (h : related s t) (run : Runs step' n t ms v) :
    ∃ ls u, Reaches step s ls u ∧ ms = ls.map image ∧ (step' v = none → step u = none ∧ outcome u = outcome' v) := by
  induction n using Nat.strongRecOn generalizing s t ms with
  | ind n ih =>
    rcases sim.advance s t h with ⟨l, u, k, w, first, short, run', h'⟩ | ⟨m, u, k, w, toStop, run', stop, stop', same⟩
    · rcases Nat.lt_or_ge n (k + 1) with lt | le
      · -- The run ends within the steps for one step of the first machine, so it has shown its label or not.
        obtain ⟨rest, split, more⟩ := run.split run' (Nat.le_of_lt lt)
        have moves : step' v = none → False := fun stopped => by
          have := (more.of_stop stopped).1
          omega
        cases ms with
        | nil => exact ⟨[], s, ⟨0, .zero s⟩, rfl, fun stopped => (moves stopped).elim⟩
        | cons y ys =>
          match l, short with
          | [x], _ =>
            obtain ⟨rfl, tail⟩ := List.cons_eq_cons.1 split
            obtain ⟨rfl, -⟩ := List.append_eq_nil_iff.1 tail.symm
            exact ⟨[x], u, ⟨1, .single first⟩, rfl, fun stopped => (moves stopped).elim⟩
      · obtain ⟨rest, rfl, more⟩ := run'.split run le
        obtain ⟨ls, u', ⟨j, on⟩, rfl, stops⟩ := ih (n - (k + 1)) (by omega) h' more
        exact ⟨l ++ ls, u', ⟨j + 1, .succ first on⟩, List.map_append.symm, stops⟩
    · obtain ⟨rest, split, more⟩ := run.split run' (run'.le_of_stop stop' run)
      obtain ⟨rfl, -⟩ := List.append_eq_nil_iff.1 split.symm
      refine ⟨[], u, ⟨m, toStop⟩, rfl, fun stopped => ?_⟩
      obtain ⟨-, -, rfl⟩ := more.of_stop stopped
      exact ⟨stop, same⟩

end Simulation

end SignalLang
