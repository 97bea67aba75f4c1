import SignalLang.Proofs.Flat.Progress

/-!
# Loops

The code of a loop tests its counter before the first round and after each one. `LoopCode` says what its instructions
do, and `LoopState` is the invariant of its runs: it tells from the place that the machine is at how many rounds it has
begun and what the counter is (`LoopCode.step`).
-/

namespace SignalLang.Flat

open Staged (SlotId ScopeId)
open Steps LowerState

/-! ## The machine in a loop -/

section Machine

variable {p : Program}

/-- The value of an element when the machine is before a given instruction. -/
def Config.before? (n : Nat) (e : Element p) : Config p → Option Scalar
  | .running i σ => if i = n then some (σ e) else none
  | .aborted .. | .trapped _ => none

theorem Config.append_before? (xs : List Scalar) {n i : Nat} {e : Element p} {σ : Store p} (other : i ≠ n) :
    xs ++ ((Config.running i σ).before? n e).toList = xs := by
  rw [before?, if_neg other]
  exact List.append_nil xs

/-- Whether the machine has not been stopped by an abort or a trap. -/
def Config.isRunning : Config p → Bool
  | .running .. => true
  | .aborted .. | .trapped _ => false

theorem Config.between_of_failed {first last : Nat} {c : Config p} (h : c.isRunning = false) :
    c.between first last = false := by
  cases c with
  | running => cases h
  | aborted | trapped => rfl

theorem Config.between_of_le {first last i : Nat} {σ : Store p} (h : i < first ∨ last ≤ i) :
    (Config.running i σ).between first last = false := by
  simp only [between, Bool.and_eq_false_iff, decide_eq_false_iff_not]
  omega

/-- Integers are added as words, and compared. -/
structure Operators.Count (ops : Operators) : Prop where
  add : ∀ x y, ops.binary .addI (.int x) (.int y) = .int (Word.wrap (x + y))
  less : ∀ x y, ops.binary (.compareI .lt) (.int x) (.int y) = .bool (decide (x < y))

/-- The places of a loop: from `first` to `head` it computes its bounds, at `head` it sets the counter, and up to
`bottom` stands its body. -/
structure LoopPlaces (p : Program) where
  (first head bottom : Nat)
  (counter condition : Element p)
  (start stop : Operand)

namespace LoopPlaces

/-- Where the body begins. -/
def top (l : LoopPlaces p) : Nat := l.head + 4

/-- Where the code behind the loop begins. -/
def behind (l : LoopPlaces p) : Nat := l.bottom + 4

/-- The machine on the code of a loop. -/
def machine (l : LoopPlaces p) (st : Stream) (ops : Operators) : Machine (Config p) (Element p × Scalar) :=
  (p.step? st ops).inside (Config.between l.first l.behind)

theorem machine_of {l : LoopPlaces p} {st : Stream} {ops : Operators} {i : Nat} {τ : Store p}
    {r : Option (Writes p × Config p)} (low : l.first ≤ i) (high : i < l.bottom + 4)
    (step : p.step? st ops (.running i τ) = r) : l.machine st ops (.running i τ) = r :=
  (Machine.inside_of (Config.between_running low high)).trans step

/-- The machine on the code of the body of a loop. -/
def bodyMachine (l : LoopPlaces p) (st : Stream) (ops : Operators) : Machine (Config p) (Element p × Scalar) :=
  (p.step? st ops).inside (Config.between l.top l.bottom)

/-- The counter has a value, and the end is still what it was. -/
def Counting (l : LoopPlaces p) (b x : Int) (σ : Store p) : Prop :=
  σ l.counter = .int x ∧ l.stop.read? σ = some (.int b)

end LoopPlaces

/-- What the instructions of a loop from `a` to `b` do. The end may be an element that the body writes, as long as it is
what it was when the body comes to its end. -/
structure LoopCode (st : Stream) (ops : Operators) (l : LoopPlaces p) (a b : Int) : Prop where
  le : l.first ≤ l.head
  body_le : l.top ≤ l.bottom
  set : ∀ σ x, l.start.read? σ = some x →
    p.step? st ops (.running l.head σ) = some ([(l.counter, x)], .running (l.head + 1) (σ.write l.counter x))
  test : ∀ σ x n, n = l.head ∨ n = l.bottom → l.stop.read? σ = some x →
    p.step? st ops (.running (n + 1) σ) = some ([(l.condition, ops.binary (.compareI .lt) (σ l.counter) x)],
      .running (n + 2) (σ.write l.condition (ops.binary (.compareI .lt) (σ l.counter) x)))
  branch : ∀ σ n, n = l.head ∨ n = l.bottom → p.step? st ops (.running (n + 2) σ) =
    some ([], .running (if (σ l.condition).isTrue then l.top else l.behind) σ)
  count : ∀ σ, p.step? st ops (.running l.bottom σ) = some ([(l.counter, ops.binary .addI (σ l.counter) (.int 1))],
    .running (l.bottom + 1) (σ.write l.counter (ops.binary .addI (σ l.counter) (.int 1))))
  body : ∀ i σ, l.top ≤ i → i < l.bottom → ∃ ws c, p.step? st ops (.running i σ) = some (ws, c) ∧
    (∀ j τ, c = .running j τ → l.top < j ∧ j ≤ l.bottom) ∧ ∀ w ∈ ws, w.1 ≠ l.counter
  restored : ∀ τ x ws τ', τ l.counter = .int x → a ≤ x → x < b →
    Reaches (l.bodyMachine st ops) (.running l.top τ) ws (.running l.bottom τ') → l.stop.read? τ' = l.stop.read? τ
  apart : l.condition ≠ l.counter
  kept : ∀ σ e x, e = l.counter ∨ e = l.condition → l.stop.read? (σ.write e x) = l.stop.read? σ

/-- The values of a counter in a number of rounds. -/
def rounds (a : Int) (k : Nat) : List Scalar := (List.range k).map fun i => .int (a + i)

theorem rounds_succ (a : Int) (k : Nat) : rounds a (k + 1) = rounds a k ++ [.int (a + k)] := by
  simp [rounds, List.range_succ]

/-- The states of a loop from `a` to `b`, with the values of the counter in the rounds that were begun. Before the loop
sets its counter, it is on the way to a store with the bounds; in the body, it has come from where the round began. -/
inductive LoopState (st : Stream) (ops : Operators) (l : LoopPlaces p) (a b : Int) (bounded : Store p) :
    List Scalar → Config p → Prop where
  | bounds {n : Nat} {ws : Writes p} {c : Config p}
      (run : Runs ((p.step? st ops).inside (Config.between l.first l.head)) n c ws (.running l.head bounded))
      (off : ∀ w ∈ ws, w.1 ≠ l.counter) : LoopState st ops l a b bounded [] c
  | test {k n : Nat} {τ : Store p} (at' : n = l.head ∨ n = l.bottom) (le : k ≤ (b - a).toNat)
      (here : l.Counting b (a + k) τ) : LoopState st ops l a b bounded (rounds a k) (.running (n + 1) τ)
  | branch {k n : Nat} {τ : Store p} (at' : n = l.head ∨ n = l.bottom) (le : k ≤ (b - a).toNat)
      (here : l.Counting b (a + k) τ) (less : τ l.condition = .bool (decide (a + k < b))) :
      LoopState st ops l a b bounded (rounds a k) (.running (n + 2) τ)
  | enter {k : Nat} {τ : Store p} (lt : k < (b - a).toNat) (here : l.Counting b (a + k) τ) :
      LoopState st ops l a b bounded (rounds a k) (.running l.top τ)
  | body {k i : Nat} {ws : Writes p} {τ τ' : Store p} (lt : k < (b - a).toNat) (here : l.Counting b (a + k) τ)
      (run : Reaches (l.bodyMachine st ops) (.running l.top τ) ws (.running i τ')) (same : τ' l.counter = τ l.counter)
      (low : l.top < i) (high : i ≤ l.bottom) : LoopState st ops l a b bounded (rounds a (k + 1)) (.running i τ')
  | left {τ : Store p} (here : l.Counting b (a + (b - a).toNat) τ) :
      LoopState st ops l a b bounded (rounds a (b - a).toNat) (.running l.behind τ)
  | failed {k : Nat} {c : Config p} (lt : k < (b - a).toNat) (failed : c.isRunning = false) :
      LoopState st ops l a b bounded (rounds a (k + 1)) c

/-- How a loop ends: behind its code after all rounds, or by an abort or a trap in one of them. -/
def LoopEnd (counter : Element p) (behind : Nat) (a b : Int) (xs : List Scalar) (c : Config p) : Prop :=
  (∃ τ, c = .running behind τ ∧ xs = rounds a (b - a).toNat ∧ τ counter = .int (a + (b - a).toNat)) ∨
    ∃ k, k < (b - a).toNat ∧ xs = rounds a (k + 1) ∧ c.isRunning = false

variable {st : Stream} {ops : Operators} {l : LoopPlaces p} {a b : Int} {bounded : Store p}

/-- The rounds that a state of a loop tells are the first of all. -/
theorem LoopState.exists_rounds {xs : List Scalar} {c : Config p} (h : LoopState st ops l a b bounded xs c) :
    ∃ k, k ≤ (b - a).toNat ∧ xs = rounds a k := by
  cases h with
  | bounds => exact ⟨0, Nat.zero_le _, rfl⟩
  | test _ le | branch _ le => exact ⟨_, le, rfl⟩
  | enter lt => exact ⟨_, Nat.le_of_lt lt, rfl⟩
  | body lt | failed lt => exact ⟨_, lt, rfl⟩
  | left => exact ⟨_, Nat.le_refl _, rfl⟩

namespace LoopCode

theorem ordered (code : LoopCode st ops l a b) :
    l.first ≤ l.head ∧ l.top = l.head + 4 ∧ l.top ≤ l.bottom ∧ l.behind = l.bottom + 4 :=
  ⟨code.le, rfl, code.body_le, rfl⟩

/-- The body leaves the counter as it is. -/
theorem counter_kept (code : LoopCode st ops l a b) {i : Nat} {τ : Store p} (low : l.top ≤ i) (high : i < l.bottom)
    {ws : Writes p} {c : Config p} (first : p.step? st ops (.running i τ) = some (ws, c)) :
    c.store l.counter = τ l.counter := by
  obtain ⟨ws', c', step, -, off⟩ := code.body i τ low high
  rw [first] at step
  cases step
  exact store_of_runs (.single first) off

theorem reaches_body {i : Nat} {ws ws' : Writes p} {τ τ' : Store p} {c : Config p}
    (run : Reaches (l.bodyMachine st ops) (.running l.top τ) ws (.running i τ')) (low : l.top ≤ i) (high : i < l.bottom)
    (first : p.step? st ops (.running i τ') = some (ws', c)) :
    Reaches (l.bodyMachine st ops) (.running l.top τ) (ws ++ ws') c :=
  run.trans ⟨1, .single ((Machine.inside_of (Config.between_running low high)).trans first)⟩

variable (code : LoopCode st ops l a b) (counts : ops.Count) (wordA : Word.inRange a = true)
  (wordB : Word.inRange b = true)

include code counts

/-- The test of a loop compares the counter with the end. -/
theorem tested {x : Int} {τ : Store p} (here : l.Counting b x τ) {n : Nat} (at' : n = l.head ∨ n = l.bottom) :
    ∃ τ', p.step? st ops (.running (n + 1) τ) = some ([(l.condition, .bool (decide (x < b)))], .running (n + 2) τ') ∧
      l.Counting b x τ' ∧ τ' l.condition = .bool (decide (x < b)) := by
  have step := code.test τ _ n at' here.2
  rw [here.1, counts.less] at step
  exact ⟨_, step, ⟨(Store.write_of_ne _ code.apart.symm).trans here.1, (code.kept τ _ _ (.inr rfl)).trans here.2⟩,
    Store.write_self ..⟩

include wordA wordB

/-- Behind a round, the counter gets the next number. It is at most the end, so it does not overflow. -/
theorem counted {k : Nat} (lt : k < (b - a).toNat) {ws : Writes p} {τ τ' : Store p} (here : l.Counting b (a + k) τ)
    (run : Reaches (l.bodyMachine st ops) (.running l.top τ) ws (.running l.bottom τ'))
    (same : τ' l.counter = τ l.counter) :
    ∃ τ'', p.step? st ops (.running l.bottom τ') = some ([(l.counter, .int (a + k + 1))], .running (l.bottom + 1) τ'') ∧
      l.Counting b (a + (k + 1 : Nat)) τ'' := by
  rw [Word.inRange_iff] at wordA wordB
  have next : ops.binary .addI (τ' l.counter) (.int 1) = .int (a + k + 1) := by
    rw [same, here.1, counts.add, Word.wrap_eq_self (Word.inRange_iff.2 (by omega))]
  have step := code.count τ'
  rw [next] at step
  have restored := code.restored τ _ ws τ' here.1 (by omega) (by omega) run
  refine ⟨_, step, ?_, (code.kept τ' _ _ (.inl rfl)).trans (restored.trans here.2)⟩
  rw [Store.write_self, Int.natCast_succ, Int.add_assoc]

/-- In a round the machine goes on from every instruction of the body, and to the next test from its end. -/
theorem round {k i : Nat} {ws : Writes p} {τ τ' : Store p} (lt : k < (b - a).toNat) (here : l.Counting b (a + k) τ)
    (run : Reaches (l.bodyMachine st ops) (.running l.top τ) ws (.running i τ')) (same : τ' l.counter = τ l.counter)
    (low : l.top ≤ i) (high : i ≤ l.bottom) : ∃ ws c, l.machine st ops (.running i τ') = some (ws, c) ∧
      LoopState st ops l a b bounded (rounds a (k + 1)) c ∧
      ∀ w ∈ ws, w.1 = l.counter → ∃ x, w.2 = .int x ∧ a ≤ x ∧ x ≤ max a b := by
  obtain ⟨le, top, body_le, -⟩ := code.ordered
  rcases Nat.lt_or_eq_of_le high with high | rfl
  · obtain ⟨ws, c, step, confined, off⟩ := code.body i τ' low high
    refine ⟨ws, c, LoopPlaces.machine_of (by omega) (by omega) step, ?_, fun w hw same => (off w hw same).elim⟩
    cases c with
    | running j τ'' =>
      obtain ⟨low', high'⟩ := confined j τ'' rfl
      exact .body lt here (reaches_body run low high step) ((code.counter_kept low high step).trans same) low' high'
    | aborted | trapped => exact .failed lt rfl
  · obtain ⟨τ'', step, here⟩ := code.counted counts wordA wordB lt here run same
    refine ⟨_, _, LoopPlaces.machine_of (by omega) (by omega) step, .test (.inr rfl) lt here, fun w hw _ => ?_⟩
    rw [List.mem_singleton.1 hw]
    exact ⟨_, rfl, by omega, by omega⟩

/-- Every state of a loop has a step to another one, unless the loop has ended. The counter is only given values from
the start to the end, so it never overflows. -/
theorem step (start : l.start.read? bounded = some (.int a)) (stop : l.stop.read? bounded = some (.int b))
    {xs : List Scalar} {c : Config p} (h : LoopState st ops l a b bounded xs c) :
    (∃ ws c', l.machine st ops c = some (ws, c') ∧
      LoopState st ops l a b bounded (xs ++ (c.before? l.top l.counter).toList) c' ∧
      ∀ w ∈ ws, w.1 = l.counter → ∃ x, w.2 = .int x ∧ a ≤ x ∧ x ≤ max a b) ∨
    l.machine st ops c = none ∧ LoopEnd l.counter l.behind a b xs c := by
  obtain ⟨le, top, body_le, -⟩ := code.ordered
  cases h with
  | bounds run off =>
    left
    cases run with
    | zero =>
      refine ⟨_, _, LoopPlaces.machine_of le (by omega) (code.set bounded _ start), ?_, fun w hw _ => ?_⟩
      · rw [Config.append_before? _ (by omega)]
        exact .test (.inl rfl) (Nat.zero_le _) ⟨by simp, (code.kept _ _ _ (.inl rfl)).trans stop⟩
      · rw [List.mem_singleton.1 hw]
        exact ⟨a, rfl, Int.le_refl a, Int.le_max_left a b⟩
    | succ first rest =>
      obtain ⟨within, first⟩ := Machine.inside_eq_some first
      cases c with
      | running i τ =>
        obtain ⟨low, high⟩ : l.first ≤ i ∧ i < l.head := by simpa [Config.between] using within
        refine ⟨_, _, LoopPlaces.machine_of low (by omega) first, ?_,
          fun w hw same => (off w (List.mem_append_left _ hw) same).elim⟩
        rw [Config.append_before? _ (by omega)]
        exact .bounds rest fun w hw => off w (List.mem_append_right _ hw)
      | aborted | trapped => cases within
  | @test k n τ at' le' here =>
    left
    obtain ⟨τ', step, here, less⟩ := code.tested counts here at'
    refine ⟨_, _, LoopPlaces.machine_of (by omega) (by omega) step, ?_, fun w hw same => ?_⟩
    · rw [Config.append_before? _ (by omega)]
      exact .branch at' le' here less
    · rw [List.mem_singleton.1 hw] at same
      exact (code.apart same).elim
  | @branch k n τ at' le' here less =>
    left
    refine ⟨_, _, LoopPlaces.machine_of (by omega) (by omega) (code.branch _ _ at'), ?_,
      fun w hw => (List.not_mem_nil hw).elim⟩
    rw [Config.append_before? _ (by omega), less]
    by_cases less : a + k < b
    · rw [decide_eq_true less]
      exact .enter (by omega) here
    · rw [decide_eq_false less]
      obtain rfl : k = (b - a).toNat := by omega
      exact .left here
  | @enter k τ lt here =>
    left
    have mark : ((Config.running l.top τ).before? l.top l.counter).toList = [.int (a + k)] := by
      rw [Config.before?, if_pos rfl, here.1]
      rfl
    rw [mark, ← rounds_succ]
    exact code.round counts wordA wordB lt here ⟨0, .zero _⟩ rfl (Nat.le_refl _) body_le
  | body lt here run same low high =>
    left
    rw [Config.append_before? _ (by omega)]
    exact code.round counts wordA wordB lt here run same (Nat.le_of_lt low) high
  | left here => exact .inr ⟨Machine.outside (Config.between_of_le (.inr (Nat.le_refl _))), .inl ⟨_, rfl, rfl, here.1⟩⟩
  | failed lt failed => exact .inr ⟨Machine.outside (Config.between_of_failed failed), .inr ⟨_, lt, rfl, failed⟩⟩

/-- The runs of a loop. The body is begun with the start, the start plus one and so on in the counter, and where the
machine cannot go on, the loop has ended. -/
theorem visits (start : l.start.read? bounded = some (.int a)) (stop : l.stop.read? bounded = some (.int b))
    {ws : Writes p} {xs : List Scalar} {c₀ c : Config p} (h : LoopState st ops l a b bounded [] c₀)
    (run : Visits (l.machine st ops) (Config.before? l.top l.counter) c₀ ws xs c) :
    (∃ k, k ≤ (b - a).toNat ∧ xs = rounds a k) ∧
      (∀ w ∈ ws, w.1 = l.counter → ∃ x, w.2 = .int x ∧ a ≤ x ∧ x ≤ max a b) ∧
      (l.machine st ops c = none → LoopEnd l.counter l.behind a b xs c) := by
  have step {xs : List Scalar} {c : Config p} (h : LoopState st ops l a b bounded xs c) :=
    code.step counts wordA wordB start stop h
  obtain ⟨state, writes⟩ := Visits.invariant (LoopState st ops l a b bounded)
    (fun w => w.1 = l.counter → ∃ x, w.2 = .int x ∧ a ≤ x ∧ x ≤ max a b) (fun xs c ws c' state first => by
      rcases step state with ⟨ws', c'', first', state', writes⟩ | ⟨stopped, -⟩
      · rw [first] at first'
        cases first'
        exact ⟨state', writes⟩
      · rw [first] at stopped
        cases stopped) run h
  rw [List.nil_append] at state
  refine ⟨state.exists_rounds, writes, fun stopped => ?_⟩
  rcases step state with ⟨ws', c', first, -⟩ | ended
  · rw [stopped] at first
    cases first
  · exact ended.2

/-- A round comes to its end when the body does and the rest of the loop too. -/
theorem halts_round {k : Nat} (lt : k < (b - a).toNat)
    (next : ∀ τ, l.Counting b (a + (k + 1 : Nat)) τ → Halts (l.machine st ops) (.running (l.bottom + 1) τ))
    {τ : Store p} (here : l.Counting b (a + k) τ) (body : Halts (l.bodyMachine st ops) (.running l.top τ)) :
    Halts (l.machine st ops) (.running l.top τ) := by
  obtain ⟨le, top, body_le, -⟩ := code.ordered
  -- Wherever the round has come to in the body, the body comes to its end from there.
  refine body.induct (P := fun c => ∀ i ws τ', c = .running i τ' → l.top ≤ i → i ≤ l.bottom →
    Reaches (l.bodyMachine st ops) (.running l.top τ) ws c → τ' l.counter = τ l.counter → Halts _ c)
    ?_ ?_ l.top [] τ rfl (Nat.le_refl _) body_le ⟨0, .zero _⟩ rfl
  · rintro _ stopped i ws τ' rfl low high run same
    rcases Nat.lt_or_eq_of_le high with high | rfl
    · obtain ⟨ws, c, step, -⟩ := code.body i τ' low high
      rw [LoopPlaces.bodyMachine, Machine.inside_of (Config.between_running low high), step] at stopped
      cases stopped
    · obtain ⟨τ'', step, here⟩ := code.counted counts wordA wordB lt here run same
      exact .of_step (LoopPlaces.machine_of (by omega) (by omega) step) (next τ'' here)
  · rintro _ ws c first ih i ws' τ' rfl low high run same
    obtain ⟨within, first⟩ := Machine.inside_eq_some first
    have high : i < l.bottom := by
      simp only [Config.between, Bool.and_eq_true, decide_eq_true_eq] at within
      exact within.2
    refine .of_step (LoopPlaces.machine_of (by omega) (by omega) first) ?_
    cases c with
    | running j τ'' =>
      obtain ⟨ws, c, step, confined, -⟩ := code.body i τ' low high
      rw [first] at step
      cases step
      obtain ⟨low', high'⟩ := confined j τ'' rfl
      exact ih j _ τ'' rfl (Nat.le_of_lt low') high' (reaches_body run low high first)
        ((code.counter_kept low high first).trans same)
    | aborted | trapped => exact .of_stop (Machine.outside rfl)

/-- A loop comes to its end from each of its tests when its body always does. -/
theorem halts_test (bodies : ∀ (τ : Store p) x, τ l.counter = .int x → a ≤ x → x < b →
      Halts (l.bodyMachine st ops) (.running l.top τ)) {m k n : Nat} (at' : n = l.head ∨ n = l.bottom)
    (left : m + k = (b - a).toNat) {τ : Store p} (here : l.Counting b (a + k) τ) :
    Halts (l.machine st ops) (.running (n + 1) τ) := by
  obtain ⟨le, top, body_le, -⟩ := code.ordered
  induction m generalizing k n τ with
  | zero =>
    obtain ⟨τ', step, here, less⟩ := code.tested counts here at'
    refine .of_step (LoopPlaces.machine_of (by omega) (by omega) step) ?_
    refine .of_step (LoopPlaces.machine_of (by omega) (by omega) (code.branch _ _ at')) ?_
    rw [less, decide_eq_false (by omega)]
    exact .of_stop (Machine.outside (Config.between_of_le (.inr (Nat.le_refl _))))
  | succ m ih =>
    obtain ⟨τ', step, here, less⟩ := code.tested counts here at'
    refine .of_step (LoopPlaces.machine_of (by omega) (by omega) step) ?_
    refine .of_step (LoopPlaces.machine_of (by omega) (by omega) (code.branch _ _ at')) ?_
    rw [less, decide_eq_true (by omega)]
    exact code.halts_round counts wordA wordB (by omega) (fun τ here => ih (.inr rfl) (by omega) here) here
      (bodies _ _ here.1 (by omega) (by omega))

/-- A loop whose body always comes to its end does so too, from where its bounds are known. -/
theorem halts (start : l.start.read? bounded = some (.int a)) (stop : l.stop.read? bounded = some (.int b))
    (bodies : ∀ (τ : Store p) x, τ l.counter = .int x → a ≤ x → x < b →
      Halts (l.bodyMachine st ops) (.running l.top τ)) : Halts (l.machine st ops) (.running l.head bounded) := by
  obtain ⟨le, top, body_le, -⟩ := code.ordered
  refine .of_step (LoopPlaces.machine_of le (by omega) (code.set bounded _ start)) ?_
  exact code.halts_test counts wordA wordB bodies (.inl rfl) (Nat.add_zero _)
    ⟨by simp, (code.kept _ _ _ (.inl rfl)).trans stop⟩

end LoopCode

/-- The runs of a machine on a loop and on its body, which stands from `top` on. -/
structure RunsRounds (loop body : Machine (Config p) (Element p × Scalar)) (first top behind : Nat)
    (counter : Element p) (a b : Int) (σ : Store p) : Prop where
  /-- The body is begun with the start, the start plus one and so on in the counter. -/
  begun : ∀ ws xs c, Visits loop (Config.before? top counter) (.running first σ) ws xs c →
    ∃ k, k ≤ (b - a).toNat ∧ xs = rounds a k
  /-- The counter never overflows. -/
  written : ∀ ws xs c, Visits loop (Config.before? top counter) (.running first σ) ws xs c →
    ∀ w ∈ ws, w.1 = counter → ∃ x, w.2 = .int x ∧ a ≤ x ∧ x ≤ max a b
  /-- Where the machine cannot go on, the loop has ended. -/
  stopped : ∀ ws xs c, Visits loop (Config.before? top counter) (.running first σ) ws xs c → loop c = none →
    LoopEnd counter behind a b xs c
  /-- The loop ends when its body always comes to an end. -/
  ends : (∀ τ x, τ counter = .int x → a ≤ x → x < b → Halts body (.running top τ)) →
    ∃ ws xs c, Visits loop (Config.before? top counter) (.running first σ) ws xs c ∧ LoopEnd counter behind a b xs c

theorem LoopCode.runsRounds (code : LoopCode st ops l a b) (counts : ops.Count) (wordA : Word.inRange a = true)
    (wordB : Word.inRange b = true) (start : l.start.read? bounded = some (.int a))
    (stop : l.stop.read? bounded = some (.int b)) {n : Nat} {ws : Writes p} {σ : Store p}
    (bounds : Runs ((p.step? st ops).inside (Config.between l.first l.head)) n (.running l.first σ) ws
      (.running l.head bounded)) (off : ∀ w ∈ ws, w.1 ≠ l.counter) :
    RunsRounds (l.machine st ops) (l.bodyMachine st ops) l.first l.top l.behind l.counter a b σ := by
  have visits {ws : Writes p} {xs : List Scalar} {c : Config p}
      (run : Visits (l.machine st ops) (Config.before? l.top l.counter) (.running l.first σ) ws xs c) :=
    code.visits counts wordA wordB start stop (.bounds bounds off) run
  refine ⟨fun ws xs c run => (visits run).1, fun ws xs c run => (visits run).2.1, fun ws xs c run => (visits run).2.2,
    fun bodies => ?_⟩
  have before : Reaches (l.machine st ops) (.running l.first σ) ws (.running l.head bounded) := by
    refine ⟨n, bounds.widen fun c within => ?_⟩
    obtain ⟨-, top, body_le, behind⟩ := code.ordered
    cases c with
    | running i τ =>
      simp only [Config.between, Bool.and_eq_true, decide_eq_true_eq] at within ⊢
      omega
    | aborted | trapped => cases within
  obtain ⟨ws, c, ⟨n, run⟩, stopped⟩ := Halts.of_reaches before (code.halts counts wordA wordB start stop bodies)
  obtain ⟨xs, run⟩ := run.exists_visits (Config.before? l.top l.counter)
  exact ⟨ws, xs, c, run, (visits run).2.2 stopped⟩

end Machine

/-! ## The code of a loop -/

section Lowering

variable {ctx : LowerContext} {scope : ScopeId → Lower Unit} {counter : SlotId} {start stop : Staged.Expr}
  {body : ScopeId}
  {owed : List LabelId} {s s' : LowerState} {p : Program}

theorem test_ok {x b y : Operand} {again done : LabelId} {u : Unit}
    (run : Lower.test x b y again done ctx s = .ok (u, s')) :
    s'.code = (s.code.push (.binary (.compareI .lt) x b y)).push (.branch y again done) := by
  obtain ⟨_, s₁, first, second⟩ := bind_ok.1 run
  rw [(emit_ok second).2.1, (emit_ok first).2.1]

theorem lowers_test {x b y : Operand} {again done : LabelId} (hx : x.IsElement s.out.vars s.stream .int)
    (hb : b.IsElement s.out.vars s.stream .int) (hy : y.IsElement s.out.vars s.stream .bool)
    (target : s.IsTarget y False)
    (hagain : again < s.labels) (hdone : done < s.labels) :
    Lowers ctx owed owed .none (Lower.test x b y again done) s fun _ _ => True := by
  refine .quiet (lowers_emit ⟨.int, .bool, rfl, hx, hb, target.isPlace hy⟩ (.refl _) (target.writes_iff rfl))
    fun _ s' _ grows _ => ?_
  exact lowers_emit_control ⟨grows.isWhole hy, Nat.lt_of_lt_of_le hagain grows.labels,
    Nat.lt_of_lt_of_le hdone grows.labels⟩ rfl (.refl _)

namespace LoopParts

variable (parts : LoopParts ctx scope counter start stop body s s')

include parts

/-- Where the instructions of a loop stand. -/
structure Placed (parts : LoopParts ctx scope counter start stop body s s') : Prop where
  top : parts.s₉.code.size = parts.s₅.code.size + 4
  behind : s'.code.size = parts.s₁₀.code.size + 4
  set : s'.code[parts.s₅.code.size]? = some (.move parts.a parts.x)
  test : ∀ n, n = parts.s₅.code.size ∨ n = parts.s₁₀.code.size →
    s'.code[n + 1]? = some (.binary (.compareI .lt) parts.x parts.b parts.y) ∧
      s'.code[n + 2]? = some (.branch parts.y parts.again parts.done)
  again : s'.code[parts.s₅.code.size + 3]? = some (.label parts.again)
  count : s'.code[parts.s₁₀.code.size]? = some (.binary .addI parts.x (.ofInt 1) parts.x)
  done : s'.code[parts.s₁₀.code.size + 3]? = some (.label parts.done)

theorem placed (code : parts.s₇.code = parts.s₆.code) (inner : parts.s₉.Follows parts.s₁₀) : parts.Placed := by
  have top := (emit_ok parts.top).2.1
  rw [test_ok parts.test, code, (emit_ok parts.set).2.1] at top
  have bottom := (emit_ok parts.bottom).2.1
  rw [test_ok parts.retest, (emit_ok parts.count).2.1] at bottom
  have early {n : Nat} {i : Instr} (found : parts.s₉.code[n]? = some i) : s'.code[n]? = some i :=
    (inner.trans parts.follows_bottom).code n i found
  obtain ⟨size, set, compare, branch, again⟩ := four_pushed top
  obtain ⟨size', count, compare', branch', done⟩ := four_pushed bottom
  refine ⟨size, size', early set, fun n at' => ?_, early again, count, done⟩
  rcases at' with rfl | rfl
  · exact ⟨early compare, early branch⟩
  · exact ⟨compare', branch'⟩

/-- What is known of the states of flattening a loop, of its operands and of the variables of the counter and of the
condition. -/
structure Sound (parts : LoopParts ctx scope counter start stop body s s') (owed : List LabelId) (id cond : VarId) :
    Prop where
  x : parts.x = .ofVariable id (some .int)
  y : parts.y = .ofVariable cond (some .bool)
  slot : parts.s₃.var? counter = some id
  counter : HoldsTy parts.s₃.out.vars parts.s₃.stream id .int
  condition : HoldsTy parts.s₇.out.vars parts.s₇.stream cond .bool
  new : cond = parts.s₆.out.vars.size
  code₃ : parts.s₃.code = s.code
  code₇ : parts.s₇.code = parts.s₆.code
  low : parts.a.IsWhole parts.s₄.out.vars parts.s₄.stream .int
  high : parts.b.IsWhole parts.s₅.out.vars parts.s₅.stream .int
  before : s.Follows parts.s₃
  bounds : parts.s₃.Sound ctx.source (parts.done :: parts.again :: owed) ∧
    parts.s₄.Sound ctx.source (parts.done :: parts.again :: owed)
  body : parts.s₉.Sound ctx.source (parts.done :: owed) ∧ parts.s₁₀.Sound ctx.source (parts.done :: owed)

theorem exists_sound (held : Held ctx.source) {span : Span}
    (wf : (Staged.Stmt.loop counter start stop body span).WellFormed ctx.source.vars)
    (fit : Staged.Expr.AllFit [start, stop]) (lowers : LowersScopes ctx scope [body])
    (sound : s.Sound ctx.source owed) : ∃ id cond, parts.Sound owed id cond := by
  obtain ⟨hcounter, ⟨wstart, intStart⟩, wstop, intStop⟩ := wf
  obtain ⟨v, hv, int⟩ := Option.map_eq_some_iff.1 hcounter
  have hcounter := held v (Array.mem_of_getElem? hv)
  obtain ⟨-, -, quiet₁⟩ := label_ok parts.makeAgain
  obtain ⟨-, -, quiet₂⟩ := label_ok parts.makeDone
  obtain ⟨sound₁, grows₁, hagain, madeAgain⟩ := lowers_label.of_ok sound parts.makeAgain
  obtain ⟨sound₂, grows₂, hdone, madeDone⟩ := lowers_label.of_ok sound₁ parts.makeDone
  rw [← hagain] at sound₁ sound₂
  rw [← hdone] at sound₂
  obtain ⟨sound₃, grows₃, id, x, holds, input⟩ := (lowers_ofSlot hv hcounter).of_ok sound₂ parts.slot
  obtain ⟨id', x', -, slot, code₃⟩ := ofSlot_ok hv hcounter sound₂ parts.slot
  obtain rfl : id' = id := by
    have same := congrArg Operand.viewed (x'.symm.trans x)
    cases same
    rfl
  rw [int] at x holds
  obtain ⟨sound₄, grows₄, low⟩ := (lowers_expr held start wstart fit.1).of_ok sound₃ parts.low
  obtain ⟨sound₅, grows₅, high⟩ := (lowers_expr held stop wstop fit.2.1).of_ok sound₄ parts.high
  rw [intStart] at low
  rw [intStop] at high
  have target : parts.s₃.IsTarget parts.x (counter ∈ ctx.source.inputs) := ⟨id', by rw [x]; rfl, input⟩
  have element : parts.x.IsElement parts.s₃.out.vars parts.s₃.stream .int := x ▸ Operand.isWhole_ofVariable holds
  have grows₃₅ := grows₄.trans grows₅
  have set : Lowers ctx (parts.done :: parts.again :: owed) (parts.done :: parts.again :: owed)
      (.writing (counter ∈ ctx.source.inputs)) (Lower.emit (.move parts.a parts.x)) parts.s₅ fun _ _ => True :=
    lowers_emit ⟨.int, grows₅.isWhole low, (target.mono grows₃₅).isPlace (grows₃₅.isWhole element)⟩ (.refl _)
      ((target.mono grows₃₅).writes_iff rfl)
  obtain ⟨sound₆, grows₆, -⟩ := set.of_ok sound₅ parts.set
  obtain ⟨sound₇, grows₇, whole, temporary⟩ := (lowers_temp (Ty.storable_prim.2
    (.inl rfl))).of_ok sound₆ parts.condition
  obtain ⟨cond, y, new, code₇, -⟩ := temp_ok sound₆ parts.condition
  obtain ⟨t, condition, leads⟩ := (y ▸ whole).hasTy
  obtain rfl : t = .bool := leads
  have grows₃₇ := grows₃₅.trans (grows₆.trans grows₇)
  have grows₁₇ := grows₂.trans (grows₃.trans grows₃₇)
  -- The test stands twice, and is typed in every later state.
  have test {owed : List LabelId} {t : LowerState} (later : parts.s₇.Grows t) : Lowers ctx owed owed .none
      (Lower.test parts.x parts.b parts.y parts.again parts.done) t fun _ _ => True :=
    lowers_test (later.isWhole (grows₃₇.isWhole element)) (((grows₆.trans grows₇).trans later).isWhole high)
      (later.isWhole whole) (temporary.mono later) (Nat.lt_of_lt_of_le (hagain ▸ madeAgain)
      (grows₁₇.trans later).labels)
      (Nat.lt_of_lt_of_le (hdone ▸ madeDone) ((grows₃.trans grows₃₇).trans later).labels)
  obtain ⟨sound₈, grows₈, -⟩ := (test (.refl _)).of_ok sound₇ parts.test
  have top : Lowers ctx (parts.done :: parts.again :: owed) (parts.done :: owed) .none (Lower.emit (.label parts.again))
      parts.s₈ fun _ _ => True := lowers_emit_control trivial rfl (.swap _ _ _)
  obtain ⟨sound₉, grows₉, -⟩ := top.of_ok sound₈ parts.top
  obtain ⟨sound₁₀, -⟩ := (lowers body List.mem_cons_self _ parts.s₉).of_ok sound₉ parts.inner
  exact ⟨id', cond, x, y, slot, holds, condition, new, code₃.trans (quiet₁.trans quiet₂).code, code₇, low, high,
    (quiet₁.trans quiet₂).follows.trans (adds_ofSlot counter ctx _ _ _ parts.slot), ⟨sound₃, sound₄⟩, sound₉, sound₁₀⟩

/-- The places of a loop, with the elements of its counter and of its condition. -/
def places (parts : LoopParts ctx scope counter start stop body s s') (e c : Element p) : LoopPlaces p :=
  ⟨parts.s₃.code.size, parts.s₅.code.size, parts.s₁₀.code.size, e, c, parts.a, parts.b⟩

end LoopParts

/-- The body of a loop, whose code stands between two states, leaves the end as it was: the end is no element of a slot,
or the slot is not the counter, and the body does not assign it or gives back the value that the end had when the body
was begun. -/
def KeepsEnd (source : Staged.Program) (body : ScopeId) (u t t' : LowerState) (ops : Operators)
    (counter : SlotId) (e : Element p) (stop : Staged.Expr) (a b : Int) : Prop :=
  ∀ k coord, stop.place? = some (k, coord) → k ≠ counter ∧
    (¬source.Assigns body k ∨ ∀ τ x ws τ', τ e = .int x → a ≤ x → x < b →
      Reaches (p.between? ops t t') (.running t.code.size τ) ws (.running t'.code.size τ') →
      u.contents τ' k coord = u.contents τ k coord)

theorem contents_element {u : LowerState} {k : SlotId} {id : VarId} {coord : List Int} {e : Element p}
    (slot : u.var? k = some id) (found : p.element? id coord = some e) (σ : Store p) : u.contents σ k coord = σ e := by
  rw [contents, slot, Option.bind_some, Store.get?_eq found, Option.getD_some]

/-- The element of a variable is the same when that of its slot is. -/
theorem get?_of_contents {u : LowerState} {k : SlotId} {id : VarId} {coord : List Int} {σ σ' : Store p}
    (slot : u.var? k = some id) (same : u.contents σ' k coord = u.contents σ k coord) :
    σ'.get? id coord = σ.get? id coord := by
  unfold Store.get?
  cases found : p.element? id coord with
  | none => rfl
  | some e =>
    rw [contents_element slot found, contents_element slot found] at same
    exact congrArg some same

namespace LoopParts

variable {parts : LoopParts ctx scope counter start stop body s s'} {id cond : VarId} {e c : Element p} {m : Meaning}
  {a b : Int}

/-- The end is no element of the counter. -/
theorem Sound.end_ne (sound : parts.Sound owed id cond) (apart : s.Apart)
    (high : Computes p m stop parts.s₄ parts.s₅ parts.b)
    (other : ∀ k coord, stop.place? = some (k, coord) → k ≠ counter) {v : VarId} (var : parts.b.viewed.var? = some v) :
    v ≠ id := by
  have slot := parts.follows_bounds.kept _ _ sound.slot
  rintro rfl
  cases view : parts.b.viewed with
  | constant k =>
    rw [view] at var
    cases var
  | «variable» v' coord =>
    rw [view] at var
    cases var
    rcases (high.viewed v coord view).2 with ⟨k, place, slot'⟩ | temporary
    · have apart := parts.follows_bounds.apart (sound.before.apart apart)
      exact other k coord place (apart.distinct k counter v slot' slot)
    · exact temporary.free counter slot

/-- The end is read again behind a round, and is what it was. -/
theorem Sound.end_restored (sound : parts.Sound owed id cond) (apart : s.Apart)
    (inner : Segment (ctx.source.Assigns body) parts.s₉ parts.s₁₀) (high : Computes p m stop parts.s₄ parts.s₅ parts.b)
    (cont : p.Continues s')
    (kept : KeepsEnd ctx.source body s' parts.s₉ parts.s₁₀ m.operators counter e stop a b) {τ τ' : Store p} {x : Int}
    {ws : List (Element p × Scalar)} (here : τ e = .int x) (low : a ≤ x) (less : x < b)
    (run : Reaches (p.between? m.operators parts.s₉ parts.s₁₀)
      (.running parts.s₉.code.size τ) ws (.running parts.s₁₀.code.size τ')) :
    parts.b.read? τ' = parts.b.read? τ := by
  have before := parts.follows_top.trans inner.follows
  have apart := before.apart ((sound.before.trans parts.follows_bounds).apart apart)
  -- The body writes to what it assigns, and to temporaries.
  have frame {v : VarId} (var : parts.b.viewed.var? = some v)
      (slots : ∀ k, ctx.source.Assigns body k → parts.s₁₀.var? k ≠ some v)
      (temporary : ¬parts.s₉.Temporary parts.s₁₀ v) : parts.b.read? τ' = parts.b.read? τ := by
    obtain ⟨n, run⟩ := run
    refine Operand.read?_congr fun el var' => store_of_runs run.of_inside fun w hw same => ?_
    obtain rfl : v = el.var := Option.some.inj (var.symm.trans var')
    rcases inner.runs_writes sound.body.1 sound.body.2 (cont.before parts.follows_bottom) run w hw with
      ⟨k, assigned, slot⟩ | new
    · exact slots k assigned (same ▸ slot)
    · exact temporary (same ▸ new)
  obtain ⟨viewed, shape⟩ : ∃ v, parts.b = ⟨v, []⟩ :=
    ⟨parts.b.viewed, congrArg (Operand.mk parts.b.viewed) sound.high.dims⟩
  cases viewed with
  | constant k => rw [shape]; rfl
  | «variable» v coord =>
    have var : parts.b.viewed.var? = some v := shape ▸ rfl
    rcases (high.viewed v coord (shape ▸ rfl)).2 with ⟨k, place, slot⟩ | temporary
    · have slot := before.kept k v slot
      rcases (kept k coord place).2 with unassigned | kept
      · exact frame var (fun k' assigned slot' => unassigned (apart.distinct k' k v slot' slot ▸ assigned))
          fun temporary => temporary.free k slot
      · rw [shape, Operand.read?_element, Operand.read?_element]
        exact get?_of_contents (parts.follows_bottom.kept k v slot) (kept τ x ws τ' here low less run)
    · exact frame var (fun k _ => (temporary.after before).free k) fun new =>
        Nat.not_lt.2 new.new (Nat.lt_of_lt_of_le temporary.made parts.follows_top.vars.size_le)

/-- The bounds of a loop are computed before its counter is set. -/
theorem Sound.bounded (sound : parts.Sound owed id cond) (low : Computes p m start parts.s₃ parts.s₄ parts.a)
    (high : Computes p m stop parts.s₄ parts.s₅ parts.b) (intStart : start.ty = .int) (intStop : stop.ty = .int)
    (later : parts.s₅.Follows s') (cont : p.Continues s') {σ : Store p} (indexedA : start.Indexed m (s'.contents σ))
    (indexedB : stop.Indexed m (s'.contents σ)) (valueA : start.value m (s'.contents σ) [] = .int a)
    (valueB : stop.value m (s'.contents σ) [] = .int b) :
    ∃ bounded, Passes p m.operators parts.s₃ parts.s₅ σ bounded ∧ parts.a.read? bounded = some (.int a) ∧
      parts.b.read? bounded = some (.int b) := by
  have follows₄ := adds_expr start ctx _ _ _ parts.low
  have follows₅ := adds_expr stop ctx _ _ _ parts.high
  obtain ⟨σ₁, passes₁, denotesA⟩ := low.value s' σ (follows₅.trans later) cont indexedA
  have contents := passes₁.contents (follows₅.trans later)
  obtain ⟨σ₂, passes₂, denotesB⟩ := high.value s' σ₁ later cont (contents ▸ indexedB)
  rw [contents, intStop] at denotesB
  rw [intStart] at denotesA
  refine ⟨σ₂, passes₁.trans passes₂ follows₄ follows₅, ?_, (denotesB [] trivial).trans (congrArg some valueB)⟩
  exact (denotesA.later sound.low (fun e he => passes₂.old he) [] trivial).trans (congrArg some valueA)

theorem Sound.stream (sound : parts.Sound owed id cond) : parts.s₉.stream = s.stream :=
  ((sound.before.trans parts.follows_bounds).trans parts.follows_top).stream

/-- The condition is a temporary that was made after the variable of the counter. -/
theorem Sound.condition_ne (sound : parts.Sound owed id cond) : cond ≠ id := by
  have made := Nat.lt_of_lt_of_le sound.counter.lt
    (parts.follows_bounds.trans (adds_emit _ ctx _ _ _ parts.set)).vars.size_le
  rintro rfl
  exact Nat.lt_irrefl _ (sound.new ▸ made)

section Steps

variable (sound : parts.Sound owed id cond) (inner : Segment (ctx.source.Assigns body) parts.s₉ parts.s₁₀)
  (cont : p.Continues s')

include sound inner cont

/-- An instruction of the loop is one of the program. -/
theorem Sound.instr {n : Nat} {i : Instr} (found : s'.code[n]? = some i) : (p.stream s.stream)[n]? = some i := by
  rw [← sound.stream, ← (inner.follows.trans parts.follows_bottom).stream]
  exact cont.code n i found

/-- The branch of a test goes to the body or behind the loop, as the condition says. -/
theorem Sound.branch_step (sound' : s'.Sound ctx.source owed) (hc : p.element? cond [] = some c) {n : Nat}
    (at' : n = parts.s₅.code.size ∨ n = parts.s₁₀.code.size) (ops : Operators) (σ : Store p) :
    p.step? s.stream ops (.running (n + 2) σ) =
      some ([], .running (if (σ c).isTrue then parts.s₅.code.size + 4 else parts.s₁₀.code.size + 4) σ) := by
  have placed := parts.placed sound.code₇ inner.follows
  have stream : s'.stream = s.stream := (inner.follows.trans parts.follows_bottom).stream.trans sound.stream
  have nodup := (List.nodup_append.1 sound'.nodup).1
  have again : p.labelIndex? s.stream parts.again = some (parts.s₅.code.size + 3) :=
    stream ▸ cont.labelIndex? nodup placed.again
  have done : p.labelIndex? s.stream parts.done = some (parts.s₁₀.code.size + 3) :=
    stream ▸ cont.labelIndex? nodup placed.done
  have read : parts.y.read? σ = some (σ c) := by
    rw [sound.y]
    exact congrArg (Option.map σ) hc
  rw [step?_running (sound.instr inner cont (placed.test n at').2)]
  simp only [Instr.outcome?, read]
  show (p.labelIndex? s.stream (if (σ c).isTrue then parts.again else parts.done)).map _ = some ([], _)
  by_cases h : (σ c).isTrue = true
  · rw [if_pos h, if_pos h, again]
    rfl
  · rw [if_neg h, if_neg h, done]
    rfl

/-- A step in the body stays there or comes to its end, and does not write the counter. -/
theorem Sound.body_step (apart : s.Apart) (unassigned : ¬ctx.source.Assigns body counter) (ops : Operators)
    (he : p.element? id [] = some e) {i : Nat} (low : parts.s₉.code.size ≤ i) (high : i < parts.s₁₀.code.size)
    (σ : Store p) :
    ∃ ws c, p.step? s.stream ops (.running i σ) = some (ws, c) ∧
      (∀ j τ, c = .running j τ → parts.s₉.code.size < j ∧ j ≤ parts.s₁₀.code.size) ∧ ∀ w ∈ ws, w.1 ≠ e := by
  have before := parts.follows_bounds.trans parts.follows_top
  have apart := inner.follows.apart ((sound.before.trans before).apart apart)
  have slot := inner.follows.kept _ _ (before.kept _ _ sound.slot)
  obtain ⟨rfl, -⟩ := Program.element?_eq_some.1 he
  obtain ⟨ws, c, step, confined, writes⟩ :=
    inner.advance sound.body.1 sound.body.2 (cont.before parts.follows_bottom) low high ops σ
  refine ⟨ws, c, sound.stream ▸ step, confined, ?_⟩
  rintro w hw rfl
  rcases writes w hw with ⟨k, assigned, slot'⟩ | temporary
  · exact unassigned (apart.distinct k counter _ slot' slot ▸ assigned)
  · exact temporary.free counter slot

end Steps

/-- The instructions that stand between the states of flattening a loop do what `LoopCode` says. -/
theorem Sound.loopCode (sound : parts.Sound owed id cond) (sound' : s'.Sound ctx.source owed) (apart : s.Apart)
    (inner : Segment (ctx.source.Assigns body) parts.s₉ parts.s₁₀) (high : Computes p m stop parts.s₄ parts.s₅ parts.b)
    (unassigned : ¬ctx.source.Assigns body counter) (cont : p.Continues s')
    (kept : KeepsEnd ctx.source body s' parts.s₉ parts.s₁₀ m.operators counter e stop a b)
    (he : p.element? id [] = some e) (hc : p.element? cond [] = some c) :
    LoopCode s.stream m.operators (parts.places e c) a b := by
  have placed := parts.placed sound.code₇ inner.follows
  have instr {n : Nat} {i : Instr} (found : s'.code[n]? = some i) : (p.stream s.stream)[n]? = some i :=
    sound.instr inner cont found
  have elementX : parts.x.element? p = some e := sound.x ▸ he
  have elementY : parts.y.element? p = some c := sound.y ▸ hc
  have readX (σ : Store p) : parts.x.read? σ = some (σ e) := by
    rw [sound.x]
    exact congrArg (Option.map σ) he
  have varE := (Program.element?_eq_some.1 he).1
  have varC := (Program.element?_eq_some.1 hc).1
  constructor
  case le => exact parts.follows_bounds.code.size_le
  case body_le =>
    show parts.s₅.code.size + 4 ≤ parts.s₁₀.code.size
    rw [← placed.top]
    exact inner.follows.code.size_le
  case set =>
    intro σ x read
    have read : parts.a.read? σ = some x := read
    rw [places, step?_running (instr placed.set)]
    simp only [Instr.outcome?, read, elementX]
    rfl
  case test =>
    intro σ x n at' read
    have read : parts.b.read? σ = some x := read
    rw [step?_running (instr (placed.test n at').1)]
    simp only [Instr.outcome?, readX, read, elementY]
    rfl
  case branch => exact fun σ n at' => sound.branch_step inner cont sound' hc at' m.operators σ
  case count =>
    intro σ
    rw [places, step?_running (instr placed.count)]
    simp only [Instr.outcome?, readX, elementX]
    rfl
  case body =>
    intro i σ low high
    obtain ⟨ws, c', step, confined, off⟩ :=
      sound.body_step inner cont apart unassigned m.operators he (placed.top ▸ low) high σ
    refine ⟨ws, c', step, fun j τ same => ?_, off⟩
    obtain ⟨low, high⟩ := confined j τ same
    rw [placed.top] at low
    exact ⟨low, high⟩
  case restored =>
    intro τ x ws τ' here low less run
    have run : Reaches (p.between? m.operators parts.s₉ parts.s₁₀) (.running parts.s₉.code.size τ) ws
        (.running parts.s₁₀.code.size τ') := by
      rw [Program.between?, sound.stream, placed.top]
      exact run
    exact sound.end_restored apart inner high cont kept here low less run
  case apart =>
    intro same
    exact sound.condition_ne (varC.symm.trans ((congrArg Element.var same).trans varE))
  case kept =>
    intro σ e' x he'
    refine Operand.read?_congr fun el var => Store.write_of_ne x ?_
    rintro rfl
    rcases he' with rfl | rfl
    · exact sound.end_ne apart high (fun k coord place => (kept k coord place).1) var varE
    · refine Nat.not_lt.2 ?_ (sound.high.lt var)
      rw [varC, sound.new]
      exact (adds_emit _ ctx _ _ _ parts.set).vars.size_le

end LoopParts

/-- The code that flattening emits for a well-formed loop runs the body once for every number from the start up to, but
not including, the end, which are computed before. In every run of the loop, for every meaning of the operators that
adds integers as words and compares them, and in every program that goes on from there, the body is begun with these
numbers in the counter in turn, and nothing else is written to the counter than numbers from the start to the end. The
run stops only behind the loop after the last round, or by an abort or a trap in one of the rounds; and it does stop if
the body always comes to an end. The body does not assign the counter, and leaves the end as it was. -/
theorem lower_loop_correct (held : Held ctx.source) (program : ctx.source.WellFormed) (sound : s.Sound ctx.source owed)
    (apart : s.Apart) {span : Span} {fuel : Nat}
    (wf : (Staged.Stmt.loop counter start stop body span).WellFormed ctx.source.vars)
    (inside : body < ctx.source.scopes.size) (enough : ctx.source.scopes.size < fuel + body)
    (fit : Staged.Expr.AllFit [start, stop])
    (fits : ∀ st, ctx.source.Within body st → Staged.Expr.AllFit st.exprs)
    (free : ∀ k, k ∈ (Staged.Stmt.loop counter start stop body span).slots ∨ ctx.source.Mentions body k → ¬s.Bars k)
    (unassigned : ¬ctx.source.Assigns body counter) :
    ∃ t t' s' id, Lower.loop (Lower.scope fuel) counter start stop body ctx s = .ok ((), s') ∧
      Lower.scope fuel body ctx t = .ok ((), t') ∧ t'.Follows s' ∧ s'.var? counter = some id ∧
      ∀ (m : Meaning) (p : Program) (σ : Store p) (a b : Int), p.Continues s' → m.operators.Count →
        start.Indexed m (s'.contents σ) → stop.Indexed m (s'.contents σ) →
        start.value m (s'.contents σ) [] = .int a → stop.value m (s'.contents σ) [] = .int b →
        Word.inRange a = true → Word.inRange b = true → ∃ e : Element p, p.element? id [] = some e ∧
          (KeepsEnd ctx.source body s' t t' m.operators counter e stop a b →
            RunsRounds (p.between? m.operators s s') (p.between? m.operators t t') s.code.size t.code.size s'.code.size
              e a b σ) := by
  have lowers : LowersScopes ctx (Lower.scope fuel) [body] := fun j hj owed s => by
    obtain rfl := List.mem_singleton.1 hj
    exact lowers_scope held program inside enough fits
  have loop : Lowers ctx owed owed _ (Lower.loop (Lower.scope fuel) counter start stop body) s fun _ _ => True :=
    lowers_loop held wf fit lowers
  obtain ⟨⟨⟩, s', run, -⟩ := (loop sound).1 fun k hk => free k (hk.imp_left id)
  obtain ⟨sound', -⟩ := loop.of_ok sound run
  obtain ⟨parts⟩ := loop_parts run
  obtain ⟨id, cond, known⟩ := parts.exists_sound held wf fit lowers sound
  obtain ⟨-, ⟨wstart, intStart⟩, wstop, intStop⟩ := wf
  have inner := keepsTo_scope fuel body parts.s₉ () parts.s₁₀
    (((known.before.trans parts.follows_bounds).trans parts.follows_top).apart apart) known.body.1.size parts.inner
  have placed := parts.placed known.code₇ inner.follows
  have later := (parts.follows_top.trans inner.follows).trans parts.follows_bottom
  refine ⟨parts.s₉, parts.s₁₀, s', id, run, parts.inner, parts.follows_bottom,
    (parts.follows_bounds.trans later).kept _ _ known.slot, ?_⟩
  intro m p σ a b cont counts indexedA indexedB valueA valueB wordA wordB
  have low : Computes p m start parts.s₃ parts.s₄ parts.a :=
    correct_expr held start _ _ _ _ wstart fit.1 known.bounds.1 parts.low
  have high : Computes p m stop parts.s₄ parts.s₅ parts.b :=
    correct_expr held stop _ _ _ _ wstop fit.2.1 known.bounds.2 parts.high
  obtain ⟨e, he⟩ := (cont.before (parts.follows_bounds.trans later)).exists_element known.counter (c := []) trivial
  obtain ⟨c, hc⟩ := (cont.before (parts.follows_test.trans (inner.follows.trans parts.follows_bottom))).exists_element
    known.condition (c := []) trivial
  refine ⟨e, he, fun kept => ?_⟩
  have code := known.loopCode sound' apart inner high unassigned cont kept he hc
  obtain ⟨bounded, ⟨ws, ⟨n, bounds⟩, temporary⟩, readA, readB⟩ := known.bounded low high intStart intStop later cont
    indexedA indexedB valueA valueB
  rw [Program.between?, known.before.stream] at bounds
  have off : ∀ w ∈ ws, w.1 ≠ e := by
    rintro w hw rfl
    refine (temporary w hw).free counter ((parts.follows_bounds.kept _ _ known.slot).trans (congrArg some ?_))
    exact (Program.element?_eq_some.1 he).1.symm
  have runs := code.runsRounds counts wordA wordB readA readB bounds off
  rw [Program.between?, Program.between?, known.stream, placed.top, placed.behind, ← known.code₃]
  exact runs

end Lowering

/-- An end, a counter and another number, and two bodies: one copies the counter, and the other one sets the end to
zero. -/
def twoBodies : Staged.Program where
  vars := #[⟨.int, default⟩, ⟨.int, default⟩, ⟨.int, default⟩]
  scopes := #[#[], #[.assign ⟨2, [], .int, default⟩ (.var 1 .int default) default],
    #[.assign ⟨0, [], .int, default⟩ (.literal (.int 0) .int default) default]]

/-- Operators that add integers and compare them; the others leave what they are given. -/
def counting : Meaning where
  unary _ _ x := x
  binary
    | .add, _, .int a, .int b => .int (Word.wrap (a + b))
    | .lessThan, _, .int a, .int b => .bool (decide (a < b))
    | _, _, x, _ => x

theorem scope_twoBodies {i : ScopeId} {st : Staged.Stmt} (h : st ∈ twoBodies.scope i) :
    i = 1 ∧ st = .assign ⟨2, [], .int, default⟩ (.var 1 .int default) default ∨
      i = 2 ∧ st = .assign ⟨0, [], .int, default⟩ (.literal (.int 0) .int default) default := by
  match i, h with
  | 0, h => simp [twoBodies, Staged.Program.scope] at h
  | 1, h => exact .inl ⟨rfl, by simpa [twoBodies, Staged.Program.scope] using h⟩
  | 2, h => exact .inr ⟨rfl, by simpa [twoBodies, Staged.Program.scope] using h⟩
  | i + 3, h => simp [twoBodies, Staged.Program.scope] at h

theorem within_twoBodies {st : Staged.Stmt} (h : twoBodies.Within 1 st) :
    st = .assign ⟨2, [], .int, default⟩ (.var 1 .int default) default := by
  cases h with
  | here mem => exact (scope_twoBodies mem).elim (·.2) fun h => absurd h.1 (by decide)
  | inner mem enters =>
    rcases scope_twoBodies mem with ⟨-, rfl⟩ | ⟨-, rfl⟩ <;> exact (List.not_mem_nil enters).elim

theorem wellFormed_twoBodies : twoBodies.WellFormed where
  positive v hv := by
    obtain rfl : v = ⟨.int, default⟩ := by simpa [twoBodies] using hv
    simp [Ty.IsPositive, Ty.dims]
  stmts i st h := by
    rcases scope_twoBodies h with ⟨-, rfl⟩ | ⟨-, rfl⟩
    · exact ⟨rfl, rfl, ⟨.int, default⟩, rfl, rfl⟩
    · exact ⟨trivial, rfl, ⟨.int, default⟩, rfl, rfl⟩
  nested i st h j enters := by
    rcases scope_twoBodies h with ⟨-, rfl⟩ | ⟨-, rfl⟩ <;> exact (List.not_mem_nil enters).elim
  staticInit := by decide
  entry := by decide
  interface k hk := (List.not_mem_nil hk).elim
  nodup := .nil
  apart k hk := (List.not_mem_nil hk).elim

theorem lower_loop_correct_twice :
    let start : Staged.Expr := .literal (.int 0) .int default
    ∃ t t' s', Lower.loop (Lower.scope 3) 1 start (.var 0 .int default) 1 ⟨twoBodies, fun _ => ""⟩ (.blank twoBodies) =
        .ok ((), s') ∧ Lower.scope 3 1 ⟨twoBodies, fun _ => ""⟩ t = .ok ((), t') ∧
      ∃ e : Element s'.out, RunsRounds (s'.out.between? counting.operators (.blank twoBodies) s')
        (s'.out.between? counting.operators t t') 0 t.code.size s'.code.size e 0 2 fun _ => .int 2 := by
  intro start
  have held : Held twoBodies := fun v hv => by
    obtain rfl : v = ⟨.int, default⟩ := by simpa [twoBodies] using hv
    exact ⟨rfl, by simp [Ty.IsPositive, Ty.dims]⟩
  have assigns {k : SlotId} (h : twoBodies.Assigns 1 k) : k = 2 := by
    obtain ⟨st, within, target⟩ := h
    rw [within_twoBodies within] at target
    exact (Option.some.inj target).symm
  obtain ⟨t, t', s', id, run, inner, -, -, runs⟩ := @lower_loop_correct ⟨twoBodies, fun _ => ""⟩ 1 start
    (.var 0 .int default) 1 [] _ held wellFormed_twoBodies (LowerState.sound_blank rfl)
    (LowerState.apart_blank _) default 3 ⟨rfl, ⟨trivial, rfl⟩, rfl, rfl⟩ (by decide) (by decide) (by decide)
    (fun st within => by rw [within_twoBodies within]; decide) (fun k _ => Bool.false_ne_true)
    fun h => absurd (assigns h) (by decide)
  refine ⟨t, t', s', run, inner, ?_⟩
  cases run
  obtain ⟨e, -, correct⟩ := runs counting _ (fun _ => .int 2) 0 2 ⟨.refl _, .refl _⟩ ⟨fun _ _ => rfl, fun _ _ => rfl⟩
    trivial trivial rfl rfl rfl rfl
  exact ⟨e, correct fun k coord place => ⟨by cases place; decide, .inl fun h => by cases place; cases assigns h⟩⟩

/-- A loop from zero to an end that its body sets to zero. The body is the instruction with number four. -/
def cutShort : Program where
  vars := #[⟨some .int, .mainBody⟩, ⟨some .int, .mainBody⟩, ⟨some .bool, .mainBody⟩]
  main := #[
    .move (.ofInt 0) (.ofVariable 0 (some .int)),
    .binary (.compareI .lt) (.ofVariable 0 (some .int)) (.ofVariable 1 (some .int)) (.ofVariable 2 (some .bool)),
    .branch (.ofVariable 2 (some .bool)) 0 1,
    .label 0,
    .move (.ofInt 0) (.ofVariable 1 (some .int)),
    .binary .addI (.ofVariable 0 (some .int)) (.ofInt 1) (.ofVariable 0 (some .int)),
    .binary (.compareI .lt) (.ofVariable 0 (some .int)) (.ofVariable 1 (some .int)) (.ofVariable 2 (some .bool)),
    .branch (.ofVariable 2 (some .bool)) 0 1,
    .label 1]
  mainLabels := 2

theorem step?_cutShort {n : Nat} (h : n = 2 ∨ n = 7) {condition : Element cutShort}
    (found : cutShort.element? 2 [] = some condition) (ops : Operators) (σ : Store cutShort) :
    cutShort.step? .main ops (.running n σ) = some ([], .running (if (σ condition).isTrue then 4 else 9) σ) := by
  have index (l : LabelId) : cutShort.labelIndex? .main l = cutShort.main.toList.findIdx? (·.label? == some l) :=
    List.findIdx?_toArray ..
  have branch : cutShort.step? .main ops (.running n σ) =
      (cutShort.labelIndex? .main (if (σ condition).isTrue then 0 else 1)).map fun i => ([], .running (i + 1) σ) := by
    cases found
    rcases h with rfl | rfl <;> rfl
  rw [branch]
  split
  · rw [index]; rfl
  · rw [index]; rfl

theorem lower_loop_rereads :
    let start : Staged.Expr := .literal (.int 0) .int default
    let stop : Staged.Expr := .var 0 .int default
    ∃ s', Lower.loop (Lower.scope 3) 1 start stop 2 ⟨twoBodies, fun _ => ""⟩ (.blank twoBodies) = .ok ((), s') ∧
      s'.out = cutShort ∧ s'.var? 0 = some 1 ∧ s'.var? 1 = some 0 ∧
      ∃ (σ τ : Store cutShort) (e : Element cutShort) (ws : Writes cutShort) (xs : List Scalar),
        cutShort.element? 0 [] = some e ∧ start.value counting (s'.contents σ) [] = .int 0 ∧
        stop.value counting (s'.contents σ) [] = .int 2 ∧
        Visits (cutShort.step? .main counting.operators) (Config.before? 4 e) (.running 0 σ) ws xs
          (.running s'.code.size τ) ∧ xs = [.int 0] := by
  have branch {n : Nat} (h : n = 2 ∨ n = 7) := step?_cutShort h rfl counting.operators
  refine ⟨_, rfl, rfl, rfl, rfl, fun _ => .int 2, _, _, _, _, rfl, rfl, rfl,
    .succ rfl (.succ rfl (.succ (branch (.inl rfl) _) (.succ rfl (.succ rfl (.succ rfl (.succ (branch (.inr rfl) _)
      (.zero _))))))), ?_⟩
  rfl

end SignalLang.Flat
