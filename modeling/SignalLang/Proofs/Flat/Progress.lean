import SignalLang.Proofs.Flat.Segments

/-!
# Progress in emitted code

A typed instruction has an effect on every store (`Instr.Typed.exists_outcome`). So the machine goes on from every
instruction that was emitted for a statement: to another one of them, to the end of them, or to an abort or a trap
(`Segment.advance`).
-/

namespace SignalLang.Flat

open Staged (SlotId)
open Steps LowerState

variable {p : Program} {ops : Operators} {s s' : LowerState} {σ : Store p}

/-! ## Effects of typed instructions -/

theorem Operand.IsPlace.exists_element {o : Operand} {b : Prim} (h : o.IsPlace s.out.vars s.stream b)
    (vars : Extends s.out.vars p.vars) : ∃ e, o.element? p = some e ∧ o.viewed.var? = some e.var := by
  obtain ⟨element, isVar⟩ := h
  obtain ⟨viewed, dims⟩ := o
  obtain rfl : dims = [] := element.dims
  match viewed, element.hasTy with
  | .constant c, _ => cases isVar
  | .variable id coord, typed =>
    obtain ⟨whole, ⟨-, l, found, -⟩, leads⟩ := typed
    have inside := leads.inBounds (show InBounds [] (Ty.prim b).dims from trivial)
    rw [List.append_nil] at inside
    obtain ⟨e, he⟩ := Program.exists_element (vars _ _ found) inside
    obtain ⟨rfl, -⟩ := Program.element?_eq_some.1 he
    exact ⟨e, he, rfl⟩

theorem exists_reads {os : List Operand} (h : ∀ o ∈ os, o.IsElement s.out.vars s.stream .int)
    (vars : Extends s.out.vars p.vars) (σ : Store p) : ∃ xs, os.mapM (Operand.read? σ) = some xs := by
  induction os with
  | nil => exact ⟨[], rfl⟩
  | cons o os ih =>
    obtain ⟨x, read⟩ := (h o List.mem_cons_self).exists_read vars σ
    obtain ⟨xs, reads⟩ := ih fun o ho => h o (List.mem_cons_of_mem _ ho)
    exact ⟨x :: xs, by rw [List.mapM_cons, read, reads]; rfl⟩

/-- Indexes select an element of the base, or none because they are out of range. -/
theorem Operand.IsIndexed.exists_selected {base : Operand} {indexes : List Operand} {b : Prim}
    (h : base.IsIndexed s.out.vars s.stream indexes b) (vars : Extends s.out.vars p.vars) (σ : Store p) :
    ∃ r, base.selected? σ indexes = some r ∧ ∀ e, r = some e → base.viewed.var? = some e.var := by
  obtain ⟨id, t, rest, view, ⟨-, l, found, -⟩, -, rfl, length, elements⟩ := h
  obtain ⟨xs, reads⟩ := exists_reads elements vars σ
  have found := vars _ _ found
  have declared : id < p.vars.size := (Array.getElem?_eq_some_iff.1 found).1
  have dims : p.dimsOf id = t.dims := by
    rw [Program.dimsOf, found]
    rfl
  have first : (Operand.ofInt 0).isOrigin = true := rfl
  refine ⟨(xs.mapM Scalar.index?).bind (p.element? id), ?_, fun e he => ?_⟩
  · simp only [selected?, view]
    rw [if_pos ⟨declared, first, dims ▸ length⟩, reads]
    rfl
  · obtain ⟨coord, -, at'⟩ := Option.bind_eq_some_iff.1 he
    rw [view, (Program.element?_eq_some.1 at').1]
    rfl

/-- A typed instruction has an effect: it writes to its target, or goes to one of its labels. -/
theorem Instr.Typed.exists_outcome {labels errors : Nat} {i : Instr} (h : i.Typed s.out.vars s.stream labels errors)
    (vars : Extends s.out.vars p.vars) (ops : Operators) (σ : Store p) :
    ∃ f, i.outcome? ops σ = some f ∧
      (∀ e x, f = .write e x → ∃ o, i.target? = some o ∧ o.viewed.var? = some e.var) ∧ ∀ l, f = .goto l →
        l ∈ i.jumps := by
  have write {e : Element p} {x : Scalar} {o : Operand} (target : i.target? = some o)
    (var : o.viewed.var? = some e.var) :
      (∀ e' x', (.write e x : Outcome p) = .write e' x' → ∃ o, i.target? = some o ∧ o.viewed.var? = some e'.var) ∧
        ∀ l, (.write e x : Outcome p) = .goto l → l ∈ i.jumps := by
    refine ⟨fun e' x' same => ?_, fun l same => by cases same⟩
    cases same
    exact ⟨o, target, var⟩
  have still {f : Outcome p} (none : ∀ e x, f ≠ .write e x) (jumps : ∀ l, f = .goto l → l ∈ i.jumps) :
      (∀ e x, f = .write e x → ∃ o, i.target? = some o ∧ o.viewed.var? = some e.var) ∧ ∀ l, f = .goto l → l ∈ i.jumps :=
    ⟨fun e x same => (none e x same).elim, jumps⟩
  cases i with
  | move source target =>
    obtain ⟨b, element, place⟩ := h
    obtain ⟨x, read⟩ := element.exists_read vars σ
    obtain ⟨e, at', var⟩ := place.exists_element vars
    exact ⟨.write e x, by simp [outcome?, read, at'], write rfl var⟩
  | load base indexes target =>
    obtain ⟨b, indexed, place⟩ := h
    obtain ⟨r, selected, -⟩ := indexed.exists_selected vars σ
    obtain ⟨e, at', var⟩ := place.exists_element vars
    refine ⟨r.elim .trap fun e' => .write e (σ e'), by simp [outcome?, selected, at'], ?_⟩
    cases r with
    | none => exact still (fun _ _ h => by cases h) fun _ h => by cases h
    | some e' => exact write rfl var
  | store source base indexes =>
    obtain ⟨b, element, indexed⟩ := h
    obtain ⟨x, read⟩ := element.exists_read vars σ
    obtain ⟨r, selected, var⟩ := indexed.exists_selected vars σ
    refine ⟨r.elim .trap fun e => .write e x, by simp [outcome?, read, selected], ?_⟩
    cases r with
    | none => exact still (fun _ _ h => by cases h) fun _ h => by cases h
    | some e => exact write rfl (var e rfl)
  | unary op a target =>
    obtain ⟨b, c, -, element, place⟩ := h
    obtain ⟨x, read⟩ := element.exists_read vars σ
    obtain ⟨e, at', var⟩ := place.exists_element vars
    exact ⟨.write e (ops.unary op x), by simp [outcome?, read, at'], write rfl var⟩
  | binary op l r target =>
    obtain ⟨b, c, -, left, right, place⟩ := h
    obtain ⟨x, readL⟩ := left.exists_read vars σ
    obtain ⟨y, readR⟩ := right.exists_read vars σ
    obtain ⟨e, at', var⟩ := place.exists_element vars
    exact ⟨.write e (ops.binary op x y), by simp [outcome?, readL, readR, at'], write rfl var⟩
  | label l => exact ⟨.next, rfl, still (fun _ _ h => by cases h) fun _ h => by cases h⟩
  | jump l =>
    refine ⟨.goto l, rfl, still (fun _ _ h => by cases h) fun l' same => ?_⟩
    cases same
    exact List.mem_singleton_self _
  | branch condition l l' =>
    obtain ⟨element, -, -⟩ := h
    obtain ⟨x, read⟩ := element.exists_read vars σ
    refine ⟨.goto (if x.isTrue then l else l'), by simp [outcome?, read],
      still (fun _ _ h => by cases h) fun k same => ?_⟩
    cases same
    rw [jumps]
    split <;> simp
  | abort code => exact ⟨.abort code, rfl, still (fun _ _ h => by cases h) fun _ h => by cases h⟩
  | missing => exact h.elim

/-! ## Places of instructions -/

/-- Instructions stand where the code before them ended. -/
theorem two_pushed {code code' : Array Instr} {i j : Instr} (h : code' = (code.push i).push j) :
    code'.size = code.size + 2 ∧ code'[code.size]? = some i ∧ code'[code.size + 1]? = some j := by
  subst h
  refine ⟨by simp, ?_, ?_⟩ <;> grind

theorem four_pushed {code code' : Array Instr} {i j k l : Instr} (h : code' = (((code.push i).push j).push k).push l) :
    code'.size = code.size + 4 ∧ code'[code.size]? = some i ∧ code'[code.size + 1]? = some j ∧
      code'[code.size + 2]? = some k ∧ code'[code.size + 3]? = some l := by
  subst h
  refine ⟨by simp, ?_, ?_, ?_, ?_⟩ <;> grind

/-! ## Labels -/

/-- A label stands once in code that places no label twice. -/
theorem Program.eq_of_nodup_labelsOf {code : Array Instr} (nodup : (labelsOf code).Nodup) {l : LabelId} {m n : Nat}
    (hm : code[m]? = some (.label l)) (hn : code[n]? = some (.label l)) : m = n := by
  have pairwise := List.pairwise_iff_getElem.1 (List.pairwise_filterMap.1 nodup)
  obtain ⟨ltM, atM⟩ := Array.getElem?_eq_some_iff.1 hm
  obtain ⟨ltN, atN⟩ := Array.getElem?_eq_some_iff.1 hn
  have apart {i j : Nat} (hi : i < code.size) (hj : j < code.size) (ati : code[i] = .label l) (atj : code[j] = .label l)
      (lt : i < j) : False := by
    refine pairwise i j (by simpa using hi) (by simpa using hj) lt l ?_ l ?_ rfl
    · simp [ati, Instr.label?]
    · simp [atj, Instr.label?]
  rcases Nat.lt_trichotomy m n with lt | eq | gt
  · exact (apart ltM ltN atM atN lt).elim
  · exact eq
  · exact (apart ltN ltM atN atM gt).elim

/-- A jump finds its label where the code placed it. -/
theorem Program.Continues.labelIndex? (cont : p.Continues s) (nodup : (Program.labelsOf s.code).Nodup) {l : LabelId}
    {n : Nat} (placed : s.code[n]? = some (.label l)) : p.labelIndex? s.stream l = some n := by
  have lt := (Array.getElem?_eq_some_iff.1 placed).1
  obtain ⟨inside, at'⟩ := Array.getElem?_eq_some_iff.1 (cont.code _ _ placed)
  refine Array.findIdx?_eq_some_iff_getElem.2 ⟨inside, by simp [at', Instr.label?], fun m hm => ?_⟩
  have ltm : m < s.code.size := Nat.lt_trans hm lt
  obtain ⟨_, same⟩ := Array.getElem?_eq_some_iff.1 (cont.code _ _ (Array.getElem?_eq_getElem ltm))
  intro labelled
  rw [same] at labelled
  have here : s.code[m]? = some (.label l) := by
    rw [Array.getElem?_eq_getElem ltm]
    cases h : s.code[m] <;> rw [h] at labelled <;> simp [Instr.label?] at labelled
    rw [labelled]
  exact Nat.ne_of_lt hm (eq_of_nodup_labelsOf nodup here placed)

/-- The code between two states of flattening is part of the program. -/
theorem Program.Continues.instr (cont : p.Continues s') (follows : s.Follows s') {n : Nat} {i : Instr}
    (found : s'.code[n]? = some i) : (p.stream s.stream)[n]? = some i := by
  rw [← follows.stream]
  exact cont.code n i found

/-- A label is found where the code of a sound state placed it. -/
theorem Program.Continues.index {source : Staged.Program} {owed : List LabelId} (cont : p.Continues s')
    (follows : s.Follows s') (sound : s'.Sound source owed) {l : LabelId} {n : Nat}
    (placed : s'.code[n]? = some (.label l)) : p.labelIndex? s.stream l = some n := by
  rw [← follows.stream]
  exact cont.labelIndex? (List.nodup_append.1 sound.nodup).1 placed

theorem Program.mem_labelsOf {code : Array Instr} {l : LabelId} : l ∈ labelsOf code ↔ ∃ n : Nat,
    code[n]? = some (.label l) := by
  rw [labelsOf, List.mem_filterMap]
  constructor
  · rintro ⟨i, hi, labelled⟩
    obtain ⟨n, lt, rfl⟩ := Array.mem_iff_getElem.1 (Array.mem_toList_iff.1 hi)
    refine ⟨n, ?_⟩
    rw [Array.getElem?_eq_getElem lt]
    cases h : code[n] <;> rw [h] at labelled <;> simp [Instr.label?] at labelled
    rw [labelled]
  · rintro ⟨n, found⟩
    exact ⟨.label l, Array.mem_toList_iff.2 (Array.mem_of_getElem? found), rfl⟩

theorem Instr.Typed.jumps_lt {vars : Array Variable} {st : Stream} {labels errors : Nat} {i : Instr}
    (h : i.Typed vars st labels errors) {l : LabelId} (hl : l ∈ i.jumps) : l < labels := by
  cases i with
  | jump l' => exact List.mem_singleton.1 hl ▸ h
  | branch condition ifTrue ifFalse =>
    rcases List.mem_cons.1 hl with rfl | hl
    · exact h.2.1
    · exact List.mem_singleton.1 hl ▸ h.2.2
  | move | load | store | unary | binary | label | abort | missing => exact (List.not_mem_nil hl).elim

/-! ## Code that keeps to itself -/

variable {A : SlotId → Prop} {source : Staged.Program} {owed : List LabelId}

/-- A label that was made for a statement stands in its code. -/
theorem LowerState.Segment.placed (seg : Segment A s s') (sound : s.Sound source owed) (sound' : s'.Sound source owed)
    {l : LabelId} (new : s.labels ≤ l) (made : l < s'.labels) :
    ∃ n : Nat, s.code.size ≤ n ∧ s'.code[n]? = some (.label l) := by
  have old (h : l ∈ Program.labelsOf s.code ++ owed) : False := Nat.not_lt.2 new ((sound.placed l).1 h)
  rcases List.mem_append.1 ((sound'.placed l).2 made) with here | later
  · obtain ⟨n, found⟩ := Program.mem_labelsOf.1 here
    refine ⟨n, Nat.not_lt.1 fun lt => old (List.mem_append_left _ (Program.mem_labelsOf.2 ⟨n, ?_⟩)), found⟩
    obtain ⟨i, at'⟩ : ∃ i, s.code[n]? = some i := ⟨_, Array.getElem?_eq_getElem lt⟩
    rw [at', ← seg.follows.code n i at', found]
  · exact (old (List.mem_append_right _ later)).elim

/-- From an instruction that was emitted for a statement the machine goes on: it stays in the code for the statement,
which it does not begin again, or comes to its end, or the run ends. It writes where the statement may. -/
theorem LowerState.Segment.advance (seg : Segment A s s') (sound : s.Sound source owed) (sound' : s'.Sound source owed)
    (cont : p.Continues s') {i : Nat} (low : s.code.size ≤ i) (high : i < s'.code.size) (ops : Operators)
    (σ : Store p) :
    ∃ ws c, p.step? s.stream ops (.running i σ) = some (ws, c) ∧
      (∀ j τ, c = .running j τ → s.code.size < j ∧ j ≤ s'.code.size) ∧
      ∀ w ∈ ws, MayWrite A s s' w.1.var := by
  obtain ⟨instr, at'⟩ : ∃ instr, s'.code[i]? = some instr := ⟨_, Array.getElem?_eq_getElem high⟩
  have typed := sound'.typed instr (Array.mem_of_getElem? at')
  obtain ⟨f, outcome, writes, jumps⟩ := typed.exists_outcome cont.vars ops σ
  have stream := seg.follows.stream
  have here : p.step? s.stream ops (.running i σ) = f.after? s.stream i σ := by
    rw [step?_running (stream ▸ cont.code _ _ at'), outcome, Option.bind_some]
  rw [here]
  -- A step to the next instruction.
  have next (j : Nat) (τ τ' : Store p) (same : Config.running (i + 1) τ = .running j τ') :
      s.code.size < j ∧ j ≤ s'.code.size := by
    cases same
    exact ⟨Nat.lt_succ_of_le low, high⟩
  cases f with
  | write e x =>
    refine ⟨_, _, rfl, fun j τ same => next j _ τ same, fun w hw => ?_⟩
    rw [List.mem_singleton.1 hw]
    obtain ⟨o, target, var⟩ := writes e x rfl
    exact seg.writes i instr low at' o target _ var
  | next => exact ⟨_, _, rfl, fun j τ same => next j _ τ same, fun w hw => (List.not_mem_nil hw).elim⟩
  | goto l =>
    obtain ⟨n, new, placed⟩ := seg.placed sound sound' (seg.jumps i instr low at' l (jumps l rfl))
      (typed.jumps_lt (jumps l rfl))
    have nodup := (List.nodup_append.1 sound'.nodup).1
    have index : p.labelIndex? s.stream l = some n := stream ▸ cont.labelIndex? nodup placed
    refine ⟨[], .running (n + 1) σ, by rw [Outcome.after?, index]; rfl, fun j τ same => ?_,
      fun w hw => (List.not_mem_nil hw).elim⟩
    cases same
    exact ⟨Nat.lt_succ_of_le new, (Array.getElem?_eq_some_iff.1 placed).1⟩
  | abort code => exact ⟨_, _, rfl, fun j τ same => (by cases same), fun w hw => (List.not_mem_nil hw).elim⟩
  | trap => exact ⟨_, _, rfl, fun j τ same => (by cases same), fun w hw => (List.not_mem_nil hw).elim⟩

/-- A run in the code of a statement writes where the statement may. -/
theorem LowerState.Segment.runs_writes (seg : Segment A s s') (sound : s.Sound source owed)
    (sound' : s'.Sound source owed) (cont : p.Continues s') {n : Nat} {c c' : Config p}
    {ws : List (Element p × Scalar)} (run : Runs (p.between? ops s s') n c ws c') :
    ∀ w ∈ ws, MayWrite A s s' w.1.var := by
  induction run with
  | zero => exact fun w hw => (List.not_mem_nil hw).elim
  | @succ n c c₁ c₂ ws ws' first _ ih =>
    obtain ⟨within, first⟩ := Machine.inside_eq_some first
    intro w hw
    rcases List.mem_append.1 hw with hw | hw
    · cases c with
      | running i σ =>
        simp only [Config.between, Bool.and_eq_true, decide_eq_true_eq] at within
        obtain ⟨ws', c', step, -, writes⟩ := seg.advance sound sound' cont within.1 within.2 ops σ
        rw [first] at step
        cases step
        exact writes w hw
      | aborted | trapped => cases within
    · exact ih w hw

end SignalLang.Flat
