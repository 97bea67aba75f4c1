import SignalLang.Proofs.Flat.Progress

/-!
# Branches and assertions

The code of a branch tests the conditions of its clauses in turn. The first one that is true leads to the body of its
clause, and the end of every body leads behind the branch. A `Piece` of code is entered at its first place only and left
at its end, so the places that a run comes by tell which conditions it has computed and which body it has begun.

Nothing is known of a body but that its code keeps to itself, so its runs are taken as they are (`RunsBody`). The
statements in it are flattened in sound states again (`exists_stmt_of_scope`).
-/

namespace SignalLang

/-- Whether the condition of a clause is true. -/
def Staged.Clause.holds (m : Flat.Meaning) (contents : Staged.SlotId → List Int → Flat.Scalar) (c : Staged.Clause) :
    Bool := (c.condition.value m contents []).isTrue

namespace Flat

open Staged (SlotId ScopeId)
open Steps LowerState

/-! ## Pieces of code -/

section Machine

variable {p : Program}

/-- The place that the machine is at, if it is one of some places. -/
def Config.place? (places : List Nat) : Config p → Option Nat
  | .running i _ => if i ∈ places then some i else none
  | .aborted .. | .trapped _ => none

/-- A state at the end of some code goes on behind other code. One where a run has ended stays. -/
def Config.leave (behind : Nat) : Config p → Config p
  | .running _ σ => .running behind σ
  | .aborted code σ => .aborted code σ
  | .trapped σ => .trapped σ

/-- The machine is behind the first place of some code, and not behind its end, or its run has ended. -/
def Config.Within (top bottom : Nat) (c : Config p) : Prop := ∀ i σ, c = .running i σ → top < i ∧ i ≤ bottom

/-- From the code between two places the machine goes on in this code, which it does not begin again, or to its end,
unless its run ends. -/
def Confined (step : Machine (Config p) (Element p × Scalar)) (top bottom : Nat) : Prop :=
  ∀ i σ, top ≤ i → i < bottom → ∃ ws c, step (.running i σ) = some (ws, c) ∧ c.Within top bottom

/-- A piece of the code from `first` to `last`. Only its first place is marked. -/
structure Piece (step : Machine (Config p) (Element p × Scalar)) (places : List Nat) (first last top bottom : Nat) :
    Prop where
  low : first ≤ top
  le : top ≤ bottom
  high : bottom < last
  confined : Confined step top bottom
  marked : top ∈ places
  unmarked : ∀ n ∈ places, top < n → bottom < n

namespace Piece

variable {step : Machine (Config p) (Element p × Scalar)} {places : List Nat} {first last top bottom i n : Nat}
  {σ τ : Store p} {ws ws' : Writes p} {xs : List Nat} {a b c : Config p}

theorem mark_top (piece : Piece step places first last top bottom) (σ : Store p) :
    ((Config.running top σ).place? places).toList = [top] := by
  rw [Config.place?, if_pos piece.marked]
  rfl

theorem mark_within (piece : Piece step places first last top bottom) (h : top < i) (h' : i ≤ bottom) (σ : Store p) :
    ((Config.running i σ).place? places).toList = [] := by
  rw [Config.place?, if_neg fun mem => Nat.not_lt.2 h' (piece.unmarked i mem h)]
  rfl

/-- A step in the code of the piece is one in the whole code. -/
theorem step_whole (piece : Piece step places first last top bottom) (low : top ≤ i) (high : i ≤ bottom) :
    step.inside (Config.between first last) (.running i σ) = step (.running i σ) :=
  Machine.inside_of (Config.between_running (Nat.le_trans piece.low low) (Nat.lt_of_le_of_lt high piece.high))

/-- A run behind the first place of the piece passes no mark. -/
theorem visits_within (piece : Piece step places first last top bottom) (within : a.Within top bottom)
    (run : Runs (step.inside (Config.between top bottom)) n a ws b) :
    Visits (step.inside (Config.between first last)) (Config.place? places) a ws [] b ∧ b.Within top bottom := by
  induction run with
  | zero => exact ⟨.zero _, within⟩
  | @succ n a b c l ls step₁ _ ih =>
    obtain ⟨between, step₁⟩ := Machine.inside_eq_some step₁
    cases a with
    | running i σ =>
      obtain ⟨low, high⟩ := within i σ rfl
      simp only [Config.between, Bool.and_eq_true, decide_eq_true_eq] at between
      obtain ⟨ws', c', step₂, within'⟩ := piece.confined i σ between.1 between.2
      rw [step₁] at step₂
      cases step₂
      obtain ⟨rest, within'⟩ := ih within'
      have visit := Visits.succ ((piece.step_whole between.1 high).trans step₁) rest
      rw [piece.mark_within low high, List.append_nil] at visit
      exact ⟨visit, within'⟩
    | aborted | trapped => cases between

/-- A run in the piece from its first place marks this place, unless it has not begun. -/
theorem visits (piece : Piece step places first last top bottom)
    (run : Runs (step.inside (Config.between top bottom)) n (.running top σ) ws b) :
    (ws = [] ∧ b = .running top σ) ∨
      Visits (step.inside (Config.between first last)) (Config.place? places) (.running top σ) ws [top] b ∧
        b.Within top bottom := by
  cases run with
  | zero => exact .inl ⟨rfl, rfl⟩
  | succ step₁ rest =>
    obtain ⟨between, step₁⟩ := Machine.inside_eq_some step₁
    simp only [Config.between, Bool.and_eq_true, decide_eq_true_eq] at between
    obtain ⟨ws', c', step₂, within⟩ := piece.confined top σ between.1 between.2
    rw [step₁] at step₂
    cases step₂
    obtain ⟨rest, within⟩ := piece.visits_within within rest
    have visit := Visits.succ ((piece.step_whole between.1 piece.le).trans step₁) rest
    rw [piece.mark_top] at visit
    exact .inr ⟨visit, within⟩

/-- A run through the piece, and the step at its end. -/
theorem visits_through (piece : Piece step places first last top bottom)
    (run : Runs (step.inside (Config.between top bottom)) n (.running top σ) ws (.running bottom τ))
    (exit : step (.running bottom τ) = some (ws', c)) :
    Visits (step.inside (Config.between first last)) (Config.place? places) (.running top σ) (ws ++ ws') [top] c := by
  have leave : Visits _ (Config.place? places) _ _ _ _ :=
    .single ((piece.step_whole piece.le (Nat.le_refl bottom)).trans exit)
  rcases piece.visits run with ⟨rfl, same⟩ | ⟨visit, within⟩
  · cases same
    rwa [piece.mark_top] at leave
  · obtain ⟨low, high⟩ := within bottom τ rfl
    rw [piece.mark_within low high] at leave
    exact visit.append leave

/-- A run of the whole code from behind the first place of the piece is one of the piece, which the step at its end may
follow. -/
theorem of_visits_within (piece : Piece step places first last top bottom)
    (exit : ∀ σ, step (.running bottom σ) = some ([], .running last σ)) (within : a.Within top bottom)
    (run : Visits (step.inside (Config.between first last)) (Config.place? places) a ws xs c) :
    xs = [] ∧ ∃ b, Reaches (step.inside (Config.between top bottom)) a ws b ∧
      (c = b ∨ step.inside (Config.between top bottom) b = none ∧ c = b.leave last) := by
  induction run with
  | zero a => exact ⟨rfl, a, ⟨0, .zero a⟩, .inl rfl⟩
  | @succ a b c l ls xs step₁ rest ih =>
    obtain ⟨between, step₁⟩ := Machine.inside_eq_some step₁
    cases a with
    | running i σ =>
      obtain ⟨low, high⟩ := within i σ rfl
      rw [piece.mark_within low high]
      rcases Nat.lt_or_eq_of_le high with high | rfl
      · obtain ⟨ws', c', step₂, within'⟩ := piece.confined i σ (Nat.le_of_lt low) high
        rw [step₁] at step₂
        cases step₂
        obtain ⟨rfl, d, run, ends⟩ := ih within'
        have here : step.inside (Config.between top bottom) (.running i σ) = some (l, b) :=
          (Machine.inside_of (Config.between_running (Nat.le_of_lt low) high)).trans step₁
        exact ⟨rfl, d, Reaches.trans ⟨1, .single here⟩ run, ends⟩
      · rw [exit] at step₁
        cases step₁
        -- The run has left the whole code.
        have stop (σ : Store p) : step.inside (Config.between first last) (.running last σ) = none :=
          Machine.outside (by simp [Config.between])
        cases rest with
        | zero =>
          exact ⟨rfl, .running i σ, ⟨0, .zero _⟩, .inr ⟨Machine.outside (by simp [Config.between]), rfl⟩⟩
        | succ step₂ =>
          rw [stop] at step₂
          cases step₂
    | aborted | trapped => cases between

end Piece

/-- The runs of a whole code from where a body in it begins. They are runs of the body, whose end leads behind the code;
what the body runs, the whole code runs too. -/
structure RunsBody (whole body : Machine (Config p) (Element p × Scalar)) (places : List Nat) (top behind : Nat)
    (σ : Store p) : Prop where
  inside : ∀ ws xs c, Visits whole (Config.place? places) (.running top σ) ws xs c → (xs = [] ∨ xs = [top]) ∧
    ∃ b, Reaches body (.running top σ) ws b ∧ (c = b ∨ body b = none ∧ c = b.leave behind)
  runs : ∀ ws b, Reaches body (.running top σ) ws b → Reaches whole (.running top σ) ws b
  left : ∀ ws b, Reaches body (.running top σ) ws b → body b = none →
    Visits whole (Config.place? places) (.running top σ) ws [top] (b.leave behind) ∧ whole (b.leave behind) = none

/-- Where a run of a piece cannot go on, it is at the end of the piece, or it has ended. -/
theorem Confined.eq_of_stopped {step : Machine (Config p) (Element p × Scalar)} {top bottom i : Nat} {σ : Store p}
    (confined : Confined step top bottom) (low : top ≤ i) (high : i ≤ bottom)
    (stopped : step.inside (Config.between top bottom) (.running i σ) = none) : i = bottom := by
  rcases Nat.lt_or_eq_of_le high with high | rfl
  · obtain ⟨ws, c, first, -⟩ := confined i σ low high
    rw [Machine.inside_of (Config.between_running low high), first] at stopped
    cases stopped
  · rfl

theorem Piece.runsBody {step : Machine (Config p) (Element p × Scalar)} {places : List Nat}
    {first last top bottom : Nat} (piece : Piece step places first last top bottom)
    (exit : ∀ σ, step (.running bottom σ) = some ([], .running last σ)) (σ : Store p) :
    RunsBody (step.inside (Config.between first last)) (step.inside (Config.between top bottom)) places top last σ := by
  have stop (σ : Store p) : step.inside (Config.between first last) (.running last σ) = none :=
    Machine.outside (by simp [Config.between])
  constructor
  case inside =>
    intro ws xs c run
    cases run with
    | zero => exact ⟨.inl rfl, _, ⟨0, .zero _⟩, .inl rfl⟩
    | @succ _ b _ l ls ys step₁ rest =>
      rw [piece.mark_top]
      have step₁ := (Machine.inside_eq_some step₁).2
      rcases Nat.lt_or_eq_of_le piece.le with high | rfl
      · obtain ⟨ws', c', step₂, within⟩ := piece.confined top σ (Nat.le_refl top) high
        rw [step₁] at step₂
        cases step₂
        obtain ⟨rfl, d, run, ends⟩ := piece.of_visits_within exit within rest
        have here : step.inside (Config.between top bottom) (.running top σ) = some (l, b) :=
          (Machine.inside_of (Config.between_running (Nat.le_refl top) high)).trans step₁
        exact ⟨.inr rfl, d, Reaches.trans ⟨1, .single here⟩ run, ends⟩
      · rw [exit] at step₁
        cases step₁
        cases rest with
        | zero => exact ⟨.inr rfl, _, ⟨0, .zero _⟩, .inr ⟨Machine.outside (by simp [Config.between]), rfl⟩⟩
        | succ step₂ =>
          rw [stop] at step₂
          cases step₂
  case runs =>
    rintro ws b ⟨n, run⟩
    refine ⟨n, run.widen fun c within => ?_⟩
    have low := piece.low
    have high := piece.high
    cases c with
    | running i σ =>
      simp only [Config.between, Bool.and_eq_true, decide_eq_true_eq] at within ⊢
      omega
    | aborted | trapped => cases within
  case left =>
    rintro ws b ⟨n, run⟩ stopped
    rcases piece.visits run with ⟨rfl, rfl⟩ | ⟨visit, within⟩
    · obtain rfl := piece.confined.eq_of_stopped (Nat.le_refl top) piece.le stopped
      exact ⟨piece.visits_through (.zero _) (exit σ), stop σ⟩
    · cases b with
      | running i τ =>
        obtain ⟨low, high⟩ := within i τ rfl
        obtain rfl := piece.confined.eq_of_stopped (Nat.le_of_lt low) high stopped
        have through := piece.visits_through run (exit τ)
        rw [List.append_nil] at through
        exact ⟨through, stop τ⟩
      | aborted | trapped => exact ⟨visit, Machine.outside rfl⟩

end Machine

/-! ## The code of a clause -/

section Lowering

variable {ctx : LowerContext} {scope : ScopeId → Lower Unit} {done : LabelId} {c : Staged.Clause}
  {cs : List Staged.Clause} {owed : List LabelId} {s s' t u : LowerState} {p : Program} {m : Meaning}

/-- The code between two states keeps to itself. -/
theorem LowerState.Segment.confined {A : SlotId → Prop} (seg : Segment A s s') (sound : s.Sound ctx.source owed)
    (sound' : s'.Sound ctx.source owed) (cont : p.Continues s') (ops : Operators) :
    Confined (p.step? s.stream ops) s.code.size s'.code.size := by
  intro i σ low high
  obtain ⟨ws, c, step, within, -⟩ := seg.advance sound sound' cont low high ops σ
  exact ⟨ws, c, step, within⟩

/-- Flattening has gone on from one state to another. -/
structure LowerState.Onward (s s' : LowerState) : Prop where
  follows : s.Follows s'
  grows : s.Grows s'

theorem LowerState.Onward.refl (s : LowerState) : s.Onward s := ⟨.refl s, .refl s⟩

theorem LowerState.Onward.trans (h : s.Onward t) (h' : t.Onward u) : s.Onward u :=
  ⟨h.follows.trans h'.follows, h.grows.trans h'.grows⟩

/-- A jump goes on behind its label. -/
theorem step?_goto {st : Stream} {ops : Operators} {i n : Nat} {σ : Store p} {instr : Instr} {l : LabelId}
    (found : (p.stream st)[i]? = some instr) (outcome : instr.outcome? ops σ = some (.goto l))
    (index : p.labelIndex? st l = some n) : p.step? st ops (.running i σ) = some ([], .running (n + 1) σ) := by
  rw [step?_running found, outcome, Option.bind_some, Outcome.after?, index]
  rfl

namespace ClauseParts

variable {parts : ClauseParts ctx scope done c s s'} {places : List Nat} {first last : Nat} {σ : Store p}

/-- Where the instructions of a clause stand. -/
structure Placed (parts : ClauseParts ctx scope done c s s') : Prop where
  top : parts.top.code.size = parts.s₁.code.size + 2
  behind : s'.code.size = parts.bottom.code.size + 2
  branch : s'.code[parts.s₁.code.size]? = some (.branch parts.o parts.body parts.next)
  body : s'.code[parts.s₁.code.size + 1]? = some (.label parts.body)
  jump : s'.code[parts.bottom.code.size]? = some (.jump done)
  next : s'.code[parts.bottom.code.size + 1]? = some (.label parts.next)

theorem placed (parts : ClauseParts ctx scope done c s s') (inner : parts.top.Follows parts.bottom) : parts.Placed := by
  have quiet := (label_ok parts.makeBody).2.2.trans (label_ok parts.makeNext).2.2
  have top := (emit_ok parts.begin).2.1
  rw [(emit_ok parts.branch).2.1, quiet.code] at top
  have behind := (emit_ok parts.leave).2.1
  rw [(emit_ok parts.jump).2.1] at behind
  have early {n : Nat} {i : Instr} (found : parts.top.code[n]? = some i) : s'.code[n]? = some i :=
    (inner.trans parts.follows_bottom).code n i found
  obtain ⟨size, branch, body⟩ := two_pushed top
  obtain ⟨size', jump, next⟩ := two_pushed behind
  exact ⟨size, size', early branch, early body, jump, next⟩

/-- What is known of the states of flattening a clause. -/
structure Sound (parts : ClauseParts ctx scope done c s s') (owed : List LabelId) : Prop where
  before : s.Sound ctx.source owed
  tested : parts.s₁.Sound ctx.source owed
  test : Segment (fun _ => False) s parts.s₁
  top : parts.top.Sound ctx.source (parts.next :: owed)
  bottom : parts.bottom.Sound ctx.source (parts.next :: owed)
  inner : Segment (ctx.source.Assigns c.body) parts.top parts.bottom
  behind : s'.Sound ctx.source owed
  opens : s.Onward parts.top
  runs : parts.top.Onward parts.bottom
  closes : parts.bottom.Onward s'

theorem sound_of_held (parts : ClauseParts ctx scope done c s s') (held : Held ctx.source)
    (wf : c.condition.WellFormed ctx.source.vars) (bool : c.condition.ty = .bool)
    (fit : c.condition.LiteralsFit) (lowers : LowersScopes ctx scope [c.body])
    (keeps : KeepsTo ctx (ctx.source.Assigns c.body) (scope c.body)) (hdone : done ∈ owed) (apart : s.Apart)
    (sound : s.Sound ctx.source owed) : parts.Sound owed := by
  obtain ⟨sound₁, grows₁, whole⟩ := (lowers_expr held c.condition wf fit).of_ok sound parts.test
  rw [bool] at whole
  obtain ⟨sound₂, grows₂, hbody, madeBody⟩ := lowers_label.of_ok sound₁ parts.makeBody
  obtain ⟨sound₃, grows₃, hnext, madeNext⟩ := lowers_label.of_ok sound₂ parts.makeNext
  rw [← hbody] at sound₂ sound₃
  rw [← hnext] at sound₃
  have element : parts.o.IsElement parts.s₁.out.vars parts.s₁.stream .bool := whole
  have branch : Lowers ctx (parts.next :: parts.body :: owed) (parts.next :: parts.body :: owed) .none
      (Lower.emit (.branch parts.o parts.body parts.next)) parts.s₃ fun _ _ => True :=
    lowers_emit_control ⟨(grows₂.trans grows₃).isWhole element, Nat.lt_of_lt_of_le (hbody ▸ madeBody) grows₃.labels,
      hnext ▸ madeNext⟩ rfl (.refl _)
  obtain ⟨sound₄, grows₄, -⟩ := branch.of_ok sound₃ parts.branch
  have begin : Lowers ctx (parts.next :: parts.body :: owed) (parts.next :: owed) .none
      (Lower.emit (.label parts.body)) parts.s₄ fun _ _ => True := lowers_emit_control trivial rfl (.swap _ _ _)
  obtain ⟨top, grows₅, -⟩ := begin.of_ok sound₄ parts.begin
  obtain ⟨bottom, grows, -⟩ := (lowers c.body List.mem_cons_self _ parts.top).of_ok top parts.inner
  have target : done < parts.bottom.labels :=
    (bottom.placed done).1 (List.mem_append_right _ (List.mem_cons_of_mem _ hdone))
  have jump : Lowers ctx (parts.next :: owed) (parts.next :: owed) .none (Lower.emit (.jump done)) parts.bottom
      fun _ _ => True := lowers_emit_control target rfl (.refl _)
  obtain ⟨sound₅, grows₆, -⟩ := jump.of_ok bottom parts.jump
  have leave : Lowers ctx (parts.next :: owed) owed .none (Lower.emit (.label parts.next)) parts.s₅
      fun _ _ => True := lowers_emit_control trivial rfl (.refl _)
  obtain ⟨behind, grows₇, -⟩ := leave.of_ok sound₅ parts.leave
  have opens := parts.follows_test.trans parts.follows_top
  have inner := keeps parts.top () parts.bottom (opens.apart apart) top.size parts.inner
  exact ⟨sound, sound₁, keepsTo_expr c.condition _ _ _ apart sound.size parts.test, top, bottom, inner, behind,
    ⟨opens, (((grows₁.trans grows₂).trans grows₃).trans grows₄).trans grows₅⟩, ⟨inner.follows, grows⟩,
    ⟨parts.follows_bottom, grows₆.trans grows₇⟩⟩

theorem Sound.onward (sound : parts.Sound owed) : s.Onward s' := (sound.opens.trans sound.runs).trans sound.closes

/-- How the places of a clause are ordered. -/
theorem Sound.ordered (sound : parts.Sound owed) : s.code.size ≤ parts.s₁.code.size ∧
    parts.top.code.size = parts.s₁.code.size + 2 ∧ parts.top.code.size ≤ parts.bottom.code.size ∧
      s'.code.size = parts.bottom.code.size + 2 := by
  have placed := parts.placed sound.inner.follows
  exact ⟨parts.follows_test.code.size_le, placed.top, sound.inner.follows.code.size_le, placed.behind⟩

/-- The branch of a clause leads to its body if the condition is true, and behind the clause if not. -/
theorem Sound.branch_step (sound : parts.Sound owed) (cont : p.Continues s') (ops : Operators) {x : Scalar}
    (read : parts.o.read? σ = some x) :
    p.step? s.stream ops (.running parts.s₁.code.size σ) =
      some ([], .running (if x.isTrue then parts.top.code.size else s'.code.size) σ) := by
  have placed := parts.placed sound.inner.follows
  have body := cont.index sound.onward.follows sound.behind placed.body
  have next := cont.index sound.onward.follows sound.behind placed.next
  have outcome : (Instr.branch parts.o parts.body parts.next).outcome? ops σ =
      some (.goto (if x.isTrue then parts.body else parts.next)) := by
    simp only [Instr.outcome?, read]
    rfl
  by_cases h : x.isTrue = true
  · rw [if_pos h, placed.top]
    rw [if_pos h] at outcome
    exact step?_goto (cont.instr sound.onward.follows placed.branch) outcome body
  · rw [if_neg h, placed.behind]
    rw [if_neg h] at outcome
    exact step?_goto (cont.instr sound.onward.follows placed.branch) outcome next

/-- The condition is a piece of code, and so is the body. -/
theorem Sound.pieces (sound : parts.Sound owed) (cont : p.Continues s') (ops : Operators)
    (low : first ≤ s.code.size) (high : s'.code.size ≤ last)
    (marks : ∀ n, s.code.size ≤ n → n < s'.code.size →
      (n ∈ places ↔ n = s.code.size ∨ n = parts.top.code.size)) :
    Piece (p.step? s.stream ops) places first last s.code.size parts.s₁.code.size ∧
      Piece (p.step? s.stream ops) places first last parts.top.code.size parts.bottom.code.size := by
  obtain ⟨test, top, body, behind⟩ := sound.ordered
  have follows := sound.inner.follows.trans parts.follows_bottom
  have stream : parts.top.stream = s.stream := (parts.follows_test.trans parts.follows_top).stream
  refine ⟨⟨low, test, by omega, ?_, (marks _ (Nat.le_refl _) (by omega)).2 (.inl rfl), fun n mem less => ?_⟩,
    ⟨by omega, body, by omega, ?_, (marks _ (by omega) (by omega)).2 (.inr rfl), fun n mem less => ?_⟩⟩
  · exact sound.test.confined sound.before sound.tested (cont.before (parts.follows_top.trans follows)) ops
  · rcases Nat.lt_or_ge n s'.code.size with inside | behind'
    · have := (marks n (Nat.le_of_lt less) inside).1 mem
      omega
    · omega
  · exact stream ▸ sound.inner.confined sound.top sound.bottom (cont.before parts.follows_bottom) ops
  · rcases Nat.lt_or_ge n s'.code.size with inside | behind'
    · have := (marks n (by omega) inside).1 mem
      omega
    · omega

/-- The condition is computed, and leads to the body or behind the clause. -/
theorem Sound.visits_test (sound : parts.Sound owed) (held : Held ctx.source)
    (wf : c.condition.WellFormed ctx.source.vars) (bool : c.condition.ty = .bool) (fit : c.condition.LiteralsFit)
    (later : s'.Follows u) (cont : p.Continues u)
    (piece : Piece (p.step? s.stream m.operators) places first last s.code.size parts.s₁.code.size)
    (indexed : c.condition.Indexed m (u.contents σ)) :
    ∃ ws τ, (∀ w ∈ ws, s.Temporary u w.1.var) ∧ u.contents τ = u.contents σ ∧
      Visits ((p.step? s.stream m.operators).inside (Config.between first last)) (Config.place? places)
        (.running s.code.size σ) ws [s.code.size]
        (.running (if c.holds m (u.contents σ) then parts.top.code.size else s'.code.size) τ) := by
  have follows := (parts.follows_top.trans (sound.inner.follows.trans parts.follows_bottom)).trans later
  obtain ⟨τ, passes, denotes⟩ :=
    (correct_expr held c.condition _ _ _ _ wf fit sound.before parts.test).value u σ follows cont indexed
  obtain ⟨ws, ⟨n, run⟩, temporary⟩ := id passes
  rw [bool] at denotes
  have read : parts.o.read? τ = some (c.condition.value m (u.contents σ) []) := denotes [] trivial
  have visit := piece.visits_through run (sound.branch_step (cont.before later) m.operators read)
  rw [List.append_nil] at visit
  exact ⟨ws, τ, fun w hw => (temporary w hw).after follows, passes.contents follows, visit⟩

end ClauseParts

/-- The code of a scope stands between two states of flattening. -/
structure BodyCode where
  (top bottom : LowerState)

/-- The code of a clause begins with its condition, and holds its body. -/
structure ClauseCode where
  test : LowerState
  body : BodyCode

/-- The places where the condition and the body of a clause begin. -/
def ClauseCode.places (k : ClauseCode) : List Nat := [k.test.code.size, k.body.top.code.size]

/-- Clauses have been flattened to code. -/
inductive FlatClauses (ctx : LowerContext) (scope : ScopeId → Lower Unit) (done : LabelId) (owed : List LabelId) :
    LowerState → List Staged.Clause → List ClauseCode → LowerState → Prop where
  | nil (s : LowerState) : FlatClauses ctx scope done owed s [] [] s
  | cons {c : Staged.Clause} {cs : List Staged.Clause} {ks : List ClauseCode} {s t s' : LowerState}
      (parts : ClauseParts ctx scope done c s t) (sound : parts.Sound owed)
      (rest : FlatClauses ctx scope done owed t cs ks s') :
      FlatClauses ctx scope done owed s (c :: cs) (⟨s, ⟨parts.top, parts.bottom⟩⟩ :: ks) s'

theorem exists_flatClauses (held : Held ctx.source)
    (wf : ∀ c ∈ cs, c.condition.WellFormed ctx.source.vars ∧ c.condition.ty = .bool)
    (fit : Staged.Expr.AllFit (cs.map (·.condition))) (lowers : LowersScopes ctx scope (cs.map (·.body)))
    (keeps : ∀ j, KeepsTo ctx (ctx.source.Assigns j) (scope j)) (hdone : done ∈ owed) (apart : s.Apart)
    (sound : s.Sound ctx.source owed) (run : Lower.clauses scope done cs ctx s = .ok ((), s')) :
    ∃ ks, FlatClauses ctx scope done owed s cs ks s' := by
  induction cs generalizing s with
  | nil =>
    rw [Lower.clauses] at run
    obtain ⟨-, rfl⟩ := pure_ok.1 run
    exact ⟨[], .nil s⟩
  | cons c cs ih =>
    obtain ⟨t, ⟨parts⟩, run⟩ := clause_parts run
    obtain ⟨wc, bool⟩ := wf c List.mem_cons_self
    have known : parts.Sound owed := parts.sound_of_held held wc bool fit.1
      (fun j hj => lowers j (List.mem_singleton.1 hj ▸ List.mem_cons_self)) (keeps c.body) hdone apart sound
    obtain ⟨ks, rest⟩ := ih (fun d hd => wf d (List.mem_cons_of_mem _ hd)) fit.2
      (fun j hj => lowers j (List.mem_cons_of_mem _ hj)) (known.onward.follows.apart apart) known.behind run
    exact ⟨_, .cons parts known rest⟩

namespace FlatClauses

variable {ks : List ClauseCode} {places : List Nat} {first last : Nat} {σ : Store p}

theorem onward (flat : FlatClauses ctx scope done owed s cs ks s') : s.Onward s' := by
  induction flat with
  | nil s => exact .refl s
  | cons parts sound _ ih => exact sound.onward.trans ih

theorem follows (flat : FlatClauses ctx scope done owed s cs ks s') : s.Follows s' := flat.onward.follows

theorem sound_behind (flat : FlatClauses ctx scope done owed s cs ks s') (sound : s.Sound ctx.source owed) :
    s'.Sound ctx.source owed := by
  induction flat with
  | nil s => exact sound
  | cons parts known _ ih => exact ih known.behind

theorem places_cons (k : ClauseCode) (ks : List ClauseCode) :
    (k :: ks).flatMap ClauseCode.places = k.test.code.size :: k.body.top.code.size :: ks.flatMap ClauseCode.places := rfl

/-- The places of clauses stand in their code. -/
theorem bounds (flat : FlatClauses ctx scope done owed s cs ks s') :
    ∀ n ∈ ks.flatMap ClauseCode.places, s.code.size ≤ n ∧ n < s'.code.size := by
  induction flat with
  | nil => exact fun n mem => (List.not_mem_nil mem).elim
  | cons parts sound rest ih =>
    obtain ⟨test, top, body, behind⟩ := sound.ordered
    have size := rest.follows.code.size_le
    intro n mem
    rw [places_cons, List.mem_cons, List.mem_cons] at mem
    rcases mem with rfl | rfl | mem
    · dsimp only
      omega
    · dsimp only
      omega
    · have := ih n mem
      omega

/-- The places of clauses are in the order of the clauses. -/
theorem sorted (flat : FlatClauses ctx scope done owed s cs ks s') :
    (ks.flatMap ClauseCode.places).Pairwise (· < ·) := by
  induction flat with
  | nil => exact .nil
  | cons parts sound rest ih =>
    obtain ⟨test, top, body, behind⟩ := sound.ordered
    rw [places_cons, List.pairwise_cons, List.pairwise_cons]
    refine ⟨fun n mem => ?_, fun n mem => ?_, ih⟩
    · rcases List.mem_cons.1 mem with rfl | mem
      · dsimp only
        omega
      · have := (rest.bounds n mem).1
        dsimp only
        omega
    · have := (rest.bounds n mem).1
      dsimp only
      omega

/-- Between the ends of some clauses, the marked places are those of the clauses. -/
def Marks (places : List Nat) (s s' : LowerState) (ks : List ClauseCode) : Prop :=
  ∀ n, s.code.size ≤ n → n < s'.code.size → (n ∈ places ↔ n ∈ ks.flatMap ClauseCode.places)

/-- The marked places of the first clause, and those of the others. -/
theorem Marks.uncons {parts : ClauseParts ctx scope done c s t} (known : parts.Sound owed)
    (rest : FlatClauses ctx scope done owed t cs ks s')
    (marks : Marks places s s' (⟨s, ⟨parts.top, parts.bottom⟩⟩ :: ks)) :
    (∀ n, s.code.size ≤ n → n < t.code.size → (n ∈ places ↔ n = s.code.size ∨ n = parts.top.code.size)) ∧
      Marks places t s' ks := by
  obtain ⟨test, top, body, behind⟩ := known.ordered
  have size := rest.follows.code.size_le
  refine ⟨fun n low high => ?_, fun n low high => ?_⟩
  · rw [marks n low (by omega), places_cons, List.mem_cons, List.mem_cons]
    refine or_congr_right (or_iff_left fun mem => ?_)
    have := (rest.bounds n mem).1
    omega
  · rw [marks n (by omega) high, places_cons, List.mem_cons, List.mem_cons]
    dsimp only
    refine ⟨fun mem => ?_, fun mem => .inr (.inr mem)⟩
    rcases mem with same | same | mem
    · omega
    · omega
    · exact mem

/-- The conditions of clauses are computed in turn up to the first that is true, and lead to the body of its clause, or
behind all clauses. -/
theorem visits (flat : FlatClauses ctx scope done owed s cs ks s') (held : Held ctx.source)
    (wf : ∀ c ∈ cs, c.condition.WellFormed ctx.source.vars ∧ c.condition.ty = .bool)
    (fit : Staged.Expr.AllFit (cs.map (·.condition))) (later : s'.Follows u) (cont : p.Continues u)
    (low : first ≤ s.code.size) (high : s'.code.size ≤ last) (marks : Marks places s s' ks)
    (indexed : ∀ c ∈ cs.take (cs.findIdx (·.holds m (u.contents σ)) + 1), c.condition.Indexed m (u.contents σ)) :
    ∃ ws τ, (∀ w ∈ ws, s.Temporary u w.1.var) ∧ u.contents τ = u.contents σ ∧
      Visits ((p.step? s.stream m.operators).inside (Config.between first last)) (Config.place? places)
        (.running s.code.size σ) ws
        ((ks.take (cs.findIdx (·.holds m (u.contents σ)) + 1)).map (·.test.code.size))
        (.running ((ks[cs.findIdx (·.holds m (u.contents σ))]?.map (·.body.top)).getD s').code.size τ) := by
  induction flat generalizing σ with
  | nil => exact ⟨[], σ, fun w hw => (List.not_mem_nil hw).elim, rfl, .zero _⟩
  | @cons c cs ks s t s' parts known rest ih =>
    obtain ⟨marks, marks'⟩ := marks.uncons known rest
    obtain ⟨wc, bool⟩ := wf c List.mem_cons_self
    have size := rest.follows.code.size_le
    obtain ⟨piece, -⟩ := known.pieces (cont.before (rest.follows.trans later)) m.operators low
      (Nat.le_trans size high) marks
    have here : c.condition.Indexed m (u.contents σ) := indexed c (by simp)
    obtain ⟨ws, τ, temporary, contents, visit⟩ :=
      known.visits_test held wc bool fit.1 (rest.follows.trans later) cont piece here
    by_cases holds : c.holds m (u.contents σ) = true
    · have first : (c :: cs).findIdx (·.holds m (u.contents σ)) = 0 := by
        rw [List.findIdx_cons, holds]
        rfl
      rw [if_pos holds] at visit
      rw [first]
      exact ⟨ws, τ, temporary, contents, visit⟩
    · have next : (c :: cs).findIdx (·.holds m (u.contents σ)) = cs.findIdx (·.holds m (u.contents σ)) + 1 := by
        rw [List.findIdx_cons, Bool.eq_false_iff.2 holds]
        rfl
      rw [if_neg holds] at visit
      rw [next] at indexed ⊢
      have below := known.onward.follows.code.size_le
      obtain ⟨ws', τ', temporary', contents', visit'⟩ := ih (σ := τ) (fun d hd => wf d (List.mem_cons_of_mem _ hd)) fit.2
        later (Nat.le_trans low below) high marks' fun d hd => by
          rw [contents] at hd ⊢
          exact indexed d (List.mem_cons_of_mem _ hd)
      rw [contents] at contents' visit'
      rw [known.onward.follows.stream] at visit'
      refine ⟨ws ++ ws', τ', fun w hw => ?_, contents', visit.append visit'⟩
      exact (List.mem_append.1 hw).elim (temporary w) fun hw => (temporary' w hw).before known.onward.follows

end FlatClauses

/-! ## The code of a branch -/

/-- The code of a branch: that of its clauses in turn, and then that of its last body. -/
structure BranchCode where
  clauses : List ClauseCode
  otherwise : Option BodyCode

namespace BranchCode

/-- The places where the conditions and the bodies of a branch begin. -/
def places (k : BranchCode) : List Nat :=
  k.clauses.flatMap ClauseCode.places ++ k.otherwise.toList.map (·.top.code.size)

/-- Where the conditions begin, up to a given number. -/
def tests (k : BranchCode) (i : Nat) : List Nat := (k.clauses.take (i + 1)).map (·.test.code.size)

/-- The body of the clause with a given number. Behind the clauses stands the last body. -/
def body? (k : BranchCode) (i : Nat) : Option BodyCode := (k.clauses[i]?.map (·.body)).or k.otherwise

end BranchCode

/-- The code of a scope has been flattened between two states, which stand between two others. -/
structure BodyCode.Flattens (ctx : LowerContext) (scope : ScopeId → Lower Unit) (s s' : LowerState) (j : ScopeId)
    (k : BodyCode) : Prop where
  run : scope j ctx k.top = .ok ((), k.bottom)
  sound : ∃ owed, k.top.Sound ctx.source owed
  before : s.Onward k.top
  behind : k.bottom.Onward s'

/-- A clause has been flattened between two states. -/
structure ClauseCode.Flattens (ctx : LowerContext) (scope : ScopeId → Lower Unit) (s s' : LowerState)
    (c : Staged.Clause) (k : ClauseCode) : Prop where
  condition : ∃ o t, Lower.expr c.condition ctx k.test = .ok (o, t) ∧ t.Follows k.body.top
  body : k.body.Flattens ctx scope s s' c.body

/-- A branch has been flattened between two states. -/
structure BranchCode.Flattens (ctx : LowerContext) (scope : ScopeId → Lower Unit) (cs : List Staged.Clause)
    (otherwise : Option ScopeId) (s s' : LowerState) (k : BranchCode) : Prop where
  clauses : List.Forall₂ (ClauseCode.Flattens ctx scope s s') cs k.clauses
  otherwise : Option.Rel (BodyCode.Flattens ctx scope s s') otherwise k.otherwise
  sorted : k.places.Pairwise (· < ·)

/-- The runs of the code of a branch when the condition with a given number is the first that is true. The conditions
are computed up to this one, which changes only temporaries; then the run is one of the body of the clause, or of the
last body, and goes on behind the branch where the body ends. -/
structure RunsBranch (p : Program) (ops : Operators) (s s' : LowerState) (k : BranchCode) (i : Nat) (ws : Writes p)
    (σ τ : Store p) : Prop where
  computed : Visits (p.between? ops s s') (Config.place? k.places) (.running s.code.size σ) ws (k.tests i)
    (.running (((k.body? i).map (·.top)).getD s').code.size τ)
  temporary : ∀ w ∈ ws, s.Temporary s' w.1.var
  contents : s'.contents τ = s'.contents σ
  body : ∀ b, k.body? i = some b →
    RunsBody (p.between? ops s s') (p.between? ops b.top b.bottom) k.places b.top.code.size s'.code.size τ

namespace FlatClauses

variable {ks : List ClauseCode} {places : List Nat} {first n : Nat}

theorem flattens (flat : FlatClauses ctx scope done owed s cs ks s') (before : t.Onward s) (later : s'.Onward u) :
    List.Forall₂ (ClauseCode.Flattens ctx scope t u) cs ks := by
  induction flat with
  | nil => exact .nil
  | cons parts known rest ih =>
    exact .cons ⟨⟨_, _, parts.test, parts.follows_top⟩, parts.inner, ⟨_, known.top⟩, before.trans known.opens,
      known.closes.trans (rest.onward.trans later)⟩ (ih (before.trans known.onward) later)

/-- The end of every body leads to the label behind the branch. -/
theorem runsBody (flat : FlatClauses ctx scope done owed s cs ks s') (later : s'.Follows u) (cont : p.Continues u)
    (low : first ≤ s.code.size) (high : s'.code.size ≤ n) (marks : Marks places s s' ks) (ops : Operators)
    (index : p.labelIndex? s.stream done = some n) : ∀ k ∈ ks, ∀ σ,
      RunsBody ((p.step? s.stream ops).inside (Config.between first (n + 1)))
        (p.between? ops k.body.top k.body.bottom) places k.body.top.code.size (n + 1) σ := by
  induction flat with
  | nil => exact fun k mem => (List.not_mem_nil mem).elim
  | @cons c cs ks s t s' parts known rest ih =>
    obtain ⟨marks, marks'⟩ := marks.uncons known rest
    have cont' := cont.before (rest.follows.trans later)
    have size := rest.follows.code.size_le
    intro k mem σ
    rcases List.mem_cons.1 mem with rfl | mem
    · obtain ⟨-, piece⟩ := known.pieces cont' ops low (Nat.le_succ_of_le (Nat.le_trans size high)) marks
      have stream : parts.top.stream = s.stream := (parts.follows_test.trans parts.follows_top).stream
      rw [Program.between?, stream]
      refine piece.runsBody (fun σ => ?_) σ
      exact step?_goto (cont'.instr known.onward.follows (parts.placed known.inner.follows).jump) rfl index
    · have below := known.onward.follows.code.size_le
      have stream := known.onward.follows.stream
      rw [← stream]
      exact ih later (Nat.le_trans low below) high marks' (stream ▸ index) k mem σ

end FlatClauses

namespace BranchParts

variable {otherwise : Option ScopeId}

/-- What is known of the states of flattening a branch, and of the code of its clauses. -/
structure Sound (parts : BranchParts ctx scope cs otherwise s s') (owed : List LabelId) (ks : List ClauseCode) :
    Prop where
  flat : FlatClauses ctx scope parts.done (parts.done :: owed) parts.s₁ cs ks parts.s₂
  quiet : s.Quiet parts.s₁
  made : s.Grows parts.s₁
  clauses : parts.s₂.Sound ctx.source (parts.done :: owed)
  last : parts.s₃.Sound ctx.source (parts.done :: owed)
  inner : Segment (fun _ => True) parts.s₂ parts.s₃
  behind : s'.Sound ctx.source owed
  runs : parts.s₂.Onward parts.s₃
  closes : parts.s₃.Onward s'

variable (parts : BranchParts ctx scope cs otherwise s s')

theorem exists_sound (held : Held ctx.source)
    (wf : ∀ c ∈ cs, c.condition.WellFormed ctx.source.vars ∧ c.condition.ty = .bool)
    (fit : Staged.Expr.AllFit (cs.map (·.condition)))
    (lowers : LowersScopes ctx scope (cs.map (·.body) ++ otherwise.toList))
    (keeps : ∀ j, KeepsTo ctx (ctx.source.Assigns j) (scope j)) (apart : s.Apart)
    (sound : s.Sound ctx.source owed) : ∃ ks, parts.Sound owed ks := by
  obtain ⟨sound₁, grows₁, hdone, -⟩ := lowers_label.of_ok sound parts.makeDone
  obtain ⟨-, -, quiet⟩ := label_ok parts.makeDone
  rw [← hdone] at sound₁
  obtain ⟨ks, flat⟩ := exists_flatClauses held wf fit (fun j hj => lowers j (List.mem_append_left _ hj)) keeps
    List.mem_cons_self (quiet.follows.apart apart) sound₁ parts.clauses
  have sound₂ := flat.sound_behind sound₁
  have apart₂ := (quiet.follows.trans flat.follows).apart apart
  obtain ⟨sound₃, inner, grows₃⟩ : parts.s₃.Sound ctx.source (parts.done :: owed) ∧
      Segment (fun _ => True) parts.s₂ parts.s₃ ∧ parts.s₂.Grows parts.s₃ := by
    rcases parts.last with ⟨j, rfl, inner⟩ | ⟨-, same⟩
    · obtain ⟨sound₃, grows, -⟩ :=
        (lowers j (List.mem_append_right _ List.mem_cons_self) _ parts.s₂).of_ok sound₂ inner
      exact ⟨sound₃, (keeps j _ () _ apart₂ sound₂.size inner).mono fun _ _ => trivial, grows⟩
    · rw [same]
      exact ⟨sound₂, .refl _, .refl _⟩
  have behind : Lowers ctx (parts.done :: owed) owed .none (Lower.emit (.label parts.done)) parts.s₃
      fun _ _ => True := lowers_emit_control trivial rfl (.refl _)
  obtain ⟨sound', grows', -⟩ := behind.of_ok sound₃ parts.behind
  exact ⟨ks, flat, quiet, grows₁, sound₂, sound₃, inner, sound', ⟨inner.follows, grows₃⟩,
    ⟨adds_emit _ ctx _ _ _ parts.behind, grows'⟩⟩

/-- The code of the last body, if there is one. -/
def lastBody? (parts : BranchParts ctx scope cs otherwise s s') : Option BodyCode :=
  otherwise.map fun _ => ⟨parts.s₂, parts.s₃⟩

variable {parts} {ks : List ClauseCode}

namespace Sound

theorem opens (known : parts.Sound owed ks) : s.Onward parts.s₁ := ⟨known.quiet.follows, known.made⟩

theorem follows (known : parts.Sound owed ks) : parts.s₂.Follows s' := (known.runs.trans known.closes).follows

theorem before (known : parts.Sound owed ks) : s.Follows parts.s₂ := known.quiet.follows.trans known.flat.follows

theorem size (_ : parts.Sound owed ks) : s'.code.size = parts.s₃.code.size + 1 := by
  rw [(emit_ok parts.behind).2.1]
  exact Array.size_push _

/-- A place of the branch is one of its clauses, or that of the last body, which stands behind them. -/
theorem mem_places (known : parts.Sound owed ks) {n : Nat} :
    n ∈ (BranchCode.mk ks parts.lastBody?).places ↔
      (n ∈ ks.flatMap ClauseCode.places ∧ n < parts.s₂.code.size) ∨ otherwise.isSome ∧ n = parts.s₂.code.size := by
  rw [BranchCode.places, List.mem_append]
  refine or_congr ⟨fun mem => ⟨mem, (known.flat.bounds n mem).2⟩, And.left⟩ ?_
  cases otherwise <;> simp [lastBody?]

theorem marks (known : parts.Sound owed ks) :
    FlatClauses.Marks (BranchCode.mk ks parts.lastBody?).places parts.s₁ parts.s₂ ks := by
  intro n _ high
  rw [known.mem_places]
  refine ⟨fun mem => mem.elim And.left fun same => ?_, fun mem => .inl ⟨mem, high⟩⟩
  exact (Nat.lt_irrefl _ (same.2 ▸ high)).elim

theorem flattens (known : parts.Sound owed ks) :
    BranchCode.Flattens ctx scope cs otherwise s s' ⟨ks, parts.lastBody?⟩ := by
  refine ⟨known.flat.flattens known.opens (known.runs.trans known.closes), ?_, ?_⟩
  · rcases parts.last with ⟨j, rfl, inner⟩ | ⟨rfl, -⟩
    · exact .some ⟨inner, ⟨_, known.clauses⟩, known.opens.trans known.flat.onward, known.closes⟩
    · exact .none
  · refine List.pairwise_append.2 ⟨known.flat.sorted, ?_, fun n mem l mem' => ?_⟩
    · cases otherwise <;> simp [lastBody?]
    · have same : l = parts.s₂.code.size := by
        cases otherwise with
        | none => exact (List.not_mem_nil mem').elim
        | some j => exact List.mem_singleton.1 mem'
      exact same ▸ (known.flat.bounds n mem).2

section Runs

variable (known : parts.Sound owed ks) (cont : p.Continues s')

include known cont

/-- The label behind the branch is found at its end, and leads behind it. -/
theorem end_step (ops : Operators) : p.labelIndex? s.stream parts.done = some parts.s₃.code.size ∧
    ∀ σ, p.step? s.stream ops (.running parts.s₃.code.size σ) = some ([], .running s'.code.size σ) := by
  have follows := known.before.trans known.follows
  have placed : s'.code[parts.s₃.code.size]? = some (.label parts.done) := by
    rw [(emit_ok parts.behind).2.1]
    exact Array.getElem?_push_size
  refine ⟨cont.index follows known.behind placed, fun σ => ?_⟩
  rw [step?_running (cont.instr follows placed), known.size]
  rfl

theorem body (ops : Operators) {i : Nat} {b : BodyCode} (chosen : BranchCode.body? ⟨ks, parts.lastBody?⟩ i = some b)
    (σ : Store p) : RunsBody (p.between? ops s s') (p.between? ops b.top b.bottom)
      (BranchCode.mk ks parts.lastBody?).places b.top.code.size s'.code.size σ := by
  have low : s.code.size ≤ parts.s₁.code.size := known.quiet.follows.code.size_le
  have stream₂ := known.before.stream
  rw [Program.between?, known.size]
  rcases Option.or_eq_some_iff.1 chosen with found | ⟨-, found⟩
  · obtain ⟨k, mem, rfl⟩ := Option.map_eq_some_iff.1 found
    have bodies := known.flat.runsBody known.follows cont low known.inner.follows.code.size_le known.marks ops
    rw [known.quiet.follows.stream] at bodies
    exact bodies (known.end_step cont ops).1 k (List.mem_of_getElem? mem) σ
  · obtain ⟨j, some, rfl⟩ := Option.map_eq_some_iff.1 found
    have seg := known.inner.confined known.clauses known.last (cont.before known.closes.follows) ops
    rw [stream₂] at seg
    rw [Program.between?, stream₂]
    refine Piece.runsBody ⟨known.before.code.size_le, known.inner.follows.code.size_le, Nat.lt_succ_self _, seg, ?_,
      fun n mem less => ?_⟩ (fun σ => ?_) σ
    · exact known.mem_places.2 (.inr ⟨by rw [some]; rfl, rfl⟩)
    · rcases known.mem_places.1 mem with ⟨-, less'⟩ | ⟨-, same⟩
      · exact (Nat.lt_asymm less less').elim
      · exact (Nat.ne_of_gt less same).elim
    · rw [(known.end_step cont ops).2, known.size]

end Runs

/-- The code of a branch runs as its first true condition says. -/
theorem runsBranch (known : parts.Sound owed ks) (held : Held ctx.source)
    (wf : ∀ c ∈ cs, c.condition.WellFormed ctx.source.vars ∧ c.condition.ty = .bool)
    (fit : Staged.Expr.AllFit (cs.map (·.condition))) (cont : p.Continues s') {σ : Store p} {i : Nat}
    (first : i = cs.findIdx (·.holds m (s'.contents σ)))
    (indexed : ∀ c ∈ cs.take (i + 1), c.condition.Indexed m (s'.contents σ)) :
    ∃ ws τ, RunsBranch p m.operators s s' ⟨ks, parts.lastBody?⟩ i ws σ τ := by
  subst first
  have size := known.size
  have high := known.inner.follows.code.size_le
  obtain ⟨ws, τ, temporary, contents, visit⟩ := known.flat.visits held wf fit known.follows cont
    known.quiet.follows.code.size_le (Nat.le_trans (Nat.le_succ_of_le high) (Nat.le_of_eq size.symm)) known.marks indexed
  rw [known.quiet.follows.stream, known.quiet.code] at visit
  refine ⟨ws, τ, ⟨?_, fun w hw => (temporary w hw).before known.quiet.follows, contents,
    fun b chosen => known.body cont m.operators chosen τ⟩⟩
  generalize cs.findIdx _ = i at visit
  have test : (BranchCode.mk ks parts.lastBody?).tests i = (ks.take (i + 1)).map (·.test.code.size) := rfl
  rw [test, BranchCode.body?]
  cases found : ks[i]? with
  | some k =>
    rw [found] at visit
    exact visit
  | none =>
    rw [found] at visit
    rcases parts.last with ⟨j, rfl, -⟩ | ⟨rfl, same⟩
    · exact visit
    · -- Without a last body, the end of the branch stands behind its clauses.
      have exit : p.between? m.operators s s' (.running parts.s₂.code.size τ) = some ([], .running s'.code.size τ) := by
        rw [← same]
        refine (Machine.inside_of (Config.between_running ?_ (by omega))).trans ((known.end_step cont m.operators).2 τ)
        exact Nat.le_trans known.before.code.size_le high
      have leave : Visits _ (Config.place? (BranchCode.mk ks (parts.lastBody?)).places) _ _ _ _ := .single exit
      have unmarked : ((Config.running parts.s₂.code.size τ).place?
          (BranchCode.mk ks parts.lastBody?).places).toList = [] := by
        rw [Config.place?, if_neg fun mem => ?_]
        · rfl
        · exact (known.mem_places.1 mem).elim (fun h => Nat.lt_irrefl _ h.2) fun h => Bool.false_ne_true h.1
      rw [unmarked] at leave
      have whole := Visits.append visit leave
      rwa [List.append_nil, List.append_nil] at whole

end Sound

end BranchParts

/-! ## Assertions -/

namespace AssertionParts

variable {condition : Staged.Expr} {span : Span} (parts : AssertionParts ctx condition span s s')

include parts

/-- The states behind the condition. -/
theorem follows : parts.s₁.Follows s' := by
  have failing := (adds_emit _ ctx _ _ _ parts.branch).trans (adds_emit _ ctx _ _ _ parts.failing)
  have made := (adds_label ctx _ _ _ parts.makeAbort).trans (adds_label ctx _ _ _ parts.makeSkip)
  have passing := (adds_emit _ ctx _ _ _ parts.fail).trans (adds_emit _ ctx _ _ _ parts.passing)
  exact (made.trans failing).trans ((addError_quiet parts.entry).follows.trans passing)

/-- Where the instructions of an assertion stand. -/
theorem placed : s'.code.size = parts.s₁.code.size + 4 ∧
    s'.code[parts.s₁.code.size]? = some (.branch parts.o parts.skip parts.abort) ∧
    s'.code[parts.s₁.code.size + 1]? = some (.label parts.abort) ∧
    s'.code[parts.s₁.code.size + 2]? = some (.abort parts.s₅.out.errors.size) ∧
    s'.code[parts.s₁.code.size + 3]? = some (.label parts.skip) := by
  have quiet := (label_ok parts.makeAbort).2.2.trans (label_ok parts.makeSkip).2.2
  have code := (emit_ok parts.passing).2.1
  rw [(emit_ok parts.fail).2.1, (addError_quiet parts.entry).code, (emit_ok parts.failing).2.1,
    (emit_ok parts.branch).2.1, quiet.code] at code
  exact four_pushed code

/-- The error table has an entry for the assertion. -/
theorem described : s'.out.errors[parts.s₅.out.errors.size]? = some ("assertion failed at " ++ ctx.describe span) := by
  have emitted {i : Instr} {t t' : LowerState} (run : Lower.emit i ctx t = .ok ((), t')) :
      t'.out.errors = t.out.errors := by
    obtain rfl := modify_ok.1 run
    exact Program.errors_emit ..
  have entry := congrArg (·.out.errors) (modify_ok.1 parts.entry)
  rw [emitted parts.passing, emitted parts.fail, ← entry]
  exact Array.getElem?_push_size

/-- An assertion goes on behind its code if its condition is true, and aborts with its entry if not. -/
theorem reaches (held : Held ctx.source) (wf : condition.WellFormed ctx.source.vars) (bool : condition.ty = .bool)
    (fit : condition.LiteralsFit) (sound : s.Sound ctx.source owed) (sound' : s'.Sound ctx.source owed)
    (cont : p.Continues s') {σ : Store p} (indexed : condition.Indexed m (s'.contents σ)) :
    ∃ ws τ, (∀ w ∈ ws, s.Temporary s' w.1.var) ∧ s'.contents τ = s'.contents σ ∧
      Reaches (p.between? m.operators s s') (.running s.code.size σ) ws
        (if (condition.value m (s'.contents σ) []).isTrue then .running s'.code.size τ
          else .aborted parts.s₅.out.errors.size τ) := by
  have before := adds_expr condition ctx _ _ _ parts.test
  obtain ⟨τ, passes, denotes⟩ :=
    (correct_expr held condition _ _ _ _ wf fit sound parts.test).value s' σ parts.follows cont indexed
  obtain ⟨ws, run, temporary⟩ := id passes
  rw [bool] at denotes
  have read : parts.o.read? τ = some (condition.value m (s'.contents σ) []) := denotes [] trivial
  obtain ⟨size, branch, abort, fail, skip⟩ := parts.placed
  have follows := before.trans parts.follows
  have low : s.code.size ≤ parts.s₁.code.size := before.code.size_le
  have step {n : Nat} {r : Option (Writes p × Config p)} (low : s.code.size ≤ n) (high : n < s'.code.size)
      (step : p.step? s.stream m.operators (.running n τ) = r) : p.between? m.operators s s' (.running n τ) = r :=
    (Machine.inside_of (Config.between_running low high)).trans step
  have tested := reaches_between run (.refl s) parts.follows
  have outcome : (Instr.branch parts.o parts.skip parts.abort).outcome? m.operators τ =
      some (.goto (if (condition.value m (s'.contents σ) []).isTrue then parts.skip else parts.abort)) := by
    simp only [Instr.outcome?, read]
    rfl
  refine ⟨ws, τ, fun w hw => (temporary w hw).after parts.follows, passes.contents parts.follows, ?_⟩
  by_cases holds : (condition.value m (s'.contents σ) []).isTrue = true
  · rw [if_pos holds] at outcome ⊢
    have goto := step low (by omega) (step?_goto (cont.instr follows branch) outcome (cont.index follows sound' skip))
    have whole := tested.trans ⟨1, .single goto⟩
    rw [List.append_nil] at whole
    exact size ▸ whole
  · rw [if_neg holds] at outcome ⊢
    have goto := step low (by omega) (step?_goto (cont.instr follows branch) outcome (cont.index follows sound' abort))
    have aborts : p.step? s.stream m.operators (.running (parts.s₁.code.size + 2) τ) =
        some ([], .aborted parts.s₅.out.errors.size τ) := by
      rw [step?_running (cont.instr follows fail)]
      rfl
    have whole := tested.trans ⟨2, .succ goto (.single (step (by omega) (by omega) aborts))⟩
    rwa [List.append_nil, List.append_nil] at whole

end AssertionParts

/-- Steps in a row that each go on from a sound state to a sound one. -/
theorem exists_step {α : Type} {f : α → Lower Unit} {xs : List α}
    (each : ∀ x ∈ xs, ∀ t t', t.Sound ctx.source owed → t.Apart → f x ctx t = .ok ((), t') →
      t'.Sound ctx.source owed ∧ t.Onward t')
    (sound : s.Sound ctx.source owed) (apart : s.Apart) (run : xs.forM f ctx s = .ok ((), s')) :
    s.Onward s' ∧ ∀ (n : Nat) (x : α), xs[n]? = some x → ∃ t t', f x ctx t = .ok ((), t') ∧ t.Sound ctx.source owed ∧
      s.Onward t ∧ t'.Onward s' := by
  induction xs generalizing s with
  | nil =>
    obtain ⟨-, rfl⟩ := pure_ok.1 run
    exact ⟨.refl s, fun n x found => by cases found⟩
  | cons y ys ih =>
    obtain ⟨⟨⟩, s₁, first, rest⟩ := bind_ok.1 (show (f y >>= fun _ => ys.forM f) ctx s = _ from run)
    obtain ⟨sound₁, onward⟩ := each y List.mem_cons_self s s₁ sound apart first
    obtain ⟨later, steps⟩ := ih (fun x hx => each x (List.mem_cons_of_mem _ hx)) sound₁ (onward.follows.apart apart) rest
    refine ⟨onward.trans later, fun n x found => ?_⟩
    cases n with
    | zero =>
      cases found
      exact ⟨s, s₁, first, sound, .refl s, later⟩
    | succ n =>
      obtain ⟨t, t', run, sound, before, behind⟩ := steps n x found
      exact ⟨t, t', run, sound, onward.trans before, behind⟩

/-- The scopes that a statement of a scope runs are flattened with it. -/
theorem lowersScopes_stmt (held : Held ctx.source) (program : ctx.source.WellFormed) {fuel : Nat} {j : ScopeId}
    (enough : ctx.source.scopes.size ≤ fuel + j)
    (fits : ∀ st, ctx.source.Within j st → Staged.Expr.AllFit st.exprs) {st : Staged.Stmt}
    (mem : st ∈ ctx.source.scope j) : LowersScopes ctx (Lower.scope fuel) st.scopes := by
  intro i hi owed s
  obtain ⟨later, inside⟩ := program.nested j st mem i hi
  exact lowers_scope held program inside (Nat.lt_of_le_of_lt enough (Nat.add_lt_add_left later fuel))
    fun inner within => fits inner (.inner mem hi within)

/-- Every statement of a scope is flattened between two states of flattening the scope, and the first one is sound like
that of the scope. -/
theorem exists_stmt_of_scope (held : Held ctx.source) (program : ctx.source.WellFormed)
    (sound : s.Sound ctx.source owed) (apart : s.Apart) {fuel : Nat} {j : ScopeId}
    (enough : ctx.source.scopes.size ≤ fuel + j)
    (fits : ∀ st, ctx.source.Within j st → Staged.Expr.AllFit st.exprs)
    (run : Lower.scope (fuel + 1) j ctx s = .ok ((), s')) {n : Nat} {st : Staged.Stmt}
    (found : (ctx.source.scope j)[n]? = some st) :
    ∃ t t', Lower.stmt (Lower.scope fuel) st ctx t = .ok ((), t') ∧ t.Sound ctx.source owed ∧ s.Onward t ∧
      t'.Onward s' := by
  rw [Lower.scope] at run
  obtain ⟨c, t, got, run⟩ := bind_ok.1 run
  obtain ⟨rfl, rfl⟩ := read_ok.1 got
  obtain ⟨stmts, t, got, run⟩ := bind_ok.1 run
  obtain ⟨there, rfl⟩ := orBroken_ok got
  have same : ctx.source.scope j = stmts := by
    rw [Staged.Program.scope, Array.getD_eq_getD_getElem?, there, Option.getD_some]
  rw [same, ← Array.getElem?_toList] at found
  refine (exists_step (fun st mem t t' sound apart run => ?_) sound apart run).2 n st found
  have mem : st ∈ ctx.source.scope j := same ▸ Array.mem_toList_iff.1 mem
  have stmt : Lowers ctx owed owed _ (Lower.stmt (Lower.scope fuel) st) t fun _ _ => True :=
    lowers_stmt held (program.stmts j st mem) (fits st (.here mem)) (lowersScopes_stmt held program enough fits mem)
  have keeps : KeepsTo ctx (fun _ => True) (Lower.stmt (Lower.scope fuel) st) :=
    keepsTo_stmt (fun _ _ => trivial) fun i _ s a s' apart size run =>
      (keepsTo_scope fuel i s a s' apart size run).mono fun _ _ => trivial
  obtain ⟨sound', grows, -⟩ := stmt.of_ok sound run
  exact ⟨sound', (keeps t () t' apart sound.size run).follows, grows⟩

/-- The code that flattening emits for a branch computes the conditions of its clauses in turn and stops at the first
that is true. Its runs then are those of the body of this clause, or of the last body, or there is nothing more to run,
and they go on behind the branch. This is so for every branch of a well-formed program, in whatever sound state it is
flattened, for every meaning of the operators and in every program that goes on from there. The bodies are flattened in
sound states too, so it is also so for what is nested in them. The code for an assertion goes on behind itself if the
condition is true, and if not, it aborts with a code whose entry in the error table tells where the assertion stands. -/
theorem lower_branch_correct (held : Held ctx.source) (program : ctx.source.WellFormed)
    (sound : s.Sound ctx.source owed) (apart : s.Apart) {fuel : Nat} {here : ScopeId}
    (enough : ctx.source.scopes.size ≤ fuel + here)
    (fits : ∀ st, ctx.source.Within here st → Staged.Expr.AllFit st.exprs) {st : Staged.Stmt}
    (mem : st ∈ ctx.source.scope here)
    (free : ∀ k, (k ∈ st.slots ∨ ∃ j ∈ st.scopes, ctx.source.Mentions j k) → ¬s.Bars k) :
    (∀ cs otherwise span, st = .branch cs otherwise span →
      ∃ s' k, Lower.stmt (Lower.scope fuel) st ctx s = .ok ((), s') ∧
        BranchCode.Flattens ctx (Lower.scope fuel) cs otherwise s s' k ∧
        ∀ (m : Meaning) (p : Program) (σ : Store p) (i : Nat), p.Continues s' →
          i = cs.findIdx (·.holds m (s'.contents σ)) →
          (∀ c ∈ cs.take (i + 1), c.condition.Indexed m (s'.contents σ)) →
          ∃ ws τ, RunsBranch p m.operators s s' k i ws σ τ) ∧
    (∀ condition span, st = .assert condition span →
      ∃ (s' : LowerState) (n : Nat), Lower.stmt (Lower.scope fuel) st ctx s = .ok ((), s') ∧
        ∀ (m : Meaning) (p : Program) (σ : Store p), p.Continues s' → Extends s'.out.errors p.errors →
          condition.Indexed m (s'.contents σ) →
          p.errors[n]? = some ("assertion failed at " ++ ctx.describe span) ∧
            ∃ ws τ, (∀ w ∈ ws, s.Temporary s' w.1.var) ∧ s'.contents τ = s'.contents σ ∧
              Reaches (p.between? m.operators s s') (.running s.code.size σ) ws
                (if (condition.value m (s'.contents σ) []).isTrue then .running s'.code.size τ else .aborted n τ)) := by
  have wf := program.stmts here st mem
  have fit := fits st (.here mem)
  have lowers := lowersScopes_stmt held program enough fits mem
  have flattens : Lowers ctx owed owed _ (Lower.stmt (Lower.scope fuel) st) s fun _ _ => True :=
    lowers_stmt held wf fit lowers
  obtain ⟨⟨⟩, s', run, sound', -⟩ := (flattens sound).1 free
  constructor
  · rintro cs otherwise span rfl
    obtain ⟨parts⟩ := branch_parts run
    obtain ⟨ks, known⟩ := parts.exists_sound held wf fit lowers (keepsTo_scope fuel) apart sound
    exact ⟨s', _, run, known.flattens, fun m p σ i cont first indexed =>
      known.runsBranch held wf fit cont first indexed⟩
  · rintro condition span rfl
    obtain ⟨parts⟩ := assertion_parts run
    exact ⟨s', _, run, fun m p σ cont errors indexed => ⟨errors _ _ parts.described,
      parts.reaches held wf.1 wf.2 fit.1 sound sound' cont indexed⟩⟩

end Lowering

/-- Assigns a number to the last slot of the program below. -/
def assigning (n : Int) : Staged.Stmt := .assign ⟨2, [], .int, default⟩ (.literal (.int n) .int default) default

/-- A branch with two clauses and a last body. -/
def threeWays : Staged.Stmt := .branch [⟨.var 0 .bool default, 1⟩, ⟨.var 1 .bool default, 2⟩] (some 3) default

/-- A branch with one clause. -/
def oneWay : Staged.Stmt := .branch [⟨.var 1 .bool default, 4⟩] none default

/-- A branch whose last body is another branch, and an assertion. -/
def choosing : Staged.Program where
  vars := #[⟨.bool, default⟩, ⟨.bool, default⟩, ⟨.int, default⟩]
  scopes := #[#[threeWays, .assert (.var 1 .bool default) default], #[assigning 1], #[assigning 2], #[oneWay],
    #[assigning 3]]

theorem scope_choosing {i : ScopeId} {st : Staged.Stmt} (h : st ∈ choosing.scope i) :
    i = 0 ∧ st = threeWays ∨ i = 0 ∧ st = .assert (.var 1 .bool default) default ∨ i = 3 ∧ st = oneWay ∨
      ∃ n ∈ [1, 2, 3], st = assigning n := by
  simp only [choosing, Staged.Program.scope] at h
  rcases i with _ | _ | _ | _ | _ | i
  · exact (by simpa using h : st = threeWays ∨ st = _).imp (⟨rfl, ·⟩) fun h => .inl ⟨rfl, h⟩
  · exact .inr (.inr (.inr ⟨1, by decide, by simpa using h⟩))
  · exact .inr (.inr (.inr ⟨2, by decide, by simpa using h⟩))
  · exact .inr (.inr (.inl ⟨rfl, by simpa using h⟩))
  · exact .inr (.inr (.inr ⟨3, by decide, by simpa using h⟩))
  · simp at h

theorem held_choosing : Held choosing := fun v hv => by
  have : v = ⟨.bool, default⟩ ∨ v = ⟨.int, default⟩ := by simpa [choosing] using hv
  rcases this with rfl | rfl <;> exact ⟨rfl, by simp [Ty.IsPositive, Ty.dims]⟩

theorem wellFormed_choosing : choosing.WellFormed where
  positive v hv := (held_choosing v hv).2
  stmts i st h := by
    rcases scope_choosing h with ⟨-, rfl⟩ | ⟨-, rfl⟩ | ⟨-, rfl⟩ | ⟨n, -, rfl⟩
    · intro c hc
      have : c = ⟨.var 0 .bool default, 1⟩ ∨ c = ⟨.var 1 .bool default, 2⟩ := by simpa using hc
      rcases this with rfl | rfl <;> exact ⟨rfl, rfl⟩
    · exact ⟨rfl, rfl⟩
    · intro c hc
      rw [List.mem_singleton.1 hc]
      exact ⟨rfl, rfl⟩
    · exact ⟨trivial, rfl, ⟨.int, default⟩, rfl, rfl⟩
  nested i st h j enters := by
    rcases scope_choosing h with ⟨rfl, rfl⟩ | ⟨-, rfl⟩ | ⟨rfl, rfl⟩ | ⟨n, -, rfl⟩
    · have : j = 1 ∨ j = 2 ∨ j = 3 := by simpa [threeWays, Staged.Stmt.scopes] using enters
      rcases this with rfl | rfl | rfl <;> decide
    · exact (List.not_mem_nil enters).elim
    · obtain rfl : j = 4 := by simpa [oneWay, Staged.Stmt.scopes] using enters
      decide
    · exact (List.not_mem_nil enters).elim
  staticInit := by decide
  entry := by decide
  interface k hk := (List.not_mem_nil hk).elim
  nodup := .nil
  apart k hk := (List.not_mem_nil hk).elim

theorem allFit_choosing {i : ScopeId} {st : Staged.Stmt} (h : choosing.Within i st) : Staged.Expr.AllFit st.exprs := by
  induction h with
  | here mem =>
    rcases scope_choosing mem with ⟨-, rfl⟩ | ⟨-, rfl⟩ | ⟨-, rfl⟩ | ⟨n, hn, rfl⟩
    · decide
    · decide
    · decide
    · exact (show ∀ n ∈ [1, 2, 3], Staged.Expr.AllFit (assigning n).exprs by decide) n hn
  | inner _ _ _ ih => exact ih

/-- Nothing is true where all elements are false. -/
theorem contents_false (u : LowerState) {p : Program} (k : SlotId) (coord : List Int) :
    u.contents (fun _ : Element p => .bool false) k coord = .bool false := by
  unfold contents Store.get?
  cases u.var? k with
  | none => rfl
  | some id =>
    rw [Option.bind_some]
    cases p.element? id coord <;> rfl

theorem lower_branch_correct_nested :
    let ctx : LowerContext := ⟨choosing, fun _ => "the end"⟩
    (∃ s' k b t t' l, Lower.stmt (Lower.scope 5) threeWays ctx (.blank choosing) = .ok ((), s') ∧
      k.body? 2 = some b ∧ Lower.scope 5 3 ctx b.top = .ok ((), b.bottom) ∧
      Lower.stmt (Lower.scope 4) oneWay ctx t = .ok ((), t') ∧ b.top.Onward t ∧ t'.Onward b.bottom ∧
      ∃ (σ τ τ' : Store s'.out) (ws ws' : Writes s'.out),
        RunsBranch s'.out addition.operators (.blank choosing) s' k 2 ws σ τ ∧
          RunsBranch s'.out addition.operators t t' l 1 ws' σ τ') ∧
    ∃ (s' : LowerState) (n : Nat),
      Lower.stmt (Lower.scope 5) (.assert (.var 1 .bool default) default) ctx (.blank choosing) = .ok ((), s') ∧
      s'.out.errors[n]? = some "assertion failed at the end" ∧ ∃ (τ : Store s'.out) (ws : Writes s'.out),
        Reaches (s'.out.between? addition.operators (.blank choosing) s')
          (.running 0 fun _ => .bool false) ws (.aborted n τ) := by
  intro ctx
  have correct {st : Staged.Stmt} (mem : st ∈ choosing.scope 0) := @lower_branch_correct ctx [] _ held_choosing
    wellFormed_choosing (LowerState.sound_blank rfl) (LowerState.apart_blank _) 5 0 (by decide)
    (fun _ => allFit_choosing) st mem fun k _ => Bool.false_ne_true
  have branch : threeWays ∈ choosing.scope 0 := by simp [choosing, Staged.Program.scope]
  have assertion : .assert (.var 1 .bool default) default ∈ choosing.scope 0 := by
    simp [choosing, Staged.Program.scope]
  have nested : oneWay ∈ choosing.scope 3 := by simp [choosing, Staged.Program.scope]
  have none (u : LowerState) (p : Program) (k : SlotId) (j : ScopeId) :
      Staged.Clause.holds addition (u.contents fun _ : Element p => .bool false) ⟨.var k .bool default, j⟩ = false := by
    show (u.contents _ k []).isTrue = false
    rw [contents_false]
    rfl
  constructor
  · obtain ⟨s', ⟨ks, last⟩, run, flattens, runs⟩ := (correct branch).1 _ _ _ rfl
    have clauses : ks.length = 2 := flattens.clauses.length_eq.symm
    have otherwise := flattens.otherwise
    cases otherwise with
    | @some _ b body =>
      obtain ⟨ws, τ, runs⟩ := runs addition s'.out (fun _ => .bool false) 2 ⟨.refl _, .refl _⟩
        (by simp only [List.findIdx_cons, none]; rfl) fun c hc => by
          have : c = ⟨.var 0 .bool default, 1⟩ ∨ c = ⟨.var 1 .bool default, 2⟩ := by simpa using hc
          rcases this with rfl | rfl <;> exact trivial
      obtain ⟨owed, sound⟩ := body.sound
      have apart := body.before.follows.apart (LowerState.apart_blank choosing)
      obtain ⟨t, t', inner, sound, before, behind⟩ := exists_stmt_of_scope held_choosing wellFormed_choosing sound
        apart (by decide : choosing.scopes.size ≤ 4 + 3) (fun _ => allFit_choosing) body.run (n := 0) rfl
      have free (k : SlotId) : ¬t.Bars k := (body.before.trans before).grows.bars.not.2 Bool.false_ne_true
      obtain ⟨u, l, again, -, runs'⟩ := (@lower_branch_correct ctx owed t held_choosing wellFormed_choosing sound
        (before.follows.apart apart) 4 3 (by decide) (fun _ => allFit_choosing) oneWay nested fun k _ => free k).1 _ _ _ rfl
      obtain rfl : t' = u := by
        have same := inner.symm.trans again
        cases same
        rfl
      have cont : s'.out.Continues t' :=
        Program.Continues.before ⟨.refl _, .refl _⟩ (behind.trans body.behind).follows
      obtain ⟨ws', τ', runs'⟩ := runs' addition s'.out (fun _ => .bool false) 1 cont
        (by simp only [List.findIdx_cons, none]; rfl) fun c hc => by
          rw [List.mem_singleton.1 hc]
          exact trivial
      refine ⟨s', _, b, t, t', l, run, ?_, body.run, again, before, behind, _, τ, τ', ws, ws', runs, runs'⟩
      rw [BranchCode.body?, List.getElem?_eq_none (Nat.le_of_eq clauses)]
      rfl
  · obtain ⟨s', n, run, correct⟩ := (correct assertion).2 _ _ rfl
    obtain ⟨entry, ws, τ, -, -, reaches⟩ :=
      correct addition s'.out (fun _ => .bool false) ⟨.refl _, .refl _⟩ (.refl _) trivial
    have fails : ¬(Staged.Expr.value addition (s'.contents fun _ : Element s'.out => .bool false)
        (.var 1 .bool default) []).isTrue = true := by
      show ¬(s'.contents _ 1 []).isTrue = true
      rw [contents_false]
      exact Bool.false_ne_true
    rw [if_neg fails] at reaches
    exact ⟨s', n, run, entry, τ, ws, reaches⟩

end Flat

end SignalLang
