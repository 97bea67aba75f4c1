import SignalLang.Proofs.Token.Lossless
import SignalLang.Proofs.Tree.Listing
import SignalLang.Proofs.Tree.Nodes

/-!
# Where nodes lie among the tokens

`Laid l i j n` says that a node lies between the tokens it was read from: it starts no earlier than token `i`
and ends no later than the token before `j`, and all nodes in it nest. Nodes are `LaidAll` when each lies
behind the one before. A new node is laid out when its span holds its parts, however the span was made.

All that is about offsets asks for tokens that follow one another, and is asked for in that case only.
-/

namespace SignalLang

theorem Span.offset_union {s t : Span} (file : s.file = t.file) (starts : s.start.offset ≤ t.start.offset)
    (stops : s.stop.offset ≤ t.stop.offset) :
    (s.union t).start.offset = s.start.offset ∧ (s.union t).stop.offset = t.stop.offset := by
  have start : t.start.before s.start = false := decide_eq_false (by omega)
  rw [union, if_neg (not_not_intro file)]
  refine ⟨by simp [start], ?_⟩
  dsimp only
  split
  · rfl
  · rename_i notBefore
    have : ¬s.stop.offset < t.stop.offset := by simpa [Position.before] using notBefore
    omega

namespace Tree

namespace Listing

/-- A token ends before those behind it start. -/
def Ordered (l : Listing) : Prop := ∀ i j, i < j → (l.token i).stop ≤ (l.token j).offset

/-- Where the text of the tokens before one ends. -/
def reached (l : Listing) : Nat → Nat
  | 0 => 0
  | i + 1 => (l.token i).stop

variable {l : Listing} {i i' j j' k : Nat}

theorem offset_le_stop (t : Token) : t.offset ≤ t.stop := Nat.le_add_right ..

theorem Ordered.reached_le (h : l.Ordered) (le : i ≤ j) : l.reached i ≤ (l.token j).offset := by
  cases i with
  | zero => exact Nat.zero_le _
  | succ i => exact h i j le

theorem Ordered.offset_mono (h : l.Ordered) (le : i ≤ j) : (l.token i).offset ≤ (l.token j).offset := by
  rcases Nat.eq_or_lt_of_le le with rfl | lt
  · exact Nat.le_refl _
  · exact Nat.le_trans (offset_le_stop _) (h i j lt)

theorem Ordered.reached_mono (h : l.Ordered) (le : i ≤ j) : l.reached i ≤ l.reached j := by
  cases j with
  | zero => rw [Nat.le_zero.1 le]
  | succ j =>
    rcases Nat.eq_or_lt_of_le le with rfl | lt
    · exact Nat.le_refl _
    · exact Nat.le_trans (h.reached_le (Nat.le_of_lt_succ lt)) (offset_le_stop _)

/-! ## Spans -/

/-- A span of text from one token on, up to another. -/
structure Spans (l : Listing) (i j : Nat) (s : Span) : Prop where
  lt : i < j
  file : s.file = l.file
  starts : l.Ordered → (l.token i).offset ≤ s.start.offset
  proper : l.Ordered → s.start.offset ≤ s.stop.offset
  stops : l.Ordered → s.stop.offset ≤ l.reached j

variable {s t : Span}

theorem stop_span (a : Token) (file : Int) : (a.span file).stop.offset = a.stop := by
  simp [Token.span, Token.stop]

theorem Spans.token (l : Listing) (i : Nat) : l.Spans i (i + 1) ((l.token i).span l.file) where
  lt := Nat.lt_succ_self i
  file := rfl
  starts _ := Int.le_refl _
  proper _ := by
    rw [stop_span]
    exact Int.ofNat_le.2 (offset_le_stop _)
  stops _ := by
    rw [stop_span]
    exact Int.le_refl _

theorem Spans.widen (h : l.Spans i j s) (low : i' ≤ i) (high : j ≤ j') : l.Spans i' j' s where
  lt := Nat.lt_of_le_of_lt low (Nat.lt_of_lt_of_le h.lt high)
  file := h.file
  starts ordered := Int.le_trans (Int.ofNat_le.2 (ordered.offset_mono low)) (h.starts ordered)
  proper := h.proper
  stops ordered := Int.le_trans (h.stops ordered) (Int.ofNat_le.2 (ordered.reached_mono high))

/-- What lies behind a span starts behind it. -/
theorem Spans.before (h : l.Spans i j s) (h' : l.Spans j' k t) (le : j ≤ j') (ordered : l.Ordered) :
    s.stop.offset ≤ t.start.offset :=
  Int.le_trans (h.stops ordered) (Int.le_trans (Int.ofNat_le.2 (ordered.reached_le le)) (h'.starts ordered))

theorem Spans.offset_union (h : l.Spans i j s) (h' : l.Spans j' k t) (le : j ≤ j') (ordered : l.Ordered) :
    (s.union t).start.offset = s.start.offset ∧ (s.union t).stop.offset = t.stop.offset := by
  have behind := h.before h' le ordered
  exact Span.offset_union (h.file.trans h'.file.symm) (Int.le_trans (h.proper ordered) behind)
    (Int.le_trans behind (h'.proper ordered))

theorem Spans.union (h : l.Spans i j s) (h' : l.Spans j' k t) (le : j ≤ j') : l.Spans i k (s.union t) where
  lt := Nat.lt_trans h.lt (Nat.lt_of_le_of_lt le h'.lt)
  file := (Span.union_file s t).trans h.file
  starts ordered := by
    rw [(h.offset_union h' le ordered).1]
    exact h.starts ordered
  proper ordered := by
    obtain ⟨start, stop⟩ := h.offset_union h' le ordered
    rw [start, stop]
    exact Int.le_trans (h.proper ordered) (Int.le_trans (h.before h' le ordered) (h'.proper ordered))
  stops ordered := by
    rw [(h.offset_union h' le ordered).2]
    exact h'.stops ordered

theorem offset_cover (lt : i < j) (ordered : l.Ordered) :
    (l.cover i j).start.offset = (l.token i).offset ∧ (l.cover i j).stop.offset = l.reached j := by
  obtain ⟨j, rfl⟩ := Nat.exists_eq_add_of_lt lt
  have le : i ≤ i + j := Nat.le_add_right i j
  obtain ⟨start, stop⟩ := Span.offset_union (s := (l.token i).span l.file) (t := (l.token (i + j)).span l.file) rfl
    (Int.ofNat_le.2 (ordered.offset_mono le)) (by
      rw [stop_span, stop_span]
      exact Int.ofNat_le.2 (ordered.reached_mono (Nat.succ_le_succ le)))
  exact ⟨start, stop.trans (stop_span _ _)⟩

theorem Spans.cover (lt : i < j) : l.Spans i j (l.cover i j) where
  lt := lt
  file := Span.union_file _ _
  starts ordered := by
    rw [(offset_cover lt ordered).1]
  proper ordered := by
    obtain ⟨start, stop⟩ := offset_cover lt ordered
    rw [start, stop]
    obtain ⟨j, rfl⟩ := Nat.exists_eq_add_of_lt lt
    exact Int.ofNat_le.2 (Nat.le_trans (offset_le_stop _) (ordered.reached_mono (i := i + 1) (by omega)))
  stops ordered := by
    rw [(offset_cover lt ordered).2]

/-! ## Nodes -/

/-- A node that lies between tokens, with all nodes in it nested. -/
structure Laid (l : Listing) (i j : Nat) (n : Node) : Prop where
  spans : l.Spans i j n.span
  nests : l.Ordered → n.Nests

/-- Nodes that lie between tokens, one behind the other. -/
inductive LaidAll (l : Listing) : Nat → Nat → List Node → Prop
  -- Tokens may stand between nodes: commas, brackets, statements that could not be read.
  | nil {i j : Nat} (le : i ≤ j) : LaidAll l i j []
  | cons {i i' j k : Nat} {n : Node} {ns : List Node} (le : i ≤ i') (first : l.Laid i' j n)
      (rest : LaidAll l j k ns) : LaidAll l i k (n :: ns)

variable {n a b : Node} {ns ms : List Node}

theorem Laid.widen (h : l.Laid i j n) (low : i' ≤ i) (high : j ≤ j') : l.Laid i' j' n :=
  ⟨h.spans.widen low high, h.nests⟩

namespace LaidAll

theorem le (h : l.LaidAll i j ns) : i ≤ j := by
  induction h with
  | nil le => exact le
  | cons le first _ ih => exact Nat.le_trans le (Nat.le_trans (Nat.le_of_lt first.spans.lt) ih)

theorem widen (h : l.LaidAll i j ns) (low : i' ≤ i) (high : j ≤ j') : l.LaidAll i' j' ns := by
  induction h generalizing i' with
  | nil le => exact .nil (Nat.le_trans low (Nat.le_trans le high))
  | cons le first _ ih => exact .cons (Nat.le_trans low le) first (ih (Nat.le_refl _) high)

theorem single (h : l.Laid i j n) : l.LaidAll i j [n] := .cons (Nat.le_refl i) h (.nil (Nat.le_refl j))

theorem append (h : l.LaidAll i j ns) (h' : l.LaidAll j k ms) : l.LaidAll i k (ns ++ ms) := by
  induction h with
  | nil le => exact h'.widen le (Nat.le_refl k)
  | cons le first _ ih => exact .cons le first (ih h')

theorem each (h : l.LaidAll i j ns) : ∀ n ∈ ns, l.Laid i j n := by
  induction h with
  | nil => exact fun _ mem => nomatch mem
  | cons le first rest ih =>
    refine List.forall_mem_cons.2 ⟨first.widen le rest.le, fun n mem => ?_⟩
    exact (ih n mem).widen (Nat.le_trans le (Nat.le_of_lt first.spans.lt)) (Nat.le_refl _)

theorem inOrder (h : l.LaidAll i j ns) (ordered : l.Ordered) : Node.InOrder ns := by
  induction h with
  | nil => exact .nil
  | cons _ first rest ih =>
    exact .cons (fun n mem => first.spans.before (rest.each n mem).spans (Nat.le_refl _) ordered) ih

end LaidAll

namespace Laid

/-- A node whose span holds its parts. -/
theorem node (spans : l.Spans i j s) (parts : l.LaidAll i j ns) (holds : l.Ordered →
    ∀ n ∈ ns, s.start.offset ≤ n.span.start.offset ∧ n.span.stop.offset ≤ s.stop.offset) :
    l.Laid i j (.mk s ns) where
  spans := spans
  nests ordered := by
    refine .mk ?_ fun n mem => (parts.each n mem).nests ordered
    exact {
      proper := spans.proper ordered
      starts := fun n mem => (holds ordered n mem).1
      stops := fun n mem => (holds ordered n mem).2
      inOrder := parts.inOrder ordered }

/-- A node that is one token. -/
theorem token (l : Listing) (i : Nat) : l.Laid i (i + 1) (.mk ((l.token i).span l.file) []) :=
  node (.token l i) (.nil (Nat.le_succ i)) fun _ _ mem => nomatch mem

/-- A node that covers all text from its first token to its last. -/
theorem cover (lt : i < j) (parts : l.LaidAll i j ns) : l.Laid i j (.mk (l.cover i j) ns) := by
  refine node (.cover lt) parts fun ordered n mem => ?_
  obtain ⟨start, stop⟩ := offset_cover lt ordered
  have spans := (parts.each n mem).spans
  rw [start, stop]
  exact ⟨spans.starts ordered, spans.stops ordered⟩

/-- A node from the start of its first part to the end of a span that no other part passes. -/
theorem joined (first : l.Laid i j a) (last : l.Spans j' k t) (le : j ≤ j') (rest : l.LaidAll j k ns)
    (holds : l.Ordered → ∀ n ∈ ns, n.span.stop.offset ≤ t.stop.offset) :
    l.Laid i k (.mk (a.span.union t) (a :: ns)) := by
  refine node (first.spans.union last le) (.cons (Nat.le_refl i) first rest) fun ordered => ?_
  obtain ⟨start, stop⟩ := first.spans.offset_union last le ordered
  have proper := first.spans.proper ordered
  rw [start, stop]
  refine List.forall_mem_cons.2 ⟨⟨Int.le_refl _, ?_⟩, fun n mem => ⟨?_, holds ordered n mem⟩⟩
  · exact Int.le_trans (first.spans.before last le ordered) (last.proper ordered)
  · exact Int.le_trans proper (first.spans.before (rest.each n mem).spans (Nat.le_refl j) ordered)

/-- A node from the start of one part to the end of the other. -/
theorem join (first : l.Laid i j a) (last : l.Laid j' k b) (le : j ≤ j') :
    l.Laid i k (.mk (a.span.union b.span) [a, b]) := by
  refine first.joined last.spans le (.cons le last (.nil (Nat.le_refl k))) fun _ n mem => ?_
  rw [List.mem_singleton.1 mem]

/-- A node from the start of its first part to the end of a token behind all others. -/
theorem joinToken (first : l.Laid i j a) (le : j ≤ k) (rest : l.LaidAll j (k + 1) ns) :
    l.Laid i (k + 1) (.mk (a.span.union ((l.token k).span l.file)) (a :: ns)) := by
  refine first.joined (.token l k) le rest fun ordered n mem => ?_
  rw [stop_span]
  exact (rest.each n mem).spans.stops ordered

/-- A node from a token to the end of its only part. -/
theorem behind (last : l.Laid (i + 1) j a) : l.Laid i j (.mk (((l.token i).span l.file).union a.span) [a]) := by
  have first := Spans.token l i
  have le := Nat.le_refl (i + 1)
  refine node (first.union last.spans le) (.cons (Nat.le_succ i) last (.nil (Nat.le_refl j))) fun ordered n mem => ?_
  obtain ⟨start, stop⟩ := first.offset_union last.spans le ordered
  rw [List.mem_singleton.1 mem, start, stop]
  exact ⟨Int.le_trans (first.proper ordered) (first.before last.spans le ordered), Int.le_refl _⟩

/-- A node with the span of its only part. -/
theorem same (only : l.Laid i j a) : l.Laid i j (.mk a.span [a]) := by
  refine node only.spans (.single only) fun _ n mem => ?_
  rw [List.mem_singleton.1 mem]
  exact ⟨Int.le_refl _, Int.le_refl _⟩

end Laid

end Listing

end Tree

end SignalLang
