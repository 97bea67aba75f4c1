import Mathlib.Data.List.TakeWhile
import SignalLang.Proofs.Tree.Parsers

/-!
# Precedence climbing

`Expr.Ranked` says where operators of each precedence may stand in a tree: an operator binds its operands no tighter
than the operators in them do, and of operators that bind alike the last one is at the root, but of several `**` the
first. A sequence of names and operators has one ranked tree only (`Ranked.bare_eq`).

The parser reads this tree. Having read a left operand, it goes on with each operator that binds tightly enough and with
the longest right operand that binds tighter still; what it has read so far is ranked, and the next operator may have it
as its left operand (`binaryTail_climbs`).
-/

namespace SignalLang.BinaryOp

variable {op q : BinaryOp}

/-- Whether `q` may be at the root of the left operand of `op`. -/
def AllowsLeft (op q : BinaryOp) : Prop :=
  if op = .power then op.precedence < q.precedence else op.precedence ≤ q.precedence

/-- Whether `q` may be at the root of the right operand of `op`. -/
def AllowsRight (op q : BinaryOp) : Prop :=
  if op = .power then op.precedence ≤ q.precedence else op.precedence < q.precedence

instance : Decidable (op.AllowsLeft q) :=
  inferInstanceAs (Decidable (if op = .power then op.precedence < q.precedence else op.precedence ≤ q.precedence))

instance : Decidable (op.AllowsRight q) :=
  inferInstanceAs (Decidable (if op = .power then op.precedence ≤ q.precedence else op.precedence < q.precedence))

theorem power_of_precedence (h : op.precedence = BinaryOp.power.precedence) : op = .power := by
  cases op <;> first | rfl | cases h

theorem allowsRight_iff : op.AllowsRight q ↔ op.rightPrecedence ≤ q.precedence := by
  unfold AllowsRight rightPrecedence
  split <;> rfl

theorem AllowsLeft.le (h : op.AllowsLeft q) : op.precedence ≤ q.precedence := by
  unfold AllowsLeft at h
  split at h <;> omega

theorem AllowsRight.le (h : op.AllowsRight q) : op.precedence ≤ q.precedence := by
  unfold AllowsRight at h
  split at h <;> omega

/-- Of two operators in a row, the first is on the left of the second or the second on the right of the first. -/
theorem allowsLeft_iff : op.AllowsLeft q ↔ ¬q.AllowsRight op := by
  unfold AllowsLeft AllowsRight
  by_cases left : op = .power <;> by_cases right : q = .power
  · rw [left, right]
    simp
  · have apart : q.precedence ≠ op.precedence := fun same => right (power_of_precedence (left ▸ same))
    rw [if_pos left, if_neg right]
    omega
  · have apart : op.precedence ≠ q.precedence := fun same => left (power_of_precedence (right ▸ same))
    rw [if_neg left, if_pos right]
    omega
  · rw [if_neg left, if_neg right, Nat.not_lt]

theorem AllowsLeft.mono {r : BinaryOp} (h : op.AllowsLeft q) (le : q.precedence ≤ r.precedence) : op.AllowsLeft r := by
  unfold AllowsLeft at h ⊢
  split
  · rename_i power
    rw [if_pos power] at h
    exact Nat.lt_of_lt_of_le h le
  · rename_i other
    rw [if_neg other] at h
    exact Nat.le_trans h le

theorem AllowsRight.mono {r : BinaryOp} (h : op.AllowsRight q) (le : q.precedence ≤ r.precedence) :
    op.AllowsRight r :=
  allowsRight_iff.2 (Nat.le_trans (allowsRight_iff.1 h) le)

end SignalLang.BinaryOp

namespace SignalLang.Tree

open Parse

/-- Operators and operands in turn. -/
def pairs (xs : List (Token × Token)) : List Token := xs.flatMap fun x => [x.1, x.2]

/-- The operator at the root of an expression. -/
def Expr.root? : Expr → Option BinaryOp
  | .binary op .. => some op
  | _ => none

/-- The operands of an expression are names, and the tokens of its names and operators stand in order. -/
inductive Expr.InOrder : Expr → List Token → Prop where
  | name {t : Token} {span : Span} (isName : t.kind = .ident) : InOrder (.name ⟨t.lexeme, span⟩) [t]
  | binary {o : Token} {op : BinaryOp} {left right : Expr} {ts us : List Token} {span : Span}
      (stands : binaryOp? o.kind = some op) (isLeft : InOrder left ts) (isRight : InOrder right us) :
      InOrder (.binary op left right span) (ts ++ o :: us)

/-- Every operator binds at most as tightly as one at the root of its left operand, and less tightly than one at the
root of its right operand. For `**` it is the other way round. -/
inductive Expr.Ranked : Expr → Prop where
  | name (id : Ident) : Ranked (.name id)
  | binary {op : BinaryOp} {left right : Expr} {span : Span} (isLeft : Ranked left) (isRight : Ranked right)
      (below : ∀ q, left.root? = some q → op.AllowsLeft q) (above : ∀ q, right.root? = some q → op.AllowsRight q) :
      Ranked (.binary op left right span)

theorem Expr.InOrder.ne_nil {e : Expr} {ts : List Token} (order : e.InOrder ts) : ts ≠ [] := by
  cases order <;> simp

/-! ## One tree for a sequence -/

namespace Expr

variable {e e' : Expr} {ts : List Token}

/-- The operator at the root of a ranked tree binds least tightly. -/
theorem Ranked.root_le (ranked : e.Ranked) (order : e.InOrder ts) : ∀ t ∈ ts, ∀ op, binaryOp? t.kind = some op →
    ∃ q, e.root? = some q ∧ q.precedence ≤ op.precedence := by
  induction order with
  | name isName =>
    intro t mem op stands
    rw [List.mem_singleton.1 mem, isName] at stands
    cases stands
  | @binary o op left right ts us span stands _ _ ihLeft ihRight =>
    cases ranked with
    | binary isLeft isRight below above =>
      intro t mem op' stands'
      refine ⟨op, rfl, ?_⟩
      rcases List.mem_append.1 mem with mem | mem
      · obtain ⟨q, root, le⟩ := ihLeft isLeft t mem op' stands'
        exact Nat.le_trans (below q root).le le
      · rcases List.mem_cons.1 mem with rfl | mem
        · exact Nat.le_of_eq (congrArg BinaryOp.precedence (Option.some.inj (stands.symm.trans stands')))
        · obtain ⟨q, root, le⟩ := ihRight isRight t mem op' stands'
          exact Nat.le_trans (above q root).le le

section Root

variable {op op' : BinaryOp} {left right left' right' : Expr} {span span' : Span} {o o' : Token} {us : List Token}

/-- What may be at the root of the left operand may be anywhere in it. -/
theorem Ranked.allowsLeft (ranked : (Expr.binary op left right span).Ranked) (order : left.InOrder ts) (mem : o ∈ ts)
    {q : BinaryOp} (stands : binaryOp? o.kind = some q) : op.AllowsLeft q := by
  cases ranked with
  | binary isLeft _ below _ =>
    obtain ⟨r, root, le⟩ := isLeft.root_le order o mem q stands
    exact (below r root).mono le

theorem Ranked.allowsRight (ranked : (Expr.binary op left right span).Ranked) (order : right.InOrder us) (mem : o ∈ us)
    {q : BinaryOp} (stands : binaryOp? o.kind = some q) : op.AllowsRight q := by
  cases ranked with
  | binary _ isRight _ above =>
    obtain ⟨r, root, le⟩ := isRight.root_le order o mem q stands
    exact (above r root).mono le

/-- The roots of two ranked trees of a sequence are the same place of it: neither can stand before the other one. -/
theorem Ranked.not_before (ranked : (Expr.binary op left right span).Ranked)
    (ranked' : (Expr.binary op' left' right' span').Ranked) (order : right.InOrder us) (order' : left'.InOrder ts)
    (mem : o ∈ ts) (mem' : o' ∈ us) (stands : binaryOp? o.kind = some op) (stands' : binaryOp? o'.kind = some op') :
    False :=
  BinaryOp.allowsLeft_iff.1 (ranked'.allowsLeft order' mem stands) (ranked.allowsRight order mem' stands')

end Root

/-- A sequence of names and operators has one ranked tree only. -/
theorem Ranked.bare_eq (ranked : e.Ranked) (order : e.InOrder ts) (ranked' : e'.Ranked) (order' : e'.InOrder ts) :
    e.bare = e'.bare := by
  induction order generalizing e' with
  | @name t span isName =>
    generalize whole : [t] = vs at order'
    cases order' with
    | name =>
      cases whole
      rfl
    | @binary o' op' left' right' ts' us' span' stands' isLeft' isRight' =>
      -- A binary expression has an operand on either side of its operator.
      have length := congrArg List.length whole
      have := List.length_pos_iff.2 isLeft'.ne_nil
      simp only [List.length_append, List.length_cons, List.length_nil] at length
      omega
  | @binary o op left right ts us span stands isLeft isRight ihLeft ihRight =>
    generalize whole : ts ++ o :: us = vs at order'
    cases order' with
    | name isName =>
      have length := congrArg List.length whole
      have := List.length_pos_iff.2 isLeft.ne_nil
      simp only [List.length_append, List.length_cons, List.length_nil] at length
      omega
    | @binary o' op' left' right' ts' us' span' stands' isLeft' isRight' =>
      obtain ⟨rfl, same⟩ : ts = ts' ∧ o :: us = o' :: us' := by
        rcases List.append_eq_append_iff.1 whole with ⟨c, rfl, split⟩ | ⟨c, rfl, split⟩
        · cases c with
          | nil => exact ⟨(List.append_nil _).symm, split⟩
          | cons _ c =>
            obtain ⟨rfl, rfl⟩ := List.cons.inj split
            exact (ranked.not_before ranked' isRight isLeft' (by simp) (by simp) stands stands').elim
        · cases c with
          | nil => exact ⟨List.append_nil _, split.symm⟩
          | cons _ c =>
            obtain ⟨rfl, rfl⟩ := List.cons.inj split
            exact (ranked'.not_before ranked isRight' isLeft (by simp) (by simp) stands' stands).elim
      obtain ⟨rfl, rfl⟩ := List.cons.inj same
      obtain rfl : op = op' := Option.some.inj (stands.symm.trans stands')
      cases ranked with
      | binary rankedLeft rankedRight =>
        cases ranked' with
        | binary rankedLeft' rankedRight' =>
          rw [bare, bare, ihLeft rankedLeft rankedLeft' isLeft', ihRight rankedRight rankedRight' isRight']

end Expr

/-! ## Reading the tree -/

/-- Tokens that go on with an expression as a call, an index or a property. -/
def postfixKinds : List TokenKind := [.leftParen, .leftBracket, .dot]

/-- Tokens that stand for operators and names in turn. -/
def Operands (xs : List (Token × Token)) : Prop := ∀ x ∈ xs, (binaryOp? x.1.kind).isSome = true ∧ x.2.kind = .ident

/-- The operator of a pair binds at least as tightly as a bound says. -/
def binds (least : Nat) (x : Token × Token) : Bool := (binaryOp? x.1.kind).any (least ≤ ·.precedence)

variable {s : Stream} {t x : Token} {ts more : List Token} {xs : List (Token × Token)} {e : Expr}
  {least fuel : Nat}

theorem pairs_cons (o y : Token) (xs : List (Token × Token)) : pairs ((o, y) :: xs) = o :: y :: pairs xs := rfl

theorem pairs_append (xs ys : List (Token × Token)) : pairs (xs ++ ys) = pairs xs ++ pairs ys := List.flatMap_append

theorem Stream.peek_eq (here : s.rest = t :: ts) : s.peek = t := by
  rw [peek, here]
  rfl

theorem Stream.advance_rest (here : s.rest = t :: ts) (inside : t.kind ≠ .endOfFile) : s.advance.rest = ts := by
  have open' : s.atEnd = false := by simp [atEnd, peek_eq here, inside]
  rw [advance, open', if_neg Bool.false_ne_true, here]
  rfl

/-- Behind an operand of the sequence stands an operator or the token behind the sequence. -/
theorem exists_behind (operands : Operands xs) (settled : t.kind ∉ postfixKinds) :
    ∃ u us, pairs xs ++ t :: more = u :: us ∧ u.kind ∉ postfixKinds := by
  cases xs with
  | nil => exact ⟨t, more, rfl, settled⟩
  | cons x xs =>
    refine ⟨x.1, _, rfl, fun mem => ?_⟩
    have isOp := (operands x List.mem_cons_self).1
    simp only [postfixKinds, List.mem_cons, List.not_mem_nil, or_false] at mem
    rcases mem with kind | kind | kind <;> rw [kind] at isOp <;> cases isOp

theorem run_primary_name (here : s.rest = x :: ts) (isName : x.kind = .ident) :
    (primary (fuel + 1)).run s = (.ok (.name ⟨x.lexeme, x.span s.file⟩), s.advance) := by
  have peek : s.peek = x := Stream.peek_eq here
  have file : s.advance.file = s.file := by
    unfold Stream.advance
    split <;> rfl
  rw [primary, run_bind_ok run_peek, peek]
  simp only [isName]
  rw [run_bind_ok run_advance]
  show (Except.ok (Expr.name ⟨x.lexeme, x.span s.advance.file⟩), s.advance) = _
  rw [file]

theorem run_postfixes (e : Expr) (here : s.rest = t :: ts) (settled : t.kind ∉ postfixKinds) (start : Token) :
    (postfixes start e (fuel + 1)).run s = (.ok e, s) := by
  unfold postfixes
  rw [run_bind_ok run_peek, Stream.peek_eq here]
  split
  · rename_i kind
    exact (settled (by rw [kind]; decide)).elim
  · rename_i kind
    exact (settled (by rw [kind]; decide)).elim
  · rename_i kind
    exact (settled (by rw [kind]; decide)).elim
  · rfl

theorem run_unary_name {u : Token} (here : s.rest = x :: u :: ts) (isName : x.kind = .ident)
    (settled : u.kind ∉ postfixKinds) :
    (unary (fuel + 2)).run s = (.ok (.name ⟨x.lexeme, x.span s.file⟩), s.advance) := by
  have behind : s.advance.rest = u :: ts := Stream.advance_rest here (by rw [isName]; decide)
  rw [unary, run_bind_ok run_peek, Stream.peek_eq here]
  simp only [isName, unaryOp?]
  rw [run_bind_ok (run_primary_name here isName)]
  exact run_postfixes _ behind settled x

/-- What the parser has read is a ranked tree of the tokens, whose root binds tightly enough. -/
structure Climbs (least : Nat) (ts : List Token) (e : Expr) : Prop where
  order : e.InOrder ts
  ranked : e.Ranked
  root : ∀ q, e.root? = some q → least ≤ q.precedence

theorem binds_iff {x : Token × Token} {op : BinaryOp} (stands : binaryOp? x.1.kind = some op) :
    binds least x = true ↔ least ≤ op.precedence := by
  rw [binds, stands]
  exact decide_eq_true_iff

/-- What binds more tightly is taken first, and the rest of what binds tightly enough behind it. -/
theorem takes_split {α : Type} {a b : α → Bool} (le : ∀ x, a x = true → b x = true) (xs : List α) :
    xs.takeWhile b = xs.takeWhile a ++ (xs.dropWhile a).takeWhile b ∧
      xs.dropWhile b = (xs.dropWhile a).dropWhile b := by
  have all : ∀ x ∈ xs.takeWhile a, b x = true := fun x mem => le x (List.mem_takeWhile_imp mem)
  have whole : xs = xs.takeWhile a ++ xs.dropWhile a := List.takeWhile_append_dropWhile.symm
  exact ⟨(congrArg (List.takeWhile b) whole).trans (List.takeWhile_append_of_pos all),
    (congrArg (List.dropWhile b) whole).trans (List.dropWhile_append_of_pos all)⟩

/-- What binds tightly enough for the right operand of an operator also does for the operator itself. -/
theorem binds_of_right {op : BinaryOp} (le : least ≤ op.precedence) (x : Token × Token)
    (h : binds op.rightPrecedence x = true) : binds least x = true := by
  cases stands : binaryOp? x.1.kind with
  | none =>
    rw [binds, stands] at h
    cases h
  | some q =>
    rw [binds_iff stands] at h ⊢
    exact Nat.le_trans le (BinaryOp.allowsRight_iff.2 h).le

/-- An operator joins a tree that was read with its right operand. -/
theorem Climbs.join {o : Token} {op : BinaryOp} {left right : Expr} {us : List Token} {span : Span}
    (isLeft : Climbs least ts left) (isRight : Climbs op.rightPrecedence us right)
    (stands : binaryOp? o.kind = some op) (le : least ≤ op.precedence)
    (next : ∀ q, left.root? = some q → op.AllowsLeft q) :
    Climbs least (ts ++ o :: us) (.binary op left right span) := by
  refine ⟨.binary stands isLeft.order isRight.order, .binary isLeft.ranked isRight.ranked next fun q hq => ?_,
    fun q hq => ?_⟩
  · exact BinaryOp.allowsRight_iff.2 (isRight.root q hq)
  · cases hq
    exact le

/-- What a parser that climbs from a bound reads of a sequence that is left, behind some tokens that were read. It reads
the same however many calls may nest, if only they are enough. -/
def ReadsFrom (p : Nat → Parse Expr) (enough : Nat) (s : Stream) (least : Nat) (ts : List Token)
    (xs : List (Token × Token)) (behind : List Token) : Prop :=
  ∃ e s', (∀ fuel, enough ≤ fuel → (p fuel).run s = (.ok e, s')) ∧
    s'.rest = pairs (xs.dropWhile (binds least)) ++ behind ∧
    Climbs least (ts ++ pairs (xs.takeWhile (binds least))) e

/-- An operand is read, and then the operators and operands that follow. -/
theorem binary_of_tail {enough : Nat} (operands : Operands xs) (settled : t.kind ∉ postfixKinds)
    (tail : ∀ (s : Stream) (left : Expr), s.rest = pairs xs ++ t :: more → left.root? = none →
      Climbs least [x] left → ReadsFrom (binaryTail least left) (enough + 2) s least [x] xs (t :: more))
    (here : s.rest = x :: (pairs xs ++ t :: more)) (isName : x.kind = .ident) :
    ReadsFrom (binary least) (enough + 3) s least [x] xs (t :: more) := by
  obtain ⟨u, us, behind, apart⟩ := exists_behind operands settled
  have name : Climbs least [x] (.name ⟨x.lexeme, x.span s.file⟩) := ⟨.name isName, .name _, fun q hq => by cases hq⟩
  obtain ⟨e, s', run, rest, climbs⟩ :=
    tail s.advance _ (Stream.advance_rest here (by rw [isName]; decide)) rfl name
  refine ⟨e, s', fun fuel le => ?_, rest, climbs⟩
  obtain ⟨k, rfl⟩ := Nat.exists_eq_add_of_le' le
  rw [← Nat.add_assoc, binary, run_bind_ok (run_unary_name (by rw [here, behind]) isName apart)]
  exact run _ (by omega)

/-- Where an operator stands next, the parser stops if it does not bind tightly enough, and else reads its right
operand and goes on. -/
theorem run_binaryTail {o : Token} {op : BinaryOp} {left : Expr} (here : s.rest = o :: ts)
    (stands : binaryOp? o.kind = some op) :
    (binaryTail least left (fuel + 1)).run s = if op.precedence < least then (.ok left, s) else
      (do
        let right ← binary op.rightPrecedence fuel
        binaryTail least (.binary op left right (left.span.union right.span)) fuel).run s.advance := by
  rw [binaryTail, run_bind_ok run_peek, Stream.peek_eq here]
  simp only [stands]
  split
  · rfl
  · rw [run_bind_ok run_advance]

/-- Behind a left operand the parser takes all operators that bind tightly enough, with their right operands. The
induction is on the operators that are left. -/
theorem binaryTail_climbs (operands : Operands xs) (last : binaryOp? t.kind = none) (settled : t.kind ∉ postfixKinds)
    (here : s.rest = pairs xs ++ t :: more) {left : Expr} (climbs : Climbs least ts left)
    (next : ∀ x, xs.head? = some x → ∀ op, binaryOp? x.1.kind = some op → ∀ q, left.root? = some q →
      op.AllowsLeft q) :
    ReadsFrom (binaryTail least left) (2 * xs.length + 2) s least ts xs (t :: more) := by
  induction n_eq : xs.length using Nat.strongRecOn generalizing xs s least ts left with
  | ind n ih =>
  cases xs with
  | nil =>
    refine ⟨left, s, fun fuel le => ?_, here, by rwa [List.takeWhile_nil, pairs, List.flatMap_nil, List.append_nil]⟩
    obtain ⟨fuel, rfl⟩ := Nat.exists_eq_add_of_le' (Nat.le_trans (Nat.le_add_left 1 _) le)
    rw [binaryTail, run_bind_ok run_peek, Stream.peek_eq here]
    simp only [last]
    rfl
  | cons x xs =>
    obtain ⟨o, y⟩ := x
    obtain ⟨isOp, isName⟩ := operands (o, y) List.mem_cons_self
    obtain ⟨op, stands⟩ := Option.isSome_iff_exists.1 isOp
    have operands' : Operands xs := fun x mem => operands x (List.mem_cons_of_mem _ mem)
    have here' : s.rest = o :: y :: (pairs xs ++ t :: more) := here
    by_cases stop : op.precedence < least
    · have last : ¬binds least (o, y) = true := fun h => Nat.not_lt.2 ((binds_iff stands).1 h) stop
      refine ⟨left, s, fun fuel le => ?_, ?_, ?_⟩
      · obtain ⟨fuel, rfl⟩ := Nat.exists_eq_add_of_le' (Nat.le_trans (Nat.le_add_left 1 _) le)
        rw [run_binaryTail here' stands, if_pos stop]
      · rw [List.dropWhile_cons_of_neg last]
        exact here
      · rw [List.takeWhile_cons_of_neg last]
        rwa [pairs, List.flatMap_nil, List.append_nil]
    · have le : least ≤ op.precedence := Nat.not_lt.1 stop
      have inside : o.kind ≠ .endOfFile := fun kind => by
        rw [kind] at stands
        cases stands
      rw [List.length_cons] at n_eq
      have operand (s : Stream) (left : Expr) (here : s.rest = pairs xs ++ t :: more) (root : left.root? = none)
          (climbs : Climbs op.rightPrecedence [y] left) :
          ReadsFrom (binaryTail op.rightPrecedence left) (2 * xs.length + 2) s op.rightPrecedence [y] xs
            (t :: more) := by
        refine ih xs.length (by omega) operands' here climbs (fun x _ op _ q hq => ?_) rfl
        rw [root] at hq
        cases hq
      obtain ⟨right, s₂, run₂, rest₂, climbs₂⟩ :=
        binary_of_tail operands' settled operand (Stream.advance_rest here' inside) isName
      -- The rest is read with the operator and its operands as the next left operand.
      have joined : Climbs least (ts ++ o :: ([y] ++ pairs (xs.takeWhile (binds op.rightPrecedence))))
          (.binary op left right (left.span.union right.span)) :=
        climbs.join climbs₂ stands le (next (o, y) rfl op stands)
      have fewer := List.length_dropWhile_le (binds op.rightPrecedence) xs
      obtain ⟨e, s₃, run₃, rest₃, climbs₃⟩ := ih _ (by omega)
        (fun x mem => operands' x ((List.dropWhile_sublist _).mem mem)) rest₂ joined
        (fun x first q stands' p root => by
          cases root
          have stopped := List.head?_dropWhile_not (binds op.rightPrecedence) xs
          rw [first] at stopped
          exact BinaryOp.allowsLeft_iff.2 fun tight => Bool.false_ne_true (stopped.symm.trans
            ((binds_iff stands').2 (BinaryOp.allowsRight_iff.1 tight)))) rfl
      obtain ⟨taken, left'⟩ := takes_split (binds_of_right le) xs
      have first : binds least (o, y) = true := (binds_iff stands).2 le
      refine ⟨e, s₃, fun fuel enough => ?_, ?_, ?_⟩
      · obtain ⟨k, rfl⟩ : ∃ k, fuel = k + 1 := ⟨fuel - 1, by omega⟩
        rw [run_binaryTail here' stands, if_neg stop, run_bind_ok (run₂ k (by omega))]
        exact run₃ k (by omega)
      · rw [List.dropWhile_cons_of_pos first, left']
        exact rest₃
      · rw [List.takeWhile_cons_of_pos first, pairs_cons, taken, pairs_append]
        simpa only [List.append_assoc, List.cons_append, List.nil_append] using climbs₃

theorem binds_zero (operands : Operands xs) : ∀ x ∈ xs, binds 0 x = true := fun x mem => by
  obtain ⟨op, stands⟩ := Option.isSome_iff_exists.1 (operands x mem).1
  exact (binds_iff stands).2 (Nat.zero_le _)

/-- Of names with operators between them, up to a token that does not go on with the expression, the parser reads all
and makes the ranked tree of them, which is the only one. -/
theorem expression_ranked (here : s.rest = x :: (pairs xs ++ t :: more)) (isName : x.kind = .ident)
    (operands : Operands xs) (last : binaryOp? t.kind = none) (settled : t.kind ∉ postfixKinds) :
    ∃ e s', (∀ fuel, 2 * xs.length + 3 ≤ fuel → (expression fuel).run s = (.ok e, s')) ∧ s'.rest = t :: more ∧
      e.InOrder (x :: pairs xs) ∧ e.Ranked ∧
      ∀ e' : Expr, e'.InOrder (x :: pairs xs) → e'.Ranked → e'.bare = e.bare := by
  obtain ⟨e, s', run, rest, climbs⟩ := binary_of_tail operands settled
    (fun s left here root climbs => binaryTail_climbs operands last settled here climbs
      fun x _ op _ q hq => by
        rw [root] at hq
        cases hq) here isName
  have all : xs.takeWhile (binds 0) = xs := List.takeWhile_eq_self_iff.2 (binds_zero operands)
  have none : xs.dropWhile (binds 0) = [] := List.dropWhile_eq_nil_iff.2 (binds_zero operands)
  rw [none] at rest
  rw [all] at climbs
  exact ⟨e, s', run, rest, climbs.order, climbs.ranked,
    fun e' order ranked => ranked.bare_eq order climbs.ranked climbs.order⟩

/-- In `a - b ** c ** d - a;` the powers are grouped from the right and the differences from the left. -/
theorem expression_ranked_chain :
    let name (n : String) : Token := ⟨.ident, n, 1, 1, 0⟩
    let mark (kind : TokenKind) : Token := ⟨kind, kind.text, 1, 1, 0⟩
    let operand (n : String) : Expr := .name ⟨n, .builtin⟩
    let binary (op : BinaryOp) (left right : Expr) : Expr := .binary op left right .builtin
    ∃ e s', (expression 11).run ⟨0, none, [name "a", mark .minus, name "b", mark .starStar, name "c", mark .starStar,
        name "d", mark .minus, name "a", mark .semicolon]⟩ = (.ok e, s') ∧ s'.rest = [mark .semicolon] ∧
      e.bare = binary .subtract (binary .subtract (operand "a")
        (binary .power (operand "b") (binary .power (operand "c") (operand "d")))) (operand "a") := by
  intro name mark operand binary
  have here : (⟨0, none, [name "a", mark .minus, name "b", mark .starStar, name "c", mark .starStar, name "d",
      mark .minus, name "a", mark .semicolon]⟩ : Stream).rest = name "a" :: (pairs [(mark .minus, name "b"),
      (mark .starStar, name "c"), (mark .starStar, name "d"), (mark .minus, name "a")] ++ [mark .semicolon]) := rfl
  obtain ⟨e, s', run, rest, -, -, unique⟩ :=
    expression_ranked here rfl (by unfold Operands; decide) rfl (by decide)
  have isName (n : String) : (operand n).InOrder [name n] := .name (t := name n) rfl
  have powers : (binary .power (operand "b") (binary .power (operand "c") (operand "d"))).InOrder
      ([name "b"] ++ mark .starStar :: ([name "c"] ++ mark .starStar :: [name "d"])) :=
    .binary rfl (isName "b") (.binary rfl (isName "c") (isName "d"))
  have differences : (binary .subtract (binary .subtract (operand "a") (binary .power (operand "b")
      (binary .power (operand "c") (operand "d")))) (operand "a")).InOrder _ :=
    .binary (o := mark .minus) rfl (.binary (o := mark .minus) rfl (isName "a") powers) (isName "a")
  refine ⟨e, s', run 11 (by decide), rest, (unique _ differences ?_).symm⟩
  refine .binary (.binary (.name _) (.binary (.name _) (.binary (.name _) (.name _) ?_ ?_) ?_ ?_) ?_ ?_) (.name _) ?_ ?_
  all_goals rintro q ⟨⟩ <;> decide

end SignalLang.Tree
