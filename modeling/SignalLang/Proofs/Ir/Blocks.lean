import SignalLang.Proofs.Ir.Machine

/-!
# How a function is built

A builder only ever adds to what it has made. Most steps are `Straight`: they append to the block that is open, or
open one for code that follows a terminator, and leave all else alone. A terminator closes the block, and a label
opens the next. So the blocks of a function have different names, every block that is gone to is there
(`Builder.Sound`), and what a builder has made at any time is part of the function in the end (`Builder.Fits`).
-/

namespace SignalLang.Ir

open Flat (Stream Interface LabelId VarId Operand)
open Steps

variable {ctx : Context} {b b' b'' : Builder} {α β : Type}

/-! ## Straight code -/

/-- Code was appended to the open block; without one, a block may have been opened. -/
structure Builder.Extended (b b' : Builder) : Prop where
  finished : b'.finished = b.finished
  placed : b'.placed = b.placed
  mentioned : b'.mentioned = b.mentioned
  addresses : b'.addresses = b.addresses
  next : b.next ≤ b'.next
  body : Extends b.body b'.body
  current : b'.current = b.current ∧ (b.current = none → b'.body = b.body) ∨
    b.current = none ∧ ∃ n, b'.current = some (.number n) ∧ b.next ≤ n ∧ n < b'.next

namespace Builder.Extended

theorem refl (b : Builder) : b.Extended b :=
  ⟨rfl, rfl, rfl, rfl, Nat.le_refl _, .refl _, .inl ⟨rfl, fun _ => rfl⟩⟩

theorem trans (h : b.Extended b') (h' : b'.Extended b'') : b.Extended b'' where
  finished := h'.finished.trans h.finished
  placed := h'.placed.trans h.placed
  mentioned := h'.mentioned.trans h.mentioned
  addresses := h'.addresses.trans h.addresses
  next := Nat.le_trans h.next h'.next
  body := h.body.trans h'.body
  current := by
    rcases h.current with ⟨same, idle⟩ | ⟨closed, n, opened, low, high⟩
    · rcases h'.current with ⟨same', idle'⟩ | ⟨closed', n, opened', low', high'⟩
      · exact .inl ⟨same'.trans same, fun e => (idle' (same.trans e)).trans (idle e)⟩
      · exact .inr ⟨same ▸ closed', n, opened', Nat.le_trans h.next low', high'⟩
    · rcases h'.current with ⟨same', -⟩ | ⟨closed', -⟩
      · exact .inr ⟨closed, n, same'.trans opened, low, Nat.lt_of_lt_of_le high h'.next⟩
      · rw [opened] at closed'
        cases closed'

theorem current_eq {k : BlockName} (h : b.Extended b') (hk : b.current = some k) : b'.current = some k := by
  rcases h.current with ⟨same, -⟩ | ⟨closed, -⟩
  · exact same.trans hk
  · rw [hk] at closed
    cases closed

end Builder.Extended

/-- A step that ends has only appended code. -/
def Straight (m : Generate α) : Prop := ∀ ctx b a b', m ctx b = .ok (a, b') → b.Extended b'

namespace Straight

theorem pure (a : α) : Straight (Pure.pure a : Generate α) := by
  intro ctx b _ b' run
  obtain ⟨-, rfl⟩ := pure_ok.1 run
  exact .refl b

theorem throw (o : Obstacle) : Straight (MonadExcept.throw o : Generate α) := by
  intro ctx b _ b' run
  exact (throw_ok.1 run).elim

theorem bind {m : Generate α} {f : α → Generate β} (hm : Straight m) (hf : ∀ a, Straight (f a)) :
    Straight (m >>= f) := by
  intro ctx b _ b' run
  obtain ⟨a, b₁, run₁, run₂⟩ := bind_ok.1 run
  exact (hm _ _ _ _ run₁).trans (hf a _ _ _ _ run₂)

theorem throw_bind (o : Obstacle) (f : α → Generate β) : Straight (MonadExcept.throw o >>= f) := by
  intro ctx b _ b' run
  obtain ⟨_, _, run, -⟩ := bind_ok.1 run
  exact (throw_ok.1 run).elim

theorem read : Straight (MonadReader.read : Generate Context) := by
  intro ctx b _ b' run
  obtain ⟨-, rfl⟩ := read_ok.1 run
  exact .refl b

theorem get : Straight (MonadState.get : Generate Builder) := by
  intro ctx b _ b' run
  obtain ⟨-, rfl⟩ := get_ok.1 run
  exact .refl b

theorem lift (x : Except Obstacle α) : Straight (liftM x : Generate α) := by
  cases x with
  | ok a => exact pure a
  | error o => exact throw o

theorem forM {γ : Type} {f : γ → Generate PUnit} (hf : ∀ c, Straight (f c)) : (xs : List γ) → Straight (xs.forM f)
  | [] => pure _
  | x :: xs => (hf x).bind fun _ => forM hf xs

theorem mapM {γ : Type} {f : γ → Generate β} (hf : ∀ c, Straight (f c)) (xs : List γ) : Straight (xs.mapM f) := by
  induction xs with
  | nil => exact pure _
  | cons x xs ih =>
    rw [List.mapM_cons]
    exact (hf x).bind fun _ => ih.bind fun _ => pure _

end Straight

/-- The builder with one more operation in its open block. -/
def Builder.emit (b : Builder) (op : Op) : Builder :=
  { b with next := b.next + 1, body := b.body.push (.define b.next op) }

/-- The builder that has a block open. -/
def Builder.open (b : Builder) : Builder :=
  if b.current.isNone then { b with current := some (.number b.next), next := b.next + 1 } else b

@[simp] theorem Builder.open_eq {k : BlockName} (h : b.current = some k) : b.open = b := by simp [Builder.open, h]

theorem Builder.extended_open (b : Builder) : b.Extended b.open := by
  unfold Builder.open
  split
  · rename_i closed
    exact ⟨rfl, rfl, rfl, rfl, Nat.le_succ _, .refl _,
      .inr ⟨Option.isNone_iff_eq_none.1 closed, b.next, rfl, Nat.le_refl _, Nat.lt_succ_self _⟩⟩
  · exact .refl b

theorem Builder.exists_open (b : Builder) : ∃ k, b.open.current = some k := by
  unfold Builder.open
  split
  · exact ⟨_, rfl⟩
  · rename_i opened
    cases h : b.current with
    | none => simp [h] at opened
    | some k => exact ⟨k, rfl⟩

theorem ensureBlock_eq : Generate.ensureBlock ctx b = .ok ((), b.open) := by
  unfold Generate.ensureBlock Builder.open
  rw [bind_run]
  show (if b.current.isNone then _ else _ : Generate Unit) ctx b = _
  split <;> rfl

theorem push_eq (i : Instr) : Generate.push i ctx b = .ok ((), { b.open with body := b.open.body.push i }) := by
  unfold Generate.push
  rw [bind_run, ensureBlock_eq]
  rfl

/-- What an operation makes of a builder. -/
theorem define_eq (op : Op) :
    Generate.define op ctx b = .ok (.register b.open.next op.ty, b.open.emit op) := by
  obtain ⟨k, hk⟩ := b.exists_open
  have again : { b.open with next := b.open.next + 1 }.open = { b.open with next := b.open.next + 1 } :=
    Builder.open_eq hk
  unfold Generate.define
  rw [bind_run, ensureBlock_eq]
  show (Generate.push (.define b.open.next op) ctx { b.open with next := b.open.next + 1 }).bind _ = _
  rw [push_eq, again]
  rfl

/-- Appending to the open block. -/
theorem Builder.extended_push {k : BlockName} {next : Nat} (h : b.current = some k) (le : b.next ≤ next) (i : Instr) :
    b.Extended { b with next := next, body := b.body.push i } := by
  refine ⟨rfl, rfl, rfl, rfl, le, .push _ _, .inl ⟨rfl, fun closed => ?_⟩⟩
  rw [h] at closed
  cases closed

theorem straight_push (i : Instr) : Straight (Generate.push i) := by
  intro ctx b _ b' run
  rw [push_eq] at run
  cases run
  obtain ⟨k, hk⟩ := b.exists_open
  exact b.extended_open.trans (Builder.extended_push hk (Nat.le_refl _) i)

theorem straight_define (op : Op) : Straight (Generate.define op) := by
  intro ctx b _ b' run
  rw [define_eq] at run
  cases run
  obtain ⟨k, hk⟩ := b.exists_open
  exact b.extended_open.trans (Builder.extended_push hk (Nat.le_succ _) _)

theorem straight_intrinsic (f : Intrinsic) (args : List Value) : Straight (Generate.intrinsic f args) := by
  refine .bind ?_ fun _ => straight_define _
  intro ctx b _ b' run
  rw [← modify_ok.1 run]
  exact ⟨rfl, rfl, rfl, rfl, Nat.le_refl _, .refl _, .inl ⟨rfl, fun _ => rfl⟩⟩

theorem straight_orMistyped (x : Option α) : Straight (Generate.orMistyped x) := by
  cases x with
  | none => exact .throw _
  | some a => exact .pure a

theorem straight_checkIndex (v : Value) : Straight (Generate.checkIndex v) := by
  unfold Generate.checkIndex
  split
  · exact .throw _
  · exact .pure _

theorem straight_addressBelow (id : VarId) (base : Value) (indexes : List Value) :
    Straight (Generate.addressBelow id base indexes) :=
  .bind .read fun _ => .bind (.lift _) fun _ => .bind (.forM straight_checkIndex _) fun _ =>
    .bind (straight_orMistyped _) fun _ => straight_define _

theorem straight_address (o : Operand) : Straight (Generate.address o) := by
  unfold Generate.address
  split
  · exact .throw _
  · refine .bind .get fun b => ?_
    split
    · exact .bind .read fun _ => .throw _
    · split
      · exact .pure _
      · exact straight_addressBelow _ _ _

theorem straight_typeOf (o : Operand) : Straight (Generate.typeOf o) := by
  refine .bind .read fun ctx => ?_
  dsimp only
  split
  · exact .lift _
  · exact .bind (straight_orMistyped _) fun _ => .lift _

theorem straight_load (o : Operand) : Straight (Generate.load o) := by
  unfold Generate.load
  split
  · dsimp only
    split
    · exact .throw_bind _ _
    · split
      · exact .pure _
      · exact .throw _
  · dsimp only
    split
    · exact .throw_bind _ _
    · exact .bind (straight_address _) fun _ => .bind (straight_typeOf _) fun _ => straight_define _

theorem straight_storeAt (value target : Value) : Straight (Generate.storeAt value target) := by
  unfold Generate.storeAt
  split
  · exact straight_push _
  · exact .throw _

theorem straight_store (value : Value) (o : Operand) : Straight (Generate.store value o) := by
  unfold Generate.store
  dsimp only
  split
  · exact .throw_bind _ _
  · exact .bind (straight_address _) fun _ => straight_storeAt _ _

theorem straight_indexed (base : Operand) (indexes : List Operand) : Straight (Generate.indexed base indexes) := by
  refine .bind (straight_address _) fun _ => ?_
  split
  · exact .throw _
  · exact .bind .read fun _ => .bind (.lift _) fun _ => .bind (.mapM straight_load _) fun _ =>
      straight_addressBelow _ _ _

theorem straight_compareInts (c : Flat.Condition) (v w : Value) : Straight (Generate.compareInts c v w) := by
  unfold Generate.compareInts
  split <;> first | exact straight_define _ | exact .throw _

theorem straight_compareFloats (c : Flat.Condition) (v w : Value) : Straight (Generate.compareFloats c v w) := by
  unfold Generate.compareFloats
  split
  · exact straight_define _
  · exact .throw _

theorem straight_unary (op : Flat.UnaryOp) (v : Value) : Straight (Generate.unary op v) := by
  cases op with
  | sin | cos | sqrt | exp | exp2 | log | log10 | log2 | absF | floor | ceil | trunc => exact straight_intrinsic _ _
  | negI | negF | not | bnot | ftoi | itof => exact straight_define _
  | absI =>
    exact .bind (straight_compareInts _ _ _) fun _ => .bind (straight_define _) fun _ => straight_define _

theorem straight_binary (op : Flat.BinaryOp) (v w : Value) : Straight (Generate.binary op v w) := by
  cases op with
  | addI | subI | mulI | divI | modI | addF | subF | mulF | divF | modF | band | bor | bxor | shl | shr | and
  | or | xor => exact straight_define _
  | powF => exact straight_intrinsic _ _
  | powI =>
    exact .bind (straight_define _) fun _ => .bind (straight_define _) fun _ =>
      .bind (straight_intrinsic _ _) fun _ => straight_define _
  | compareI c => exact straight_compareInts _ _ _
  | compareF c => exact straight_compareFloats _ _ _

/-! ## What has been made -/

/-- What a builder has made is part of a function. -/
structure Builder.Fits (b : Builder) (blocks : List Block) : Prop where
  finished : ∀ block ∈ b.finished, block ∈ blocks
  current : ∀ k, b.current = some k → ∃ block ∈ blocks, block.name = k ∧ Extends b.body block.body

/-- The names of the blocks, in order. -/
def Builder.names (b : Builder) : List BlockName := b.finished.toList.map (·.name) ++ b.current.toList

/-- Blocks have different names, the first is the entry, and they go to blocks of labels that are placed or will
have to be. -/
structure Builder.Sound (b : Builder) : Prop where
  nodup : b.names.Nodup
  entry : b.names.head? = some .entry
  numbers : ∀ n, .number n ∈ b.names → n < b.next
  labels : ∀ l, .label l ∈ b.names ↔ l ∈ b.placed
  targets : ∀ block ∈ b.finished, ∀ t ∈ block.terminator.targets, ∃ l, t = .label l ∧
    (l ∈ b.mentioned ∨ l ∈ b.placed)
  idle : b.current = none → b.body = #[]

variable {blocks : List Block}

theorem Builder.Extended.fits (h : b.Extended b') (fits : b'.Fits blocks) : b.Fits blocks where
  finished block hb := fits.finished block (h.finished.symm ▸ hb)
  current k hk := by
    obtain ⟨block, mem, name, body⟩ := fits.current k (h.current_eq hk)
    exact ⟨block, mem, name, h.body.trans body⟩

theorem Builder.Extended.sound (h : b.Extended b') (sound : b.Sound) : b'.Sound := by
  have targets : ∀ block ∈ b'.finished, ∀ t ∈ block.terminator.targets, ∃ l, t = .label l ∧
      (l ∈ b'.mentioned ∨ l ∈ b'.placed) := by
    rw [h.finished, h.mentioned, h.placed]
    exact sound.targets
  rcases h.current with ⟨same, idle⟩ | ⟨closed, n, opened, low, high⟩
  · have names : b'.names = b.names := by rw [Builder.names, h.finished, same, Builder.names]
    refine ⟨names ▸ sound.nodup, names ▸ sound.entry, fun n hn => ?_, fun l => ?_, targets, fun none => ?_⟩
    · rw [names] at hn
      exact Nat.lt_of_lt_of_le (sound.numbers n hn) h.next
    · rw [names, h.placed]
      exact sound.labels l
    · rw [same] at none
      exact (idle none).trans (sound.idle none)
  · have names : b'.names = b.names ++ [.number n] := by
      rw [Builder.names, h.finished, opened, Builder.names, closed, Option.toList_none, List.append_nil]
      rfl
    refine ⟨?_, ?_, fun m hm => ?_, fun l => ?_, targets, fun none => ?_⟩
    · rw [names, List.nodup_append]
      refine ⟨sound.nodup, by simp, ?_⟩
      intro k hk k' hk' e
      obtain rfl := List.mem_singleton.1 hk'
      have := sound.numbers n (e ▸ hk)
      omega
    · rw [names, List.head?_append, sound.entry]
      rfl
    · rw [names, List.mem_append, List.mem_singleton] at hm
      rcases hm with hm | hm
      · exact Nat.lt_of_lt_of_le (sound.numbers m hm) h.next
      · cases hm
        exact high
    · rw [names, h.placed, List.mem_append, sound.labels l]
      simp
    · rw [opened] at none
      cases none

/-- Closes the open block. -/
def Builder.close (b : Builder) (t : Terminator) : Builder :=
  { b with finished := b.finished.push ⟨b.current.getD .entry, b.body, t⟩, current := none, body := #[] }

theorem terminate_eq (t : Terminator) : Generate.terminate t ctx b = .ok ((), b.open.close t) := by
  unfold Generate.terminate
  rw [bind_run, ensureBlock_eq]
  rfl

theorem Builder.Fits.of_close {k : BlockName} {t : Terminator} (hk : b.current = some k)
    (fits : (b.close t).Fits blocks) : b.Fits blocks ∧ ⟨k, b.body, t⟩ ∈ blocks := by
  have mem : ⟨k, b.body, t⟩ ∈ blocks := fits.finished _ (by simp [Builder.close, hk])
  refine ⟨⟨fun block hb => fits.finished block ?_, fun k' hk' => ?_⟩, mem⟩
  · exact Array.mem_push_of_mem _ hb
  · rw [hk] at hk'
    cases hk'
    exact ⟨_, mem, rfl, .refl _⟩

theorem Builder.Sound.close {k : BlockName} {t : Terminator} (hk : b.current = some k) (sound : b.Sound)
    (ht : ∀ x ∈ t.targets, ∃ l, x = .label l ∧ (l ∈ b.mentioned ∨ l ∈ b.placed)) : (b.close t).Sound := by
  have names : (b.close t).names = b.names := by simp [Builder.names, Builder.close, hk]
  refine ⟨names ▸ sound.nodup, names ▸ sound.entry, ?_, ?_, ?_, fun _ => rfl⟩
  · rw [names]
    exact sound.numbers
  · rw [names]
    exact sound.labels
  · intro block hb
    rcases Array.mem_push.1 hb with hb | rfl
    · exact sound.targets block hb
    · exact ht

/-- Notes labels that are jumped to. -/
def Builder.mention (b : Builder) (ls : List LabelId) : Builder := { b with mentioned := ls ++ b.mentioned }

theorem Builder.Sound.mention (sound : b.Sound) (ls : List LabelId) : (b.mention ls).Sound where
  nodup := sound.nodup
  entry := sound.entry
  numbers := sound.numbers
  labels := sound.labels
  targets block hb t ht := by
    obtain ⟨l, rfl, hl⟩ := sound.targets block hb t ht
    exact ⟨l, rfl, hl.imp_left (List.mem_append_right ls)⟩
  idle := sound.idle

/-- Opens the block of a label; the block before it falls through. -/
def Builder.place (b : Builder) (l : LabelId) : Builder :=
  { (if b.current.isSome then b.close (.jump (.label l)) else b) with
    current := some (.label l), placed := l :: b.placed }

theorem Builder.Sound.place (sound : b.Sound) {l : LabelId} (fresh : l ∉ b.placed) : (b.place l).Sound := by
  have names : (b.place l).names = b.names ++ [.label l] := by
    unfold Builder.names Builder.place
    cases hk : b.current <;> simp [Builder.close, hk]
  have next : (b.place l).next = b.next := by
    unfold Builder.place
    split <;> rfl
  refine ⟨?_, ?_, fun n hn => ?_, fun l' => ?_, fun block hb t ht => ?_, fun none => by cases none⟩
  · rw [names, List.nodup_append]
    refine ⟨sound.nodup, by simp, ?_⟩
    intro k hk k' hk' e
    obtain rfl := List.mem_singleton.1 hk'
    exact fresh ((sound.labels l).1 (e ▸ hk))
  · rw [names, List.head?_append, sound.entry]
    rfl
  · rw [names, List.mem_append, List.mem_singleton] at hn
    rw [next]
    exact sound.numbers n (hn.resolve_right (by simp))
  · rw [names, List.mem_append, List.mem_singleton, sound.labels l', BlockName.label.injEq, or_comm]
    exact List.mem_cons.symm
  · have old : block ∈ b.finished → ∃ l', t = .label l' ∧ (l' ∈ b.mentioned ∨ l' ∈ l :: b.placed) := fun hb => by
      obtain ⟨l', rfl, hl⟩ := sound.targets block hb t ht
      exact ⟨l', rfl, hl.imp_right (List.mem_cons_of_mem l)⟩
    unfold Builder.place at hb ⊢
    split at hb
    · rename_i opened
      rw [if_pos opened]
      rcases Array.mem_push.1 hb with hb | rfl
      · exact old hb
      · exact ⟨l, List.mem_singleton.1 ht, .inr List.mem_cons_self⟩
    · rename_i closed
      rw [if_neg closed]
      exact old hb

/-- The block of a label is empty at first. -/
theorem Builder.Sound.body_place (sound : b.Sound) (l : LabelId) : (b.place l).body = #[] := by
  unfold Builder.place
  split
  · rfl
  · rename_i closed
    exact sound.idle (by simpa using closed)

/-! ## Instructions -/

/-- What an instruction can make of a builder. -/
inductive Builder.Follows (b : Builder) : Builder → Prop where
  | straight {b' : Builder} (h : b.Extended b') : Follows b b'
  | close {b' : Builder} (h : b.Extended b') (ls : List LabelId) (t : Terminator)
      (targets : ∀ x ∈ t.targets, ∃ l ∈ ls, x = .label l) : Follows b ((b'.mention ls).open.close t)
  | place (l : LabelId) (fresh : l ∉ b.placed) : Follows b (b.place l)

theorem jump_eq (l : LabelId) :
    Generate.instr (.jump l) ctx b = .ok ((), (b.mention [l]).open.close (.jump (.label l))) := terminate_eq _

theorem branch_ok {condition : Operand} {l l' : LabelId} {u : Unit}
    (run : Generate.instr (.branch condition l l') ctx b = .ok (u, b')) :
    ∃ v b₁, Generate.load condition ctx b = .ok (v, b₁) ∧
      b' = (b₁.mention [l', l]).open.close (.branch v (.label l) (.label l')) := by
  obtain ⟨v, b₁, load, run⟩ := bind_ok.1 run
  have ended : Generate.terminate (.branch v (.label l) (.label l')) ctx (b₁.mention [l', l]) = .ok (u, b') := run
  rw [terminate_eq] at ended
  cases ended
  exact ⟨v, b₁, load, rfl⟩

theorem abort_ok {code : Int} {u : Unit} (run : Generate.instr (.abort code) ctx b = .ok (u, b')) :
    b' = b.open.close (.ret (code + 1)) := by
  obtain ⟨_, _, read, run⟩ := bind_ok.1 run
  obtain ⟨rfl, rfl⟩ := read_ok.1 read
  split at run
  · rw [terminate_eq] at run
    cases run
    rfl
  · exact (throw_ok.1 run).elim

theorem label_ok {l : LabelId} {u : Unit} (run : Generate.instr (.label l) ctx b = .ok (u, b')) :
    l ∉ b.placed ∧ b' = b.place l := by
  obtain ⟨_, _, read, run⟩ := bind_ok.1 run
  obtain ⟨rfl, rfl⟩ := get_ok.1 read
  dsimp only at run
  cases old : b.placed.contains l with
  | true =>
    rw [old] at run
    obtain ⟨_, _, run, -⟩ := bind_ok.1 run
    exact (throw_ok.1 run).elim
  | false =>
    refine ⟨fun h => by simp [h] at old, ?_⟩
    rw [old, if_neg Bool.false_ne_true] at run
    unfold Builder.place
    split at run
    · rename_i opened
      obtain ⟨k, hk⟩ := Option.isSome_iff_exists.1 opened
      obtain ⟨_, b₁, closed, run⟩ := bind_ok.1 run
      rw [terminate_eq, Builder.open_eq hk] at closed
      cases closed
      rw [if_pos opened, ← modify_ok.1 run]
      rfl
    · rename_i closed
      rw [if_neg closed, ← modify_ok.1 run]

theorem follows_instr {i : Flat.Instr} {u : Unit} (run : Generate.instr i ctx b = .ok (u, b')) : b.Follows b' := by
  have straight (h : Straight (Generate.instr i)) : b.Follows b' := .straight (h _ _ _ _ run)
  cases i with
  | move source target => exact straight (.bind (straight_load _) fun _ => straight_store _ _)
  | load base indexes target =>
    exact straight (.bind (straight_indexed _ _) fun _ => .bind (straight_typeOf _) fun _ =>
      .bind (straight_define _) fun _ => straight_store _ _)
  | store source base indexes =>
    exact straight (.bind (straight_load _) fun _ => .bind (straight_indexed _ _) fun _ => straight_storeAt _ _)
  | unary op a target =>
    exact straight (.bind (straight_load _) fun _ => .bind (straight_unary _ _) fun _ => straight_store _ _)
  | binary op a c target =>
    exact straight (.bind (straight_load _) fun _ => .bind (straight_load _) fun _ =>
      .bind (straight_binary _ _ _) fun _ => straight_store _ _)
  | label l =>
    obtain ⟨fresh, rfl⟩ := label_ok run
    exact .place l fresh
  | jump l =>
    rw [jump_eq] at run
    cases run
    exact .close (.refl b) [l] _ fun x hx => ⟨l, List.mem_singleton_self l, List.mem_singleton.1 hx⟩
  | branch condition l l' =>
    obtain ⟨v, b₁, load, rfl⟩ := branch_ok run
    refine .close (straight_load _ _ _ _ _ load) [l', l] _ fun x hx => ?_
    simp only [Terminator.targets, List.mem_cons, List.not_mem_nil, or_false] at hx
    rcases hx with rfl | rfl
    · exact ⟨l, by simp, rfl⟩
    · exact ⟨l', by simp, rfl⟩
  | abort code =>
    rw [abort_ok run]
    exact .close (.refl b) [] _ fun x hx => by cases hx
  | missing => exact (throw_ok.1 run).elim

namespace Builder.Follows

theorem sound (h : b.Follows b') (hb : b.Sound) : b'.Sound := by
  cases h with
  | straight h => exact h.sound hb
  | @close b₁ h ls t targets =>
    obtain ⟨k, hk⟩ := (b₁.mention ls).exists_open
    have extended := (b₁.mention ls).extended_open
    refine (extended.sound ((h.sound hb).mention ls)).close hk fun x hx => ?_
    obtain ⟨l, hl, rfl⟩ := targets x hx
    refine ⟨l, rfl, .inl ?_⟩
    rw [extended.mentioned]
    exact List.mem_append_left _ hl
  | place l fresh => exact hb.place fresh

theorem fits (h : b.Follows b') (fits : b'.Fits blocks) : b.Fits blocks := by
  cases h with
  | straight h => exact h.fits fits
  | @close b₁ h ls t targets =>
    obtain ⟨k, hk⟩ := (b₁.mention ls).exists_open
    obtain ⟨opened, -⟩ := Builder.Fits.of_close hk fits
    have mentioned : (b₁.mention ls).Fits blocks := (b₁.mention ls).extended_open.fits opened
    exact h.fits ⟨mentioned.finished, mentioned.current⟩
  | place l fresh =>
    unfold Builder.place at fits
    split at fits
    · rename_i opened
      obtain ⟨k, hk⟩ := Option.isSome_iff_exists.1 opened
      have closed : (b.close (.jump (.label l))).Fits blocks := ⟨fits.finished, fun _ none => by cases none⟩
      exact (Builder.Fits.of_close hk closed).1
    · rename_i closed
      refine ⟨fits.finished, fun k hk => ?_⟩
      rw [hk] at closed
      exact (closed rfl).elim

theorem next_le (h : b.Follows b') : b.next ≤ b'.next := by
  cases h with
  | straight h => exact h.next
  | @close b₁ h ls t targets => exact Nat.le_trans h.next (b₁.mention ls).extended_open.next
  | place l fresh =>
    unfold Builder.place
    split <;> exact Nat.le_refl _

theorem addresses_eq (h : b.Follows b') : b'.addresses = b.addresses := by
  cases h with
  | straight h => exact h.addresses
  | @close b₁ h ls t targets => exact (b₁.mention ls).extended_open.addresses.trans h.addresses
  | place l fresh =>
    unfold Builder.place
    split <;> rfl

end Builder.Follows

end SignalLang.Ir
