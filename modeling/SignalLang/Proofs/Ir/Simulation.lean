import SignalLang.Proofs.Ir.Storage

/-!
# Functions simulate their streams

The function of a stream makes the writes of the stream, one for one and in order, and returns as the stream
ends (`generate_simulates`). A state of the stream before an instruction is matched by the state of the function
where the builder was before that instruction: in the block that was open then, behind the code that was there.
Every builder between the addresses and the end has its code in the function, so each instruction is followed by
what `carries_instr` says of it; a jump leads to the builder that had just placed the label.
-/

namespace SignalLang.Ir

open Flat (Stream Interface LabelId VarId Operand Scalar Store Element Config)
open Steps

variable {A : Arithmetic} {blocks : List Block} {ctx : Context} {b b' : Builder} {k : BlockName}
  {r r' : Registers} {m : Memory}

/-! ## How a function was made -/

/-- The builders that a function was made with. -/
structure Making (ctx : Context) (blocks : List Block) where
  intrinsics : List Intrinsic
  /-- Behind the addresses of variables. -/
  first : Builder
  /-- Behind the instructions. -/
  last : Builder
  done : Builder
  storage : Generate.storageAll ctx ctx.program.vars.toList.zipIdx { intrinsics := intrinsics } = .ok first
  instrs : Generate.instrs ctx (ctx.program.stream ctx.stream).toList.zipIdx first = .ok last
  finish : Generate.finish ctx last = .ok ((), done)
  blocks_eq : blocks = done.finished.toList

theorem exists_making {intrinsics used : List Intrinsic} (run : Generate.function ctx intrinsics = .ok (blocks, used)) :
    Nonempty (Making ctx blocks) := by
  obtain ⟨first, storage, run⟩ := except_bind_ok.1 run
  obtain ⟨last, instrs, run⟩ := except_bind_ok.1 run
  obtain ⟨⟨_, done⟩, finish, run⟩ := except_bind_ok.1 run
  cases run
  exact ⟨⟨intrinsics, first, last, done, storage, instrs, placing_inv finish, rfl⟩⟩

theorem finish_inv {u : Unit} (run : Generate.finish ctx b = .ok (u, b')) :
    (∀ l ∈ b.mentioned, l ∈ b.placed) ∧ b' = if b.current.isSome then b.close (.ret 0) else b := by
  obtain ⟨_, _, reading, run⟩ := bind_ok.1 run
  obtain ⟨rfl, rfl⟩ := get_ok.1 reading
  cases missing : b.mentioned.reverse.find? (!b.placed.contains ·) with
  | some l =>
    rw [missing] at run
    exact (throw_ok.1 run).elim
  | none =>
    rw [missing] at run
    refine ⟨fun l hl => ?_, ?_⟩
    · have := List.find?_eq_none.1 missing l (List.mem_reverse.2 hl)
      simpa using this
    · dsimp only at run
      split at run
      · rename_i opened
        obtain ⟨k, hk⟩ := Option.isSome_iff_exists.1 opened
        rw [terminate_eq, Builder.open_eq hk] at run
        cases run
        rw [if_pos opened]
      · rename_i closed
        obtain ⟨-, rfl⟩ := pure_ok.1 run
        rw [if_neg closed]

theorem instrs_append {xs ys : List (Flat.Instr × Nat)} {b'' : Builder} :
    Generate.instrs ctx (xs ++ ys) b = .ok b'' ↔
      ∃ b', Generate.instrs ctx xs b = .ok b' ∧ Generate.instrs ctx ys b' = .ok b'' := by
  induction xs generalizing b with
  | nil => simp [Generate.instrs]
  | cons x xs ih =>
    obtain ⟨i, n⟩ := x
    rw [List.cons_append, Generate.instrs, Generate.instrs]
    constructor
    · intro run
      obtain ⟨⟨u, b₁⟩, run₁, run⟩ := except_bind_ok.1 run
      obtain ⟨b', before, after⟩ := ih.1 run
      exact ⟨b', except_bind_ok.2 ⟨_, run₁, before⟩, after⟩
    · rintro ⟨b', before, after⟩
      obtain ⟨⟨u, b₁⟩, run₁, before⟩ := except_bind_ok.1 before
      exact except_bind_ok.2 ⟨_, run₁, ih.2 ⟨b', before, after⟩⟩

theorem instrs_single {i : Flat.Instr} {n : Nat} (run : Generate.instrs ctx [(i, n)] b = .ok b') :
    Generate.instr i ctx b = .ok ((), b') := by
  rw [Generate.instrs] at run
  obtain ⟨⟨u, b₁⟩, run₁, rest⟩ := except_bind_ok.1 run
  cases rest
  exact placing_inv run₁

/-- What instructions keep of a builder. -/
theorem instrs_keep (blocks : List Block) {xs : List (Flat.Instr × Nat)} (run : Generate.instrs ctx xs b = .ok b') :
    (b'.Fits blocks → b.Fits blocks) ∧ (b.Sound → b'.Sound) ∧ b.next ≤ b'.next ∧ b'.addresses = b.addresses := by
  induction xs generalizing b with
  | nil =>
    cases run
    exact ⟨id, id, Nat.le_refl _, rfl⟩
  | cons x xs ih =>
    obtain ⟨b₁, run₁, run⟩ := instrs_append.1 (show Generate.instrs ctx ([x] ++ xs) b = .ok b' from run)
    have follows := follows_instr (instrs_single run₁)
    obtain ⟨fits, sound, next, addresses⟩ := ih run
    exact ⟨fun h => follows.fits (fits h), fun h => sound (follows.sound h), Nat.le_trans follows.next_le next,
      addresses.trans follows.addresses_eq⟩

namespace Making

variable (M : Making ctx blocks)

/-- The builder before an instruction. -/
def At (i : Nat) (b : Builder) : Prop :=
  Generate.instrs ctx ((ctx.program.stream ctx.stream).toList.zipIdx.take i) M.first = .ok b

/-- Where the variables are. -/
def place : VarId → Address := placeOf ctx.program M.first.addresses

theorem at_zero : M.At 0 M.first := rfl

theorem at_last : M.At (ctx.program.stream ctx.stream).size M.last := by
  rw [At, List.take_of_length_le (by simp)]
  exact M.instrs

/-- The builder before an instruction, and how the rest was made from it. -/
theorem exists_at {i : Nat} :
    ∃ b, M.At i b ∧ Generate.instrs ctx ((ctx.program.stream ctx.stream).toList.zipIdx.drop i) b = .ok M.last :=
  instrs_append.1 (by rw [List.take_append_drop]; exact M.instrs)

variable {M} {i : Nat}

theorem At.unique (h : M.At i b) (h' : M.At i b') : b = b' := Except.ok.inj (h.symm.trans h')

theorem At.succ {x : Flat.Instr} (h : M.At i b) (found : (ctx.program.stream ctx.stream)[i]? = some x) :
    ∃ b', Generate.instr x ctx b = .ok ((), b') ∧ M.At (i + 1) b' := by
  obtain ⟨b', next, -⟩ := M.exists_at (i := i + 1)
  have entry : (ctx.program.stream ctx.stream).toList.zipIdx[i]? = some (x, i) := by
    simp [List.getElem?_zipIdx, found]
  have split := next
  rw [At, List.take_add_one, entry] at split
  obtain ⟨b₁, before, run⟩ := instrs_append.1 split
  cases At.unique h before
  exact ⟨b', instrs_single run, next⟩

theorem At.fits (h : M.At i b) : b.Fits blocks := by
  obtain ⟨b₁, here, rest⟩ := M.exists_at (i := i)
  cases At.unique h here
  refine (instrs_keep blocks rest).1 ?_
  obtain ⟨-, done⟩ := finish_inv M.finish
  have all : M.done.Fits blocks := by
    refine ⟨fun block hb => M.blocks_eq ▸ Array.mem_toList_iff.2 hb, fun k hk => ?_⟩
    rw [done] at hk
    split at hk
    · cases hk
    · rename_i closed
      exact (closed (by rw [hk]; rfl)).elim
  rw [done] at all
  split at all
  · rename_i opened
    obtain ⟨k, hk⟩ := Option.isSome_iff_exists.1 opened
    exact (Builder.Fits.of_close hk all).1
  · exact all

variable (M)

theorem current_first : M.first.current = some .entry := (precedes_storageAll M.storage).current .entry rfl

theorem sound_first : M.first.Sound := by
  refine (precedes_storageAll M.storage).sound ⟨by simp [Builder.names], rfl, ?_, ?_, ?_, fun none => by cases none⟩
  · simp [Builder.names]
  · simp [Builder.names]
  · simp

theorem laid : Laid ctx M.first ∧ M.first.addresses.size = ctx.program.vars.size := by
  have empty : Laid ctx { intrinsics := M.intrinsics } := by
    refine ⟨?_, ?_, ?_, ?_⟩ <;> simp
  obtain ⟨laid, size⟩ := laid_storageAll (b := { intrinsics := M.intrinsics }) (k := .entry) M.storage rfl
    (fun j v hv => by simpa using hv) empty
  exact ⟨laid, by simpa using size⟩

variable {M}

theorem At.sound (h : M.At i b) : b.Sound := (instrs_keep blocks h).2.1 M.sound_first

theorem At.next_le (h : M.At i b) : M.first.next ≤ b.next := (instrs_keep blocks h).2.2.1

theorem At.addresses_eq (h : M.At i b) : b.addresses = M.first.addresses := (instrs_keep blocks h).2.2.2

/-- A label's block begins with the code behind the label. -/
theorem exists_at_label {s : Stream} (stream : ctx.stream = s) {l : LabelId} {n : Nat}
    (found : ctx.program.labelIndex? s l = some n) :
    ∃ b, M.At (n + 1) b ∧ b.current = some (.label l) ∧ b.body.size = 0 := by
  subst stream
  obtain ⟨inside, placed, -⟩ := Array.findIdx?_eq_some_iff_getElem.1 found
  have here : (ctx.program.stream ctx.stream)[n]? = some (.label l) := by
    rw [Array.getElem?_eq_getElem inside]
    cases instr : (ctx.program.stream ctx.stream)[n] with
    | label l' =>
      rw [instr] at placed
      have same : l' = l := by simpa [Flat.Instr.label?] using placed
      rw [same]
    | _ =>
      rw [instr] at placed
      simp [Flat.Instr.label?] at placed
  obtain ⟨b, hb, -⟩ := M.exists_at (i := n)
  obtain ⟨b', run, hb'⟩ := hb.succ here
  obtain ⟨-, rfl⟩ := label_ok run
  exact ⟨_, hb', rfl, by rw [hb.sound.body_place]; rfl⟩

/-- The end of the stream is followed by a return. -/
theorem step_last (named : Named blocks) (hk : M.last.current = some k) :
    step? A blocks (.running k M.last.body.size r m) = some ([], .returned 0 m) := by
  obtain ⟨-, done⟩ := finish_inv M.finish
  rw [if_pos (by rw [hk]; rfl)] at done
  have closed : (M.last.close (.ret 0)).Fits blocks := by
    refine ⟨fun block hb => ?_, fun _ none => by cases none⟩
    rw [M.blocks_eq, done]
    exact Array.mem_toList_iff.2 hb
  exact step_terminator named (Builder.Fits.of_close hk closed).2

end Making

/-- The numbers that the code of a program has as constants are words: those in the code of its instructions, and
those of the fields of the structs. -/
structure InWords (p : Flat.Program) : Prop where
  instrs : ∀ s, ∀ i ∈ p.stream s, ∀ n ∈ constants i, Word.inRange n = true
  fields : ∀ kind, (p.interface kind).length ≤ 2147483648

/-! ## Blocks -/

/-- Blocks have different names, so each has been closed once. The first is the entry, and what a block goes to is
there. -/
structure WellFormed (blocks : List Block) : Prop where
  named : (blocks.map (·.name)).Nodup
  entry : blocks.head?.map (·.name) = some .entry
  targets : ∀ block ∈ blocks, ∀ t ∈ block.terminator.targets, ∃ target ∈ blocks, target.name = t

theorem Making.wellFormed (M : Making ctx blocks) : WellFormed blocks := by
  have sound : M.last.Sound := M.at_last.sound
  obtain ⟨mentioned, done⟩ := finish_inv M.finish
  have soundDone : M.done.Sound ∧ M.done.current = none := by
    rw [done]
    split
    · rename_i opened
      obtain ⟨k, hk⟩ := Option.isSome_iff_exists.1 opened
      exact ⟨sound.close hk (fun _ h => by cases h), rfl⟩
    · rename_i closed
      exact ⟨sound, by simpa using closed⟩
  have placed : M.done.mentioned = M.last.mentioned ∧ M.done.placed = M.last.placed := by
    rw [done]
    split <;> exact ⟨rfl, rfl⟩
  have names : M.done.names = blocks.map (·.name) := by
    rw [Builder.names, soundDone.2, Option.toList_none, List.append_nil]
    exact congrArg (List.map (·.name)) M.blocks_eq.symm
  have sound := soundDone.1
  refine ⟨names ▸ sound.nodup, ?_, fun block hb t ht => ?_⟩
  · rw [← List.head?_map, ← names]
    exact sound.entry
  · rw [M.blocks_eq] at hb
    obtain ⟨l, rfl, hl⟩ := sound.targets block (Array.mem_toList_iff.1 hb) t ht
    have hl : l ∈ M.done.placed := by
      rw [placed.1, placed.2] at hl
      rw [placed.2]
      exact hl.elim (mentioned l) id
    have mem := (sound.labels l).2 hl
    rw [names] at mem
    obtain ⟨target, htarget, name⟩ := List.mem_map.1 mem
    exact ⟨target, htarget, name⟩

/-! ## Matching states -/

variable {place : VarId → Address}

/-- The elements of variables with storage are where the variables are. -/
def Agrees (p : Flat.Program) (s : Stream) (place : VarId → Address) (σ : Store p) (m : Memory) : Prop :=
  ∀ id v, p.vars[id]? = some v → Stored s v.location → ∀ coord,
    m ((place id).below coord) = (p.element? id coord).map σ

theorem Laid.stored_of_address (laid : Laid ctx b) (size : b.addresses.size = ctx.program.vars.size) {id : VarId}
    {w : Value} (found : b.addresses.getD id none = some w) :
    ∃ v, ctx.program.vars[id]? = some v ∧ Stored ctx.stream v.location := by
  have inside : id < b.addresses.size := by
    rw [Array.getD_eq_getD_getElem?] at found
    cases here : b.addresses[id]? with
    | none =>
      rw [here] at found
      cases found
    | some a => exact (Array.getElem?_eq_some_iff.1 here).1
  have declared := Array.getElem?_eq_getElem (size ▸ inside : id < ctx.program.vars.size)
  exact ⟨_, declared, (laid.stored id inside _ declared).1 (by rw [found]; rfl)⟩

/-- A later builder is ready where the first one was. -/
theorem Ready.later {σ : Store ctx.program} (ready : Ready place σ b r m) (next : b.next ≤ b'.next)
    (addresses : b'.addresses = b.addresses) : Ready place σ b' r m where
  addressed id v hv := by
    have h := ready.addressed id v (addresses ▸ hv)
    refine ⟨h.eval, ?_⟩
    cases v with
    | register n t => exact Nat.lt_of_lt_of_le h.below next
    | _ => trivial
  memory id v hv := ready.memory id v (addresses ▸ hv)

/-- The registers that were set before stay as they are. -/
theorem Ready.kept {σ : Store ctx.program} (ready : Ready place σ b r m) (kept : ∀ i < b.next, r' i = r i) :
    Ready place σ b r' m where
  addressed id v hv := by
    have h := ready.addressed id v hv
    exact ⟨(h.below.eval?_eq kept).trans h.eval, h.below⟩
  memory := ready.memory

/-- Writing an element in both machines. -/
theorem Ready.write {σ : Store ctx.program} (ready : Ready place σ b r m) {e : Element ctx.program} (x : Scalar)
    (separate : ∀ id w coord, b.addresses.getD id none = some w →
      (place id).below coord = locate place e → id = e.var ∧ coord = e.coord) :
    Ready place (σ.write e x) b r (m.write (locate place e) x) where
  addressed := ready.addressed
  memory id w hw coord := by
    unfold Memory.write
    split
    · rename_i here
      obtain ⟨rfl, rfl⟩ := separate id w coord hw here
      rw [Flat.Program.element?_eq_some.2 ⟨rfl, rfl⟩, Option.map_some, Store.write_self]
    · rename_i elsewhere
      rw [ready.memory id w hw coord]
      cases element : ctx.program.element? id coord with
      | none => rfl
      | some e' =>
        have other : e' ≠ e := by
          rintro rfl
          obtain ⟨rfl, rfl⟩ := Flat.Program.element?_eq_some.1 element
          exact elsewhere rfl
        simp [Store.write_of_ne x other]

/-- The function is where the builder was before the instruction that is next. -/
def Making.Matches (M : Making ctx blocks) : Config ctx.program → State → Prop
  | .running i σ, .running k n r m => ∃ b, M.At i b ∧ i ≤ (ctx.program.stream ctx.stream).size ∧
      b.current = some k ∧ n = b.body.size ∧ Ready M.place σ M.first r m
  | _, _ => False

/-- How a machine stopped. -/
inductive Outcome where
  | ended
  | aborted (code : Int)
  | stuck
deriving DecidableEq

/-- The outcome of a stream that has stopped. -/
def streamOutcome {p : Flat.Program} : Config p → Outcome
  | .running .. => .ended
  | .aborted code _ => .aborted code
  | .trapped _ => .stuck

/-- The outcome of a function that has stopped. -/
def functionOutcome : State → Outcome
  | .returned code _ => if code = 0 then .ended else .aborted (code - 1)
  | .running .. => .stuck

/-- A write of an element, as a write of its place. -/
def relocate {p : Flat.Program} (place : VarId → Address) (w : Element p × Scalar) : Address × Scalar :=
  (locate place w.1, w.2)

section Simulating

variable {M : Making ctx blocks}

/-- The state behind the first addresses matches the beginning of the stream. -/
theorem Making.matches_start (words : InWords ctx.program) {σ : Store ctx.program}
    (agrees : Agrees ctx.program ctx.stream M.place σ m) :
    ∃ n t, Runs (step? A blocks) n (.running .entry 0 (fun _ => none) m) [] t ∧ M.Matches (.running 0 σ) t := by
  have named : Named blocks := M.wellFormed.named
  obtain ⟨n, r, run, held⟩ := runs_storageAll (A := A) (r := fun _ => none) (m := m)
    (b := { intrinsics := M.intrinsics }) (k := .entry) named (numbered_of_lengths words.fields) M.storage
    M.at_zero.fits rfl
    (fun j v hv => by simpa using hv) (fun id w hw => by simp at hw)
  refine ⟨n, _, run, M.first, M.at_zero, Nat.zero_le _, M.current_first, rfl, held, fun id w found => ?_⟩
  obtain ⟨v, declared, stored⟩ := M.laid.1.stored_of_address M.laid.2 found
  exact agrees id v declared stored

/-- Each instruction is followed by its code. -/
theorem Making.advance (literals : ctx.program.ScalarLiterals) (valid : ctx.program.validate = [])
    (words : InWords ctx.program) {i : Nat} {σ : Store ctx.program} {n : Nat}
    (h : M.Matches (.running i σ) (.running k n r m)) :
    (∃ l u n' v, ctx.program.step? ctx.stream A.operators (.running i σ) = some (l, u) ∧ l.length ≤ 1 ∧
      Runs (step? A blocks) (n' + 1) (.running k n r m) (l.map (relocate M.place)) v ∧ M.Matches u v) ∨
    ∃ m' u n' v, Runs (ctx.program.step? ctx.stream A.operators) m' (.running i σ) [] u ∧
      Runs (step? A blocks) n' (.running k n r m) [] v ∧ ctx.program.step? ctx.stream A.operators u = none ∧
      step? A blocks v = none ∧ streamOutcome u = functionOutcome v := by
  obtain ⟨b, hb, le, hk, rfl, ready⟩ := h
  have named : Named blocks := M.wellFormed.named
  rcases Nat.lt_or_eq_of_le le with inside | rfl
  · have found := Array.getElem?_eq_getElem inside
    have mem := Array.getElem_mem inside
    generalize (ctx.program.stream ctx.stream)[i] = instr at found mem
    obtain ⟨placed, places, checked⟩ := Flat.Program.checkInstr_of_validate valid ctx.stream
    obtain ⟨f, effect, allowed⟩ :=
      Flat.Instr.outcome?_of_check places (literals ctx.stream _ mem) (checked _ mem) A.operators σ
    obtain ⟨b', run, hb'⟩ := hb.succ found
    have carries := carries_instr (A := A) named hk hb.sound (ready.later hb.next_le hb.addresses_eq)
      (words.instrs ctx.stream instr mem) run hb'.fits effect
    have step : ctx.program.step? ctx.stream A.operators (.running i σ) = f.after? ctx.stream i σ := by
      simp only [Flat.Program.step?, found, effect, Option.bind_some]
    have keep {r' : Registers} (kept : ∀ j < b.next, r' j = r j) : Ready M.place σ M.first r' m :=
      ready.kept fun j hj => kept j (Nat.lt_of_lt_of_le hj hb.next_le)
    cases f with
    | write e x =>
      obtain ⟨⟨w, address⟩, n', r', write, hk', kept⟩ := carries
      rw [hb.addresses_eq] at address
      obtain ⟨v, declared, stored⟩ := M.laid.1.stored_of_address M.laid.2 address
      have written : Ready M.place (σ.write e x) M.first r' (m.write (locate M.place e) x) := by
        refine (keep kept).write x fun id w' coord address' same => ?_
        obtain ⟨v', declared', stored'⟩ := M.laid.1.stored_of_address M.laid.2 address'
        exact M.laid.1.separate (listed_of_validate valid) M.laid.2 declared' stored' declared stored same
      exact .inl ⟨[(e, x)], .running (i + 1) (σ.write e x), n', _, step, Nat.le_refl 1, write, b', hb', inside, hk',
        rfl, written⟩
    | next =>
      obtain ⟨k', fall, hk'⟩ := carries
      exact .inl ⟨[], .running (i + 1) σ, 0, _, step, Nat.zero_le 1, fall, b', hb', inside, hk', rfl, ready⟩
    | goto l =>
      obtain ⟨n', r', jump, kept⟩ := carries
      obtain ⟨j, here⟩ := allowed
      obtain ⟨target, index, before⟩ := Flat.Program.labelIndex?_of_getElem? here
      obtain ⟨b'', hb'', hk'', empty⟩ := exists_at_label (M := M) rfl index
      have step : ctx.program.step? ctx.stream A.operators (.running i σ) = some ([], .running (target + 1) σ) := by
        rw [step, Flat.Outcome.after?, index]
        rfl
      exact .inl ⟨[], _, n', _, step, Nat.zero_le 1, jump, b'', hb'', before, hk'', empty.symm, keep kept⟩
    | abort code =>
      obtain ⟨n', ret⟩ := carries
      refine .inr ⟨1, .aborted code σ, n', _, .single step, ret, rfl, rfl, ?_⟩
      have low : 0 ≤ code := allowed.1
      rw [streamOutcome, functionOutcome, if_neg (by omega), Int.add_sub_cancel]
    | trap =>
      obtain ⟨n', k', j, r', m', stopping, stop⟩ := carries
      exact .inr ⟨1, .trapped σ, n', _, .single step, stopping, rfl, stop, rfl⟩
  · cases hb.unique M.at_last
    refine .inr ⟨0, _, 1, _, .zero _, .single (step_last named hk), ?_, rfl, rfl⟩
    simp [Flat.Program.step?]

/-- A function simulates its stream. -/
theorem Making.simulation (M : Making ctx blocks) (literals : ctx.program.ScalarLiterals)
    (valid : ctx.program.validate = []) (words : InWords ctx.program) (A : Arithmetic) :
    Simulation (ctx.program.step? ctx.stream A.operators) (step? A blocks) (relocate M.place) M.Matches
      streamOutcome functionOutcome where
  advance c t h := by
    cases c with
    | running i σ =>
      cases t with
      | running k n r m => exact M.advance literals valid words h
      | returned code m => exact h.elim
    | aborted code σ => exact h.elim
    | trapped σ => exact h.elim

end Simulating

/-! ## Modules -/

/-- The variables of a struct are listed once. -/
theorem nodup_of_structFields {p : Flat.Program} {kind : Interface} {seen ids : List VarId} {n : Nat} {fs : List Ty}
    (run : structFields p kind seen n ids = .ok fs) : ids.Nodup ∧ ∀ id ∈ ids, id ∉ seen := by
  induction ids generalizing seen n fs with
  | nil => exact ⟨.nil, fun _ h => by cases h⟩
  | cons id ids ih =>
    rw [structFields] at run
    split at run
    · cases run
    · split at run
      · cases run
      · rename_i fresh
        obtain ⟨f, -, run⟩ := except_bind_ok.1 run
        obtain ⟨rest, run, -⟩ := except_bind_ok.1 run
        obtain ⟨nodup, others⟩ := ih run
        refine ⟨List.nodup_cons.2 ⟨fun mem => others id mem List.mem_cons_self, nodup⟩, fun j hj seen => ?_⟩
        rcases List.mem_cons.1 hj with rfl | hj
        · exact fresh (List.contains_iff_mem.2 seen)
        · exact others j hj (List.mem_cons_of_mem _ seen)

theorem mapError_ok {α ε ε' : Type} {e : Except ε α} {f : ε → ε'} {a : α} (h : e.mapError f = .ok a) : e = .ok a := by
  cases e with
  | error e => cases h
  | ok b => exact congrArg _ (Except.ok.inj h)

/-- A module has the functions of the two streams, and its structs list each variable once. -/
theorem generate_inv {p : Flat.Program} {name triple : String} {mod : Module}
    (made : generate p name triple = .ok mod) :
    (∀ kind, (p.interface kind).Nodup) ∧ mod.errors = p.errors.toList ∧
      ∀ s, ∃ fields, Nonempty (Making ⟨p, fields, s⟩ (mod.blocks s)) := by
  obtain ⟨inputs, runInputs, made⟩ := except_bind_ok.1 made
  obtain ⟨outputs, runOutputs, made⟩ := except_bind_ok.1 made
  obtain ⟨statics, runStatics, made⟩ := except_bind_ok.1 made
  obtain ⟨⟨main, used⟩, runMain, made⟩ := except_bind_ok.1 made
  obtain ⟨⟨init, used'⟩, runInit, made⟩ := except_bind_ok.1 made
  cases made
  refine ⟨fun kind => ?_, rfl, fun s => ?_⟩
  · cases kind with
    | input => exact (nodup_of_structFields (mapError_ok runInputs)).1
    | output => exact (nodup_of_structFields (mapError_ok runOutputs)).1
    | static => exact (nodup_of_structFields (mapError_ok runStatics)).1
  · cases s with
    | staticInit => exact ⟨_, exists_making runInit⟩
    | main => exact ⟨_, exists_making runMain⟩

/-- Where the function of a stream has the variables: those of the interface in the fields of the structs, in the
order of their lists, and its own in storage that it makes, all apart from each other. -/
structure Placement (p : Flat.Program) (s : Stream) (place : VarId → Address) : Prop where
  fields : ∀ kind ∈ params s, ∀ (i : Nat) (id : VarId), (p.interface kind)[i]? = some id →
    place id = ⟨.struct kind, [(i : Int)]⟩
  own : ∀ id v, p.vars[id]? = some v → v.location = s.location → ∃ n, place id = ⟨.stack n, []⟩
  separate : ∀ id id' v v' c c', p.vars[id]? = some v → Stored s v.location → p.vars[id']? = some v' →
    Stored s v'.location → (place id).below c = (place id').below c' → id = id' ∧ c = c'

theorem Making.placement (M : Making ctx blocks) (valid : ctx.program.validate = [])
    (nodup : ∀ kind, (ctx.program.interface kind).Nodup) : Placement ctx.program ctx.stream M.place := by
  have listed := listed_of_validate valid
  obtain ⟨laid, size⟩ := M.laid
  refine ⟨fun kind given i id member => ?_, fun id v found own => ?_, ?_⟩
  · obtain ⟨v, found, located⟩ := listed kind id (List.mem_of_getElem? member)
    rcases laid.place_cases listed size found (.inr ⟨kind, given, located⟩) with
      ⟨kind', j, place, located', member'⟩ | ⟨n, t, -, own, -⟩
    · have same := interfaceAt?_location kind
      rw [← located, located', interfaceAt?_location] at same
      cases same
      have index : i = j := by
        have inside := (List.getElem?_eq_some_iff.1 member).1
        exact (List.getElem?_inj inside (nodup kind)).1 (member.trans member'.symm)
      rw [index]
      exact place
    · have none := interfaceAt?_location kind
      rw [← located, own, interfaceAt?_stream] at none
      cases none
  · rcases laid.place_cases listed size found (.inl own) with ⟨kind, _, -, located, -⟩ | ⟨n, t, place, -, -⟩
    · have none := interfaceAt?_location kind
      rw [← located, own, interfaceAt?_stream] at none
      cases none
    · exact ⟨n, place⟩
  · intro id id' v v' c c' found stored found' stored' same
    exact laid.separate listed size found stored found' stored' same

/-- A memory that holds the contents of a store. -/
theorem Placement.exists_agrees {p : Flat.Program} {s : Stream} (h : Placement p s place) (σ : Store p) :
    ∃ m, Agrees p s place σ m := by
  classical
  let holds (a : Address) (e : Element p) : Prop := Stored s e.location ∧ locate place e = a
  refine ⟨fun a => if h : ∃ e, holds a e then some (σ h.choose) else none, fun id v found stored coord => ?_⟩
  have unique (e : Element p) (he : holds ((place id).below coord) e) : e.var = id ∧ e.coord = coord :=
    h.separate _ _ _ _ _ _ (Array.getElem?_eq_getElem e.declared) he.1 found stored he.2
  dsimp only
  split
  · rename_i some
    rw [Flat.Program.element?_eq_some.2 (unique _ some.choose_spec)]
    rfl
  · rename_i none
    cases element : p.element? id coord with
    | none => rfl
    | some e =>
      obtain ⟨rfl, rfl⟩ := Flat.Program.element?_eq_some.1 element
      have located : e.location = v.location := by
        rw [Array.getElem?_eq_getElem e.declared] at found
        cases found
        rfl
      exact (none ⟨e, located ▸ stored, rfl⟩).elim

/-- A function from a memory does what its stream does from a store. -/
structure SameRuns (p : Flat.Program) (s : Stream) (A : Arithmetic) (blocks : List Block) (place : VarId → Address)
    (σ : Store p) (m : Memory) : Prop where
  writes : ∀ vs, (∃ t, Reaches (step? A blocks) (.running .entry 0 (fun _ => none) m) vs t) ↔
    ∃ ws c, Reaches (p.step? s A.operators) (.running 0 σ) ws c ∧ vs = ws.map (relocate place)
  ends : ∀ vs, (∃ m', Reaches (step? A blocks) (.running .entry 0 (fun _ => none) m) vs (.returned 0 m')) ↔
    ∃ ws σ', Reaches (p.step? s A.operators) (.running 0 σ) ws (.running (p.stream s).size σ') ∧
      vs = ws.map (relocate place)
  aborts : ∀ vs code, 0 ≤ code →
    ((∃ m', Reaches (step? A blocks) (.running .entry 0 (fun _ => none) m) vs (.returned (code + 1) m')) ↔
      ∃ ws σ', Reaches (p.step? s A.operators) (.running 0 σ) ws (.aborted code σ') ∧ vs = ws.map (relocate place))

theorem functionOutcome_eq_ended {t : State} (h : functionOutcome t = .ended) : ∃ m, t = .returned 0 m := by
  cases t with
  | running k n r m => cases h
  | returned code m =>
    rw [functionOutcome] at h
    split at h
    · rename_i zero
      exact ⟨m, by rw [zero]⟩
    · cases h

theorem functionOutcome_eq_aborted {t : State} {code : Int} (h : functionOutcome t = .aborted code) :
    ∃ m, t = .returned (code + 1) m := by
  cases t with
  | running k n r m => cases h
  | returned c m =>
    rw [functionOutcome] at h
    split at h
    · cases h
    · cases h
      exact ⟨m, by rw [Int.sub_add_cancel]⟩

/-- A stream that has come to a state without a step is at its end, or was ended by an abort or a trap. -/
theorem streamOutcome_eq_ended {p : Flat.Program} {s : Stream} {ops : Flat.Operators} {c : Config p}
    (safe : c.Safe s ops) (stop : p.step? s ops c = none) (h : streamOutcome c = .ended) :
    ∃ σ, c = .running (p.stream s).size σ := by
  cases safe with
  | ended σ => exact ⟨σ, rfl⟩
  | aborted code σ _ _ => cases h
  | trapped σ => cases h
  | steps step =>
    rw [stop] at step
    cases step

theorem streamOutcome_eq_aborted {p : Flat.Program} {c : Config p} {code : Int}
    (h : streamOutcome c = .aborted code) : ∃ σ, c = .aborted code σ := by
  cases c with
  | running i σ => cases h
  | aborted code' σ =>
    cases h
    exact ⟨σ, rfl⟩
  | trapped σ => cases h

section SameRuns

variable (M : Making ctx blocks) {σ : Store ctx.program} {ws : List (Element ctx.program × Scalar)}
  {vs : List (Address × Scalar)} {c : Config ctx.program} {t : State}

/-- The function comes where the stream does. -/
theorem Making.follows (literals : ctx.program.ScalarLiterals) (valid : ctx.program.validate = [])
    (words : InWords ctx.program) (agrees : Agrees ctx.program ctx.stream M.place σ m)
    (run : Reaches (ctx.program.step? ctx.stream A.operators) (.running 0 σ) ws c) :
    ∃ t, Reaches (step? A blocks) (.running .entry 0 (fun _ => none) m) (ws.map (relocate M.place)) t ∧
      (ctx.program.step? ctx.stream A.operators c = none → streamOutcome c = functionOutcome t) := by
  obtain ⟨n, t, prologue, start⟩ := M.matches_start (A := A) words agrees
  obtain ⟨j, run⟩ := run
  obtain ⟨u, ⟨j', run'⟩, stops⟩ := (M.simulation literals valid words A).forward start run
  exact ⟨u, ⟨n + j', prologue.append run'⟩, fun stop => (stops stop).2⟩

/-- The stream comes where the function does. -/
theorem Making.leads (literals : ctx.program.ScalarLiterals) (valid : ctx.program.validate = [])
    (words : InWords ctx.program) (agrees : Agrees ctx.program ctx.stream M.place σ m)
    (run : Reaches (step? A blocks) (.running .entry 0 (fun _ => none) m) vs t) :
    ∃ ws c, Reaches (ctx.program.step? ctx.stream A.operators) (.running 0 σ) ws c ∧
      vs = ws.map (relocate M.place) ∧ (step? A blocks t = none →
        ctx.program.step? ctx.stream A.operators c = none ∧ streamOutcome c = functionOutcome t) := by
  obtain ⟨n, u, prologue, start⟩ := M.matches_start (A := A) words agrees
  obtain ⟨j, run⟩ := run
  rcases Nat.lt_or_ge j n with lt | le
  · -- The function is still computing addresses.
    obtain ⟨rest, split, more⟩ := run.split prologue (Nat.le_of_lt lt)
    obtain ⟨rfl, -⟩ := List.append_eq_nil_iff.1 split.symm
    refine ⟨[], _, ⟨0, .zero _⟩, rfl, fun stop => ?_⟩
    have := (more.of_stop stop).1
    omega
  · obtain ⟨rest, rfl, more⟩ := prologue.split run le
    obtain ⟨ws, c, reaches, same, stops⟩ := (M.simulation literals valid words A).backward start more
    exact ⟨ws, c, reaches, same, stops⟩

theorem Making.sameRuns (literals : ctx.program.ScalarLiterals) (valid : ctx.program.validate = [])
    (words : InWords ctx.program) (A : Arithmetic) (agrees : Agrees ctx.program ctx.stream M.place σ m) :
    SameRuns ctx.program ctx.stream A blocks M.place σ m where
  writes vs := by
    constructor
    · rintro ⟨t, run⟩
      obtain ⟨ws, c, reaches, same, -⟩ := M.leads literals valid words agrees run
      exact ⟨ws, c, reaches, same⟩
    · rintro ⟨ws, c, run, rfl⟩
      obtain ⟨t, reaches, -⟩ := M.follows literals valid words agrees run
      exact ⟨t, reaches⟩
  ends vs := by
    constructor
    · rintro ⟨m', run⟩
      obtain ⟨ws, c, reaches, same, stops⟩ := M.leads literals valid words agrees run
      obtain ⟨stop, outcome⟩ := stops rfl
      obtain ⟨j, steps⟩ := reaches
      have keeps : c.Keeps ctx.stream σ := Config.Keeps.run literals valid ⟨Nat.zero_le _, fun _ _ => rfl⟩ steps
      obtain ⟨σ', rfl⟩ := streamOutcome_eq_ended (keeps.step literals valid A.operators).1 stop outcome
      exact ⟨ws, σ', ⟨j, steps⟩, same⟩
    · rintro ⟨ws, σ', run, rfl⟩
      obtain ⟨t, reaches, stops⟩ := M.follows literals valid words agrees run
      obtain ⟨m', rfl⟩ := functionOutcome_eq_ended (stops (by simp [Flat.Program.step?])).symm
      exact ⟨m', reaches⟩
  aborts vs code low := by
    constructor
    · rintro ⟨m', run⟩
      obtain ⟨ws, c, reaches, same, stops⟩ := M.leads literals valid words agrees run
      have outcome := (stops rfl).2
      rw [functionOutcome, if_neg (by omega), Int.add_sub_cancel] at outcome
      obtain ⟨σ', rfl⟩ := streamOutcome_eq_aborted outcome
      exact ⟨ws, σ', reaches, same⟩
    · rintro ⟨ws, σ', run, rfl⟩
      obtain ⟨t, reaches, stops⟩ := M.follows literals valid words agrees run
      obtain ⟨m', rfl⟩ := functionOutcome_eq_aborted (stops rfl).symm
      exact ⟨m', reaches⟩

end SameRuns

/-- The text of the code for an abort is its entry of the error table. -/
theorem describe_abort {p : Flat.Program} {mod : Module} (errors : mod.errors = p.errors.toList) {code : Int}
    (low : 0 ≤ code) (high : code < p.errors.size) : p.errors[code.toNat]? = some (mod.describe (code + 1)) := by
  have inside : code.toNat < p.errors.size := by omega
  have index : (code + 1).toNat - 1 = code.toNat := by omega
  have entry : mod.errors[code.toNat]? = some p.errors[code.toNat] := by
    rw [errors, Array.getElem?_toList, Array.getElem?_eq_getElem inside]
  rw [Array.getElem?_eq_getElem inside, Module.describe, if_neg (by omega)]
  simp only [if_neg (show ¬code + 1 < 0 by omega), index, entry, Option.getD_some]

/-- The function that is generated for a stream of a valid program simulates it if the numbers that its code has as
constants are words. Its blocks are well-formed, and the variables have places such that, whatever the operations
compute, from a memory that holds the contents of a store the function makes the writes of the stream in order,
returns zero exactly when the stream ends, and one more than a code exactly when the stream aborts with the code;
the text of what it returns is then the entry of the code in the error table. -/
theorem generate_simulates (p : Flat.Program) (name triple : String) (mod : Module) (literals : p.ScalarLiterals)
    (valid : p.validate = []) (words : InWords p) (made : generate p name triple = .ok mod) (s : Stream) :
    WellFormed (mod.blocks s) ∧ ∃ place, Placement p s place ∧ (∀ σ : Store p, ∃ m, Agrees p s place σ m) ∧
      ∀ (A : Arithmetic) (σ : Store p) (m : Memory), Agrees p s place σ m →
        SameRuns p s A (mod.blocks s) place σ m ∧
        ∀ ws code σ', Reaches (p.step? s A.operators) (.running 0 σ) ws (.aborted code σ') →
          p.errors[code.toNat]? = some (mod.describe (code + 1)) := by
  obtain ⟨nodup, errors, functions⟩ := generate_inv made
  obtain ⟨fields, ⟨M⟩⟩ := functions s
  have placement := M.placement valid nodup
  refine ⟨M.wellFormed, M.place, placement, placement.exists_agrees, fun A σ m agrees =>
    ⟨M.sameRuns literals valid words A agrees, fun ws code σ' ⟨n, run⟩ => ?_⟩⟩
  have keeps : (Config.aborted code σ').Keeps s σ :=
    Config.Keeps.run literals valid ⟨Nat.zero_le _, fun _ _ => rfl⟩ run
  exact describe_abort errors keeps.inside.1 keeps.inside.2

theorem generate_simulates_search :
    (Flat.searchProgram.ScalarLiterals ∧ Flat.searchProgram.validate = [] ∧ InWords Flat.searchProgram) ∧
    ∃ mod, generate Flat.searchProgram "search" "" = .ok mod ∧ WellFormed (mod.blocks .main) ∧
      ∃ place, Placement Flat.searchProgram .main place ∧
        ∀ (A : Arithmetic) (σ : Store Flat.searchProgram), ∃ m, Agrees Flat.searchProgram .main place σ m ∧
          SameRuns Flat.searchProgram .main A (mod.blocks .main) place σ m := by
  have literals : Flat.searchProgram.ScalarLiterals := by
    intro s
    cases s <;> decide
  have valid : Flat.searchProgram.validate = [] := rfl
  have words : InWords Flat.searchProgram := by
    constructor
    · intro s
      cases s <;> decide
    · intro kind
      cases kind <;> decide
  have isMade : (generate Flat.searchProgram "search" "").isOk = true := by decide +kernel
  obtain ⟨mod, made⟩ : ∃ mod, generate Flat.searchProgram "search" "" = .ok mod := by
    cases made : generate Flat.searchProgram "search" "" with
    | error e =>
      rw [made] at isMade
      cases isMade
    | ok mod => exact ⟨mod, rfl⟩
  obtain ⟨formed, place, placement, memories, same⟩ :=
    generate_simulates Flat.searchProgram "search" "" mod literals valid words made .main
  refine ⟨⟨literals, valid, words⟩, mod, made, formed, place, placement, fun A σ => ?_⟩
  obtain ⟨m, agrees⟩ := memories σ
  exact ⟨m, agrees, (same A σ m agrees).1⟩

/-- Writes the last element of an array that has more elements than there are words. -/
def longProgram : Flat.Program where
  vars := #[⟨some (.array 4294967332 .int), .output⟩]
  main := #[.move (.ofInt 1) ⟨.variable 0 [4294967331], []⟩]
  outputs := [0]

/-- The code for `longProgram`. -/
def longBlock : Block where
  name := .entry
  body := #[
    .define 0 (.address (.struct .output) (.param .output) [.int 0, .int 0] (.array 4294967332 .i32)),
    .define 1 (.address (.array 4294967332 .i32) (.register 0 (.pointer (.array 4294967332 .i32)))
      [.int 0, .int 4294967331] .i32),
    .store (.int 1) (.register 1 (.pointer .i32))]
  terminator := .ret 0

/-- The last index is the word 35, so the code writes an element near the beginning. -/
theorem runs_longBlock {x : Scalar} (cell : m ⟨.struct .output, [0, 35]⟩ = some x) :
    ∃ m', Runs (step? A [longBlock]) 4 (.running .entry 0 (fun _ => none) m) [(⟨.struct .output, [0, 35]⟩, .int 1)]
      (.returned 0 m') := by
  let a : Address := ⟨.struct .output, [0, 35]⟩
  let r : Registers := Registers.set (fun _ => none) 0 (.address ⟨.struct .output, [0]⟩)
  let r' : Registers := r.set 1 (.address a)
  have base : step? A [longBlock] (.running .entry 0 (fun _ => none) m) = some ([], .running .entry 1 r m) := rfl
  have element : step? A [longBlock] (.running .entry 1 r m) = some ([], .running .entry 2 r' m) := rfl
  have write : step? A [longBlock] (.running .entry 2 r' m) =
      some ([(a, .int 1)], .running .entry 3 r' (m.write a (.int 1))) := by
    have step : step? A [longBlock] (.running .entry 2 r' m) =
        (m a).bind fun _ => some ([(a, .int 1)], .running .entry 3 r' (m.write a (.int 1))) := rfl
    rw [step, cell, Option.bind_some]
  have back : step? A [longBlock] (.running .entry 3 r' (m.write a (.int 1))) =
      some ([], .returned 0 (m.write a (.int 1))) := rfl
  exact ⟨_, .succ base (.succ element (.succ write (.single back)))⟩

/-- Beyond the words a function does not do what its stream does: the stream writes the last element of the array. -/
theorem not_simulates_long :
    (longProgram.ScalarLiterals ∧ longProgram.validate = []) ∧
    ∃ mod, generate longProgram "long" "" = .ok mod ∧
      ¬ ∃ place, Placement longProgram .main place ∧ ∀ (A : Arithmetic) (σ : Store longProgram) (m : Memory),
        Agrees longProgram .main place σ m → SameRuns longProgram .main A (mod.blocks .main) place σ m := by
  have literals : longProgram.ScalarLiterals := by
    intro s
    cases s <;> decide
  refine ⟨⟨literals, rfl⟩, _, rfl, ?_⟩
  rintro ⟨place, placement, same⟩
  let A : Arithmetic :=
    ⟨fun _ x _ => x, id, fun _ x _ => x, fun _ x _ => x, fun x _ _ => x, id, id, fun _ _ => .int 0⟩
  let σ : Store longProgram := fun _ => .int 0
  let e : Element longProgram := ⟨0, [4294967331], by decide, by decide⟩
  obtain ⟨m, agrees⟩ := placement.exists_agrees σ
  have here : place 0 = ⟨.struct .output, [0]⟩ := placement.fields .output (by decide) 0 0 rfl
  have cell : m ⟨.struct .output, [0, 35]⟩ = some (.int 0) := by
    have first := agrees 0 _ rfl (.inr ⟨.output, by decide, rfl⟩) [35]
    rw [here] at first
    exact first
  have step : longProgram.step? .main A.operators (.running 0 σ) =
      some ([(e, .int 1)], .running 1 (σ.write e (.int 1))) := rfl
  obtain ⟨t, n, run⟩ := ((same A σ m agrees).writes [relocate place (e, .int 1)]).2 ⟨_, _, ⟨1, .single step⟩, rfl⟩
  obtain ⟨m', run'⟩ := runs_longBlock (A := A) cell
  obtain ⟨rest, split, -⟩ := run.split run' (run'.le_of_stop rfl run)
  have other : (⟨.struct .output, [0, 35]⟩ : Address) = locate place e :=
    congrArg Prod.fst (List.cons.inj split).1
  rw [locate, here] at other
  exact absurd other (by decide)

end SignalLang.Ir
