import SignalLang.Proofs.Ir.Execution

/-!
# The storage of variables

A function begins with the addresses of the variables that its stream may touch. `placeOf` is where a variable is
then: a field of a struct, by its number in the list of the struct, or the storage of an `alloca`. Different
variables have different places (`Laid.separate`).
-/

namespace SignalLang.Ir

open Flat (Stream Interface LabelId VarId Operand Scalar Store Element)
open Steps

/-- The struct that holds the variables of a location. -/
def interfaceAt? : Flat.Location → Option Interface
  | .input => some .input
  | .output => some .output
  | .static => some .static
  | .staticBody | .mainBody | .unknown => none

theorem interfaceAt?_location (kind : Interface) : interfaceAt? kind.location = some kind := by
  cases kind <;> rfl

theorem interfaceAt?_stream (s : Stream) : interfaceAt? s.location = none := by
  cases s <;> rfl

/-- The numbers of fields are words. -/
def Numbered (p : Flat.Program) : Prop :=
  ∀ id i, Generate.fieldNumber? p id = some i → Word.inRange i = true

theorem numbered_of_lengths {p : Flat.Program} (fields : ∀ kind, (p.interface kind).length ≤ 2147483648) :
    Numbered p := by
  intro id i number
  obtain ⟨kind, -, here⟩ := List.exists_of_findSome?_eq_some number
  obtain ⟨inside, -⟩ := List.idxOf?_eq_some_iff.1 here
  have bound := fields kind
  rw [Word.inRange_iff]
  omega

/-- A variable at a location has storage in the function of a stream: in a struct that it takes, or of its own. -/
def Stored (s : Stream) (l : Flat.Location) : Prop := l = s.location ∨ ∃ kind ∈ params s, l = kind.location

/-- Where a variable is, given the registers that hold the addresses of variables. -/
def placeOf (p : Flat.Program) (addresses : Array (Option Value)) (id : VarId) : Address :=
  match (p.vars[id]?).bind fun v => interfaceAt? v.location with
  | some kind => ⟨.struct kind, [((Generate.fieldNumber? p id).getD 0 : Nat)]⟩
  | none =>
    match addresses.getD id none with
    | some (.register n _) => ⟨.stack n, []⟩
    | _ => ⟨.stack 0, []⟩

variable {A : Arithmetic} {blocks : List Block} {ctx : Context} {b b' b'' : Builder} {k : BlockName}
  {r r' : Registers} {m : Memory} {α : Type}

theorem placing_inv {site : Option Site} {act : Generate α} {a : α}
    (run : Generate.placing site ctx b act = .ok (a, b')) : act ctx b = .ok (a, b') := by
  unfold Generate.placing at run
  split at run
  · rename_i found
    cases run
    exact found
  · cases run

/-! ## One variable -/

/-- The steps for the address of one variable. -/
inductive Allocates (ctx : Context) (b : Builder) (id : VarId) (v : Flat.Variable) : Option Value → Builder → Prop where
  | field {kind : Interface} {i : Nat} {t : Ty} {w : Value} {b' : Builder} (located : v.location = kind.location)
      (given : kind ∈ params ctx.stream) (number : Generate.fieldNumber? ctx.program id = some i)
      (run : Generate.define (.address (.struct kind) (.param kind) [.int 0, .int i] t) ctx b = .ok (w, b')) :
      Allocates ctx b id v (some w) b'
  | own {t : Ty} {w : Value} {b' : Builder} (located : v.location = ctx.stream.location)
      (run : Generate.define (.alloca t) ctx b = .ok (w, b')) : Allocates ctx b id v (some w) b'
  | absent (other : ¬Stored ctx.stream v.location) : Allocates ctx b id v none b

section Allocation

variable {id : VarId} {v : Flat.Variable} {a : Option Value}

theorem allocates_field {kind : Interface} (located : v.location = kind.location) (given : kind ∈ params ctx.stream)
    (run : (do
      match Generate.fieldNumber? (← read).program id with
      | some i =>
        let found ← Generate.orMistyped ((← read).fields kind)[i]?
        return some (← Generate.define (.address (.struct kind) (.param kind) [.int 0, .int i] found))
      | none => throw (.undeclared id v.location) : Generate (Option Value)) ctx b = .ok (a, b')) :
    Allocates ctx b id v a b' := by
  obtain ⟨_, _, reading, run⟩ := bind_ok.1 run
  obtain ⟨rfl, rfl⟩ := read_ok.1 reading
  cases number : Generate.fieldNumber? ctx.program id with
  | none =>
    rw [number] at run
    exact (throw_ok.1 run).elim
  | some i =>
    rw [number] at run
    obtain ⟨_, _, reading, run⟩ := bind_ok.1 run
    obtain ⟨rfl, rfl⟩ := read_ok.1 reading
    obtain ⟨t, _, found, run⟩ := bind_ok.1 run
    obtain rfl := orMistyped_ok found
    obtain ⟨w, _, defined, run⟩ := bind_ok.1 run
    obtain ⟨rfl, rfl⟩ := pure_ok.1 run
    exact .field located given number defined

theorem allocates_own {t : Ty} (located : v.location = ctx.stream.location)
    (run : (do return some (← Generate.define (.alloca t)) : Generate (Option Value)) ctx b = .ok (a, b')) :
    Allocates ctx b id v a b' := by
  obtain ⟨w, _, defined, run⟩ := bind_ok.1 run
  obtain ⟨rfl, rfl⟩ := pure_ok.1 run
  exact .own located defined

theorem allocates_none (other : ¬Stored ctx.stream v.location)
    (run : (return none : Generate (Option Value)) ctx b = .ok (a, b')) : Allocates ctx b id v a b' := by
  obtain ⟨rfl, rfl⟩ := pure_ok.1 run
  exact .absent other

theorem allocates_storage {t : Ty} (run : Generate.storage id v t ctx b = .ok (a, b')) :
    Allocates ctx b id v a b' := by
  obtain ⟨_, _, reading, run⟩ := bind_ok.1 run
  obtain ⟨rfl, rfl⟩ := read_ok.1 reading
  obtain ⟨ty, location⟩ := v
  cases stream : ctx.stream with
  | main =>
    rw [stream] at run
    cases location with
    | input | output | static => exact allocates_field rfl (by rw [stream]; decide) run
    | mainBody => exact allocates_own (by rw [stream]; rfl) run
    | staticBody | unknown =>
      exact allocates_none (by simp [stream, Stored, Stream.location, params, Interface.location]) run
  | staticInit =>
    rw [stream] at run
    cases location with
    | static => exact allocates_field rfl (by rw [stream]; decide) run
    | staticBody => exact allocates_own (by rw [stream]; rfl) run
    | input | output | mainBody | unknown =>
      exact allocates_none (by simp [stream, Stored, Stream.location, params, Interface.location]) run

theorem Allocates.extended (h : Allocates ctx b id v a b') : b.Extended b' := by
  cases h with
  | field _ _ _ run => exact straight_define _ _ _ _ _ run
  | own _ run => exact straight_define _ _ _ _ _ run
  | absent _ => exact .refl b

/-- An address is in the next free register. -/
theorem Allocates.register {w : Value} (h : Allocates ctx b id v (some w) b') (hk : b.current = some k) :
    (∃ t, w = .register b.next t) ∧ b'.next = b.next + 1 := by
  have defined {op : Op} (run : Generate.define op ctx b = .ok (w, b')) :
      (∃ t, w = .register b.next t) ∧ b'.next = b.next + 1 := by
    rw [define_eq, Builder.open_eq hk] at run
    cases run
    exact ⟨⟨_, rfl⟩, rfl⟩
  cases h with
  | field _ _ _ run => exact defined run
  | own _ run => exact defined run

theorem Allocates.isSome_iff (h : Allocates ctx b id v a b') : a.isSome ↔ Stored ctx.stream v.location := by
  cases h with
  | field located given _ _ => exact iff_of_true rfl (.inr ⟨_, given, located⟩)
  | own located _ => exact iff_of_true rfl (.inl located)
  | absent other => exact iff_of_false (by simp) other

/-- The code for the address of a variable computes it. -/
theorem Allocates.flows (h : Allocates ctx b id v a b') (named : Named blocks) (hk : b.current = some k)
    (numbered : Numbered ctx.program) (fits : b'.Fits blocks) {addresses : Array (Option Value)}
    (found : ctx.program.vars[id]? = some v) (recorded : addresses.getD id none = a) :
    ∃ r', Flows A blocks k b b' r r' m ∧
      ∀ w, a = some w → w.Holds b'.next r' (.address (placeOf ctx.program addresses id)) := by
  cases h with
  | @field kind i t w _ located given number run =>
    have place : placeOf ctx.program addresses id = ⟨.struct kind, [(i : Int)]⟩ := by
      simp [placeOf, found, located, interfaceAt?_location, number]
    have result : (Op.address (.struct kind) (.param kind) [.int 0, .int i] t).eval? A m r b.next =
        some (.address ⟨.struct kind, [(i : Int)]⟩) := by
      simp [Op.eval?, Value.address?, Value.eval?, Word.wrap_eq_self (numbered id i number), Address.below]
    obtain ⟨r', flows, hw⟩ := flows_define named hk run fits result
    refine ⟨r', flows, fun w' same => ?_⟩
    cases same
    rw [place]
    exact hw
  | @own t w _ located run =>
    have place : placeOf ctx.program addresses id = ⟨.stack b.next, []⟩ := by
      rw [define_eq, Builder.open_eq hk] at run
      cases run
      simp only [placeOf, found, Option.bind_some, located, interfaceAt?_stream, recorded]
    have result : (Op.alloca t).eval? A m r b.next = some (.address ⟨.stack b.next, []⟩) := rfl
    obtain ⟨r', flows, hw⟩ := flows_define named hk run fits result
    refine ⟨r', flows, fun w' same => ?_⟩
    cases same
    rw [place]
    exact hw
  | absent _ => exact ⟨r, .refl hk, fun w same => by cases same⟩

end Allocation

/-! ## All variables -/

/-- Records the address of the next variable. -/
def Builder.record (b : Builder) (a : Option Value) : Builder := { b with addresses := b.addresses.push a }

theorem Builder.getD_record (b : Builder) (a : Option Value) (id : VarId) :
    (b.record a).addresses.getD id none = if id = b.addresses.size then a else b.addresses.getD id none := by
  simp only [Builder.record, Array.getD_eq_getD_getElem?, Array.getElem?_push]
  split <;> rfl

theorem storageAll_cons {v : Flat.Variable} {id : VarId} {rest : List (Flat.Variable × Nat)}
    (run : Generate.storageAll ctx ((v, id) :: rest) b = .ok b') :
    ∃ a b₁, Allocates ctx b id v a b₁ ∧ Generate.storageAll ctx rest (b₁.record a) = .ok b' := by
  rw [Generate.storageAll] at run
  obtain ⟨⟨t, b₁⟩, form, run⟩ := except_bind_ok.1 run
  obtain ⟨⟨a, b₂⟩, stored, rest⟩ := except_bind_ok.1 run
  obtain rfl := lift_ok (placing_inv form)
  exact ⟨a, b₂, allocates_storage (placing_inv stored), rest⟩

/-- What addresses are made adds to a builder. -/
structure Builder.Precedes (b b' : Builder) : Prop where
  addresses : Extends b.addresses b'.addresses
  next : b.next ≤ b'.next
  fits : ∀ blocks, b'.Fits blocks → b.Fits blocks
  sound : b.Sound → b'.Sound
  current : ∀ k, b.current = some k → b'.current = some k

theorem precedes_storageAll {vs : List (Flat.Variable × Nat)} (run : Generate.storageAll ctx vs b = .ok b') :
    b.Precedes b' := by
  induction vs generalizing b with
  | nil =>
    cases run
    exact ⟨.refl _, Nat.le_refl _, fun _ h => h, fun h => h, fun _ h => h⟩
  | cons v vs ih =>
    obtain ⟨a, b₁, allocates, run⟩ := storageAll_cons run
    have extended := allocates.extended
    have rest := ih run
    refine ⟨?_, Nat.le_trans extended.next rest.next, fun blocks fits => ?_, fun sound => ?_, fun k hk => ?_⟩
    · rw [← extended.addresses]
      exact (Extends.push _ a).trans rest.addresses
    · have fits := rest.fits blocks fits
      exact extended.fits ⟨fits.finished, fits.current⟩
    · have sound := extended.sound sound
      exact rest.sound ⟨sound.nodup, sound.entry, sound.numbers, sound.labels, sound.targets, sound.idle⟩
    · exact rest.current k (extended.current_eq hk)

/-- Addresses are in registers of their own, and exactly the variables that have storage have one. -/
structure Laid (ctx : Context) (b : Builder) : Prop where
  registers : ∀ id w, b.addresses.getD id none = some w → ∃ n t, w = .register n t ∧ n < b.next
  injective : ∀ id id' n t t', b.addresses.getD id none = some (.register n t) →
    b.addresses.getD id' none = some (.register n t') → id = id'
  stored : ∀ id < b.addresses.size, ∀ v, ctx.program.vars[id]? = some v →
    ((b.addresses.getD id none).isSome ↔ Stored ctx.stream v.location)
  numbered : ∀ id < b.addresses.size, ∀ v, ctx.program.vars[id]? = some v → ∀ kind ∈ params ctx.stream,
    v.location = kind.location → ∃ i, Generate.fieldNumber? ctx.program id = some i

theorem Laid.record {v : Flat.Variable} {a : Option Value} (laid : Laid ctx b) (hk : b.current = some k)
    (found : ctx.program.vars[b.addresses.size]? = some v) (h : Allocates ctx b b.addresses.size v a b') :
    Laid ctx (b'.record a) := by
  have same : b'.addresses = b.addresses := h.extended.addresses
  have next : b.next ≤ b'.next := h.extended.next
  have get (id : VarId) : (b'.record a).addresses.getD id none =
      if id = b.addresses.size then a else b.addresses.getD id none := by rw [Builder.getD_record, same]
  have size : (b'.record a).addresses.size = b.addresses.size + 1 := by rw [Builder.record, Array.size_push, same]
  have fresh {w : Value} (hw : a = some w) : (∃ t, w = .register b.next t) ∧ b'.next = b.next + 1 :=
    Allocates.register (hw ▸ h) hk
  refine ⟨fun id w hw => ?_, fun id id' n t t' hn hn' => ?_, fun id hid v' hv' => ?_, fun id hid v' hv' kind given located => ?_⟩
  · rw [get] at hw
    split at hw
    · obtain ⟨⟨t, rfl⟩, more⟩ := fresh hw
      exact ⟨b.next, t, rfl, by rw [Builder.record, more]; exact Nat.lt_succ_self _⟩
    · obtain ⟨n, t, rfl, hn⟩ := laid.registers id w hw
      exact ⟨n, t, rfl, Nat.lt_of_lt_of_le hn next⟩
  · -- A register from before has a smaller number than the new one.
    have old {j : VarId} {t : Ty} (hj : b.addresses.getD j none = some (.register n t)) : n < b.next := by
      obtain ⟨_, _, e, hn⟩ := laid.registers j _ hj
      cases e
      exact hn
    rw [get] at hn hn'
    split at hn
    · rename_i here
      split at hn'
      · rename_i here'
        rw [here, here']
      · obtain ⟨⟨_, e⟩, -⟩ := fresh hn
        cases e
        exact (Nat.lt_irrefl _ (old hn')).elim
    · split at hn'
      · obtain ⟨⟨_, e⟩, -⟩ := fresh hn'
        cases e
        exact (Nat.lt_irrefl _ (old hn)).elim
      · exact laid.injective id id' n t t' hn hn'
  · rw [get]
    split
    · rename_i here
      rw [here, found] at hv'
      cases hv'
      exact h.isSome_iff
    · rename_i other
      rw [size] at hid
      exact laid.stored id (Nat.lt_of_le_of_ne (Nat.le_of_lt_succ hid) other) v' hv'
  · by_cases here : id = b.addresses.size
    · rw [here, found] at hv'
      cases hv'
      cases h with
      | field _ _ number _ => exact ⟨_, here ▸ number⟩
      | own own _ =>
        have := interfaceAt?_location kind
        rw [← located, own, interfaceAt?_stream] at this
        cases this
      | absent other => exact (other (.inr ⟨kind, given, located⟩)).elim
    · rw [size] at hid
      exact laid.numbered id (Nat.lt_of_le_of_ne (Nat.le_of_lt_succ hid) here) v' hv' kind given located

/-- The beginning of a function lays out all variables. -/
theorem laid_storageAll {vs : List Flat.Variable} (run : Generate.storageAll ctx (vs.zipIdx b.addresses.size) b = .ok b')
    (hk : b.current = some k) (vars : ∀ j v, vs[j]? = some v → ctx.program.vars[b.addresses.size + j]? = some v)
    (laid : Laid ctx b) : Laid ctx b' ∧ b'.addresses.size = b.addresses.size + vs.length := by
  induction vs generalizing b with
  | nil =>
    cases run
    exact ⟨laid, rfl⟩
  | cons v vs ih =>
    rw [List.zipIdx_cons] at run
    obtain ⟨a, b₁, allocates, run⟩ := storageAll_cons run
    have size : (b₁.record a).addresses.size = b.addresses.size + 1 := by
      rw [Builder.record, Array.size_push, allocates.extended.addresses]
    rw [← size] at run
    obtain ⟨laid', size'⟩ := ih run (allocates.extended.current_eq hk)
      (fun j w hw => by
        rw [size, Nat.add_right_comm]
        exact vars (j + 1) w hw)
      (laid.record hk (vars 0 v rfl) allocates)
    exact ⟨laid', by rw [size', size, List.length_cons]; omega⟩

/-- The code at the beginning of a function computes the addresses of the variables. -/
theorem runs_storageAll (named : Named blocks) (numbered : Numbered ctx.program) {vs : List Flat.Variable}
    (run : Generate.storageAll ctx (vs.zipIdx b.addresses.size) b = .ok b') (fits : b'.Fits blocks)
    (hk : b.current = some k) (vars : ∀ j v, vs[j]? = some v → ctx.program.vars[b.addresses.size + j]? = some v)
    (held : ∀ id w, b.addresses.getD id none = some w →
      w.Holds b.next r (.address (placeOf ctx.program b'.addresses id))) :
    ∃ n r', Runs (step? A blocks) n (.running k b.body.size r m) [] (.running k b'.body.size r' m) ∧
      ∀ id w, b'.addresses.getD id none = some w →
        w.Holds b'.next r' (.address (placeOf ctx.program b'.addresses id)) := by
  induction vs generalizing b r with
  | nil =>
    cases run
    exact ⟨0, r, .zero _, held⟩
  | cons v vs ih =>
    rw [List.zipIdx_cons] at run
    obtain ⟨a, b₁, allocates, run⟩ := storageAll_cons run
    have same := allocates.extended.addresses
    have size : (b₁.record a).addresses.size = b.addresses.size + 1 := by
      rw [Builder.record, Array.size_push, same]
    have later := precedes_storageAll run
    have recorded : b'.addresses.getD b.addresses.size none = a := by
      have here : (b₁.record a).addresses[b.addresses.size]? = some a := by simp [Builder.record, same]
      rw [Array.getD_eq_getD_getElem?, later.addresses _ _ here]
      rfl
    have fits₁ : b₁.Fits blocks := ⟨(later.fits blocks fits).finished, (later.fits blocks fits).current⟩
    obtain ⟨r₁, flows, hw⟩ :=
      allocates.flows (A := A) (r := r) (m := m) named hk numbered fits₁ (vars 0 v rfl) recorded
    rw [← size] at run
    obtain ⟨n', r₂, after, held'⟩ := @ih (b₁.record a) r₁ run flows.current
      (fun j w hw => by
        rw [size, Nat.add_right_comm]
        exact vars (j + 1) w hw)
      fun id w found => by
        rw [Builder.getD_record, same] at found
        split at found
        · rename_i here
          rw [here]
          exact hw w found
        · exact flows.holds (held id w found)
    obtain ⟨n, before⟩ := flows.run
    exact ⟨n + n', r₂, before.append after, held'⟩

/-! ## Places -/

/-- The variables of each list of the interface live where they should. -/
def Listed (p : Flat.Program) : Prop :=
  ∀ kind : Interface, ∀ id ∈ p.interface kind, ∃ v, p.vars[id]? = some v ∧ v.location = kind.location

theorem listed_of_validate {p : Flat.Program} (valid : p.validate = []) : Listed p := by
  have declarations : p.checkDeclarations = [] := by
    obtain ⟨front, -⟩ := List.append_eq_nil_iff.1 valid
    exact List.map_eq_nil_iff.1 (List.append_eq_nil_iff.1 front).1
  obtain ⟨front, statics⟩ := List.append_eq_nil_iff.1 declarations
  obtain ⟨front, outputs⟩ := List.append_eq_nil_iff.1 front
  obtain ⟨-, inputs⟩ := List.append_eq_nil_iff.1 front
  intro kind id hid
  have checked : p.checkInterface kind (p.interface kind) = [] := by
    cases kind with
    | input => exact inputs
    | output => exact outputs
    | static => exact statics
  have here := List.flatMap_eq_nil_iff.1 checked id hid
  split at here
  · cases here
  · rename_i v found
    split at here
    · exact ⟨v, found, ‹_›⟩
    · cases here

/-- The number of a field is its place in the list of its struct. -/
theorem fieldNumber?_listed {p : Flat.Program} (listed : Listed p) {id : VarId} {v : Flat.Variable} {kind : Interface}
    {i : Nat} (found : p.vars[id]? = some v) (located : v.location = kind.location)
    (number : Generate.fieldNumber? p id = some i) : (p.interface kind)[i]? = some id := by
  obtain ⟨kind', -, here⟩ := List.exists_of_findSome?_eq_some number
  obtain ⟨hlt, hget, -⟩ := List.idxOf?_eq_some_iff.1 here
  have mem : (p.interface kind')[i]? = some id := by rw [List.getElem?_eq_getElem hlt, hget]
  obtain ⟨v', found', located'⟩ := listed kind' id (List.mem_of_getElem? mem)
  rw [found] at found'
  cases found'
  have same := interfaceAt?_location kind'
  rw [← located', located, interfaceAt?_location] at same
  cases same
  exact mem

/-- Where a variable with storage is: in a field of a struct, or in storage of its own. -/
theorem Laid.place_cases (laid : Laid ctx b) (listed : Listed ctx.program)
    (size : b.addresses.size = ctx.program.vars.size) {id : VarId} {v : Flat.Variable}
    (found : ctx.program.vars[id]? = some v) (stored : Stored ctx.stream v.location) :
    (∃ kind, ∃ i : Nat, placeOf ctx.program b.addresses id = ⟨.struct kind, [(i : Int)]⟩ ∧ v.location = kind.location ∧
      (ctx.program.interface kind)[i]? = some id) ∨
    ∃ n t, placeOf ctx.program b.addresses id = ⟨.stack n, []⟩ ∧ v.location = ctx.stream.location ∧
      b.addresses.getD id none = some (.register n t) := by
  have inside : id < b.addresses.size := size ▸ (Array.getElem?_eq_some_iff.1 found).1
  rcases stored with own | ⟨kind, given, located⟩
  · obtain ⟨w, hw⟩ := Option.isSome_iff_exists.1 ((laid.stored id inside v found).2 (.inl own))
    obtain ⟨n, t, rfl, -⟩ := laid.registers id w hw
    refine .inr ⟨n, t, ?_, own, hw⟩
    simp only [placeOf, found, Option.bind_some, own, interfaceAt?_stream, hw]
  · obtain ⟨i, number⟩ := laid.numbered id inside v found kind given located
    refine .inl ⟨kind, i, ?_, located, fieldNumber?_listed listed found located number⟩
    simp [placeOf, found, located, interfaceAt?_location, number]

/-- Different elements have different places. -/
theorem Laid.separate (laid : Laid ctx b) (listed : Listed ctx.program)
    (size : b.addresses.size = ctx.program.vars.size) {id id' : VarId} {v v' : Flat.Variable}
    (found : ctx.program.vars[id]? = some v) (stored : Stored ctx.stream v.location)
    (found' : ctx.program.vars[id']? = some v') (stored' : Stored ctx.stream v'.location) {c c' : List Int}
    (same : (placeOf ctx.program b.addresses id).below c = (placeOf ctx.program b.addresses id').below c') :
    id = id' ∧ c = c' := by
  rcases laid.place_cases listed size found stored with ⟨kind, i, place, -, member⟩ | ⟨n, t, place, -, address⟩ <;>
  rcases laid.place_cases listed size found' stored' with
    ⟨kind', i', place', -, member'⟩ | ⟨n', t', place', -, address'⟩ <;>
  rw [place, place'] at same
  · simp only [Address.below, Address.mk.injEq, Root.struct.injEq, List.cons_append, List.nil_append,
      List.cons.injEq] at same
    obtain ⟨rfl, index, rfl⟩ := same
    obtain rfl : i = i' := Int.ofNat.inj index
    rw [member] at member'
    cases member'
    exact ⟨rfl, rfl⟩
  · cases same
  · cases same
  · simp only [Address.below, Address.mk.injEq, Root.stack.injEq, List.nil_append] at same
    obtain ⟨rfl, rfl⟩ := same
    exact ⟨laid.injective id id' n t t' address address', rfl⟩

end SignalLang.Ir
