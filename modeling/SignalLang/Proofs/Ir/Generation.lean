import SignalLang.Ir.Generate
import SignalLang.Proofs.Flat.Views

/-!
# Well-typed programs have modules

A module can be made of every well-typed program whose statics are listed once (`generate_ok_iff`). The fields
of the structs have forms in the target, so every variable that a stream may touch gets an address; typed
instructions then load, compute and store values of the forms of their types, and every label that is jumped
to has been placed at the end.

`Gives` is the specification of a step that leaves addresses and labels alone.
-/

namespace SignalLang.Ir

open Flat (Stream Interface LabelId VarId Operand HoldsTy Leads)
open Steps

/-! ## Forms -/

theorem Ty.ofRuntime?_storable {t : SignalLang.Ty} (h : t.Storable) : ∃ f, Ty.ofRuntime? t = some f := by
  induction t with
  | prim p =>
    rcases SignalLang.Ty.storable_prim.1 h with rfl | rfl | rfl
    · exact ⟨.i1, rfl⟩
    · exact ⟨.i32, rfl⟩
    · exact ⟨.float, rfl⟩
  | array n t ih =>
    obtain ⟨f, hf⟩ := ih (SignalLang.Ty.storable_array.1 h).2
    exact ⟨.array (LongWord.unsigned n) f, by rw [Ty.ofRuntime?, hf]; rfl⟩

theorem Ty.ofRuntime_eq {t : SignalLang.Ty} {f : Ty} (h : Ty.ofRuntime? t = some f) :
    Ty.ofRuntime (some t) = .ok f := by
  rw [Ty.ofRuntime, h]

/-- Indexes select the form of the element. -/
theorem Ty.select?_of_leads : {coord : List Int} → {t u : SignalLang.Ty} → {f : Ty} → Leads coord t u →
    Ty.ofRuntime? t = some f → ∃ g, f.select? coord.length = some g ∧ Ty.ofRuntime? u = some g
  | [], _, _, f, h, hf => ⟨f, by cases f <;> rfl, h ▸ hf⟩
  | _ :: coord, .array n t, u, f, h, hf => by
    rw [Ty.ofRuntime?] at hf
    obtain ⟨f', hf', rfl⟩ := Option.map_eq_some_iff.1 hf
    obtain ⟨g, hg, hu⟩ := Ty.select?_of_leads h.2 hf'
    exact ⟨g, hg, hu⟩

/-- As many indexes as there are dimensions select the form of an element. -/
theorem Ty.select?_all {t : SignalLang.Ty} {f : Ty} (hf : Ty.ofRuntime? t = some f) :
    ∃ g, f.select? t.dims.length = some g ∧ Ty.ofRuntime? (.prim t.base) = some g := by
  induction t generalizing f with
  | prim p => exact ⟨f, by cases f <;> rfl, hf⟩
  | array n t ih =>
    rw [Ty.ofRuntime?] at hf
    obtain ⟨f', hf', rfl⟩ := Option.map_eq_some_iff.1 hf
    exact ih hf'

/-- A value of the form of a scalar type. -/
def Value.Carries (v : Value) (p : Prim) : Prop := Ty.ofRuntime? (.prim p) = some v.ty

/-- The address of a value of the form of a type. -/
def Value.PointsTo (v : Value) (t : SignalLang.Ty) : Prop := ∃ f, Ty.ofRuntime? t = some f ∧ v.ty = .pointer f

theorem Value.carries_int (n : Int) : (Value.int n).Carries .int := rfl

theorem Value.ofConstant?_carries {c : Constant} {p : Prim} (h : c.HasTy (.prim p)) :
    ∃ v, Value.ofConstant? c = some v ∧ v.Carries p := by
  cases c with
  | bool x =>
    obtain rfl : p = .bool := SignalLang.Ty.prim.inj h
    exact ⟨_, rfl, rfl⟩
  | int n =>
    obtain rfl : p = .int := SignalLang.Ty.prim.inj h
    exact ⟨_, rfl, rfl⟩
  | float x =>
    obtain rfl : p = .float := SignalLang.Ty.prim.inj h
    exact ⟨_, rfl, rfl⟩
  | void | type _ | macroRef _ | array _ => cases h

/-! ## Steps that leave addresses and labels alone -/

/-- A step ends, and leaves addresses and labels as they were. -/
def Gives {α : Type} (m : Generate α) (ctx : Context) (b : Builder) (Q : α → Prop) : Prop :=
  Yields m ctx b fun a b' =>
    b'.addresses = b.addresses ∧ b'.placed = b.placed ∧ b'.mentioned = b.mentioned ∧ Q a

/-- Every variable that the stream may touch has an address. -/
def Builder.Addressed (b : Builder) (ctx : Context) : Prop :=
  ∀ id t, HoldsTy ctx.program.vars ctx.stream id t → ∃ v, b.addresses.getD id none = some v ∧ v.PointsTo t

section Steps

variable {ctx : Context} {b : Builder} {α β : Type} {Q : α → Prop} {R : β → Prop}

namespace Gives

theorem pure {a : α} (h : Q a) : Gives (Pure.pure a) ctx b Q := Yields.pure ⟨rfl, rfl, rfl, h⟩

theorem bind {m : Generate α} {f : α → Generate β} (hm : Gives m ctx b Q)
    (hf : ∀ a b', b'.addresses = b.addresses → Q a → Gives (f a) ctx b' R) : Gives (m >>= f) ctx b R := by
  refine Yields.bind hm ?_
  rintro a b' ⟨haddr, hplaced, hmentioned, q⟩
  refine Yields.mono (hf a b' haddr q) ?_
  rintro c b'' ⟨haddr', hplaced', hmentioned', r⟩
  exact ⟨haddr'.trans haddr, hplaced'.trans hplaced, hmentioned'.trans hmentioned, r⟩

theorem mono {m : Generate α} {Q' : α → Prop} (h : Gives m ctx b Q) (hq : ∀ a, Q a → Q' a) :
    Gives m ctx b Q' :=
  Yields.mono h fun a _ ⟨haddr, hplaced, hmentioned, q⟩ => ⟨haddr, hplaced, hmentioned, hq a q⟩

theorem read_bind {f : Context → Generate β} (h : Gives (f ctx) ctx b R) : Gives (read >>= f) ctx b R := h

theorem get_bind {f : Builder → Generate β} (h : Gives (f b) ctx b R) : Gives (get >>= f) ctx b R := h

/-- A part that needs no state. -/
theorem lift_bind {a : α} {x : Except Obstacle α} {f : α → Generate β} (hx : x = .ok a)
    (h : Gives (f a) ctx b R) : Gives ((liftM x : Generate α) >>= f) ctx b R := by
  subst hx
  exact h

theorem lift {a : α} {x : Except Obstacle α} (hx : x = .ok a) (h : Q a) :
    Gives (liftM x : Generate α) ctx b Q := by
  subst hx
  exact .pure h

end Gives

theorem gives_number : Gives Generate.number ctx b fun _ => True := ⟨_, _, rfl, rfl, rfl, rfl, trivial⟩

theorem gives_ensureBlock : Gives Generate.ensureBlock ctx b fun _ => True := by
  unfold Generate.ensureBlock
  refine .get_bind ?_
  split
  · exact ⟨_, _, rfl, rfl, rfl, rfl, trivial⟩
  · exact .pure trivial

theorem gives_push {i : Instr} : Gives (Generate.push i) ctx b fun _ => True :=
  gives_ensureBlock.bind fun _ _ _ _ => ⟨_, _, rfl, rfl, rfl, rfl, trivial⟩

/-- The result of an operation has its type. -/
theorem gives_define (op : Op) : Gives (Generate.define op) ctx b fun v => v.ty = op.ty :=
  gives_ensureBlock.bind fun _ _ _ _ => gives_number.bind fun _ _ _ _ => gives_push.bind fun _ _ _ _ => .pure rfl

theorem gives_terminate {t : Terminator} : Gives (Generate.terminate t) ctx b fun _ => True :=
  gives_ensureBlock.bind fun _ _ _ _ => ⟨_, _, rfl, rfl, rfl, rfl, trivial⟩

theorem gives_intrinsic (f : Intrinsic) (args : List Value) :
    Gives (Generate.intrinsic f args) ctx b fun v => v.ty = .float := by
  obtain ⟨v, b', run, haddr, hplaced, hmentioned, hv⟩ := gives_define (.call f args)
  exact ⟨v, b', run, haddr, hplaced, hmentioned, hv⟩

/-! ## Operands -/

variable {o : Operand} {p q : Prim} {v : Value}

theorem gives_checkIndex (h : v.Carries .int) : Gives (Generate.checkIndex v) ctx b fun _ => True := by
  cases v with
  | float x => cases h
  | _ => exact .pure trivial

theorem gives_checkIndexes {vs : List Value} (h : ∀ v ∈ vs, v.Carries .int) :
    Gives (vs.forM Generate.checkIndex) ctx b fun _ => True := by
  induction vs generalizing b with
  | nil => exact .pure trivial
  | cons v vs ih =>
    refine (gives_checkIndex (h v List.mem_cons_self)).bind fun _ b' _ _ => ?_
    exact ih fun w hw => h w (List.mem_cons_of_mem _ hw)

/-- The address of an element, when the indexes select its form. -/
theorem gives_addressBelow {id : VarId} {t u : SignalLang.Ty} {f g : Ty} {base : Value} {vs : List Value}
    (holds : HoldsTy ctx.program.vars ctx.stream id t) (hf : Ty.ofRuntime? t = some f)
    (hvs : ∀ v ∈ vs, v.Carries .int) (hg : f.select? (vs.length - 1) = some g)
    (hu : Ty.ofRuntime? u = some g) : Gives (Generate.addressBelow id base vs) ctx b fun v => v.PointsTo u := by
  obtain ⟨-, l, found, -⟩ := holds
  refine .read_bind (.lift_bind (a := f) ?_ ?_)
  · rw [found]
    exact Ty.ofRuntime_eq hf
  refine (gives_checkIndexes hvs).bind fun _ b' _ _ => ?_
  rw [hg]
  exact (gives_define _).mono fun v hv => ⟨g, hu, hv⟩

/-- What is viewed has an address, if it is not a constant. -/
theorem gives_address {t : SignalLang.Ty} (addressed : b.Addressed ctx)
    (typed : o.viewed.HasTy ctx.program.vars ctx.stream t) (place : o.viewed.var?.isSome = true) :
    Gives (Generate.address o) ctx b fun v => v.PointsTo t := by
  unfold Generate.address
  split
  · rename_i view
    rw [view] at place
    cases place
  · rename_i id coord view
    rw [view] at typed
    obtain ⟨whole, holds, leads⟩ := typed
    obtain ⟨base, found, f, hf, hbase⟩ := addressed id whole holds
    refine .get_bind ?_
    rw [found]
    dsimp only
    split
    · rename_i empty
      obtain rfl := List.isEmpty_iff.1 empty
      cases leads
      exact .pure ⟨f, hf, hbase⟩
    · obtain ⟨g, hg, hu⟩ := Ty.select?_of_leads leads hf
      refine gives_addressBelow holds hf ?_ ?_ hu
      · intro v hv
        rcases List.mem_cons.1 hv with rfl | hv
        · exact Value.carries_int 0
        · obtain ⟨i, -, rfl⟩ := List.mem_map.1 hv
          exact Value.carries_int i
      · rw [List.length_cons, List.length_map]
        exact hg

theorem gives_typeOf (h : o.IsElement ctx.program.vars ctx.stream p) {f : Ty}
    (hf : Ty.ofRuntime? (.prim p) = some f) : Gives (Generate.typeOf o) ctx b fun f' => f' = f := by
  have dims : o.lengths = [] := h.lengths_eq
  have typed := h.hasTy
  have presented := h.ty?_eq
  refine .read_bind ?_
  dsimp only
  split
  · refine .lift ?_ rfl
    rw [presented]
    exact Ty.ofRuntime_eq hf
  · rename_i id coord view
    rw [view] at typed
    obtain ⟨whole, ⟨-, l, found, -⟩, leads⟩ := typed
    have base : whole.base = p := leads.base_eq.symm
    rw [found]
    refine .lift ?_ rfl
    rw [Option.map_some, dims, base]
    exact Ty.ofRuntime_eq hf

/-- The value of an element has the form of its type. -/
theorem gives_load (addressed : b.Addressed ctx) (h : o.IsElement ctx.program.vars ctx.stream p) :
    Gives (Generate.load o) ctx b fun v => v.Carries p := by
  have typed := h.hasTy
  obtain ⟨f, hf⟩ := Ty.ofRuntime?_storable h.hasTy.storable
  unfold Generate.load
  rw [h.isScalar]
  split
  · rename_i c view
    rw [view] at typed
    obtain ⟨v, hc, hv⟩ := Value.ofConstant?_carries typed
    rw [hc]
    exact .pure hv
  · rename_i view
    refine (gives_address addressed typed (by rw [view]; rfl)).bind fun source b' _ _ => ?_
    refine (gives_typeOf h hf).bind fun f' b'' _ same => ?_
    subst same
    exact (gives_define _).mono fun v hv => by rw [Value.Carries, hf, hv]; rfl

theorem gives_loads (addressed : b.Addressed ctx) {os : List Operand}
    (h : ∀ o ∈ os, o.IsElement ctx.program.vars ctx.stream .int) :
    Gives (os.mapM Generate.load) ctx b fun vs => vs.length = os.length ∧ ∀ v ∈ vs, v.Carries .int := by
  induction os generalizing b with
  | nil => exact .pure ⟨rfl, fun v hv => by cases hv⟩
  | cons o os ih =>
    rw [List.mapM_cons]
    refine (gives_load addressed (h o List.mem_cons_self)).bind fun v b' same hv => ?_
    have addressed' : b'.Addressed ctx := by rw [Builder.Addressed, same]; exact addressed
    refine (ih addressed' fun x hx => h x (List.mem_cons_of_mem _ hx)).bind fun vs b'' _ ⟨hlen, hvs⟩ => ?_
    refine .pure ⟨congrArg (· + 1) hlen, fun w hw => ?_⟩
    rcases List.mem_cons.1 hw with rfl | hw
    · exact hv
    · exact hvs w hw

theorem gives_storeAt {target : Value} (hv : v.Carries p) (ht : target.PointsTo (.prim p)) :
    Gives (Generate.storeAt v target) ctx b fun _ => True := by
  obtain ⟨f, hf, hty⟩ := ht
  have same : target.ty = .pointer v.ty := by
    rw [hty, Option.some.inj (hf.symm.trans hv)]
  rw [Generate.storeAt, if_pos same]
  exact gives_push

theorem gives_store (addressed : b.Addressed ctx) (hv : v.Carries p)
    (ho : o.IsPlace ctx.program.vars ctx.stream p) : Gives (Generate.store v o) ctx b fun _ => True := by
  unfold Generate.store
  rw [ho.1.isScalar]
  exact (gives_address addressed ho.1.hasTy ho.2).bind fun target _ _ ht => gives_storeAt hv ht

/-- A base with indexes has the address of an element. -/
theorem gives_indexed {indexes : List Operand} (addressed : b.Addressed ctx)
    (h : o.IsIndexed ctx.program.vars ctx.stream indexes p) :
    Gives (Generate.indexed o indexes) ctx b fun v => v.PointsTo (.prim p) := by
  obtain ⟨id, t, rest, view, holds, rfl, rfl, hlen, hrest⟩ := h
  have typed : o.viewed.HasTy ctx.program.vars ctx.stream t := by
    rw [view]
    exact ⟨t, holds, rfl⟩
  unfold Generate.indexed
  refine (gives_address addressed typed (by rw [view]; rfl)).bind fun pointer b' same ⟨f, hf, hp⟩ => ?_
  rw [view]
  have ⟨_, l, found, _⟩ := holds
  refine .read_bind (.lift_bind (a := f) ?_ ?_)
  · rw [found]
    exact Ty.ofRuntime_eq hf
  have addressed' : b'.Addressed ctx := by rw [Builder.Addressed, same]; exact addressed
  have ints : ∀ x ∈ Operand.ofInt 0 :: rest, x.IsElement ctx.program.vars ctx.stream .int := by
    intro x hx
    rcases List.mem_cons.1 hx with rfl | hx
    · exact Flat.Operand.isElement_ofInt 0
    · exact hrest x hx
  refine (gives_loads addressed' ints).bind fun vs b'' _ ⟨hcount, hvs⟩ => ?_
  obtain ⟨g, hg, hu⟩ := Ty.select?_all hf
  refine gives_addressBelow holds hf hvs ?_ hu
  rw [hcount, List.length_cons, hlen]
  exact hg

/-! ## Operators -/

theorem Value.Carries.ty_eq {f : Ty} (h : v.Carries p) (hf : Ty.ofRuntime? (.prim p) = some f) : v.ty = f :=
  Option.some.inj (h.symm.trans hf)

theorem gives_compareInts {c : Flat.Condition} {w : Value} (h : v.ty = .i1 ∨ v.ty = .i32) :
    Gives (Generate.compareInts c v w) ctx b fun r => r.Carries .bool := by
  have result : Gives (Generate.define (.icmp c v w)) ctx b fun r => r.Carries .bool :=
    (gives_define _).mono fun r hr => by rw [Value.Carries, hr]; rfl
  unfold Generate.compareInts
  rcases h with h | h <;> rw [h] <;> exact result

theorem gives_compareFloats {c : Flat.Condition} {w : Value} (h : v.ty = .float) :
    Gives (Generate.compareFloats c v w) ctx b fun r => r.Carries .bool := by
  unfold Generate.compareFloats
  rw [h]
  exact (gives_define _).mono fun r hr => by rw [Value.Carries, hr]; rfl

/-- An operation of the form of a scalar type gives a value of it. -/
theorem gives_defined {op : Op} (h : Ty.ofRuntime? (.prim q) = some op.ty) :
    Gives (Generate.define op) ctx b fun r => r.Carries q :=
  (gives_define op).mono fun r hr => by rw [Value.Carries, hr]; exact h

theorem gives_function {f : Intrinsic} {args : List Value} :
    Gives (Generate.intrinsic f args) ctx b fun r => r.Carries .float :=
  (gives_intrinsic f args).mono fun r hr => by rw [Value.Carries, hr]; rfl

theorem gives_unary {op : Flat.UnaryOp} (h : op.result? p = some q) (hv : v.Carries p) :
    Gives (Generate.unary op v) ctx b fun r => r.Carries q := by
  cases op with
  | sin | cos | sqrt | exp | exp2 | log | log10 | log2 | absF | floor | ceil | trunc =>
    cases p <;> cases h
    exact gives_function
  | negI =>
    cases p <;> cases h
    exact gives_defined rfl
  | negF | not | bnot =>
    cases p <;> cases h
    exact gives_defined hv
  | absI =>
    cases p <;> cases h
    refine (gives_compareInts (.inr (hv.ty_eq rfl))).bind fun isNegative b' _ _ => ?_
    refine (gives_defined (q := .int) rfl).bind fun negated b'' _ hn => ?_
    exact gives_defined hn
  | ftoi | itof =>
    cases p <;> cases h
    exact gives_defined rfl

theorem gives_binary {op : Flat.BinaryOp} {w : Value} (h : op.result? p = some q) (hv : v.Carries p) :
    Gives (Generate.binary op v w) ctx b fun r => r.Carries q := by
  cases op with
  | addI | subI | mulI | divI | modI | addF | subF | mulF | divF | modF | band | bor | bxor | shl | shr | and
  | or | xor =>
    cases p <;> cases h
    exact gives_defined hv
  | powF =>
    cases p <;> cases h
    exact gives_function
  | powI =>
    cases p <;> cases h
    refine (gives_define _).bind fun x b₁ _ _ => (gives_define _).bind fun y b₂ _ _ => ?_
    refine (gives_intrinsic _ _).bind fun power b₃ _ _ => ?_
    exact gives_defined rfl
  | compareI c =>
    cases p <;> cases h
    · exact gives_compareInts (.inl (hv.ty_eq rfl))
    · exact gives_compareInts (.inr (hv.ty_eq rfl))
  | compareF c =>
    cases p <;> cases h
    exact gives_compareFloats (hv.ty_eq rfl)

/-! ## Instructions -/

/-- The labels that are jumped to lie below the number of labels. -/
def Builder.Aims (b : Builder) (count : Nat) : Prop := ∀ l ∈ b.mentioned, l < count

theorem Gives.aims {m : Generate α} {labels : Nat} (h : Gives m ctx b Q) (aims : b.Aims labels) :
    Yields m ctx b fun a b' =>
      (b'.addresses = b.addresses ∧ b'.Aims labels ∧ b'.placed = b.placed) ∧ Q a := by
  refine Yields.mono h ?_
  rintro a b' ⟨haddr, hplaced, hmentioned, q⟩
  exact ⟨⟨haddr, by rw [Builder.Aims, hmentioned]; exact aims, hplaced⟩, q⟩

theorem yields_target {l : LabelId} {labels : Nat} (aims : b.Aims labels) (hl : l < labels) :
    Yields (Generate.target l) ctx b fun _ b' => b'.addresses = b.addresses ∧ b'.Aims labels ∧
      b'.placed = b.placed := by
  refine ⟨_, _, rfl, rfl, fun m hm => ?_, rfl⟩
  rcases List.mem_cons.1 hm with rfl | hm
  · exact hl
  · exact aims m hm

/-- A typed instruction is made. A label it places must not have been placed before. -/
theorem yields_instr {i : Flat.Instr} {labels : Nat} (addressed : b.Addressed ctx) (aims : b.Aims labels)
    (typed : i.Typed ctx.program.vars ctx.stream labels ctx.program.errors.size)
    (fresh : ∀ l, i.label? = some l → l ∉ b.placed) :
    Yields (Generate.instr i) ctx b fun _ b' => b'.addresses = b.addresses ∧ b'.Aims labels ∧
      b'.placed = i.label?.toList ++ b.placed := by
  have straight {m : Generate Unit} (h : Gives m ctx b fun _ => True) :
      Yields m ctx b fun _ b' => b'.addresses = b.addresses ∧ b'.Aims labels ∧ b'.placed = b.placed :=
    (h.aims aims).mono fun _ _ h => h.1
  have still {b' : Builder} (same : b'.addresses = b.addresses) : b'.Addressed ctx := by
    rw [Builder.Addressed, same]
    exact addressed
  cases i with
  | move source target =>
    obtain ⟨p, hs, ht⟩ := typed
    exact straight ((gives_load addressed hs).bind fun v b' same hv => gives_store (still same) hv ht)
  | load base indexes target =>
    obtain ⟨p, hb, ht⟩ := typed
    obtain ⟨f, hf⟩ := Ty.ofRuntime?_storable ht.1.hasTy.storable
    refine straight ((gives_indexed addressed hb).bind fun source b₁ same₁ _ => ?_)
    refine (gives_typeOf ht.1 hf).bind fun ty b₂ same₂ hty => ?_
    subst hty
    refine (gives_defined hf).bind fun v b₃ same₃ hv => ?_
    exact gives_store (still (same₃.trans (same₂.trans same₁))) hv ht
  | store source base indexes =>
    obtain ⟨p, hs, hb⟩ := typed
    refine straight ((gives_load addressed hs).bind fun v b₁ same₁ hv => ?_)
    exact (gives_indexed (still same₁) hb).bind fun target b₂ _ ht => gives_storeAt hv ht
  | unary op a target =>
    obtain ⟨p, q, hop, ha, ht⟩ := typed
    refine straight ((gives_load addressed ha).bind fun v b₁ same₁ hv => ?_)
    exact (gives_unary hop hv).bind fun r b₂ same₂ hr => gives_store (still (same₂.trans same₁)) hr ht
  | binary op a c target =>
    obtain ⟨p, q, hop, ha, hc, ht⟩ := typed
    refine straight ((gives_load addressed ha).bind fun v b₁ same₁ hv => ?_)
    refine (gives_load (still same₁) hc).bind fun w b₂ same₂ _ => ?_
    refine (gives_binary hop hv).bind fun r b₃ same₃ hr => ?_
    exact gives_store (still (same₃.trans (same₂.trans same₁))) hr ht
  | label l =>
    have fresh : b.placed.contains l = false := by simpa using fresh l rfl
    -- The block before the label is closed first, if there is one.
    have place {b' : Builder} (haddr : b'.addresses = b.addresses) (hplaced : b'.placed = b.placed)
        (hmentioned : b'.mentioned = b.mentioned) :
        Yields (modify fun b => { b with current := some (.label l), placed := l :: b.placed } : Generate Unit)
          ctx b' fun _ b'' => b''.addresses = b.addresses ∧ b''.Aims labels ∧ b''.placed = l :: b.placed := by
      refine ⟨(), _, rfl, haddr, ?_, congrArg (l :: ·) hplaced⟩
      show ∀ l ∈ b'.mentioned, l < labels
      rw [hmentioned]
      exact aims
    show Yields (Generate.place l) ctx b _
    refine Yields.get_bind ?_
    rw [fresh]
    simp only [Bool.false_eq_true, if_false]
    split
    · refine Yields.bind gives_terminate ?_
      rintro _ b' ⟨haddr, hplaced, hmentioned, -⟩
      exact place haddr hplaced hmentioned
    · exact place rfl rfl rfl
  | jump l =>
    refine (yields_target aims typed).bind ?_
    rintro name b₁ ⟨same₁, aims₁, placed₁⟩
    refine (gives_terminate.aims aims₁).mono ?_
    rintro _ b₂ ⟨⟨same₂, aims₂, placed₂⟩, -⟩
    exact ⟨same₂.trans same₁, aims₂, placed₂.trans placed₁⟩
  | branch condition l l' =>
    obtain ⟨hc, hl, hl'⟩ := typed
    refine ((gives_load addressed hc).aims aims).bind ?_
    rintro v b₁ ⟨⟨same₁, aims₁, placed₁⟩, -⟩
    refine (yields_target aims₁ hl).bind ?_
    rintro yes b₂ ⟨same₂, aims₂, placed₂⟩
    refine (yields_target aims₂ hl').bind ?_
    rintro no b₃ ⟨same₃, aims₃, placed₃⟩
    refine (gives_terminate.aims aims₃).mono ?_
    rintro _ b₄ ⟨⟨same₄, aims₄, placed₄⟩, -⟩
    exact ⟨same₄.trans (same₃.trans (same₂.trans same₁)), aims₄,
      placed₄.trans (placed₃.trans (placed₂.trans placed₁))⟩
  | abort code =>
    obtain ⟨hz, hlt⟩ := typed
    refine straight (.read_bind ?_)
    rw [if_pos ⟨hz, hlt⟩]
    exact gives_terminate
  | missing => exact typed.elim

/-! ## Functions -/

theorem placing_ok {m : Generate α} (site : Option Site) {Q : α → Builder → Prop} (h : Yields m ctx b Q) :
    ∃ a b', Generate.placing site ctx b m = .ok (a, b') ∧ Q a b' := by
  obtain ⟨a, b', run, q⟩ := h
  refine ⟨a, b', ?_, q⟩
  have run : (m.run ctx).run b = .ok (a, b') := run
  rw [Generate.placing, run]

/-- Typed instructions that place new labels, each once, are made. -/
theorem instrs_ok {is : List (Flat.Instr × Nat)} {labels : Nat} (addressed : b.Addressed ctx)
    (aims : b.Aims labels)
    (typed : ∀ i ∈ is, i.1.Typed ctx.program.vars ctx.stream labels ctx.program.errors.size)
    (nodup : (is.filterMap (·.1.label?)).Nodup) (fresh : ∀ l ∈ is.filterMap (·.1.label?), l ∉ b.placed) :
    ∃ b', Generate.instrs ctx is b = .ok b' ∧ b'.Aims labels ∧
      ∀ l, l ∈ b'.placed ↔ l ∈ b.placed ∨ l ∈ is.filterMap (·.1.label?) := by
  induction is generalizing b with
  | nil => exact ⟨b, rfl, aims, fun l => by simp⟩
  | cons i is ih =>
    obtain ⟨i, n⟩ := i
    have labels_cons : ((i, n) :: is).filterMap (·.1.label?) = i.label?.toList ++ is.filterMap (·.1.label?) := by
      rw [List.filterMap_cons]
      cases i.label? <;> rfl
    rw [labels_cons] at nodup fresh ⊢
    obtain ⟨_, b₁, run, haddr, aims₁, placed₁⟩ := placing_ok (some (.instruction n i))
      (yields_instr addressed aims (typed _ List.mem_cons_self) fun l hl =>
        fresh l (List.mem_append_left _ (by rw [hl]; exact List.mem_cons_self)))
    have addressed₁ : b₁.Addressed ctx := by rw [Builder.Addressed, haddr]; exact addressed
    obtain ⟨b₂, run', aims₂, placed₂⟩ := ih addressed₁ aims₁ (fun j hj => typed j (List.mem_cons_of_mem _ hj))
      (List.nodup_append.1 nodup).2.1 fun l hl hmem => by
        rw [placed₁] at hmem
        rcases List.mem_append.1 hmem with hmem | hmem
        · exact (List.nodup_append.1 nodup).2.2 l hmem l hl rfl
        · exact fresh l (List.mem_append_right _ hl) hmem
    refine ⟨b₂, ?_, aims₂, fun l => (placed₂ l).trans ?_⟩
    · rw [Generate.instrs]
      exact except_bind_ok.2 ⟨_, run, run'⟩
    · rw [placed₁, List.mem_append, List.mem_append]
      grind

/-- A function ends once every label that is jumped to has been placed. -/
theorem finish_ok (h : ∀ l ∈ b.mentioned, l ∈ b.placed) : ∃ b', Generate.finish ctx b = .ok ((), b') := by
  have none : b.mentioned.reverse.find? (!b.placed.contains ·) = none := by
    rw [List.find?_eq_none]
    intro l hl
    simpa using h l (List.mem_reverse.1 hl)
  have run : Yields Generate.finish ctx b fun _ _ => True := by
    unfold Generate.finish
    refine Yields.get_bind ?_
    rw [none]
    dsimp only
    split
    · exact Yields.mono gives_terminate fun _ _ _ => trivial
    · exact Yields.pure trivial
  obtain ⟨_, b', run, -⟩ := run
  exact ⟨b', run⟩

/-- The fields of the structs have the forms of the variables that are listed there. -/
def Context.FieldsFit (ctx : Context) : Prop :=
  ∀ (kind : Interface) (i : Nat) (id : VarId), (ctx.program.interface kind)[i]? = some id →
    ∃ t l f, ctx.program.vars[id]? = some ⟨some t, l⟩ ∧ Ty.ofRuntime? t = some f ∧ (ctx.fields kind)[i]? = some f

/-- The number of a field, in the only list that has the variable. -/
theorem fieldNumber?_eq {program : Flat.Program} (wt : program.WellTyped) {id : VarId} {v : Flat.Variable}
    {kind : Interface} (found : program.vars[id]? = some v) (located : v.location = kind.location) :
    ∃ i, Generate.fieldNumber? program id = some i ∧ (program.interface kind)[i]? = some id := by
  have absent (other : Interface) (h : other ≠ kind) : (program.interface other).idxOf? id = none := by
    rw [List.idxOf?_eq_none_iff, wt.interface]
    rintro ⟨w, hw, elsewhere⟩
    rw [found] at hw
    cases hw
    rw [located] at elsewhere
    cases kind <;> cases other <;> first | exact h rfl | cases elsewhere
  have mem : id ∈ program.interface kind := (wt.interface kind id).2 ⟨v, found, located⟩
  obtain ⟨i, hi⟩ := Option.isSome_iff_exists.1 (List.isSome_idxOf?.2 mem)
  refine ⟨i, ?_, ?_⟩
  · rw [Generate.fieldNumber?]
    cases kind with
    | input => simp [hi]
    | output => simp [hi, absent .input]
    | static => simp [hi, absent .input, absent .output]
  · obtain ⟨hlt, hget, -⟩ := List.idxOf?_eq_some_iff.1 hi
    rw [List.getElem?_eq_getElem hlt, hget]

theorem gives_field (wt : ctx.program.WellTyped) (fit : ctx.FieldsFit) {id : VarId} {t : SignalLang.Ty}
    {l : Flat.Location} {kind : Interface} (found : ctx.program.vars[id]? = some ⟨some t, l⟩)
    (located : l = kind.location) : Gives (do
      match Generate.fieldNumber? (← read).program id with
      | some i =>
        let found ← Generate.orMistyped ((← read).fields kind)[i]?
        return some (← Generate.define (.address (.struct kind) (.param kind) [.int 0, .int i] found))
      | none => throw (.undeclared id l)) ctx b fun a => ∃ v, a = some v ∧ v.PointsTo t := by
  obtain ⟨i, number, listed⟩ := fieldNumber?_eq wt found located
  obtain ⟨u, l', f, found', hf, field⟩ := fit kind i id listed
  rw [found] at found'
  cases found'
  refine .read_bind ?_
  rw [number]
  refine .read_bind ?_
  rw [field]
  exact (gives_define _).bind fun v _ _ hv => .pure ⟨v, rfl, f, hf, hv⟩

/-- A variable that the stream may touch gets an address. -/
theorem gives_storage (wt : ctx.program.WellTyped) (fit : ctx.FieldsFit) {id : VarId} {t : SignalLang.Ty}
    {l : Flat.Location} {f : Ty} (found : ctx.program.vars[id]? = some ⟨some t, l⟩)
    (hf : Ty.ofRuntime? t = some f) (hl : l ≠ .unknown) :
    Gives (Generate.storage id ⟨some t, l⟩ f) ctx b fun a =>
      Flat.Program.mayTouch ctx.stream l = true → ∃ v, a = some v ∧ v.PointsTo t := by
  have allocated : Gives (do return some (← Generate.define (.alloca f))) ctx b fun a =>
      ∃ v, a = some v ∧ v.PointsTo t :=
    (gives_define _).bind fun v _ _ hv => .pure ⟨v, rfl, f, hf, hv⟩
  unfold Generate.storage
  refine .read_bind ?_
  cases stream : ctx.stream with
  | main =>
    cases l with
    | input | output | static => exact (gives_field wt fit found rfl).mono fun _ h _ => h
    | mainBody => exact allocated.mono fun _ h _ => h
    | staticBody => exact .pure fun touch => by cases touch
    | unknown => exact (hl rfl).elim
  | staticInit =>
    cases l with
    | static => exact (gives_field wt fit found rfl).mono fun _ h _ => h
    | staticBody => exact allocated.mono fun _ h _ => h
    | input | output | mainBody => exact .pure fun touch => by cases touch
    | unknown => exact (hl rfl).elim

/-- The address of one variable, if the stream may touch it. -/
def Builder.AddressedAt (b : Builder) (ctx : Context) (id : VarId) : Prop :=
  ∀ t, HoldsTy ctx.program.vars ctx.stream id t → ∃ v, b.addresses.getD id none = some v ∧ v.PointsTo t

/-- Every variable from a number on gets its address. -/
theorem storageAll_ok (wt : ctx.program.WellTyped) (fit : ctx.FieldsFit) {vs : List Flat.Variable} {n : Nat}
    (size : b.addresses.size = n) (vars : ∀ j v, vs[j]? = some v → ctx.program.vars[n + j]? = some v)
    (before : ∀ id < n, b.AddressedAt ctx id) :
    ∃ b', Generate.storageAll ctx (vs.zipIdx n) b = .ok b' ∧ b'.placed = b.placed ∧
      b'.mentioned = b.mentioned ∧ ∀ id < n + vs.length, b'.AddressedAt ctx id := by
  induction vs generalizing b n with
  | nil => exact ⟨b, rfl, rfl, rfl, before⟩
  | cons v vs ih =>
    have found : ctx.program.vars[n]? = some v := vars 0 v rfl
    obtain ⟨t, l, rfl, ht, hl⟩ := wt.vars v (Array.mem_of_getElem? found)
    obtain ⟨f, hf⟩ := Ty.ofRuntime?_storable ht
    have typed : Gives (Ty.ofRuntime (some t) : Generate Ty) ctx b fun f' => f' = f :=
      .lift (Ty.ofRuntime_eq hf) rfl
    obtain ⟨f', b₁, run₁, same₁, placed₁, mentioned₁, rfl⟩ := placing_ok (some (.storage n)) typed
    obtain ⟨a, b₂, run₂, same₂, placed₂, mentioned₂, ha⟩ := placing_ok none (gives_storage wt fit found hf hl)
    let b₃ : Builder := { b₂ with addresses := b₂.addresses.push a }
    have same : b₂.addresses = b.addresses := same₂.trans same₁
    have size₂ : b₂.addresses.size = n := by rw [same, size]
    have get (id : Nat) : b₃.addresses.getD id none = if id = n then a else b.addresses.getD id none := by
      simp only [b₃, Array.getD_eq_getD_getElem?, Array.getElem?_push, same, size]
      split <;> rfl
    obtain ⟨b₄, run₄, placed₄, mentioned₄, after⟩ := @ih b₃ (n + 1) ((Array.size_push _).trans (congrArg _ size₂))
      (fun j w hw => by
        rw [Nat.add_right_comm]
        exact vars (j + 1) w hw)
      fun id hid => by
        intro u holds
        rw [get]
        split
        · rename_i new
          subst new
          obtain ⟨-, l', found', touch⟩ := holds
          rw [found] at found'
          cases found'
          exact ha touch
        · exact before id (by omega) u holds
    refine ⟨b₄, ?_, ?_, ?_, fun id hid => after id ?_⟩
    · rw [List.zipIdx_cons, Generate.storageAll]
      exact except_bind_ok.2 ⟨_, run₁, except_bind_ok.2 ⟨_, run₂, run₄⟩⟩
    · exact placed₄.trans (placed₂.trans placed₁)
    · exact mentioned₄.trans (mentioned₂.trans mentioned₁)
    · rw [List.length_cons] at hid
      omega

/-- The function of a stream is made. -/
theorem function_ok (wt : ctx.program.WellTyped) (fit : ctx.FieldsFit) (intrinsics : List Intrinsic) :
    ∃ r, Generate.function ctx intrinsics = .ok r := by
  have stream := wt.streams ctx.stream
  obtain ⟨b₁, run₁, placed₁, mentioned₁, addressed⟩ := @storageAll_ok ctx { intrinsics := intrinsics } wt fit
    ctx.program.vars.toList 0 rfl (fun j v hv => by
      rw [Nat.zero_add, ← Array.getElem?_toList]
      exact hv) fun id hid => (Nat.not_lt_zero id hid).elim
  have addressed : b₁.Addressed ctx := by
    intro id t holds
    have ⟨_, l, found, _⟩ := holds
    refine addressed id ?_ t holds
    rw [Nat.zero_add, Array.length_toList]
    exact (Array.getElem?_eq_some_iff.1 found).1
  have labels : (ctx.program.stream ctx.stream).toList.zipIdx.filterMap (·.1.label?) =
      Flat.Program.labelsOf (ctx.program.stream ctx.stream) := by
    show (ctx.program.stream ctx.stream).toList.zipIdx.filterMap (Flat.Instr.label? ∘ Prod.fst) = _
    rw [← List.filterMap_map, List.zipIdx_map_fst, Flat.Program.labelsOf]
  obtain ⟨b₂, run₂, aims, placed₂⟩ := @instrs_ok ctx b₁ (ctx.program.stream ctx.stream).toList.zipIdx
    (ctx.program.labelCount ctx.stream) addressed (by
      rw [Builder.Aims, mentioned₁]
      intro l hl
      cases hl)
    (fun i hi => stream.typed i.1 (Array.mem_toList_iff.1 (List.fst_mem_of_mem_zipIdx hi)))
    (labels ▸ stream.nodup) (by
      rw [placed₁]
      intro l _ hl
      cases hl)
  obtain ⟨b₃, run₃⟩ := @finish_ok ctx b₂ fun l hl => by
    rw [placed₂, labels]
    exact .inr ((stream.labels l).2 (aims l hl))
  have run₃ : Generate.placing none ctx b₂ Generate.finish = .ok ((), b₃) := by
    have run₃ : (Generate.finish.run ctx).run b₂ = .ok ((), b₃) := run₃
    rw [Generate.placing, run₃]
  exact ⟨_, except_bind_ok.2 ⟨b₁, run₁, except_bind_ok.2 ⟨b₂, run₂, except_bind_ok.2 ⟨_, run₃, rfl⟩⟩⟩⟩

end Steps

/-! ## Structs -/

section Structs

variable {program : Flat.Program} {kind : Interface}

/-- The types of the fields of each struct. -/
def fieldsOf (inputs outputs statics : List Ty) : Interface → List Ty
  | .input => inputs
  | .output => outputs
  | .static => statics

/-- A struct has a field for each variable of its list, unless one was declared before. -/
theorem structFields_ok {ids seen : List VarId} {n : Nat} (wt : program.WellTyped)
    (hids : ∀ id ∈ ids, ∃ v, program.vars[id]? = some v) :
    (ids.Nodup ∧ (∀ id ∈ ids, id ∉ seen) → ∃ fs, structFields program kind seen n ids = .ok fs ∧
      ∀ (i : Nat) (id : VarId), ids[i]? = some id → ∃ t l f, program.vars[id]? = some ⟨some t, l⟩ ∧
        Ty.ofRuntime? t = some f ∧ fs[i]? = some f) ∧
    (¬(ids.Nodup ∧ ∀ id ∈ ids, id ∉ seen) → ∃ e, structFields program kind seen n ids = .error e) := by
  induction ids generalizing seen n with
  | nil =>
    exact ⟨fun _ => ⟨[], rfl, fun i id h => by simp at h⟩, fun h => (h ⟨.nil, fun _ h => by cases h⟩).elim⟩
  | cons id ids ih =>
    obtain ⟨v, found⟩ := hids id List.mem_cons_self
    obtain ⟨t, l, rfl, ht, -⟩ := wt.vars v (Array.mem_of_getElem? found)
    obtain ⟨f, hf⟩ := Ty.ofRuntime?_storable ht
    obtain ⟨good, bad⟩ := @ih (id :: seen) (n + 1) fun j hj => hids j (List.mem_cons_of_mem _ hj)
    have split : ((id :: ids).Nodup ∧ ∀ j ∈ id :: ids, j ∉ seen) ↔
        id ∉ seen ∧ ids.Nodup ∧ ∀ j ∈ ids, j ∉ id :: seen := by
      simp only [List.nodup_cons, List.mem_cons, forall_eq_or_imp, not_or]
      grind
    rw [structFields]
    simp only [found, split]
    by_cases old : id ∈ seen
    · rw [if_pos (List.contains_iff_mem.2 old)]
      exact ⟨fun h => (h.1 old).elim, fun _ => ⟨_, rfl⟩⟩
    · rw [if_neg (fun h => old (List.contains_iff_mem.1 h)), Ty.ofRuntime_eq hf]
      constructor
      · rintro ⟨-, h⟩
        obtain ⟨fs, run, hfs⟩ := good h
        refine ⟨f :: fs, except_bind_ok.2 ⟨f, rfl, except_bind_ok.2 ⟨fs, run, rfl⟩⟩, fun i j hj => ?_⟩
        cases i with
        | zero =>
          cases hj
          exact ⟨t, l, f, found, hf, rfl⟩
        | succ i => exact hfs i j hj
      · intro h
        obtain ⟨e, run⟩ := bad fun h' => h ⟨old, h'⟩
        exact ⟨e, by rw [run]; rfl⟩

/-- Variables of one list are in no other. -/
theorem interface_disjoint (wt : program.WellTyped) {a c : Interface} (h : a ≠ c) {id : VarId}
    (ha : id ∈ program.interface a) : id ∉ program.interface c := by
  intro hc
  obtain ⟨v, found, located⟩ := (wt.interface a id).1 ha
  obtain ⟨w, found', located'⟩ := (wt.interface c id).1 hc
  rw [found] at found'
  cases found'
  rw [located] at located'
  cases a <;> cases c <;> first | exact h rfl | cases located'

/-- A well-typed program has a module exactly when no static is listed twice. -/
theorem generate_ok_iff (wt : program.WellTyped) (name triple : String) :
    (∃ m, generate program name triple = .ok m) ↔ program.statics.Nodup := by
  have listed (kind : Interface) : ∀ id ∈ program.interface kind, ∃ v, program.vars[id]? = some v := by
    intro id hid
    obtain ⟨v, found, -⟩ := (wt.interface kind id).1 hid
    exact ⟨v, found⟩
  obtain ⟨inputs, runInputs, fitInputs⟩ := (@structFields_ok program .input _ [] 0 wt (listed .input)).1
    ⟨wt.inputs, fun _ _ h => by cases h⟩
  obtain ⟨outputs, runOutputs, fitOutputs⟩ :=
    (@structFields_ok program .output _ program.inputs 0 wt (listed .output)).1
      ⟨wt.outputs, fun id hid => interface_disjoint wt (by decide : Interface.output ≠ .input) hid⟩
  have apart : ∀ id ∈ program.statics, id ∉ program.inputs ++ program.outputs := by
    intro id hid hmem
    have hid : id ∈ program.interface .static := hid
    rcases List.mem_append.1 hmem with h | h
    · exact interface_disjoint wt (by decide : Interface.static ≠ .input) hid h
    · exact interface_disjoint wt (by decide : Interface.static ≠ .output) hid h
  obtain ⟨good, bad⟩ :=
    @structFields_ok program .static _ (program.inputs ++ program.outputs) 0 wt (listed .static)
  constructor
  · rintro ⟨m, run⟩
    refine Classical.byContradiction fun repeated => ?_
    obtain ⟨e, failed⟩ := bad fun h => repeated h.1
    obtain ⟨_, -, run⟩ := except_bind_ok.1 run
    obtain ⟨_, -, run⟩ := except_bind_ok.1 run
    obtain ⟨_, runStatics, -⟩ := except_bind_ok.1 run
    dsimp only at runStatics
    rw [failed] at runStatics
    cases runStatics
  · intro nodup
    obtain ⟨statics, runStatics, fitStatics⟩ := good ⟨nodup, apart⟩
    let fields := fieldsOf inputs outputs statics
    have fit (stream : Stream) : Context.FieldsFit ⟨program, fields, stream⟩ := by
      intro kind i id hid
      cases kind with
      | input => exact fitInputs i id hid
      | output => exact fitOutputs i id hid
      | static => exact fitStatics i id hid
    obtain ⟨⟨main, used⟩, runMain⟩ := @function_ok ⟨program, fields, .main⟩ wt (fit .main) []
    obtain ⟨⟨init, used'⟩, runInit⟩ := @function_ok ⟨program, fields, .staticInit⟩ wt (fit .staticInit) used
    refine ⟨_, except_bind_ok.2 ⟨inputs, ?_, except_bind_ok.2 ⟨outputs, ?_, except_bind_ok.2 ⟨statics, ?_,
      except_bind_ok.2 ⟨_, runMain, except_bind_ok.2 ⟨_, runInit, rfl⟩⟩⟩⟩⟩⟩
    · exact congrArg (Except.mapError _) runInputs
    · exact congrArg (Except.mapError _) runOutputs
    · exact congrArg (Except.mapError _) runStatics

end Structs

end SignalLang.Ir
