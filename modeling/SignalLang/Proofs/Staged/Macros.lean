import SignalLang.Proofs.Staged.Leaves

/-!
# The macros in data

`macros` lists the bodies of the macros in a constant or a datum. That they are all among `S` (`Datum.Refers S`) is read
off the leaves, so a part of a datum has no macros that the whole has not, and a datum that is changed in one place has
its own macros and those of the new part. What is computed has none at all.
-/

namespace SignalLang

mutual

/-- The bodies of the macros in a constant. -/
def Constant.macros : Constant → List Nat
  | .macroRef site => [site.body]
  | .array items => Constant.macrosOf items
  | _ => []

/-- The bodies of the macros in several constants. -/
def Constant.macrosOf : List Constant → List Nat
  | [] => []
  | c :: cs => c.macros ++ Constant.macrosOf cs

end

namespace Staged

namespace Datum

mutual

/-- The bodies of the macros in a datum. -/
def macros : Datum → List Nat
  | .macroRef site _ => [site.body]
  | .array items => macrosOf items
  | _ => []

/-- The bodies of the macros in several data. -/
def macrosOf : List Datum → List Nat
  | [] => []
  | d :: ds => d.macros ++ macrosOf ds

end

theorem mem_macrosOf {b : Nat} {ds : List Datum} : b ∈ macrosOf ds ↔ ∃ d ∈ ds, b ∈ d.macros := by
  induction ds with
  | nil => simp [macrosOf]
  | cons d ds ih => simp [macrosOf, ih]

theorem mem_macros_array {b : Nat} {ds : List Datum} :
    b ∈ (Datum.array ds).macros ↔ ∃ d ∈ ds, b ∈ d.macros := by
  rw [macros, mem_macrosOf]

mutual

theorem macros_ofConstant (context : Table) : (c : Constant) → (ofConstant context c).macros = c.macros
  | .void | .bool _ | .int _ | .float _ | .type _ | .macroRef _ => by
    simp only [ofConstant, macros, Constant.macros]
  | .array items => by
    rw [ofConstant, macros, Constant.macros]
    exact macrosOf_ofConstants context items

theorem macrosOf_ofConstants (context : Table) :
    (cs : List Constant) → macrosOf (ofConstants context cs) = Constant.macrosOf cs
  | [] => rfl
  | c :: cs => by
    rw [ofConstants, macrosOf, Constant.macrosOf, macros_ofConstant context c, macrosOf_ofConstants context cs]

end

/-- All macros in a datum have their bodies among `S`. -/
def Refers (S : Nat → Prop) (d : Datum) : Prop := ∀ b ∈ d.macros, S b

variable {S : Nat → Prop}

theorem refers_array {ds : List Datum} : (Datum.array ds).Refers S ↔ ∀ d ∈ ds, d.Refers S := by
  constructor
  · intro h d hd b hb
    exact h b (mem_macros_array.2 ⟨d, hd, hb⟩)
  · intro h b hb
    obtain ⟨d, hd, hb⟩ := mem_macros_array.1 hb
    exact h d hd b hb

theorem Refers.mono {T : Nat → Prop} {d : Datum} (h : d.Refers S) (hST : ∀ b, S b → T b) : d.Refers T :=
  fun b hb => hST b (h b hb)

theorem leafwise_refers (S : Nat → Prop) : Leafwise (Refers S) :=
  ⟨fun _ hb => absurd hb List.not_mem_nil, fun _ => refers_array⟩

theorem refers_unknownOf (dims : List Int) : (unknownOf dims).Refers S := (leafwise_refers S).unknownOf dims

/-! ## Taking data apart -/

theorem Refers.element? {d e : Datum} (h : d.Refers S) {i : Int} (he : d.element? i = some e) :
    e.Refers S := (leafwise_refers S).element? h he

theorem Refers.item? {d e : Datum} {coord : List Int} (h : d.Refers S) (he : d.item? coord = some e) :
    e.Refers S := (leafwise_refers S).item? h he

theorem Refers.set? {d v e : Datum} {coord : List Int} (h : d.Refers S) (hv : v.Refers S)
    (he : d.set? coord v = some e) : e.Refers S := (leafwise_refers S).set? h hv he

/-- Items made one by one have the macros that each of them has. -/
theorem refers_of_mapM {α : Type} {f : α → Option Datum} {xs : List α} {ds : List Datum}
    (h : xs.mapM f = some ds) (hf : ∀ x ∈ xs, ∀ d, f x = some d → d.Refers S) :
    (Datum.array ds).Refers S := (leafwise_refers S).of_mapM h hf

theorem Refers.stretch? {dims shape : List Int} {d e : Datum} (h : d.Refers S)
    (he : stretch? dims shape d = some e) : e.Refers S := (leafwise_refers S).stretch? h he

/-! ## Computing with data -/

theorem Computed.refers {d : Datum} (h : d.Computed) : d.Refers S := by
  cases h <;> exact fun _ hb => absurd hb List.not_mem_nil

theorem refers_of_foldBinary {op : BinaryOp} {l r d : Datum} {leftDims rightDims dims : List Int}
    (h : foldBinary op l r leftDims rightDims dims = .ok d) : d.Refers S :=
  (leafwise_refers S).foldBinary (fun folded => (computed_of_foldScalar folded).refers) h

theorem refers_of_foldUnary {op : UnaryOp} {a d : Datum} (h : foldUnary op a = .ok d) : d.Refers S := by
  refine (leafwise_refers S).foldUnary leafwise_true (fun _ folded => ?_) trivial h
  obtain computed | ⟨n, -, rfl⟩ := computed_of_foldUnaryScalar folded
  · exact computed.refers
  · exact fun _ hb => absurd hb List.not_mem_nil

end Datum

end Staged

end SignalLang
