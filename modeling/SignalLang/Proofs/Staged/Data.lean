import SignalLang.Proofs.Staged.Leaves
import SignalLang.Proofs.Types

/-!
# Data that are safe to work with

A datum may hold types and macros. `Datum.Sound o` says that the types in it have positive lengths, and that
the tables of its macros name only records of the variables they list; `o` gives the variable each record was
made for. This is read off the leaves, so taking data apart, stretching them and computing with them keeps it.
-/

namespace SignalLang

/-- A constant that is written in a program or predefined: no array, and a type with positive lengths. -/
def Constant.Plain : Constant → Prop
  | .type b => b.IsPositive
  | .array _ => False
  | _ => True

theorem Constant.Plain.isPositive_ty {c : Constant} (h : c.Plain) : c.ty.IsPositive := by
  cases c with
  | array items => exact h.elim
  | _ => exact Ty.isPositive_prim _

namespace Staged

open Scoped (VarId)
open Steps (Extends)

/-- The variable each record was made for. -/
abbrev Owners := Array VarId

/-- Every entry of a table names a record of its variable. -/
def TableOwned (o : Owners) (t : Table) : Prop := ∀ e ∈ t, o[e.2]? = some e.1

theorem TableOwned.mono {o o' : Owners} (h : Extends o o') {t : Table} (ht : TableOwned o t) :
    TableOwned o' t := fun e he => h _ _ (ht e he)

theorem TableOwned.append {o : Owners} {t u : Table} (ht : TableOwned o t) (hu : TableOwned o u) :
    TableOwned o (t ++ u) := by
  intro e he
  rcases List.mem_append.1 he with he | he
  · exact ht e he
  · exact hu e he

theorem TableOwned.lookup {o : Owners} {t : Table} (h : TableOwned o t) {v : VarId} {id : Nat}
    (found : t.lookup v = some id) : o[id]? = some v := by
  obtain ⟨before, after, rfl, -⟩ := List.lookup_eq_some_iff.1 found
  exact h (v, id) (by simp)

namespace Datum

mutual

/-- The types in a datum have positive lengths, and its macros see records of their own variables. -/
def Sound (o : Owners) : Datum → Prop
  | .type b => b.IsPositive
  | .macroRef _ context => TableOwned o context
  | .array items => AllSound o items
  | _ => True

/-- Several data are sound. -/
def AllSound (o : Owners) : List Datum → Prop
  | [] => True
  | d :: ds => d.Sound o ∧ AllSound o ds

end

theorem allSound_iff {o : Owners} {ds : List Datum} : AllSound o ds ↔ ∀ d ∈ ds, d.Sound o := by
  induction ds with
  | nil => simp [AllSound]
  | cons d ds ih => simp [AllSound, ih]

theorem sound_array {o : Owners} {ds : List Datum} : (Datum.array ds).Sound o ↔ ∀ d ∈ ds, d.Sound o := by
  rw [Sound, allSound_iff]

theorem Sound.mono {o o' : Owners} (h : Extends o o') : {d : Datum} → d.Sound o → d.Sound o'
  | .unknown, _ | .void, _ | .bool _, _ | .int _, _ | .float _, _ => trivial
  | .type _, hd => hd
  | .macroRef _ _, hd => TableOwned.mono h hd
  | .array items, hd => by
    rw [sound_array] at hd ⊢
    exact fun d hmem => (hd d hmem).mono h

variable {o : Owners}

theorem leafwise_sound (o : Owners) : Leafwise (Sound o) := ⟨trivial, fun _ => sound_array⟩

theorem sound_unknownOf (dims : List Int) : (unknownOf dims).Sound o := (leafwise_sound o).unknownOf dims

theorem sound_ofConstant {context : Table} (ht : TableOwned o context) {c : Constant} (h : c.Plain) :
    (ofConstant context c).Sound o := by
  cases c with
  | type b => exact h
  | macroRef site => exact ht
  | array items => exact h.elim
  | _ => trivial

/-! ## Taking data apart -/

theorem Sound.element? {d e : Datum} (h : d.Sound o) {i : Int} (he : d.element? i = some e) :
    e.Sound o := (leafwise_sound o).element? h he

theorem Sound.item? {d e : Datum} {coord : List Int} (h : d.Sound o) (he : d.item? coord = some e) :
    e.Sound o := (leafwise_sound o).item? h he

theorem Sound.set? {d v e : Datum} {coord : List Int} (h : d.Sound o) (hv : v.Sound o)
    (he : d.set? coord v = some e) : e.Sound o := (leafwise_sound o).set? h hv he

/-- Items made one by one are sound when each is. -/
theorem sound_of_mapM {α : Type} {f : α → Option Datum} {xs : List α} {ds : List Datum}
    (h : xs.mapM f = some ds) (hf : ∀ x ∈ xs, ∀ d, f x = some d → d.Sound o) :
    (Datum.array ds).Sound o := (leafwise_sound o).of_mapM h hf

theorem Sound.stretch? {dims shape : List Int} {d e : Datum} (h : d.Sound o)
    (he : stretch? dims shape d = some e) : e.Sound o := (leafwise_sound o).stretch? h he

/-! ## Computing with data -/

theorem Computed.sound {d : Datum} (h : d.Computed) : d.Sound o := by
  cases h <;> trivial

theorem sound_of_foldBinary {op : BinaryOp} {l r d : Datum} {leftDims rightDims dims : List Int}
    (h : foldBinary op l r leftDims rightDims dims = .ok d) : d.Sound o :=
  (leafwise_sound o).foldBinary (fun folded => (computed_of_foldScalar folded).sound) h

theorem sound_of_foldUnary {op : UnaryOp} {a d : Datum} (h : foldUnary op a = .ok d) : d.Sound o := by
  refine (leafwise_sound o).foldUnary leafwise_true (fun _ folded => ?_) trivial h
  obtain computed | ⟨n, -, rfl⟩ := computed_of_foldUnaryScalar folded
  · exact computed.sound
  · trivial

end Datum

end Staged

end SignalLang
