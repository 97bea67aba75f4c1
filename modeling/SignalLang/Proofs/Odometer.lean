import Mathlib.Algebra.BigOperators.Group.List.Basic
import Mathlib.Algebra.Ring.Int.Defs
import SignalLang.Ty.Odometer
import SignalLang.Proofs.Types

/-!
# The walk over an index space

An odometer stops, and until then it gives the list of all coordinates. What it has still to give is the part
of that list behind the current coordinate (`behind`): one turn takes its head (`behind_of_turn`), and it is
empty exactly when no index can turn.
-/

namespace SignalLang

namespace Odometer

/-- Coordinates taken until there is no next one. -/
inductive Drains : Odometer → List (List Int) → Prop
  | stop {w w' : Odometer} : w.next = (none, w') → Drains w []
  | step {w w' : Odometer} {c : List Int} {cs : List (List Int)} :
    w.next = (some c, w') → Drains w' cs → Drains w (c :: cs)

theorem Drains.unique {w : Odometer} {out out' : List (List Int)} (h : w.Drains out) (h' : w.Drains out') :
    out = out' := by
  induction h generalizing out' with
  | stop run =>
    cases h' with
    | stop _ => rfl
    | step run' _ => exact absurd (congrArg Prod.fst (run.symm.trans run')) nofun
  | step run _ ih =>
    cases h' with
    | stop run' => exact absurd (congrArg Prod.fst (run.symm.trans run')) nofun
    | step run' rest =>
      have same := run.symm.trans run'
      simp only [Prod.mk.injEq, Option.some.injEq] at same
      obtain ⟨rfl, rfl⟩ := same
      rw [ih rest]

/-! ## What is still to come -/

/-- The coordinates behind one of them. -/
def behind : (dims current : List Int) → List (List Int)
  | d :: ds, i :: is =>
    (behind ds is).map (i :: ·) ++
      ((indexesBelow d).drop (i.toNat + 1)).flatMap fun j => (coordinates ds).map (j :: ·)
  | _, _ => []

theorem inBounds_origin {ds : List Int} (h : ∀ d ∈ ds, 0 < d) : InBounds (origin ds) ds := by
  induction ds with
  | nil => trivial
  | cons d ds ih =>
    exact ⟨⟨Int.le_refl 0, h d List.mem_cons_self⟩, ih fun e he => h e (List.mem_cons_of_mem _ he)⟩

theorem positive_of_inBounds {c ds : List Int} (h : InBounds c ds) : ∀ d ∈ ds, 0 < d := by
  induction ds generalizing c with
  | nil => exact fun d hd => absurd hd List.not_mem_nil
  | cons d ds ih =>
    match c, h with
    | i :: c, h =>
      intro e he
      rcases List.mem_cons.1 he with rfl | he
      · have := h.1
        omega
      · exact ih h.2 e he

theorem coordinates_cons {d : Int} {ds : List Int} (h : coordinates ds ≠ []) :
    coordinates (d :: ds) = (indexesBelow d).flatMap fun i => (coordinates ds).map (i :: ·) := by
  rw [coordinates]
  exact if_neg fun empty => h (List.isEmpty_iff.1 empty)

theorem drop_indexesBelow {d i : Int} (hi : 0 ≤ i) (h : i < d) :
    (indexesBelow d).drop i.toNat = i :: (indexesBelow d).drop (i.toNat + 1) := by
  have inside : i.toNat < (indexesBelow d).length := by
    rw [indexesBelow, List.length_map, List.length_range]
    omega
  rw [List.drop_eq_getElem_cons inside]
  congr 1
  simp only [indexesBelow, List.getElem_map, List.getElem_range, Int.ofNat_eq_natCast]
  omega

/-- The coordinates begin at the origin. -/
theorem coordinates_eq_behind {ds : List Int} (h : ∀ d ∈ ds, 0 < d) :
    coordinates ds = origin ds :: behind ds (origin ds) := by
  induction ds with
  | nil => rfl
  | cons d ds ih =>
    have rest := ih fun e he => h e (List.mem_cons_of_mem _ he)
    have all : indexesBelow d = 0 :: (indexesBelow d).drop 1 :=
      drop_indexesBelow (Int.le_refl 0) (h d List.mem_cons_self)
    rw [coordinates_cons (by rw [rest]; exact List.cons_ne_nil _ _), all, List.flatMap_cons]
    nth_rewrite 1 [rest]
    rfl

/-- A turn goes on to the head of what is behind the current coordinate, and back to the origin if there is
nothing behind it. -/
theorem behind_of_turn {ds c : List Int} (h : InBounds c ds) :
    (∃ c', turn ds c = (c', true) ∧ InBounds c' ds ∧ behind ds c = c' :: behind ds c') ∨
      (turn ds c = (origin ds, false) ∧ behind ds c = []) := by
  induction ds generalizing c with
  | nil =>
    match c, h with
    | [], _ => exact .inr ⟨rfl, rfl⟩
  | cons d ds ih =>
    match c, h with
    | i :: is, h =>
      rcases ih h.2 with ⟨is', turned, inside, rest⟩ | ⟨turned, rest⟩
      · refine .inl ⟨i :: is', by rw [turn, turned], ⟨h.1, inside⟩, ?_⟩
        rw [behind, rest, List.map_cons, List.cons_append, behind]
      · have positive := positive_of_inBounds h.2
        by_cases last : i + 1 < d
        · -- The carry: the indexes behind this one are all zero again.
          have next : (i + 1).toNat = i.toNat + 1 := by
            have := h.1
            omega
          refine .inl ⟨(i + 1) :: origin ds, by rw [turn, turned]; exact if_pos last,
            ⟨⟨by have := h.1; omega, last⟩, inBounds_origin positive⟩, ?_⟩
          rw [behind, rest, List.map_nil, List.nil_append, behind, ← next,
            drop_indexesBelow (by have := h.1; omega) last, List.flatMap_cons]
          nth_rewrite 1 [coordinates_eq_behind positive]
          rfl
        · refine .inr ⟨by rw [turn, turned]; exact if_neg last, ?_⟩
          have none : (indexesBelow d).drop (i.toNat + 1) = [] := by
            rw [List.drop_eq_nil_iff, indexesBelow, List.length_map, List.length_range]
            have := h.1
            omega
          rw [behind, rest, none]
          rfl

/-! ## The walk -/

/-- A walk under way gives what is behind its coordinate. -/
theorem drains_behind {ds c : List Int} (h : InBounds c ds) : Drains ⟨ds, c, true, false⟩ (behind ds c) := by
  generalize todo : behind ds c = out
  induction out generalizing c with
  | nil =>
    rcases behind_of_turn h with ⟨c', -, -, rest⟩ | ⟨turned, -⟩
    · rw [todo] at rest
      cases rest
    · have last : next ⟨ds, c, true, false⟩ = (none, ⟨ds, origin ds, true, true⟩) := by simp [next, turned]
      exact .stop last
  | cons first out ih =>
    rcases behind_of_turn h with ⟨c', turned, inside, rest⟩ | ⟨-, rest⟩
    · rw [todo] at rest
      obtain ⟨rfl, rest⟩ := List.cons.inj rest
      have on : next ⟨ds, c, true, false⟩ = (some first, ⟨ds, first, true, false⟩) := by simp [next, turned]
      exact .step on (ih inside rest.symm)
    · rw [todo] at rest
      cases rest

theorem coordinates_eq_nil {ds : List Int} (h : ∃ d ∈ ds, d ≤ 0) : coordinates ds = [] := by
  refine List.eq_nil_iff_forall_not_mem.2 fun c hc => ?_
  obtain ⟨d, hd, empty⟩ := h
  have := positive_of_inBounds (mem_coordinates.1 hc) d hd
  omega

/-- A walk from the start gives all coordinates. -/
theorem drains_start (ds : List Int) : (start ds).Drains (coordinates ds) := by
  by_cases empty : ∃ d ∈ ds, d ≤ 0
  · rw [coordinates_eq_nil empty]
    have done : (ds.any fun d => decide (d ≤ 0)) = true := by simpa using empty
    have none : (start ds).next = (none, start ds) := by simp [next, start, done]
    exact .stop none
  · have positive : ∀ d ∈ ds, 0 < d := fun d hd => Int.not_le.1 fun h => empty ⟨d, hd, h⟩
    have todo : (ds.any fun d => decide (d ≤ 0)) = false := by simpa using positive
    rw [coordinates_eq_behind positive]
    have first : (start ds).next = (some (origin ds), ⟨ds, origin ds, true, false⟩) := by simp [next, start, todo]
    exact .step first (drains_behind (inBounds_origin positive))

/-! ## How many there are -/

theorem length_coordinates {ds : List Int} (h : ∀ d ∈ ds, 0 < d) :
    ((coordinates ds).length : Int) = ds.prod := by
  induction ds with
  | nil => rfl
  | cons d ds ih =>
    have rest := ih fun e he => h e (List.mem_cons_of_mem _ he)
    have positive := h d List.mem_cons_self
    have nonempty := coordinates_ne_nil fun e he => h e (List.mem_cons_of_mem _ he)
    have indexes : ((indexesBelow d).length : Int) = d := by
      rw [indexesBelow, List.length_map, List.length_range]
      omega
    rw [coordinates_cons nonempty, List.length_flatMap]
    simp only [List.length_map, List.map_const', List.sum_replicate_nat, Int.natCast_mul, indexes, rest,
      List.prod_cons]

/-- The size of an array is the number of its coordinates, as a signed 64-bit word. -/
theorem size_arrayOf {ds : List Int} (h : ∀ d ∈ ds, 0 < d) (p : Prim) :
    (Ty.arrayOf ds (.prim p)).size = LongWord.wrap (coordinates ds).length := by
  rw [length_coordinates h, List.prod_eq_foldl, Ty.size, Ty.dims_arrayOf, Ty.dims, List.append_nil]

/-- The walk over an index space stops and gives each of its coordinates once, in increasing order: the empty one
if there are no dimensions, none if a dimension is empty, and else as many as the product of the lengths. -/
theorem walk_enumerates (ds : List Int) :
    (∀ out, (start ds).Drains out ↔ out = coordinates ds) ∧
      (∀ c, c ∈ coordinates ds ↔ InBounds c ds) ∧ (coordinates ds).Pairwise (· < ·) ∧
      (ds = [] → coordinates ds = [[]]) ∧ ((∃ d ∈ ds, d ≤ 0) → coordinates ds = []) ∧
      ((∀ d ∈ ds, 0 < d) → ((coordinates ds).length : Int) = ds.prod ∧
        ∀ p, (Ty.arrayOf ds (.prim p)).size = LongWord.wrap ds.prod) := by
  refine ⟨fun out => ⟨fun h => h.unique (drains_start ds), fun h => h ▸ drains_start ds⟩,
    fun c => mem_coordinates, coordinates_sorted ds, fun h => by rw [h]; rfl, coordinates_eq_nil, fun h => ?_⟩
  exact ⟨length_coordinates h, fun p => by rw [size_arrayOf h p, length_coordinates h]⟩

/-- Where the number of coordinates is no signed 64-bit word, the size is another number. -/
theorem size_wraps :
    ((coordinates [4294967296, 4294967296]).length : Int) = 18446744073709551616 ∧
      (Ty.arrayOf [4294967296, 4294967296] .int).size = 0 :=
  ⟨length_coordinates (by decide), by decide⟩

end Odometer

end SignalLang
