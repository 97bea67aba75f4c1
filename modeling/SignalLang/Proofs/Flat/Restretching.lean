import SignalLang.Proofs.Broadcast

/-!
# Stretching twice

A view that is stretched to some lengths and then to others should select what one stretch to the last lengths
selects. It does, except that a dimension the first stretch added has the mode of one that the value does not
have only as long as its length stays: if the length was one and is stretched again, the dimension becomes a
pinned one (`Opens`), and every coordinate then takes one index too many from the value.
-/

namespace SignalLang

open Staged (Datum)

/-- Some dimension behind the first `rank` has length one at first and another length at last. -/
def Opens (rank : Nat) (mid target : List Int) : Prop :=
  ∃ lengths ∈ (mid.zip target).drop rank, lengths.1 = 1 ∧ lengths.2 ≠ 1

instance (rank : Nat) (mid target : List Int) : Decidable (Opens rank mid target) :=
  inferInstanceAs (Decidable (∃ lengths ∈ _, _))

theorem not_opens_nil {rank : Nat} {target : List Int} : ¬Opens rank [] target := by
  simp [Opens]

theorem opens_succ {rank : Nat} {m n : Int} {mid target : List Int} :
    Opens (rank + 1) (m :: mid) (n :: target) ↔ Opens rank mid target := Iff.rfl

theorem opens_zero {m n : Int} {mid target : List Int} :
    Opens 0 (m :: mid) (n :: target) ↔ m = 1 ∧ n ≠ 1 ∨ Opens 0 mid target := by
  simp [Opens]

namespace Flat

/-! ## Indexes taken -/

/-- A view of a part of what is viewed: one with more indexes fixed. -/
def Viewed.Below : (part whole : Viewed) → Prop
  | .constant c', .constant c => sizeOf c' < sizeOf c
  | .variable _ coord', .variable _ coord => coord.length < coord'.length
  | _, _ => False

theorem Viewed.below_irrefl (v : Viewed) : ¬v.Below v := by
  cases v <;> simp [Below]

theorem Viewed.Below.trans {u v w : Viewed} (h : u.Below v) (h' : v.Below w) : u.Below w := by
  match u, v, w, h, h' with
  | .constant _, .constant _, .constant _, h, h' => exact Nat.lt_trans h h'
  | .variable .., .variable .., .variable .., h, h' => exact Nat.lt_trans h' h

namespace Operand

theorem below_of_select? {v v' : Viewed} {i : Int} (h : select? v i = some v') : v'.Below v := by
  match v with
  | .variable id coord =>
    cases h
    simp [Viewed.Below]
  | .constant (.array items) =>
    rw [select?] at h
    split at h
    · cases h
    · obtain ⟨c, hc, rfl⟩ := Option.map_eq_some_iff.1 h
      have smaller := List.sizeOf_lt_of_mem (List.mem_of_getElem? hc)
      simp only [Viewed.Below, Constant.array.sizeOf_spec]
      omega

/-! ## Dimensions stretched again -/

/-- Dimensions that the value does not have, stretched again: those that open pin an index, and then a part is
selected. -/
theorem at?_restretch_discard {j : Nat} {mid target : List Int} {ds : List Dim}
    (run : stretchDims j (mid.map (⟨·, .discard⟩)) target = .ok ds) {c : List Int} (hc : InBounds c target)
    (v : Viewed) :
    (¬Opens 0 mid target → (⟨v, ds⟩ : Operand).at? c = some ⟨v, []⟩) ∧
      ∀ e, (⟨v, ds⟩ : Operand).at? c = some e →
        (e.viewed = v ∨ e.viewed.Below v) ∧ (Opens 0 mid target → e.viewed.Below v) := by
  induction mid generalizing j target ds c v with
  | nil =>
    rw [List.map_nil, stretchDims_nil] at run
    cases run
    rw [at?_discard v hc]
    refine ⟨fun _ => rfl, fun e he => ?_⟩
    cases he
    exact ⟨.inl rfl, fun opens => absurd opens not_opens_nil⟩
  | cons m mid ih =>
    match target, c, hc with
    | [], _, _ => cases run
    | n :: target, i :: c, hc =>
      obtain ⟨first, rest, rfl, after, kept | pinned⟩ := stretchDims_cons run
      · -- The dimension keeps its length, and the index is dropped.
        obtain ⟨same, rfl⟩ := kept
        obtain rfl : m = n := same
        obtain ⟨alike, part⟩ := ih after hc.2 v
        have opens : Opens 0 (m :: mid) (m :: target) ↔ Opens 0 mid target :=
          opens_zero.trans (or_iff_right fun h => h.2 h.1)
        rw [at?, index?, opens]
        exact ⟨alike, part⟩
      · obtain ⟨differs, one, rfl⟩ := pinned
        obtain rfl : m = 1 := one
        have opens : Opens 0 (1 :: mid) (n :: target) := opens_zero.2 (.inl ⟨rfl, fun h => differs h.symm⟩)
        refine ⟨fun closed => absurd opens closed, fun e he => ?_⟩
        rw [at?, index?] at he
        obtain ⟨o, ho, he⟩ := Option.bind_eq_some_iff.1 he
        obtain ⟨v', hv', rfl⟩ := Option.map_eq_some_iff.1 ho
        have below : e.viewed.Below v := by
          rcases ((ih after hc.2 v').2 e he).1 with same | deeper
          · exact same ▸ below_of_select? hv'
          · exact deeper.trans (below_of_select? hv')
        exact ⟨.inr below, fun _ => below⟩

/-- Dimensions of a value that are stretched twice select what they select when they are stretched once. -/
theorem at?_restretch {a : Ty} {i j : Nat} {mid target : List Int} {ds₁ ds₂ : List Dim}
    (run₁ : stretchDims i (whole a) mid = .ok ds₁) (run₂ : stretchDims j ds₁ target = .ok ds₂) {c : List Int}
    (hc : InBounds c target) {v : Viewed} {e : Operand}
    (found : (⟨v, whole a⟩ : Operand).at? (broadcast c a.dims) = some e) :
    (⟨v, ds₂⟩ : Operand).at? c = some e ↔ ¬Opens a.dims.length mid target := by
  induction a generalizing i j mid target ds₁ ds₂ c v with
  | prim p =>
    rw [whole, Ty.dims, List.map_nil, stretchDims_nil] at run₁
    cases run₁
    obtain rfl : ⟨v, []⟩ = e := by
      rw [Ty.dims, broadcast] at found
      exact Option.some.inj found
    obtain ⟨alike, part⟩ := at?_restretch_discard run₂ hc v
    exact ⟨fun same opens => Viewed.below_irrefl v ((part _ same).2 opens), alike⟩
  | array m t ih =>
    cases mid with
    | nil => cases run₁
    | cons m₁ mid =>
      obtain ⟨first, rest, rfl, after₁, mode₁⟩ := stretchDims_cons run₁
      cases target with
      | nil => cases run₂
      | cons n target =>
        cases c with
        | nil => exact hc.elim
        | cons k c =>
          obtain ⟨second, rest', rfl, after₂, mode₂⟩ := stretchDims_cons run₂
          -- Whatever the two steps do, the index that is fixed is the one that the coordinate reads.
          have index : (⟨v, second :: rest'⟩ : Operand).index? k =
              (select? v (if m ≠ 1 then k else 0)).map (⟨·, rest'⟩) := by
            rcases mode₁ with ⟨-, rfl⟩ | ⟨-, one, rfl⟩
            · rcases mode₂ with ⟨same, rfl⟩ | ⟨-, one, rfl⟩
              · have same : m = n := same
                have read : (if m ≠ 1 then k else 0) = k := by
                  have := hc.1
                  split <;> omega
                rw [index?, read]
              · rw [index?, if_neg (not_not_intro one)]
            · have pinned : second.mode = .collapse := by
                rcases mode₂ with ⟨-, rfl⟩ | ⟨-, -, rfl⟩ <;> rfl
              rw [index?, if_neg (not_not_intro one)]
              dsimp only
              rw [pinned]
          have whole_index : (⟨v, whole (.array m t)⟩ : Operand).index? (if m ≠ 1 then k else 0) =
              (select? v (if m ≠ 1 then k else 0)).map (⟨·, whole t⟩) := rfl
          rw [Ty.dims, broadcast, at?, whole_index, Option.bind_map] at found
          obtain ⟨v', taken, found⟩ := Option.bind_eq_some_iff.1 found
          rw [at?, index, taken, Ty.dims, List.length_cons, opens_succ]
          exact ih after₁ after₂ hc.2 found

/-- A value that stretches to some lengths and on to others stretches to the others at once. The two views
select the same element at a coordinate exactly if no dimension that the first step added opens. -/
theorem stretch_stretch {o o₁ o₂ : Operand} {a : Ty} {mid target : List Int} (h : o.Presents a)
    (run₁ : o.stretch mid = .ok o₁) (run₂ : o₁.stretch target = .ok o₂) :
    ∃ o', o.stretch target = .ok o' ∧ ∀ c, InBounds c target →
      ∃ e, o'.at? c = some e ∧ (o₂.at? c = some e ↔ ¬Opens a.dims.length mid target) := by
  obtain ⟨ds₁, dims₁, rfl⟩ := stretch_eq_ok.1 run₁
  obtain ⟨ds₂, dims₂, rfl⟩ := stretch_eq_ok.1 run₂
  obtain ⟨v, ds⟩ := o
  obtain rfl : ds = whole a := h.dims
  obtain ⟨stretches₁, lengths₁⟩ := stretches_lengths dims₁
  obtain ⟨stretches₂, -⟩ := stretches_lengths dims₂
  have stretches : Stretches a.dims target := by
    refine Stretches.trans ?_ (lengths₁ ▸ stretches₂)
    rwa [lengths_whole] at stretches₁
  obtain ⟨o', run, same⟩ := h.stretch stretches
  refine ⟨o', run, fun c hc => ?_⟩
  obtain ⟨e, found⟩ := h.exists_at (hc.broadcast stretches)
  exact ⟨e, (same c hc).trans found, at?_restretch dims₁ dims₂ hc found⟩

/-- A pinned dimension is stretched again, and one that was added stays as it is. -/
theorem stretch_stretch_pinned : ∃ o₁ o₂ o' : Operand,
    (ofVariable 0 (some (.array 1 .int))).stretch [1, 2] = .ok o₁ ∧ o₁.stretch [3, 2] = .ok o₂ ∧
      (ofVariable 0 (some (.array 1 .int))).stretch [3, 2] = .ok o' ∧
      ∀ c, InBounds c [3, 2] → ∃ e, o'.at? c = some e ∧ o₂.at? c = some e := by
  obtain ⟨o', run, same⟩ := @stretch_stretch _ _ _ _ [1, 2] [3, 2] (presents_ofVariable 0 (.array 1 .int)) rfl rfl
  refine ⟨_, _, o', rfl, rfl, run, fun c hc => ?_⟩
  obtain ⟨e, found, iff⟩ := same c hc
  exact ⟨e, found, iff.2 (by decide)⟩

/-- A single element that is stretched to one element and then to two gets an index that it does not have. -/
theorem stretch_opens : ∃ o₁ o₂ o' : Operand,
    (ofVariable 0 (some .int)).stretch [1] = .ok o₁ ∧ o₁.stretch [2] = .ok o₂ ∧
      (ofVariable 0 (some .int)).stretch [2] = .ok o' ∧
      o₂.at? [0] = some ⟨.variable 0 [0], []⟩ ∧ o'.at? [0] = some ⟨.variable 0 [], []⟩ :=
  ⟨_, _, _, rfl, rfl, rfl, rfl, rfl⟩

end Operand

end Flat

end SignalLang
