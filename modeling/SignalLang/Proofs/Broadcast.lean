import SignalLang.Flat.Lower
import SignalLang.Proofs.Flat.Invariant
import SignalLang.Proofs.Promotion
import SignalLang.Proofs.Staged.Known

/-!
# Broadcasting

A value is stretched to a bigger shape in three ways. Known data are copied into nested arrays
(`Datum.stretch?`), coordinates of the result are mapped to coordinates of the operand (`broadcast`), and
operands of instructions get dimensions that drop or pin an index (`Operand.stretch`). All three read the same
element for every coordinate of the result, and operands stretch exactly as types promote.

Operators work element by element on the stretched operands: folding combines the elements that `broadcast`
gives, and flattening emits one instruction for each coordinate with the same two elements.
-/

namespace SignalLang

open Staged (Datum)

/-! ## Coordinates -/

theorem getElem?_indexesBelow {n i : Int} (hi : 0 ≤ i) (hlt : i < n) : (indexesBelow n)[i.toNat]? = some i := by
  rw [indexesBelow, List.getElem?_map, List.getElem?_range (by omega)]
  simp only [Option.map_some, Int.ofNat_eq_natCast, Option.some.injEq]
  omega

/-- The element that a coordinate of the result reads is there. -/
theorem InBounds.broadcast : {c ds ns : List Int} → InBounds c ns → Stretches ds ns → InBounds (broadcast c ds) ds
  | _, [], _, _, _ => by simp [SignalLang.broadcast, InBounds]
  | [], _ :: _, [], _, hs => hs.elim
  | i :: c, d :: ds, n :: ns, hc, hs => by
    refine ⟨?_, hc.2.broadcast hs.2⟩
    rcases hs.1 with rfl | rfl
    · split
      · exact hc.1
      · omega
    · simp

/-- Coordinates of the result read their own elements in an operand of its shape. -/
theorem broadcast_self : {c ds : List Int} → InBounds c ds → broadcast c ds = c
  | [], [], _ => rfl
  | i :: c, d :: ds, h => by
    rw [broadcast, broadcast_self h.2]
    split
    · rfl
    · have := h.1
      rw [show i = 0 by omega]

namespace Staged.Datum

/-! ## Known data -/

theorem mapM_some {α β : Type} {f : α → Option β} {xs : List α} (h : ∀ x ∈ xs, ∃ y, f x = some y) :
    ∃ ys, xs.mapM f = some ys ∧ ys.map some = xs.map f := by
  induction xs with
  | nil => exact ⟨[], rfl, rfl⟩
  | cons x xs ih =>
    obtain ⟨y, hy⟩ := h x List.mem_cons_self
    obtain ⟨ys, run, same⟩ := ih fun z hz => h z (List.mem_cons_of_mem _ hz)
    refine ⟨y :: ys, ?_, by rw [List.map_cons, List.map_cons, hy, same]⟩
    rw [List.mapM_cons, hy, run]
    rfl

theorem item?_array_cons {items : List Datum} {i : Int} {c : List Int} (hi : 0 ≤ i) :
    (Datum.array items).item? (i :: c) = items[i.toNat]?.bind (·.item? c) := by
  rw [item?, Datum.element?, if_neg (by omega)]

/-- A datum of a shape has an element at every coordinate. -/
theorem Shaped.exists_item {dims : List Int} {d : Datum} {c : List Int} (h : Shaped dims d)
    (hc : InBounds c dims) : ∃ x, d.item? c = some x := by
  induction dims generalizing d c with
  | nil =>
    cases c with
    | nil => exact ⟨d, rfl⟩
    | cons i c => exact hc.elim
  | cons n ns ih =>
    cases c with
    | nil => exact hc.elim
    | cons i c =>
      obtain ⟨y, hy⟩ := h.exists_element hc.1.1 hc.1.2
      obtain ⟨x, hx⟩ := ih (h.element? hy) hc.2
      exact ⟨x, item?_cons_eq_some.2 ⟨y, hy, hx⟩⟩

/-- A datum stretches to all lengths its own lengths stretch to, and the result has at each coordinate the
element that the coordinate reads. -/
theorem stretch?_ok {dims shape : List Int} {d : Datum} (hs : Stretches shape dims)
    (hd : Shaped shape d) :
    ∃ e, stretch? dims shape d = some e ∧ Shaped dims e ∧
      ∀ c, InBounds c dims → e.item? c = d.item? (broadcast c shape) := by
  induction dims generalizing shape d with
  | nil =>
    match shape, hs with
    | [], _ =>
      refine ⟨d, rfl, trivial, fun c hc => ?_⟩
      match c, hc with
      | [], _ => rfl
  | cons n dims ih =>
    match shape, hs, hd with
    | [], _, _ =>
      obtain ⟨e, run, shaped, items⟩ := @ih [] d trivial trivial
      refine ⟨.array (List.replicate n.toNat e), ?_, ⟨_, rfl, List.length_replicate, ?_⟩, fun c hc => ?_⟩
      · rw [stretch?, run]
        rfl
      · intro y hy
        rwa [List.eq_of_mem_replicate hy]
      · match c, hc with
        | i :: c, hc =>
          have inside : i.toNat < n.toNat := by
            have := hc.1
            omega
          rw [item?_array_cons hc.1.1, List.getElem?_replicate_of_lt inside, Option.bind_some, items c hc.2]
          simp [broadcast]
    | m :: shape, hs, hd =>
      -- The index that is read in the outermost dimension is in range.
      have read (i : Int) (hi : 0 ≤ i) (hlt : i < n) :
          ∃ y, d.element? (if m = 1 then 0 else i) = some y ∧ Shaped shape y := by
        have inside : 0 ≤ (if m = 1 then 0 else i) ∧ (if m = 1 then 0 else i) < m := by
          have := hs.1
          split <;> omega
        obtain ⟨y, hy⟩ := hd.exists_element inside.1 inside.2
        exact ⟨y, hy, hd.element? hy⟩
      have each (i : Int) (hi : 0 ≤ i) (hlt : i < n) : ∃ e,
          (do stretch? dims shape (← d.element? (if m = 1 then 0 else i))) = some e ∧ Shaped dims e ∧
            ∀ c, InBounds c dims → e.item? c = d.item? ((if m ≠ 1 then i else 0) :: broadcast c shape) := by
        obtain ⟨y, hy, hshape⟩ := read i hi hlt
        obtain ⟨e, run, shaped, items⟩ := ih hs.2 hshape
        refine ⟨e, by rw [hy]; exact run, shaped, fun c hc => ?_⟩
        rw [item?, show (if m ≠ 1 then i else 0) = if m = 1 then 0 else i by split <;> simp_all, hy]
        exact items c hc
      obtain ⟨ys, run, same⟩ := @mapM_some _ _
        (fun i => do stretch? dims shape (← d.element? (if m = 1 then 0 else i))) (indexesBelow n)
        fun i hi => by
          obtain ⟨e, he, -⟩ := each i (mem_indexesBelow.1 hi).1 (mem_indexesBelow.1 hi).2
          exact ⟨e, he⟩
      refine ⟨.array ys, by rw [stretch?, run]; rfl, ⟨ys, rfl, ?_, ?_⟩, fun c hc => ?_⟩
      · have := congrArg List.length same
        simpa [indexesBelow] using this
      · intro e he
        have : some e ∈ ys.map some := List.mem_map_of_mem he
        rw [same] at this
        obtain ⟨i, hi, run⟩ := List.mem_map.1 this
        obtain ⟨e', he', shaped, -⟩ := each i (mem_indexesBelow.1 hi).1 (mem_indexesBelow.1 hi).2
        rw [run] at he'
        cases he'
        exact shaped
      · match c, hc with
        | i :: c, hc =>
          obtain ⟨e, he, -, items⟩ := each i hc.1.1 hc.1.2
          have found : ys[i.toNat]? = some e := by
            have := congrArg (·[i.toNat]?) same
            simp only [List.getElem?_map, getElem?_indexesBelow hc.1.1 hc.1.2, Option.map_some, he] at this
            simpa using this
          rw [item?_array_cons hc.1.1, found, Option.bind_some, items c hc.2]
          simp [broadcast]

/-! ## Folding -/

theorem mapM_ok {ε α β : Type} {f : α → Except ε β} {xs : List α} {ys : List β} (h : xs.mapM f = .ok ys) :
    xs.map f = ys.map .ok := by
  induction xs generalizing ys with
  | nil =>
    cases h
    rfl
  | cons x xs ih =>
    rw [List.mapM_cons] at h
    obtain ⟨y, hy, h⟩ := Steps.except_bind_ok.1 h
    obtain ⟨zs, hzs, h⟩ := Steps.except_bind_ok.1 h
    cases h
    rw [List.map_cons, List.map_cons, hy, ih hzs]

theorem mapM_error {ε α β : Type} {f : α → Except ε β} {xs : List α} {e : ε} (h : xs.mapM f = .error e) :
    ∃ x ∈ xs, f x = .error e := by
  induction xs with
  | nil => cases h
  | cons x xs ih =>
    rw [List.mapM_cons] at h
    rcases Steps.except_bind_error.1 h with hx | ⟨y, -, h⟩
    · exact ⟨x, List.mem_cons_self, hx⟩
    · rcases Steps.except_bind_error.1 h with hxs | ⟨ys, -, h⟩
      · obtain ⟨z, hz, run⟩ := ih hxs
        exact ⟨z, List.mem_cons_of_mem _ hz, run⟩
      · cases h

section Elements

variable {op : BinaryOp} {dims : List Int} {l r : Datum}

/-- An operator on arrays combines the elements at each coordinate. -/
theorem foldElements_ok (hl : Shaped dims l) (hr : Shaped dims r) {d : Datum}
    (h : foldElements op dims l r = .ok d) {c : List Int} (hc : InBounds c dims) :
    ∃ x y z, l.item? c = some x ∧ r.item? c = some y ∧ foldScalar op x y = .ok z ∧ d.item? c = some z := by
  induction dims generalizing l r d c with
  | nil =>
    match c, hc with
    | [], _ => exact ⟨l, r, d, rfl, rfl, h, rfl⟩
  | cons n ns ih =>
    match c, hc with
    | i :: c, hc =>
      obtain ⟨a, ha⟩ := hl.exists_element hc.1.1 hc.1.2
      obtain ⟨b, hb⟩ := hr.exists_element hc.1.1 hc.1.2
      rw [foldElements] at h
      obtain ⟨items, run, h⟩ := Steps.except_bind_ok.1 h
      cases h
      have found := congrArg (·[i.toNat]?) (mapM_ok run)
      simp only [List.getElem?_map, getElem?_indexesBelow hc.1.1 hc.1.2, Option.map_some, ha, hb] at found
      obtain ⟨e, he, same⟩ := Option.map_eq_some_iff.1 found.symm
      obtain ⟨x, y, z, hx, hy, hz, hd⟩ := ih (hl.element? ha) (hr.element? hb) same.symm hc.2
      refine ⟨x, y, z, item?_cons_eq_some.2 ⟨a, ha, hx⟩, item?_cons_eq_some.2 ⟨b, hb, hy⟩, hz, ?_⟩
      rw [item?_array_cons hc.1.1, he, Option.bind_some, hd]

/-- An operator on arrays fails only where it fails on two elements. -/
theorem foldElements_error (hl : Shaped dims l) (hr : Shaped dims r) {e : FoldError}
    (h : foldElements op dims l r = .error e) :
    ∃ c x y, InBounds c dims ∧ l.item? c = some x ∧ r.item? c = some y ∧ foldScalar op x y = .error e := by
  induction dims generalizing l r with
  | nil => exact ⟨[], l, r, trivial, rfl, rfl, h⟩
  | cons n ns ih =>
    rw [foldElements] at h
    rcases Steps.except_bind_error.1 h with run | ⟨items, -, h⟩
    · obtain ⟨i, hi, failed⟩ := mapM_error run
      obtain ⟨hi, hlt⟩ := mem_indexesBelow.1 hi
      obtain ⟨a, ha⟩ := hl.exists_element hi hlt
      obtain ⟨b, hb⟩ := hr.exists_element hi hlt
      simp only [ha, hb] at failed
      obtain ⟨c, x, y, hc, hx, hy, hz⟩ := ih (hl.element? ha) (hr.element? hb) failed
      exact ⟨i :: c, x, y, ⟨⟨hi, hlt⟩, hc⟩, item?_cons_eq_some.2 ⟨a, ha, hx⟩,
        item?_cons_eq_some.2 ⟨b, hb, hy⟩, hz⟩
    · cases h

end Elements

theorem ofConstants_eq_map (t : Table) (cs : List Constant) : ofConstants t cs = cs.map (ofConstant t) := by
  induction cs with
  | nil => rfl
  | cons c cs ih => rw [ofConstants, ih, List.map_cons]

/-- The elements of a constant. -/
theorem element?_ofConstant {t : Table} {k : Constant} {i : Int} {x : Datum}
    (h : (ofConstant t k).element? i = some x) :
    ∃ items k', k = .array items ∧ 0 ≤ i ∧ items[i.toNat]? = some k' ∧ x = ofConstant t k' := by
  obtain ⟨data, heq, hi, hget⟩ := element?_eq_some.1 h
  cases k with
  | array items =>
    rw [ofConstant, ofConstants_eq_map] at heq
    cases heq
    rw [List.getElem?_map] at hget
    obtain ⟨k', hk', rfl⟩ := Option.map_eq_some_iff.1 hget
    exact ⟨items, k', rfl, hi, hk', rfl⟩
  | _ => cases heq

/-- A value of a type has its shape. -/
theorem shaped_ofConstant {t : Table} {k : Constant} {a : Ty} (h : k.HasTy a) :
    Shaped a.dims (.ofConstant t k) := by
  induction a generalizing k with
  | prim p => trivial
  | array n u ih =>
    cases k with
    | array items =>
      obtain ⟨m, v, eq, -, length, all⟩ := Constant.hasTy_array.1 h
      cases eq
      rw [ofConstant, ofConstants_eq_map]
      refine ⟨_, rfl, by rw [List.length_map]; omega, fun e he => ?_⟩
      obtain ⟨c, hc, rfl⟩ := List.mem_map.1 he
      exact ih (all c hc)
    | _ => cases h

end Staged.Datum

namespace Flat.Operand

/-! ## Views -/

/-- Dimensions that are missing are dropped from every index. -/
theorem stretchDims_nil (i : Nat) (ns : List Int) : stretchDims i [] ns = .ok (ns.map (⟨·, .discard⟩)) := by
  cases ns <;> rfl

/-- What becomes of one dimension: it is left alone, or pinned if its length is one. -/
theorem stretchDims_cons {d : Dim} {n : Int} {i : Nat} {ds out : List Dim} {ns : List Int}
    (h : stretchDims i (d :: ds) (n :: ns) = .ok out) :
    ∃ first rest, out = first :: rest ∧ stretchDims (i + 1) ds ns = .ok rest ∧
      (d.length = n ∧ first = d ∨ d.length ≠ n ∧ d.length = 1 ∧ first = ⟨n, .collapse⟩) := by
  have rest {first : Dim} (h : (do return first :: (← stretchDims (i + 1) ds ns)) = Except.ok out) :
      ∃ rest, out = first :: rest ∧ stretchDims (i + 1) ds ns = .ok rest := by
    obtain ⟨rest, run, h⟩ := Steps.except_bind_ok.1 h
    cases h
    exact ⟨rest, rfl, run⟩
  rw [stretchDims] at h
  split at h
  · obtain ⟨rest, eq, run⟩ := rest h
    exact ⟨_, rest, eq, run, .inl ⟨‹_›, rfl⟩⟩
  · split at h
    · obtain ⟨rest, eq, run⟩ := rest h
      exact ⟨_, rest, eq, run, .inr ⟨‹_›, ‹_›, rfl⟩⟩
    · cases h

/-- Dimensions stretch only as their lengths do, and have the lengths they are stretched to then. -/
theorem stretches_lengths {i : Nat} {ds out : List Dim} {ns : List Int} (h : stretchDims i ds ns = .ok out) :
    Stretches (ds.map (·.length)) ns ∧ out.map (·.length) = ns := by
  induction ds generalizing i ns out with
  | nil =>
    rw [stretchDims_nil] at h
    cases h
    refine ⟨trivial, ?_⟩
    rw [List.map_map]
    exact List.map_id ns
  | cons d ds ih =>
    cases ns with
    | nil => cases h
    | cons n ns =>
      obtain ⟨first, rest, rfl, run, kept | pinned⟩ := stretchDims_cons h
      · obtain ⟨stretches, lengths⟩ := ih run
        exact ⟨⟨.inl kept.1, stretches⟩, by rw [List.map_cons, lengths, kept.2, kept.1]⟩
      · obtain ⟨stretches, lengths⟩ := ih run
        exact ⟨⟨.inr pinned.2.1, stretches⟩, by rw [List.map_cons, lengths, pinned.2.2]⟩

theorem lengths_whole (a : Ty) : (whole a).map (·.length) = a.dims := by
  rw [whole, List.map_map]
  exact List.map_id _

/-- What becomes of the outermost dimension: it is kept, or pinned if its length is one. -/
theorem stretchDims_array {m n : Int} {t : Ty} {i : Nat} {ns : List Int} {ds : List Dim}
    (h : stretchDims i (whole (.array m t)) (n :: ns) = .ok ds) :
    ∃ first rest, ds = first :: rest ∧ stretchDims (i + 1) (whole t) ns = .ok rest ∧
      (m = n ∧ first = ⟨m, .keep⟩ ∨ m = 1 ∧ first = ⟨n, .collapse⟩) := by
  obtain ⟨first, rest, eq, run, mode⟩ := stretchDims_cons h
  exact ⟨first, rest, eq, run, mode.imp id And.right⟩

theorem stretches_of_stretchDims {a : Ty} {i : Nat} {ns : List Int} {ds : List Dim}
    (h : stretchDims i (whole a) ns = .ok ds) : Stretches a.dims ns :=
  lengths_whole a ▸ (stretches_lengths h).1

theorem at?_discard (v : Viewed) {c ns : List Int} (hc : InBounds c ns) :
    (⟨v, ns.map fun n => ⟨n, .discard⟩⟩ : Operand).at? c = some ⟨v, []⟩ := by
  induction ns generalizing c with
  | nil =>
    match c, hc with
    | [], _ => rfl
  | cons n ns ih =>
    match c, hc with
    | i :: c, hc =>
      rw [at?, index?]
      exact ih hc.2

/-- A coordinate of stretched dimensions selects what the coordinate it reads selects. -/
theorem at?_stretchDims {a : Ty} {i : Nat} {ns : List Int} {ds : List Dim} (v : Viewed)
    (h : stretchDims i (whole a) ns = .ok ds) {c : List Int} (hc : InBounds c ns) :
    (⟨v, ds⟩ : Operand).at? c = (⟨v, whole a⟩ : Operand).at? (broadcast c a.dims) := by
  induction a generalizing i ns ds v c with
  | prim p =>
    have h : (.ok (ns.map fun n => ⟨n, .discard⟩) : Except StretchError (List Dim)) = .ok ds := by
      rw [← h]
      cases ns <;> rfl
    cases h
    rw [at?_discard v hc]
    simp [Ty.dims, broadcast, at?, whole]
  | array m t ih =>
    cases ns with
    | nil => cases h
    | cons n ns =>
      cases c with
      | nil => exact hc.elim
      | cons j c =>
        obtain ⟨first, rest, rfl, run, mode⟩ := stretchDims_array h
        -- Either way the same index of what is viewed is fixed.
        have index : (⟨v, first :: rest⟩ : Operand).index? j =
            (select? v (if m ≠ 1 then j else 0)).map (⟨·, rest⟩) := by
          rcases mode with ⟨same, rfl⟩ | ⟨one, rfl⟩
          · have : (if m ≠ 1 then j else 0) = j := by
              have := hc.1
              split <;> omega
            rw [index?, this]
          · rw [index?, if_neg (not_not_intro one)]
        have whole_index : (⟨v, whole (.array m t)⟩ : Operand).index? (if m ≠ 1 then j else 0) =
            (select? v (if m ≠ 1 then j else 0)).map (⟨·, whole t⟩) := rfl
        rw [Ty.dims, broadcast, at?, at?, index, whole_index]
        cases select? v (if m ≠ 1 then j else 0) with
        | none => rfl
        | some v' => exact ih v' run hc.2

/-- A view stretches exactly to the lengths its own lengths stretch to. -/
theorem stretch_eq_ok {v : Viewed} {dims : List Dim} {ns : List Int} {o : Operand} :
    (⟨v, dims⟩ : Operand).stretch ns = .ok o ↔ ∃ ds, stretchDims 0 dims ns = .ok ds ∧ o = ⟨v, ds⟩ := by
  unfold stretch
  constructor
  · intro h
    split at h
    · cases h
    · cases run : stretchDims 0 dims ns with
      | error e =>
        rw [run] at h
        cases h
      | ok ds =>
        rw [run] at h
        cases h
        exact ⟨ds, rfl, rfl⟩
  · rintro ⟨ds, run, rfl⟩
    have fits := (stretches_lengths run).1.length_le
    rw [List.length_map] at fits
    rw [if_neg (Nat.not_lt.2 fits), run]
    rfl

/-- Indexes of a whole variable are added to its fixed ones. -/
theorem at?_variable {a : Ty} {id : VarId} {coord c : List Int} (hc : InBounds c a.dims) :
    (⟨.variable id coord, whole a⟩ : Operand).at? c = some ⟨.variable id (coord ++ c), []⟩ := by
  induction a generalizing coord c with
  | prim p =>
    cases c with
    | nil => simp [at?, whole, Ty.dims]
    | cons i c => exact hc.elim
  | array n t ih =>
    cases c with
    | nil => exact hc.elim
    | cons i c =>
      have step : (⟨.variable id coord, whole (.array n t)⟩ : Operand).index? i =
          some ⟨.variable id (coord ++ [i]), whole t⟩ := rfl
      rw [at?, step, Option.bind_some, ih hc.2, List.append_assoc, List.singleton_append]

/-- Indexes of a whole constant select one of its elements. -/
theorem at?_constant {a : Ty} {t : Staged.Table} {k : Constant} {c : List Int} {x : Datum}
    (hc : InBounds c a.dims) (hx : (Datum.ofConstant t k).item? c = some x) :
    ∃ k', (⟨.constant k, whole a⟩ : Operand).at? c = some ⟨.constant k', []⟩ ∧ x = .ofConstant t k' := by
  induction a generalizing k c with
  | prim p =>
    cases c with
    | nil =>
      cases hx
      exact ⟨k, by simp [at?, whole, Ty.dims], rfl⟩
    | cons i c => exact hc.elim
  | array n u ih =>
    cases c with
    | nil => exact hc.elim
    | cons i c =>
      obtain ⟨part, hpart, hx⟩ := Datum.item?_cons_eq_some.1 hx
      obtain ⟨items, k', rfl, hi, hk', rfl⟩ := Datum.element?_ofConstant hpart
      obtain ⟨k'', found, same⟩ := ih hc.2 hx
      refine ⟨k'', ?_, same⟩
      have step : (⟨.constant (.array items), whole (.array n u)⟩ : Operand).index? i =
          some ⟨.constant k', whole u⟩ := by
        show (select? (.constant (.array items)) i).map _ = _
        rw [select?, if_neg (by omega), hk']
        rfl
      rw [at?, step, Option.bind_some, found]

/-- An operand is all of a value of a type: a variable, or a constant of the shape of the type. -/
structure Presents (o : Operand) (a : Ty) : Prop where
  dims : o.dims = whole a
  shaped : ∀ k, o.viewed = .constant k → Datum.Shaped a.dims (.ofConstant [] k)

theorem presents_ofVariable (id : VarId) (a : Ty) : (ofVariable id (some a)).Presents a := ⟨rfl, nofun⟩

theorem presents_ofConstant {k : Constant} {a : Ty} (h : k.HasTy a) : (ofConstant k).Presents a := by
  refine ⟨by rw [ofConstant, h.ty_eq], fun k' same => ?_⟩
  cases same
  exact Datum.shaped_ofConstant h

/-- Every coordinate of a value selects a single element. -/
theorem Presents.exists_at {o : Operand} {a : Ty} (h : o.Presents a) {c : List Int} (hc : InBounds c a.dims) :
    ∃ e, o.at? c = some e := by
  obtain ⟨v, ds⟩ := o
  obtain rfl : ds = whole a := h.dims
  match v, h.shaped with
  | .constant k, shaped =>
    obtain ⟨x, hx⟩ := (shaped k rfl).exists_item hc
    obtain ⟨k', found, -⟩ := at?_constant hc hx
    exact ⟨_, found⟩
  | .variable id coord, _ => exact ⟨_, at?_variable hc⟩

/-- Stretching a value keeps what its coordinates select. -/
theorem Presents.stretch {o : Operand} {a : Ty} (h : o.Presents a) {ns : List Int} (hs : Stretches a.dims ns) :
    ∃ o', o.stretch ns = .ok o' ∧ ∀ c, InBounds c ns → o'.at? c = o.at? (broadcast c a.dims) := by
  obtain ⟨v, ds⟩ := o
  obtain rfl : ds = whole a := h.dims
  obtain ⟨ds, run, -⟩ := stretchDims_ok a 0 hs
  exact ⟨⟨v, ds⟩, stretch_eq_ok.2 ⟨ds, run, rfl⟩, fun c hc => at?_stretchDims v run hc⟩

end Flat.Operand

namespace Flat

/-! ## Flattening -/

/-- The instruction of a binary operator for one coordinate of the result `x`; each operand is read where
the coordinate reads it. -/
def elementInstr (op : BinaryOp) (o₁ : Operand) (dims₁ : List Int) (o₂ : Operand) (dims₂ : List Int)
    (x : Operand) (c : List Int) : Option Instr := do
  return .binary op (← o₁.at? (broadcast c dims₁)) (← o₂.at? (broadcast c dims₂)) (← x.at? c)

section Lowering

variable {ctx : LowerContext}

theorem emit_code (i : Instr) (s : LowerState) :
    ∃ s', Lower.emit i ctx s = .ok ((), s') ∧ s'.code.toList = s.code.toList ++ [i] := by
  refine ⟨_, rfl, ?_⟩
  show ((s.out.emit s.stream i).stream s.stream).toList = _
  rw [Program.stream_emit, if_pos rfl, Array.toList_push]
  rfl

/-- A loop that emits an instruction for each entry of a list. -/
theorem forM_emit {α : Type} {f : α → Lower Unit} {g : α → Option Instr} {xs : List α} {instrs : List Instr}
    (hf : ∀ x ∈ xs, ∀ i, g x = some i → f x = Lower.emit i) (h : xs.mapM g = some instrs) (s : LowerState) :
    ∃ s', xs.forM f ctx s = .ok ((), s') ∧ s'.code.toList = s.code.toList ++ instrs := by
  induction xs generalizing instrs s with
  | nil =>
    cases h
    exact ⟨s, rfl, (List.append_nil _).symm⟩
  | cons x xs ih =>
    rw [List.mapM_cons] at h
    obtain ⟨i, hi, h⟩ := Option.bind_eq_some_iff.1 h
    obtain ⟨is, his, h⟩ := Option.bind_eq_some_iff.1 h
    cases h
    obtain ⟨s₁, run₁, code₁⟩ := @emit_code ctx i s
    obtain ⟨s₂, run₂, code₂⟩ := ih (fun y hy => hf y (List.mem_cons_of_mem _ hy)) his s₁
    refine ⟨s₂, ?_, by rw [code₂, code₁, List.append_assoc, List.singleton_append]⟩
    show (f x >>= fun _ => xs.forM f) ctx s = _
    rw [hf x List.mem_cons_self i hi]
    exact Steps.bind_ok.2 ⟨(), s₁, run₁, run₂⟩

theorem temp_code (ty : Ty) (s : LowerState) :
    ∃ id s', Lower.temp ty ctx s = .ok (.ofVariable id (some ty), s') ∧ s'.code = s.code := by
  refine ⟨s.out.vars.size, _, rfl, ?_⟩
  exact Program.stream_addVariable ..

/-- Flattening an operator emits an instruction for each coordinate of the result, on the two elements that
the coordinate reads. -/
theorem expr_binary {s s₁ s₂ : LowerState} {left right : Staged.Expr} {op : SignalLang.BinaryOp} {ty : Ty}
    {span : Span} {o₁ o₂ : Operand} {a₁ a₂ : Ty} {instr : BinaryOp}
    (run₁ : Lower.expr left ctx s = .ok (o₁, s₁)) (run₂ : Lower.expr right ctx s₁ = .ok (o₂, s₂))
    (chosen : BinaryOp.select? op left.ty.base = some instr) (h₁ : o₁.Presents a₁) (h₂ : o₂.Presents a₂)
    (hs₁ : Stretches a₁.dims ty.dims) (hs₂ : Stretches a₂.dims ty.dims) :
    ∃ x s' instrs, Lower.expr (.binary op left right ty span) ctx s = .ok (x, s') ∧
      (coordinates ty.dims).mapM (elementInstr instr o₁ a₁.dims o₂ a₂.dims x) = some instrs ∧
      s'.code.toList = s₂.code.toList ++ instrs := by
  obtain ⟨o₁', stretched₁, same₁⟩ := h₁.stretch hs₁
  obtain ⟨o₂', stretched₂, same₂⟩ := h₂.stretch hs₂
  obtain ⟨id, s₃, run₃, code₃⟩ := @temp_code ctx ty s₂
  generalize hx : Operand.ofVariable id (some ty) = x at run₃
  have result (c : List Int) (hc : InBounds c ty.dims) : x.at? c = some ⟨.variable id c, []⟩ := by
    rw [← hx]
    exact Operand.at?_variable hc
  obtain ⟨instrs, list, -⟩ := @Datum.mapM_some _ _
    (elementInstr instr o₁ a₁.dims o₂ a₂.dims x) (coordinates ty.dims) fun c hc => by
      have hc := mem_coordinates.1 hc
      obtain ⟨e₁, found₁⟩ := h₁.exists_at (hc.broadcast hs₁)
      obtain ⟨e₂, found₂⟩ := h₂.exists_at (hc.broadcast hs₂)
      exact ⟨_, by rw [elementInstr, found₁, found₂, result c hc]; rfl⟩
  obtain ⟨s₄, run₄, code₄⟩ := @forM_emit ctx _ (fun c => do
      Lower.emit (.binary instr (← Lower.orBroken (o₁'.at? c)) (← Lower.orBroken (o₂'.at? c))
        (← Lower.orBroken (x.at? c)))) _ _ _ (fun c hc i hi => by
    have hc := mem_coordinates.1 hc
    rw [elementInstr] at hi
    rw [same₁ c hc, same₂ c hc]
    obtain ⟨e₁, he₁, hi⟩ := Option.bind_eq_some_iff.1 hi
    obtain ⟨e₂, he₂, hi⟩ := Option.bind_eq_some_iff.1 hi
    obtain ⟨e₃, he₃, hi⟩ := Option.bind_eq_some_iff.1 hi
    cases hi
    rw [he₁, he₂, he₃]
    rfl) list s₃
  refine ⟨x, s₄, instrs, ?_, list, by rw [code₄, code₃]⟩
  rw [Lower.expr]
  refine Steps.bind_ok.2 ⟨o₁, s₁, run₁, Steps.bind_ok.2 ⟨o₂, s₂, run₂, ?_⟩⟩
  rw [chosen]
  refine Steps.bind_ok.2 ⟨o₁', s₂, by rw [Lower.stretch, stretched₁]; rfl, ?_⟩
  refine Steps.bind_ok.2 ⟨o₂', s₂, by rw [Lower.stretch, stretched₂]; rfl, ?_⟩
  refine Steps.bind_ok.2 ⟨x, s₃, run₃, Steps.bind_ok.2 ⟨(), s₄, run₄, rfl⟩⟩

end Lowering

end Flat

/-! ## Agreement -/

open Flat (Operand LowerContext LowerState Lower)

/-- An operand that was just made of a value of a type: a constant, or a whole variable. -/
def Flat.Operand.IsFresh (o : Operand) (a : Ty) : Prop :=
  (∃ k : Constant, k.ty = a ∧ o = .ofConstant k) ∨ ∃ id, o = .ofVariable id (some a)

/-- All ways to stretch values of one type to another read the same elements. -/
structure StretchAlike (a b : Ty) : Prop where
  datum : ∀ d, Datum.Shaped a.dims d → ∃ e, Datum.stretch? b.dims a.dims d = some e ∧
    ∀ c, InBounds c b.dims → ∃ x, e.item? c = some x ∧ d.item? (broadcast c a.dims) = some x
  constant : ∀ (t : Staged.Table) (k : Constant), k.ty = a → Datum.Shaped a.dims (.ofConstant t k) →
    ∃ o, (Operand.ofConstant k).stretch b.dims = .ok o ∧ ∀ c, InBounds c b.dims →
      ∃ k', o.at? c = some ⟨.constant k', []⟩ ∧
        (Datum.ofConstant t k).item? (broadcast c a.dims) = some (.ofConstant t k')
  whole : ∀ id : Flat.VarId, ∃ o, (Operand.ofVariable id (some a)).stretch b.dims = .ok o ∧
    ∀ c, InBounds c b.dims → o.at? c = some ⟨.variable id (broadcast c a.dims), []⟩

/-- Folding and flattening a binary operator combine the same pairs of elements. -/
structure CombineAlike (a₁ a₂ b : Ty) : Prop where
  folded : ∀ (op : BinaryOp) (l r d : Datum), Datum.Shaped a₁.dims l → Datum.Shaped a₂.dims r →
    Datum.foldBinary op l r a₁.dims a₂.dims b.dims = .ok d → ∀ c, InBounds c b.dims →
      ∃ x y z, l.item? (broadcast c a₁.dims) = some x ∧ r.item? (broadcast c a₂.dims) = some y ∧
        Datum.foldScalar op x y = .ok z ∧ d.item? c = some z
  failed : ∀ (op : BinaryOp) (l r : Datum) (e : Staged.FoldError), Datum.Shaped a₁.dims l →
    Datum.Shaped a₂.dims r → Datum.foldBinary op l r a₁.dims a₂.dims b.dims = .error e →
      ∃ c x y, InBounds c b.dims ∧ l.item? (broadcast c a₁.dims) = some x ∧
        r.item? (broadcast c a₂.dims) = some y ∧ Datum.foldScalar op x y = .error e
  lowered : ∀ (ctx : LowerContext) (s s₁ s₂ : LowerState) (left right : Staged.Expr) (op : BinaryOp)
    (ty : Ty) (span : Span) (o₁ o₂ : Operand) (instr : Flat.BinaryOp), ty.dims = b.dims →
    Lower.expr left ctx s = .ok (o₁, s₁) → Lower.expr right ctx s₁ = .ok (o₂, s₂) →
    Flat.BinaryOp.select? op left.ty.base = some instr → o₁.Presents a₁ → o₂.Presents a₂ →
      ∃ x s' instrs, Lower.expr (.binary op left right ty span) ctx s = .ok (x, s') ∧
        (coordinates b.dims).mapM (Flat.elementInstr instr o₁ a₁.dims o₂ a₂.dims x) = some instrs ∧
        s'.code.toList = s₂.code.toList ++ instrs

theorem stretchAlike_of_stretches {a b : Ty} (h : Stretches a.dims b.dims) : StretchAlike a b where
  datum d hd := by
    obtain ⟨e, run, -, items⟩ := Datum.stretch?_ok h hd
    refine ⟨e, run, fun c hc => ?_⟩
    obtain ⟨x, hx⟩ := hd.exists_item (hc.broadcast h)
    exact ⟨x, (items c hc).trans hx, hx⟩
  constant t k hk hd := by
    subst hk
    obtain ⟨ds, run, -⟩ := Operand.stretchDims_ok k.ty 0 h
    refine ⟨⟨.constant k, ds⟩, Operand.stretch_eq_ok.2 ⟨ds, run, rfl⟩, fun c hc => ?_⟩
    obtain ⟨x, hx⟩ := hd.exists_item (hc.broadcast h)
    obtain ⟨k', found, rfl⟩ := Operand.at?_constant (hc.broadcast h) hx
    exact ⟨k', (Operand.at?_stretchDims _ run hc).trans found, hx⟩
  whole id := by
    obtain ⟨ds, run, -⟩ := Operand.stretchDims_ok a 0 h
    refine ⟨⟨.variable id [], ds⟩, Operand.stretch_eq_ok.2 ⟨ds, run, rfl⟩, fun c hc => ?_⟩
    exact (Operand.at?_stretchDims _ run hc).trans (Operand.at?_variable (hc.broadcast h))

theorem combineAlike_of_stretches {a₁ a₂ b : Ty} (h₁ : Stretches a₁.dims b.dims)
    (h₂ : Stretches a₂.dims b.dims) : CombineAlike a₁ a₂ b where
  folded op l r d hl hr run c hc := by
    obtain ⟨l', stretched₁, shaped₁, items₁⟩ := Datum.stretch?_ok h₁ hl
    obtain ⟨r', stretched₂, shaped₂, items₂⟩ := Datum.stretch?_ok h₂ hr
    rw [Datum.foldBinary, stretched₁, stretched₂] at run
    rw [← items₁ c hc, ← items₂ c hc]
    exact Datum.foldElements_ok shaped₁ shaped₂ run hc
  failed op l r e hl hr run := by
    obtain ⟨l', stretched₁, shaped₁, items₁⟩ := Datum.stretch?_ok h₁ hl
    obtain ⟨r', stretched₂, shaped₂, items₂⟩ := Datum.stretch?_ok h₂ hr
    rw [Datum.foldBinary, stretched₁, stretched₂] at run
    obtain ⟨c, x, y, hc, hx, hy, hz⟩ := Datum.foldElements_error shaped₁ shaped₂ run
    exact ⟨c, x, y, hc, (items₁ c hc).symm.trans hx, (items₂ c hc).symm.trans hy, hz⟩
  lowered ctx s s₁ s₂ left right op ty span o₁ o₂ instr dims run₁ run₂ chosen fresh₁ fresh₂ := by
    rw [← dims] at h₁ h₂ ⊢
    exact Flat.expr_binary run₁ run₂ chosen fresh₁ fresh₂ h₁ h₂

/-- Where a type promotes to another, data, constants and variables stretch alike, and only there they stretch
at all; operators combine the elements that are read in this way. -/
theorem broadcasting_agrees :
    (∀ a b : Ty, a.IsPositive → b.IsPositive → a.promotesTo b = true → StretchAlike a b) ∧
    (∀ (a b : Ty) (o o' : Operand), a.base = b.base → o.IsFresh a → o.stretch b.dims = .ok o' →
      a.promotesTo b = true) ∧
    (∀ a₁ a₂ b : Ty, a₁.IsPositive → a₂.IsPositive → b.IsPositive → a₁.promotesTo b = true →
      a₂.promotesTo b = true → CombineAlike a₁ a₂ b) := by
  refine ⟨fun a b _ _ h => ?_, fun a b o o' base fresh run => ?_, fun a₁ a₂ b _ _ _ h₁ h₂ => ?_⟩
  · exact stretchAlike_of_stretches (Ty.isCommon_of_promotesTo h).leftStretches
  · refine Ty.promotesTo_of_stretches base ?_
    rcases fresh with ⟨k, rfl, rfl⟩ | ⟨id, rfl⟩
    · obtain ⟨ds, run, -⟩ := Operand.stretch_eq_ok.1 run
      exact Operand.stretches_of_stretchDims run
    · obtain ⟨ds, run, -⟩ := Operand.stretch_eq_ok.1 run
      exact Operand.stretches_of_stretchDims run
  · exact combineAlike_of_stretches (Ty.isCommon_of_promotesTo h₁).leftStretches
      (Ty.isCommon_of_promotesTo h₂).leftStretches

/-- A length of one in front and a missing length behind, both at once. -/
theorem broadcasting_agrees_cube :
    StretchAlike (.array 1 (.array 3 .int)) (.array 2 (.array 3 (.array 2 .int))) ∧
      CombineAlike (.array 1 (.array 3 .int)) (.array 2 .int) (.array 2 (.array 3 (.array 2 .int))) := by
  have positive : (Ty.array 1 (.array 3 .int)).IsPositive ∧ (Ty.array 2 .int).IsPositive ∧
      (Ty.array 2 (.array 3 (.array 2 .int))).IsPositive := by
    simp
  exact ⟨broadcasting_agrees.1 _ _ positive.1 positive.2.2 (by decide),
    broadcasting_agrees.2.2 _ _ _ positive.1 positive.2.1 positive.2.2 (by decide) (by decide)⟩

end SignalLang
