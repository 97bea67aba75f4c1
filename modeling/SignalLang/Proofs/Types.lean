import SignalLang.Constant
import SignalLang.Ty.Coordinates
import SignalLang.Ty.Promotion

/-!
# Types of values that can be held

A variable of a running program has a type whose innermost part is `BOOL`, `INT` or `FLOAT` and whose lengths
are all positive (`Ty.Storable`). A type promotes to another when their innermost parts agree and the lengths
of the first stretch to those of the second, aligned at the outermost one (`Stretches`).

`Constant.HasTy` says that a constant is a value of a type: an array has the length of its type and every
item is a value of the type of the elements.
-/

namespace SignalLang

/-- All lengths are positive. -/
def Ty.IsPositive (t : Ty) : Prop := ∀ d ∈ t.dims, 0 < d

/-- Values of the type can be held while the program runs. -/
structure Ty.Storable (t : Ty) : Prop where
  runtime : t.isRuntime = true
  positive : t.IsPositive

/-- Lengths that stretch to others: each is the one it stretches to, or one, and lengths may be missing
behind the last. -/
def Stretches : (lengths target : List Int) → Prop
  | [], _ => True
  | _ :: _, [] => False
  | d :: ds, n :: ns => (d = n ∨ d = 1) ∧ Stretches ds ns

theorem stretches_refl (ds : List Int) : Stretches ds ds := by
  induction ds with
  | nil => trivial
  | cons d ds ih => exact ⟨.inl rfl, ih⟩

theorem Stretches.length_le {ds ns : List Int} (h : Stretches ds ns) : ds.length ≤ ns.length := by
  induction ds generalizing ns with
  | nil => exact Nat.zero_le _
  | cons d ds ih =>
    cases ns with
    | nil => exact h.elim
    | cons n ns => exact Nat.succ_le_succ (ih h.2)

/-! ## Index spaces -/

/-- A coordinate of an index space. -/
def InBounds : (coord dims : List Int) → Prop
  | [], [] => True
  | c :: cs, d :: ds => (0 ≤ c ∧ c < d) ∧ InBounds cs ds
  | _, _ => False

theorem InBounds.length_eq : {cs ds : List Int} → InBounds cs ds → cs.length = ds.length
  | [], [], _ => rfl
  | _ :: _, _ :: _, h => congrArg (· + 1) h.2.length_eq

theorem mem_coordinates {c ds : List Int} : c ∈ coordinates ds ↔ InBounds c ds := by
  induction ds generalizing c with
  | nil => cases c <;> simp [coordinates, InBounds]
  | cons d ds ih =>
    have flat : c ∈ coordinates (d :: ds) ↔
        c ∈ (indexesBelow d).flatMap fun i => (coordinates ds).map (i :: ·) := by
      rw [coordinates]
      split
      · rename_i empty
        rw [List.isEmpty_iff.1 empty]
        simp
      · exact Iff.rfl
    rw [flat, List.mem_flatMap]
    cases c with
    | nil => simp [InBounds]
    | cons i cs =>
      simp only [List.mem_map, List.cons.injEq, mem_indexesBelow, InBounds, ← ih]
      constructor
      · rintro ⟨j, hj, cs', hcs, rfl, rfl⟩
        exact ⟨hj, hcs⟩
      · exact fun h => ⟨i, h.1, cs, h.2, rfl, rfl⟩

/-- The coordinates of an index space come in row-major order. -/
theorem coordinates_sorted (ds : List Int) : (coordinates ds).Pairwise (· < ·) := by
  induction ds with
  | nil => exact List.pairwise_singleton _ _
  | cons d ds ih =>
    unfold coordinates
    dsimp only
    split
    · exact .nil
    · refine List.pairwise_flatMap.2 ⟨fun i _ => ?_, ?_⟩
      · exact List.pairwise_map.2 (ih.imp fun h => List.cons_lt_cons_iff.2 (.inr ⟨rfl, h⟩))
      · refine List.pairwise_map.2 (List.pairwise_lt_range.imp fun {i j} lt => ?_)
        intro c hc c' hc'
        obtain ⟨c, -, rfl⟩ := List.mem_map.1 hc
        obtain ⟨c', -, rfl⟩ := List.mem_map.1 hc'
        exact List.cons_lt_cons_iff.2 (.inl (Int.ofNat_lt.2 lt))

/-- An index space without an empty dimension has a first coordinate. -/
theorem coordinates_ne_nil {ds : List Int} (h : ∀ d ∈ ds, 0 < d) : coordinates ds ≠ [] := by
  have origin : InBounds (ds.map fun _ => 0) ds := by
    induction ds with
    | nil => trivial
    | cons d ds ih =>
      exact ⟨⟨Int.le_refl 0, h d List.mem_cons_self⟩, ih fun e he => h e (List.mem_cons_of_mem _ he)⟩
  exact List.ne_nil_of_mem (mem_coordinates.2 origin)

namespace Ty

@[simp] theorem isPositive_prim (p : Prim) : (Ty.prim p).IsPositive := by
  simp [IsPositive, dims]

@[simp] theorem isPositive_array {n : Int} {t : Ty} :
    (Ty.array n t).IsPositive ↔ 0 < n ∧ t.IsPositive := by
  simp [IsPositive, dims]

theorem isPositive_arrayOf {ds : List Int} {t : Ty} :
    (arrayOf ds t).IsPositive ↔ (∀ d ∈ ds, 0 < d) ∧ t.IsPositive := by
  simp only [IsPositive, dims_arrayOf, List.mem_append]
  exact ⟨fun h => ⟨fun d hd => h d (.inl hd), fun d hd => h d (.inr hd)⟩,
    fun h d hd => hd.elim (h.1 d) (h.2 d)⟩

@[simp] theorem dims_withBase (t : Ty) (p : Prim) : (t.withBase (.prim p)).dims = t.dims := by
  simp [withBase, dims]

@[simp] theorem base_withBase (t : Ty) (p : Prim) : (t.withBase (.prim p)).base = p := by
  simp [withBase, base]

theorem isPositive_withBase {t : Ty} {p : Prim} : (t.withBase (.prim p)).IsPositive ↔ t.IsPositive := by
  simp [IsPositive]

theorem isRuntime_prim {p : Prim} :
    (Ty.prim p).isRuntime = true ↔ p = .bool ∨ p = .int ∨ p = .float := by
  cases p <;> simp [isRuntime, base]

theorem isRuntime_base (t : Ty) : (Ty.prim t.base).isRuntime = t.isRuntime := rfl

/-! ## Promotion -/

theorem commonLength?_eq_some {m n k : Int} (h : commonLength? m n = some k) :
    (k = m ∨ k = n) ∧ (m = k ∨ m = 1) ∧ (n = k ∨ n = 1) := by
  unfold commonLength? at h
  split at h
  · cases h; simp_all
  · split at h
    · cases h; simp_all
    · split at h
      · cases h; simp_all
      · cases h

/-- What a common type has in common with two types. -/
structure IsCommon (a b t : Ty) : Prop where
  left : t.base = a.base
  right : t.base = b.base
  leftStretches : Stretches a.dims t.dims
  rightStretches : Stretches b.dims t.dims
  positive : a.IsPositive → b.IsPositive → t.IsPositive

theorem isCommon_of_biggest? {a b t : Ty} (h : biggest? a b = some t) : IsCommon a b t := by
  revert t
  fun_induction biggest? a b with
  | case1 u =>
    intro t h
    cases h
    exact ⟨rfl, rfl, trivial, stretches_refl _, fun _ hu => hu⟩
  | case2 p u hbase => intro t h; cases h
  | case3 m s =>
    intro t h
    cases h
    exact ⟨rfl, rfl, stretches_refl _, trivial, fun hs _ => hs⟩
  | case4 m s q hbase => intro t h; cases h
  | case5 m s n u hn => intro t h; cases h
  | case6 m s n u length hlen ih =>
    intro t h
    obtain ⟨r, hr, rfl⟩ := Option.map_eq_some_iff.1 h
    have c := ih hr
    obtain ⟨which, hm, hn⟩ := commonLength?_eq_some hlen
    refine ⟨c.left, c.right, ⟨hm, c.leftStretches⟩, ⟨hn, c.rightStretches⟩, fun ha hb => ?_⟩
    rw [isPositive_array] at ha hb ⊢
    refine ⟨?_, c.positive ha.2 hb.2⟩
    rcases which with rfl | rfl
    · exact ha.1
    · exact hb.1

theorem isCommon_of_promotesTo {a b : Ty} (h : a.promotesTo b = true) : IsCommon a b b :=
  isCommon_of_biggest? (of_decide_eq_true h)

theorem promotesTo_refl (t : Ty) : t.promotesTo t = true := by
  rw [promotesTo, decide_eq_true_eq]
  induction t with
  | prim p => simp [biggest?, base]
  | array n t ih => simp [biggest?, commonLength?, ih]

/-! ## Storable types -/

theorem Storable.of_base {a b : Ty} (ha : a.Storable) (h : b.base = a.base) (hb : b.IsPositive) :
    b.Storable := by
  refine ⟨?_, hb⟩
  rw [isRuntime, h]
  exact ha.runtime

theorem storable_prim {p : Prim} : (Ty.prim p).Storable ↔ p = .bool ∨ p = .int ∨ p = .float :=
  ⟨fun h => isRuntime_prim.1 h.runtime, fun h => ⟨isRuntime_prim.2 h, isPositive_prim p⟩⟩

theorem storable_array {n : Int} {t : Ty} : (Ty.array n t).Storable ↔ 0 < n ∧ t.Storable := by
  constructor
  · rintro ⟨hr, hp⟩
    rw [isPositive_array] at hp
    exact ⟨hp.1, hr, hp.2⟩
  · rintro ⟨hn, hr, hp⟩
    exact ⟨hr, isPositive_array.2 ⟨hn, hp⟩⟩

end Ty

/-! ## Bounds -/

/-- A settled type has positive lengths. -/
def Bound.IsPositive (b : Bound) : Prop := ∀ t, b.actual = some t → t.IsPositive

theorem Bound.isPositive_exactly {t : Ty} (h : t.IsPositive) : (Bound.exactly t).IsPositive := by
  intro u hu
  cases hu
  exact h

theorem Bound.IsPositive.wrap {b : Bound} (h : b.IsPositive) {ds : List Int} (hd : ∀ d ∈ ds, 0 < d) :
    (b.wrap ds).IsPositive := by
  intro t ht
  obtain ⟨u, hu, rfl⟩ := Option.map_eq_some_iff.1 ht
  exact Ty.isPositive_arrayOf.2 ⟨hd, h u hu⟩

/-! ## Constants of a type -/

namespace Constant

mutual

/-- A constant is a value of a type that can be held. -/
def HasTy : Constant → Ty → Prop
  | .bool _, t => t = .bool
  | .int _, t => t = .int
  | .float _, t => t = .float
  | .array items, .array n t => items ≠ [] ∧ (items.length : Int) = n ∧ AllHaveTy items t
  | _, _ => False

/-- Constants are values of one type. -/
def AllHaveTy : List Constant → Ty → Prop
  | [], _ => True
  | c :: cs, t => c.HasTy t ∧ AllHaveTy cs t

end

mutual

instance decHasTy : (c : Constant) → (t : Ty) → Decidable (c.HasTy t)
  | .bool _, t => inferInstanceAs (Decidable (t = .bool))
  | .int _, t => inferInstanceAs (Decidable (t = .int))
  | .float _, t => inferInstanceAs (Decidable (t = .float))
  | .array items, .array n t =>
    have := decAllHaveTy items t
    inferInstanceAs (Decidable (items ≠ [] ∧ (items.length : Int) = n ∧ AllHaveTy items t))
  | .array _, .prim _ | .void, _ | .type _, _ | .macroRef _, _ => .isFalse id

instance decAllHaveTy : (cs : List Constant) → (t : Ty) → Decidable (AllHaveTy cs t)
  | [], _ => .isTrue trivial
  | c :: cs, t =>
    have := decHasTy c t
    have := decAllHaveTy cs t
    inferInstanceAs (Decidable (c.HasTy t ∧ AllHaveTy cs t))

end

theorem allHaveTy_iff {cs : List Constant} {t : Ty} : AllHaveTy cs t ↔ ∀ c ∈ cs, c.HasTy t := by
  induction cs with
  | nil => simp [AllHaveTy]
  | cons c cs ih => simp [AllHaveTy, ih]

theorem hasTy_array {items : List Constant} {t : Ty} :
    HasTy (.array items) t ↔
      ∃ n u, t = .array n u ∧ items ≠ [] ∧ (items.length : Int) = n ∧ ∀ c ∈ items, c.HasTy u := by
  cases t with
  | prim p => simp [HasTy]
  | array n u =>
    rw [HasTy, allHaveTy_iff]
    constructor
    · exact fun h => ⟨n, u, rfl, h⟩
    · rintro ⟨m, v, heq, h⟩
      cases heq
      exact h

/-- A constant has one type at most, and it is the one its form shows. -/
theorem HasTy.ty_eq : {c : Constant} → {t : Ty} → c.HasTy t → c.ty = t
  | .bool _, _, h => h.symm
  | .int _, _, h => h.symm
  | .float _, _, h => h.symm
  | .array [], t, h => by
    obtain ⟨n, u, rfl, hne, -⟩ := hasTy_array.1 h
    exact (hne rfl).elim
  | .array (c :: cs), t, h => by
    obtain ⟨n, u, rfl, -, hlen, hall⟩ := hasTy_array.1 h
    have first : c.ty = u := HasTy.ty_eq (hall c List.mem_cons_self)
    rw [ty, firstTy, hlen, first]

theorem HasTy.storable : {c : Constant} → {t : Ty} → c.HasTy t → t.Storable
  | .bool _, _, h => h ▸ Ty.storable_prim.2 (.inl rfl)
  | .int _, _, h => h ▸ Ty.storable_prim.2 (.inr (.inl rfl))
  | .float _, _, h => h ▸ Ty.storable_prim.2 (.inr (.inr rfl))
  | .array [], t, h => by
    obtain ⟨n, u, rfl, hne, -⟩ := hasTy_array.1 h
    exact (hne rfl).elim
  | .array (c :: cs), t, h => by
    obtain ⟨n, u, rfl, -, rfl, hall⟩ := hasTy_array.1 h
    have first : u.Storable := HasTy.storable (hall c List.mem_cons_self)
    exact Ty.storable_array.2 ⟨by rw [List.length_cons]; omega, first⟩

end Constant

end SignalLang
