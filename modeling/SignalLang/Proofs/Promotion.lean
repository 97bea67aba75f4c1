import SignalLang.Proofs.Types

/-!
# The order of types

A type promotes to another exactly when their primitives agree and its lengths stretch to those of the other
(`promotesTo_iff`). Promotion is a partial order, and `biggest?` is its join: where two types promote to some type in
common, it is the least one of these, and elsewhere it is nothing (`biggest?_eq_some_iff`). Its laws follow from that.
-/

namespace SignalLang

theorem Stretches.trans {ds ns ks : List Int} (h : Stretches ds ns) (h' : Stretches ns ks) : Stretches ds ks := by
  induction ds generalizing ns ks with
  | nil => trivial
  | cons d ds ih =>
    match ns, ks, h, h' with
    | n :: ns, k :: ks, h, h' =>
      refine ⟨?_, ih h.2 h'.2⟩
      rcases h.1 with rfl | one
      · exact h'.1
      · exact .inr one

theorem Stretches.antisymm {ds ns : List Int} (h : Stretches ds ns) (h' : Stretches ns ds) : ds = ns := by
  induction ds generalizing ns with
  | nil =>
    cases ns with
    | nil => rfl
    | cons => exact h'.elim
  | cons d ds ih =>
    match ns, h, h' with
    | n :: ns, h, h' =>
      have first : d = n := by
        rcases h.1 with same | rfl
        · exact same
        · exact h'.1.elim Eq.symm Eq.symm
      rw [first, ih h.2 h'.2]

/-- Two lengths that both stretch to a third have a common one, which stretches to it too. -/
theorem Ty.exists_commonLength? {m n k : Int} (hm : m = k ∨ m = 1) (hn : n = k ∨ n = 1) :
    ∃ l, commonLength? m n = some l ∧ (l = k ∨ l = 1) := by
  unfold commonLength?
  split
  · exact ⟨m, rfl, hm⟩
  · split
    · exact ⟨n, rfl, hn⟩
    · rcases hn with rfl | one
      · rcases hm with same | one
        · contradiction
        · contradiction
      · rw [if_pos one]
        exact ⟨m, rfl, hm⟩

namespace Ty

/-- Lengths that stretch to those of a type with the same primitive make a type that promotes to it. -/
theorem promotesTo_of_stretches {a b : Ty} (base : a.base = b.base) (h : Stretches a.dims b.dims) :
    a.promotesTo b = true := by
  rw [promotesTo, decide_eq_true_eq]
  induction a generalizing b with
  | prim p =>
    have same : b.base = p := base.symm
    rw [biggest?, if_pos same]
  | array m s ih =>
    cases b with
    | prim q => exact h.elim
    | array n t =>
      obtain ⟨length, rest⟩ := h
      have common : commonLength? m n = some n := by
        rcases length with rfl | rfl
        · simp [commonLength?]
        · unfold commonLength?
          split <;> simp_all
      have elements : biggest? s t = some t := ih base rest
      rw [biggest?, common]
      simp [elements]

variable {a b c t u : Ty}

/-- Promotion compares the primitives and the lengths. -/
theorem promotesTo_iff : a.promotesTo b = true ↔ a.base = b.base ∧ Stretches a.dims b.dims :=
  ⟨fun h => ⟨(isCommon_of_promotesTo h).left.symm, (isCommon_of_promotesTo h).leftStretches⟩,
    fun h => promotesTo_of_stretches h.1 h.2⟩

theorem promotesTo_array_iff {m n : Int} :
    (array m a).promotesTo (array n b) = true ↔ (m = n ∨ m = 1) ∧ a.promotesTo b = true := by
  rw [promotesTo_iff, promotesTo_iff]
  exact and_left_comm

theorem promotesTo_trans (h : a.promotesTo b = true) (h' : b.promotesTo c = true) : a.promotesTo c = true := by
  rw [promotesTo_iff] at *
  exact ⟨h.1.trans h'.1, h.2.trans h'.2⟩

theorem promotesTo_antisymm (h : a.promotesTo b = true) (h' : b.promotesTo a = true) : a = b := by
  rw [promotesTo_iff] at *
  rw [← arrayOf_dims_base a, ← arrayOf_dims_base b, h.1, h.2.antisymm h'.2]

/-- A type is the least of those that two types promote to. -/
structure IsJoin (a b t : Ty) : Prop where
  left : a.promotesTo t = true
  right : b.promotesTo t = true
  least : ∀ u : Ty, a.promotesTo u = true → b.promotesTo u = true → t.promotesTo u = true

theorem IsJoin.unique (h : IsJoin a b t) (h' : IsJoin a b u) : t = u :=
  promotesTo_antisymm (h.least u h'.left h'.right) (h'.least t h.left h.right)

theorem IsJoin.symm (h : IsJoin a b t) : IsJoin b a t := ⟨h.right, h.left, fun u hb ha => h.least u ha hb⟩

/-- Types that promote to one type have a biggest one, which promotes to it too. -/
theorem exists_biggest? (ha : a.promotesTo u = true) (hb : b.promotesTo u = true) :
    ∃ t, biggest? a b = some t ∧ t.promotesTo u = true := by
  induction u generalizing a b with
  | prim p =>
    rw [promotesTo_iff] at ha hb
    cases a with
    | array => exact ha.2.elim
    | prim q =>
      cases b with
      | array => exact hb.2.elim
      | prim r =>
        have same : (prim r).base = q := hb.1.trans ha.1.symm
        exact ⟨.prim r, by rw [biggest?, if_pos same], promotesTo_iff.2 hb⟩
  | array k u ih =>
    cases a with
    | prim p =>
      have same : b.base = p := (promotesTo_iff.1 hb).1.trans (promotesTo_iff.1 ha).1.symm
      exact ⟨b, by rw [biggest?, if_pos same], hb⟩
    | array m s =>
      cases b with
      | prim q =>
        have same : s.base = q := (promotesTo_iff.1 ha).1.trans (promotesTo_iff.1 hb).1.symm
        exact ⟨.array m s, by rw [biggest?, if_pos same], ha⟩
      | array n v =>
        obtain ⟨lengthA, belowA⟩ := promotesTo_array_iff.1 ha
        obtain ⟨lengthB, belowB⟩ := promotesTo_array_iff.1 hb
        obtain ⟨l, common, length⟩ := exists_commonLength? lengthA lengthB
        obtain ⟨t, elements, below⟩ := ih belowA belowB
        exact ⟨.array l t, by rw [biggest?, common]; simp [elements], promotesTo_array_iff.2 ⟨length, below⟩⟩

/-- `biggest?` is the join of two types. -/
theorem biggest?_eq_some_iff : biggest? a b = some t ↔ IsJoin a b t := by
  have join {t : Ty} (h : biggest? a b = some t) : IsJoin a b t := by
    have common := isCommon_of_biggest? h
    refine ⟨promotesTo_of_stretches common.left.symm common.leftStretches,
      promotesTo_of_stretches common.right.symm common.rightStretches, fun u ha hb => ?_⟩
    obtain ⟨t', found, below⟩ := exists_biggest? ha hb
    obtain rfl : t = t' := Option.some.inj (h.symm.trans found)
    exact below
  refine ⟨join, fun h => ?_⟩
  obtain ⟨t', found, -⟩ := exists_biggest? h.left h.right
  rw [found, (join found).unique h]

theorem isSome_biggest?_iff : (biggest? a b).isSome = true ↔ ∃ u, a.promotesTo u = true ∧ b.promotesTo u = true := by
  rw [Option.isSome_iff_exists]
  constructor
  · rintro ⟨t, found⟩
    exact ⟨t, (biggest?_eq_some_iff.1 found).left, (biggest?_eq_some_iff.1 found).right⟩
  · rintro ⟨u, ha, hb⟩
    obtain ⟨t, found, -⟩ := exists_biggest? ha hb
    exact ⟨t, found⟩

theorem biggest?_comm (a b : Ty) : biggest? a b = biggest? b a := by
  ext t
  rw [biggest?_eq_some_iff, biggest?_eq_some_iff]
  exact ⟨.symm, .symm⟩

theorem biggest?_self (a : Ty) : biggest? a a = some a := of_decide_eq_true (promotesTo_refl a)

/-- A join of a join is the least of the types that three types promote to. -/
theorem bind_biggest?_eq_some_iff : ((biggest? a b).bind fun d => biggest? d c) = some t ↔
    (a.promotesTo t = true ∧ b.promotesTo t = true ∧ c.promotesTo t = true) ∧
      ∀ u : Ty, a.promotesTo u = true → b.promotesTo u = true → c.promotesTo u = true → t.promotesTo u = true := by
  rw [Option.bind_eq_some_iff]
  constructor
  · rintro ⟨d, found, found'⟩
    have join := biggest?_eq_some_iff.1 found
    have join' := biggest?_eq_some_iff.1 found'
    exact ⟨⟨promotesTo_trans join.left join'.left, promotesTo_trans join.right join'.left, join'.right⟩,
      fun u ha hb hc => join'.least u (join.least u ha hb) hc⟩
  · rintro ⟨⟨ha, hb, hc⟩, least⟩
    obtain ⟨d, found, below⟩ := exists_biggest? ha hb
    have join := biggest?_eq_some_iff.1 found
    exact ⟨d, found, biggest?_eq_some_iff.2 ⟨below, hc, fun u hd =>
      least u (promotesTo_trans join.left hd) (promotesTo_trans join.right hd)⟩⟩

theorem biggest?_assoc (a b c : Ty) :
    ((biggest? a b).bind fun d => biggest? d c) = (biggest? b c).bind fun d => biggest? a d := by
  have turned : ((biggest? b c).bind fun d => biggest? a d) = (biggest? b c).bind fun d => biggest? d a :=
    congrArg (biggest? b c).bind (funext fun d => biggest?_comm a d)
  ext t
  rw [turned, bind_biggest?_eq_some_iff, bind_biggest?_eq_some_iff]
  constructor
  · rintro ⟨⟨ha, hb, hc⟩, least⟩
    exact ⟨⟨hb, hc, ha⟩, fun u hb hc ha => least u ha hb hc⟩
  · rintro ⟨⟨hb, hc, ha⟩, least⟩
    exact ⟨⟨ha, hb, hc⟩, fun u ha hb hc => least u hb hc ha⟩

/-- Types form a partial lattice: promotion is a partial order, and two types have a biggest one exactly if some type is
above both, which is then the least of these. So the order and the grouping of types makes no difference to the
biggest of them, nor to whether there is one. -/
theorem promotion_partial_lattice :
    (∀ a : Ty, a.promotesTo a = true) ∧
    (∀ a b c : Ty, a.promotesTo b = true → b.promotesTo c = true → a.promotesTo c = true) ∧
    (∀ a b : Ty, a.promotesTo b = true → b.promotesTo a = true → a = b) ∧
    (∀ a b : Ty, (biggest? a b).isSome = true ↔ ∃ u, a.promotesTo u = true ∧ b.promotesTo u = true) ∧
    (∀ a b t : Ty, biggest? a b = some t → IsJoin a b t) ∧
    (∀ a b : Ty, biggest? a b = biggest? b a) ∧
    (∀ a : Ty, biggest? a a = some a) ∧
    (∀ a b c : Ty, ((biggest? a b).bind fun d => biggest? d c) = (biggest? b c).bind fun d => biggest? a d) :=
  ⟨promotesTo_refl, fun _ _ _ => promotesTo_trans, fun _ _ => promotesTo_antisymm, fun _ _ => isSome_biggest?_iff,
    fun _ _ _ => biggest?_eq_some_iff.1, biggest?_comm, biggest?_self, biggest?_assoc⟩

/-- The biggest of a column, of a row with a missing length in front, and of a number. -/
theorem promotion_partial_lattice_grid :
    let column : Ty := .array 2 (.array 1 .int)
    let row : Ty := .array 1 (.array 3 .int)
    let grid : Ty := .array 2 (.array 3 .int)
    IsJoin column row grid ∧ Ty.int.promotesTo grid = true ∧
      ((biggest? column row).bind fun d => biggest? d .int) = some grid ∧
      ¬∃ u, grid.promotesTo u = true ∧ (Ty.array 3 .int).promotesTo u = true := by
  intro column row grid
  obtain ⟨-, trans, -, some, join, -, -, assoc⟩ := promotion_partial_lattice
  refine ⟨join column row grid (by decide), trans .int (.array 1 .int) grid (by decide) (by decide), ?_, ?_⟩
  · rw [assoc]
    decide
  · rw [← some]
    decide

end Ty

end SignalLang
