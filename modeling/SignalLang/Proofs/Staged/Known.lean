import SignalLang.Proofs.Staged.Meaning
import SignalLang.Proofs.Staged.Typing
import SignalLang.Proofs.Types

/-!
# What is known of a value

`Fills p dims x` says that `x` is a value: arrays of the lengths `dims` around data of the primitive type
`p`. `Shows p dims d x` says that the datum `d`, which may have unknown parts, is what is known of the value
`x`: it has the same lengths, and where it is known it agrees. Taking parts and replacing parts keeps this,
and a datum without unknown parts shows itself only.
-/

namespace SignalLang.Staged.Datum

/-- The type of a datum that is no array. -/
def prim? : Datum → Option Prim
  | .void => some .void
  | .bool _ => some .bool
  | .int _ => some .int
  | .float _ => some .float
  | .type _ => some .dataType
  | .macroRef .. => some .macroRef
  | .unknown | .array _ => none

/-- A value of arrays of the given lengths. -/
def Fills (p : Prim) : (dims : List Int) → Datum → Prop
  | [], x => x.prim? = some p
  | n :: ns, x => ∃ xs, x = .array xs ∧ xs.length = n.toNat ∧ ∀ y ∈ xs, Fills p ns y

/-- Arrays of the given lengths, of anything. -/
def Shaped : (dims : List Int) → Datum → Prop
  | [], _ => True
  | n :: ns, d => ∃ ds, d = .array ds ∧ ds.length = n.toNat ∧ ∀ e ∈ ds, Shaped ns e

/-- A datum is what is known of a value. -/
structure Shows (p : Prim) (dims : List Int) (d x : Datum) : Prop where
  shaped : Shaped dims d
  fills : Fills p dims x
  leaf : ∀ c l, c.length = dims.length → d.item? c = some l → l = .unknown ∨ x.item? c = some l

/-! ## Parts -/

theorem element?_eq_some {d e : Datum} {i : Int} :
    d.element? i = some e ↔ ∃ items, d = .array items ∧ 0 ≤ i ∧ items[i.toNat]? = some e := by
  cases d with
  | array items =>
    rw [element?]
    split
    · simp only [reduceCtorEq, array.injEq, false_iff, not_exists, not_and]
      omega
    · simp only [array.injEq, exists_eq_left']
      exact ⟨fun h => ⟨by omega, h⟩, fun h => h.2⟩
  | _ => simp [element?]

theorem item?_append (d : Datum) (a b : List Int) : d.item? (a ++ b) = (d.item? a).bind (·.item? b) := by
  induction a generalizing d with
  | nil => rfl
  | cons i a ih =>
    simp only [List.cons_append, item?]
    cases d.element? i with
    | none => rfl
    | some e => exact ih e

theorem item?_cons_eq_some {d e : Datum} {i : Int} {c : List Int} :
    d.item? (i :: c) = some e ↔ ∃ part, d.element? i = some part ∧ part.item? c = some e := by
  rw [item?]
  exact Option.bind_eq_some_iff

theorem set?_nil (d v : Datum) : d.set? [] v = some v := by
  cases d <;> rfl

theorem set?_cons_eq_some {d v e : Datum} {i : Int} {c : List Int} :
    d.set? (i :: c) v = some e ↔ ∃ items old new, d = .array items ∧ 0 ≤ i ∧
      items[i.toNat]? = some old ∧ old.set? c v = some new ∧ e = .array (items.set i.toNat new) := by
  cases d with
  | array items =>
    rw [set?]
    split
    · simp only [reduceCtorEq, array.injEq, false_iff, not_exists, not_and]
      omega
    · simp only [Option.bind_eq_bind, Option.bind_eq_some_iff, Option.pure_def, Option.some.injEq,
        array.injEq]
      constructor
      · rintro ⟨old, hold, new, hnew, rfl⟩
        exact ⟨items, old, new, rfl, by omega, hold, hnew, rfl⟩
      · rintro ⟨_, old, new, rfl, -, hold, hnew, rfl⟩
        exact ⟨old, hold, new, hnew, rfl⟩
  | _ => simp [set?]

/-- A part that was replaced. -/
theorem item?_set?_under {d v e : Datum} {a : List Int} (h : d.set? a v = some e) (b : List Int) :
    e.item? (a ++ b) = v.item? b := by
  induction a generalizing d e with
  | nil =>
    rw [set?_nil] at h
    cases h
    rfl
  | cons i a ih =>
    obtain ⟨items, old, new, rfl, hi, hold, hnew, rfl⟩ := set?_cons_eq_some.1 h
    have hlt := (List.getElem?_eq_some_iff.1 hold).1
    have found : (Datum.array (items.set i.toNat new)).element? i = some new :=
      element?_eq_some.2 ⟨_, rfl, hi, by rw [List.getElem?_set_self hlt]⟩
    rw [List.cons_append, item?, found]
    exact ih hnew

/-- A part apart from the one that was replaced. -/
theorem item?_set?_other {d v e : Datum} {a c : List Int} (h : d.set? a v = some e)
    (hlen : a.length ≤ c.length) (hc : ¬a <+: c) : e.item? c = d.item? c := by
  induction a generalizing d e c with
  | nil => exact absurd List.nil_prefix hc
  | cons i a ih =>
    obtain ⟨items, old, new, rfl, hi, hold, hnew, rfl⟩ := set?_cons_eq_some.1 h
    have hlt := (List.getElem?_eq_some_iff.1 hold).1
    cases c with
    | nil => simp at hlen
    | cons j c =>
      rw [item?, item?, element?, element?]
      split
      · rfl
      · rename_i hj
        rcases Decidable.em (i = j) with rfl | hne
        · rw [List.getElem?_set_self hlt, hold]
          refine ih hnew (by simpa using hlen) fun hp => hc ?_
          exact List.cons_prefix_cons.2 ⟨rfl, hp⟩
        · rw [List.getElem?_set_ne (by omega)]

/-! ## Shapes -/

theorem Fills.shaped {p : Prim} {dims : List Int} {x : Datum} (h : Fills p dims x) : Shaped dims x := by
  induction dims generalizing x with
  | nil => trivial
  | cons n ns ih =>
    obtain ⟨xs, rfl, hlen, hall⟩ := h
    exact ⟨xs, rfl, hlen, fun e he => ih (hall e he)⟩

theorem Fills.element? {p : Prim} {n : Int} {ns : List Int} {x y : Datum} {i : Int}
    (h : Fills p (n :: ns) x) (hy : x.element? i = some y) : Fills p ns y := by
  obtain ⟨xs, rfl, -, hall⟩ := h
  obtain ⟨_, heq, -, hget⟩ := element?_eq_some.1 hy
  cases heq
  exact hall y (List.mem_of_getElem? hget)

theorem Shaped.element? {n : Int} {ns : List Int} {x y : Datum} {i : Int}
    (h : Shaped (n :: ns) x) (hy : x.element? i = some y) : Shaped ns y := by
  obtain ⟨xs, rfl, -, hall⟩ := h
  obtain ⟨_, heq, -, hget⟩ := element?_eq_some.1 hy
  cases heq
  exact hall y (List.mem_of_getElem? hget)

/-- Data of one shape have the same elements. -/
theorem Shaped.exists_element {n : Int} {ns : List Int} {x : Datum} (h : Shaped (n :: ns) x) {i : Int}
    (hi : 0 ≤ i) (hlt : i < n) : ∃ y, x.element? i = some y := by
  obtain ⟨xs, rfl, hlen, -⟩ := h
  have : i.toNat < xs.length := by omega
  exact ⟨xs[i.toNat], element?_eq_some.2 ⟨xs, rfl, hi, List.getElem?_eq_getElem this⟩⟩

theorem Shaped.index_lt {n : Int} {ns : List Int} {x y : Datum} (h : Shaped (n :: ns) x) {i : Int}
    (hy : x.element? i = some y) : 0 ≤ i ∧ i < n := by
  obtain ⟨xs, rfl, hlen, -⟩ := h
  obtain ⟨_, heq, hi, hget⟩ := element?_eq_some.1 hy
  cases heq
  have := (List.getElem?_eq_some_iff.1 hget).1
  omega

theorem Shaped.set? {dims : List Int} {d v e : Datum} {a : List Int} (h : Shaped dims d)
    (hv : Shaped (dims.drop a.length) v) (he : d.set? a v = some e) : Shaped dims e := by
  induction a generalizing dims d e with
  | nil =>
    rw [set?_nil] at he
    cases he
    exact hv
  | cons i a ih =>
    obtain ⟨items, old, new, rfl, hi, hold, hnew, rfl⟩ := set?_cons_eq_some.1 he
    cases dims with
    | nil => trivial
    | cons n ns =>
      obtain ⟨_, heq, hlen, hall⟩ := h
      cases heq
      refine ⟨_, rfl, by rw [List.length_set, hlen], fun x hx => ?_⟩
      rcases List.mem_or_eq_of_mem_set hx with hx | rfl
      · exact hall x hx
      · exact ih (hall old (List.mem_of_getElem? hold)) hv hnew

theorem Fills.set? {p : Prim} {dims : List Int} {d v e : Datum} {a : List Int} (h : Fills p dims d)
    (hlen : a.length ≤ dims.length) (hv : Fills p (dims.drop a.length) v) (he : d.set? a v = some e) :
    Fills p dims e := by
  induction a generalizing dims d e with
  | nil =>
    rw [set?_nil] at he
    cases he
    exact hv
  | cons i a ih =>
    obtain ⟨items, old, new, rfl, hi, hold, hnew, rfl⟩ := set?_cons_eq_some.1 he
    cases dims with
    | nil => simp at hlen
    | cons n ns =>
      obtain ⟨_, heq, hlen', hall⟩ := h
      cases heq
      refine ⟨_, rfl, by rw [List.length_set, hlen'], fun x hx => ?_⟩
      rcases List.mem_or_eq_of_mem_set hx with hx | rfl
      · exact hall x hx
      · exact ih (hall old (List.mem_of_getElem? hold)) (by simpa using hlen) hv hnew

/-- A path in range can be replaced. -/
theorem Shaped.exists_set {dims : List Int} {d : Datum} {a : List Int} (h : Shaped dims d)
    (ha : InBounds a (dims.take a.length)) (v : Datum) : ∃ e, d.set? a v = some e := by
  induction a generalizing dims d with
  | nil => exact ⟨v, set?_nil d v⟩
  | cons i a ih =>
    cases dims with
    | nil => exact ha.elim
    | cons n ns =>
      obtain ⟨hi, hrest⟩ := ha
      obtain ⟨part, hpart⟩ := h.exists_element hi.1 hi.2
      obtain ⟨items, rfl, -, hget⟩ := element?_eq_some.1 hpart
      obtain ⟨new, hnew⟩ := ih (h.element? hpart) hrest
      exact ⟨_, set?_cons_eq_some.2 ⟨items, part, new, rfl, hi.1, hget, hnew, rfl⟩⟩

theorem Shaped.item? {dims : List Int} {d e : Datum} {a : List Int} (h : Shaped dims d)
    (he : d.item? a = some e) : Shaped (dims.drop a.length) e := by
  induction a generalizing dims d with
  | nil =>
    cases he
    exact h
  | cons i a ih =>
    obtain ⟨part, hpart, he⟩ := item?_cons_eq_some.1 he
    cases dims with
    | nil => trivial
    | cons n ns => exact ih (h.element? hpart) he

/-- An element that is there has a coordinate in range. -/
theorem Shaped.inBounds {dims : List Int} {d e : Datum} {c : List Int} (h : Shaped dims d)
    (hlen : c.length = dims.length) (he : d.item? c = some e) : InBounds c dims := by
  induction c generalizing dims d with
  | nil =>
    cases dims with
    | nil => trivial
    | cons n ns => cases hlen
  | cons i c ih =>
    cases dims with
    | nil => cases hlen
    | cons n ns =>
      obtain ⟨part, hpart, he⟩ := item?_cons_eq_some.1 he
      exact ⟨h.index_lt hpart, ih (h.element? hpart) (by simpa using hlen) he⟩

/-! ## Knowledge -/

theorem allKnown_iff {ds : List Datum} : allKnown ds = true ↔ ∀ d ∈ ds, d.isKnown = true := by
  induction ds with
  | nil => simp [allKnown]
  | cons d ds ih => simp [allKnown, ih]

section

variable {p : Prim} {n : Int} {dims ns : List Int} {d x : Datum}

theorem Shows.element? (h : Shows p (n :: ns) d x) {i : Int} {e : Datum} (he : d.element? i = some e) :
    ∃ y, x.element? i = some y ∧ Shows p ns e y := by
  obtain ⟨hi, hlt⟩ := h.shaped.index_lt he
  obtain ⟨y, hy⟩ := h.fills.shaped.exists_element hi hlt
  refine ⟨y, hy, h.shaped.element? he, h.fills.element? hy, fun c l hc hl => ?_⟩
  have both : d.item? (i :: c) = some l := item?_cons_eq_some.2 ⟨e, he, hl⟩
  rcases h.leaf (i :: c) l (by simp [hc]) both with rfl | hx
  · exact .inl rfl
  · obtain ⟨part, hpart, hl⟩ := item?_cons_eq_some.1 hx
    rw [hy] at hpart
    cases hpart
    exact .inr hl

theorem Fills.shows (h : Fills p dims x) : Shows p dims x x := ⟨h.shaped, h, fun _ _ _ hl => .inr hl⟩

theorem shaped_unknownOf (dims : List Int) : Shaped dims (unknownOf dims) := by
  induction dims with
  | nil => trivial
  | cons n ns ih =>
    refine ⟨_, rfl, List.length_replicate, fun e he => ?_⟩
    rw [List.eq_of_mem_replicate he]
    exact ih

theorem item?_unknownOf {dims c : List Int} {l : Datum} (hc : c.length = dims.length)
    (hl : (unknownOf dims).item? c = some l) : l = .unknown := by
  induction dims generalizing c with
  | nil =>
    cases c with
    | nil => exact (Option.some.inj hl).symm
    | cons i c => cases hc
  | cons n ns ih =>
    cases c with
    | nil => cases hc
    | cons i c =>
      obtain ⟨part, hpart, hl⟩ := item?_cons_eq_some.1 hl
      obtain ⟨_, heq, -, hget⟩ := element?_eq_some.1 hpart
      cases heq
      rw [List.eq_of_mem_replicate (List.mem_of_getElem? hget)] at hl
      exact ih (by simpa using hc) hl

theorem Fills.shows_unknownOf (h : Fills p dims x) : Shows p dims (unknownOf dims) x :=
  ⟨shaped_unknownOf dims, h, fun _ _ hc hl => .inl (item?_unknownOf hc hl)⟩

theorem Shows.set? (h : Shows p dims d x) {a : List Int} {part y e z : Datum} (hlen : a.length ≤ dims.length)
    (hpart : Shows p (dims.drop a.length) part y) (he : d.set? a part = some e)
    (hz : x.set? a y = some z) : Shows p dims e z := by
  refine ⟨h.shaped.set? hpart.shaped he, h.fills.set? hlen hpart.fills hz, fun c l hc hl => ?_⟩
  rcases Classical.em (a <+: c) with ⟨b, rfl⟩ | apart
  · rw [item?_set?_under he] at hl
    rw [item?_set?_under hz]
    refine hpart.leaf b l ?_ hl
    rw [List.length_append] at hc
    rw [List.length_drop]
    omega
  · rw [item?_set?_other he (by omega) apart] at hl
    rw [item?_set?_other hz (by omega) apart]
    exact h.leaf c l hc hl

/-! ## Replacing parts one by one -/

/-- Replaces the parts at several coordinates under a path. -/
def setAll (a : List Int) (part : List Int → Option Datum) : List (List Int) → Datum → Option Datum
  | [], d => some d
  | c :: cs, d => do
    let e ← part c
    let d ← d.set? (a ++ c) e
    setAll a part cs d

theorem Shaped.setAll {a : List Int} {part : List Int → Option Datum} {cs : List (List Int)}
    {d e : Datum} (h : Shaped dims d) (hcs : ∀ c ∈ cs, a.length + c.length = dims.length)
    (he : setAll a part cs d = some e) : Shaped dims e := by
  induction cs generalizing d with
  | nil =>
    cases he
    exact h
  | cons c cs ih =>
    obtain ⟨l, -, he⟩ := Option.bind_eq_some_iff.1 he
    obtain ⟨d', hd', he⟩ := Option.bind_eq_some_iff.1 he
    refine ih (h.set? ?_ hd') (fun c' hc' => hcs c' (List.mem_cons_of_mem _ hc')) he
    have : dims.drop (a ++ c).length = [] := by
      rw [List.length_append, hcs c List.mem_cons_self, List.drop_length]
    rw [this]
    trivial

theorem item?_setAll {a : List Int} {part : List Int → Option Datum} {cs : List (List Int)} {d e : Datum}
    {k : Nat} (hcs : ∀ c ∈ cs, c.length = k) (he : setAll a part cs d = some e) {c : List Int}
    (hc : c.length = a.length + k) :
    (∃ b ∈ cs, c = a ++ b ∧ e.item? c = part b) ∨ ((∀ b ∈ cs, c ≠ a ++ b) ∧ e.item? c = d.item? c) := by
  induction cs generalizing d with
  | nil =>
    cases he
    exact .inr ⟨by simp, rfl⟩
  | cons b cs ih =>
    obtain ⟨l, hl, he⟩ := Option.bind_eq_some_iff.1 he
    obtain ⟨d', hd', he⟩ := Option.bind_eq_some_iff.1 he
    rcases ih (fun c' hc' => hcs c' (List.mem_cons_of_mem _ hc')) he with ⟨b', hb', hc', hitem⟩ | ⟨none, hitem⟩
    · exact .inl ⟨b', List.mem_cons_of_mem _ hb', hc', hitem⟩
    · rcases Decidable.em (c = a ++ b) with rfl | hne
      · refine .inl ⟨b, List.mem_cons_self, rfl, ?_⟩
        have under := item?_set?_under hd' []
        rw [List.append_nil] at under
        rw [hitem, under, hl]
        rfl
      · refine .inr ⟨fun b' hb' => ?_, ?_⟩
        · rcases List.mem_cons.1 hb' with rfl | hb'
          · exact hne
          · exact none b' hb'
        · rw [hitem]
          have hb := hcs b List.mem_cons_self
          refine item?_set?_other hd' (by rw [List.length_append]; omega) fun hp => hne ?_
          exact (hp.eq_of_length (by rw [List.length_append]; omega)).symm

/-- Replacing every element under a path by the element of a value replaces the path by the value. -/
theorem Shows.setAll (h : Shows p dims d x) {a : List Int} {y e z : Datum}
    {part : List Int → Option Datum} (hlen : a.length ≤ dims.length)
    (hy : Fills p (dims.drop a.length) y) (hz : x.set? a y = some z)
    (hpart : ∀ c ∈ coordinates (dims.drop a.length), part c = y.item? c)
    (he : Datum.setAll a part (coordinates (dims.drop a.length)) d = some e) : Shows p dims e z := by
  have full : ∀ c ∈ coordinates (dims.drop a.length), c.length = dims.length - a.length := fun c hc => by
    rw [(mem_coordinates.1 hc).length_eq, List.length_drop]
  have shaped : Shaped dims e := h.shaped.setAll (fun c hc => by have := full c hc; omega) he
  refine ⟨shaped, h.fills.set? hlen hy hz, fun c l hc hl => ?_⟩
  rcases item?_setAll (c := c) full he (by omega) with ⟨b, hb, rfl, hitem⟩ | ⟨none, hitem⟩
  · rw [item?_set?_under hz, ← hpart b hb, ← hitem]
    exact .inr hl
  · rw [hitem] at hl
    rcases Classical.em (a <+: c) with ⟨b, rfl⟩ | apart
    · -- an element under the path exists, so its coordinate is one of those replaced
      refine absurd rfl (none b (mem_coordinates.2 ?_))
      have exists_part := item?_append d a b
      rw [hl] at exists_part
      obtain ⟨q, hq, hb⟩ := Option.bind_eq_some_iff.1 exists_part.symm
      refine (h.shaped.item? hq).inBounds ?_ hb
      rw [List.length_append] at hc
      rw [List.length_drop]
      omega
    · rw [item?_set?_other hz (by omega) apart]
      exact h.leaf c l hc hl

end

end SignalLang.Staged.Datum
