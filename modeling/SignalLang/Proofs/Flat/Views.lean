import SignalLang.Proofs.Flat.Typing

/-!
# Elements of views

Every coordinate of a view selects an element. `at?_of_leads` is about constant indexes into a whole value,
and `at?_of_views` about the coordinates of a view that may be stretched; `stretch_ok` says that a whole value
stretches to any lengths its own lengths stretch to.
-/

namespace SignalLang

namespace Flat

/-! ## Indexes -/

theorem Leads.append : {a b : List Int} → {t u v : Ty} → Leads a t u → Leads b u v → Leads (a ++ b) t v
  | [], _, _, _, _, h, h' => h ▸ h'
  | _ :: _, _, .array _ _, _, _, h, h' => ⟨h.1, h.2.append h'⟩

theorem Leads.base_eq : {c : List Int} → {t u : Ty} → Leads c t u → u.base = t.base
  | [], _, _, h => h ▸ rfl
  | _ :: _, .array _ _, _, h => h.2.base_eq

theorem Leads.length_add : {c : List Int} → {t u : Ty} → Leads c t u → c.length + u.dims.length = t.dims.length
  | [], _, _, h => by rw [h, List.length_nil, Nat.zero_add]
  | _ :: c, .array _ t, _, h => by
    have rest := h.2.length_add
    simp only [List.length_cons, Ty.dims]
    omega

theorem Leads.storable : {c : List Int} → {t u : Ty} → Leads c t u → t.Storable → u.Storable
  | [], _, _, h, ht => h ▸ ht
  | _ :: _, .array _ _, _, h, ht => h.2.storable (Ty.storable_array.1 ht).2

/-- A coordinate of a type leads to an element. -/
theorem leads_of_inBounds : {c : List Int} → {t : Ty} → InBounds c t.dims → Leads c t (.prim t.base)
  | [], .prim _, _ => rfl
  | _ :: _, .array _ _, h => ⟨h.1, leads_of_inBounds h.2⟩

/-! ## Dimensions -/

theorem covers_whole (t : Ty) : Covers (Operand.whole t) t := by
  induction t with
  | prim p => exact .element p
  | array n t ih => exact .keep ih

theorem covers_discard {p : Prim} (ns : List Int) : Covers (ns.map (⟨·, .discard⟩)) (.prim p) := by
  induction ns with
  | nil => exact .element p
  | cons n ns ih => exact .discard ih

namespace Operand

theorem stretchDims_ok (t : Ty) (i : Nat) {ns : List Int} (h : Stretches t.dims ns) :
    ∃ ds, stretchDims i (whole t) ns = .ok ds ∧ Covers ds t ∧ ds.map (·.length) = ns := by
  induction t generalizing i ns with
  | prim p =>
    refine ⟨ns.map (⟨·, .discard⟩), rfl, covers_discard ns, ?_⟩
    rw [List.map_map]
    exact List.map_id ns
  | array d t ih =>
    match ns, h with
    | n :: ns, h =>
      obtain ⟨ds, run, hc, hl⟩ := ih (i + 1) h.2
      have run' : stretchDims (i + 1) (t.dims.map (⟨·, .keep⟩)) ns = .ok ds := run
      by_cases hd : d = n
      · subst hd
        refine ⟨⟨d, .keep⟩ :: ds, ?_, .keep hc, by rw [List.map_cons, hl]⟩
        simp [stretchDims, whole, Ty.dims, run', bind, Except.bind, pure, Except.pure]
      · obtain rfl : d = 1 := h.1.resolve_left hd
        refine ⟨⟨n, .collapse⟩ :: ds, ?_, .collapse hc, by rw [List.map_cons, hl]⟩
        simp [stretchDims, whole, Ty.dims, run', hd, bind, Except.bind, pure, Except.pure]

end Operand

/-! ## Elements -/

section Elements

variable {vars : Array Variable} {s : Stream} {o : Operand} {t u : Ty}

theorem Viewed.HasTy.storable {v : Viewed} (h : v.HasTy vars s t) : t.Storable := by
  match v, h with
  | .constant c, h => exact Constant.HasTy.storable h
  | .variable id coord, ⟨whole, holds, leads⟩ => exact leads.storable holds.1

/-- An index in range selects from what is viewed. -/
theorem Viewed.HasTy.select {v : Viewed} {n i : Int} (h : v.HasTy vars s (.array n t)) (hi : 0 ≤ i ∧ i < n) :
    ∃ v', Operand.select? v i = some v' ∧ v'.HasTy vars s t ∧ v'.var? = v.var? := by
  match v, h with
  | .constant c, h =>
    match c, h with
    | .array items, h =>
      have h : (Constant.array items).HasTy (.array n t) := h
      obtain ⟨m, elem, heq, -, hlen, hall⟩ := Constant.hasTy_array.1 h
      cases heq
      have lt : i.toNat < items.length := by omega
      refine ⟨.constant items[i.toNat], ?_, hall _ (List.getElem_mem lt), rfl⟩
      rw [Operand.select?, if_neg (by omega), List.getElem?_eq_getElem lt, Option.map_some]
  | .variable id coord, h =>
    obtain ⟨whole, hw, hl⟩ := h
    have last : Leads [i] (.array n t) t := ⟨hi, rfl⟩
    exact ⟨.variable id (coord ++ [i]), rfl, ⟨whole, hw, hl.append last⟩, rfl⟩

namespace Operand

theorem IsWhole.views (h : o.IsWhole vars s t) : o.Views vars s t := by
  refine ⟨h.hasTy, ?_⟩
  rw [h.dims]
  exact covers_whole t

theorem IsWhole.lengths_eq (h : o.IsWhole vars s t) : o.lengths = t.dims := by
  rw [lengths, h.dims, whole, List.map_map]
  exact List.map_id _

theorem IsWhole.not_stretched (h : o.IsWhole vars s t) : o.isStretched = false := by
  rw [isStretched, h.dims, whole, List.any_map]
  simp

theorem IsElement.isScalar {p : Prim} (h : o.IsElement vars s p) : o.isScalar = true := by
  rw [Operand.isScalar, h.dims]
  rfl

theorem isWhole_ofConstant {c : Constant} (h : c.HasTy t) : (ofConstant c).IsWhole vars s t :=
  ⟨h, by rw [ofConstant, h.ty_eq]⟩

theorem isElement_ofInt (n : Int) : (ofInt n).IsElement vars s .int := ⟨rfl, rfl⟩

theorem isWhole_ofVariable {id : VarId} (h : HoldsTy vars s id t) :
    (ofVariable id (some t)).IsWhole vars s t := ⟨⟨t, h, rfl⟩, rfl⟩

/-- The outermost dimension of a whole value selects a whole element. -/
theorem IsWhole.index {n i : Int} (h : o.IsWhole vars s (.array n t)) (hi : 0 ≤ i ∧ i < n) :
    ∃ o', o.index? i = some o' ∧ o'.IsWhole vars s t ∧ o'.viewed.var? = o.viewed.var? := by
  obtain ⟨v', run, hv', hvar⟩ := h.hasTy.select hi
  refine ⟨⟨v', whole t⟩, ?_, ⟨hv', rfl⟩, hvar⟩
  rw [index?, h.dims]
  simp [whole, Ty.dims, run]

/-- Indexes in range select a whole element of a whole value. -/
theorem at?_of_leads {c : List Int} (h : o.IsWhole vars s t) (hc : Leads c t u) :
    ∃ o', o.at? c = some o' ∧ o'.IsWhole vars s u ∧ o'.viewed.var? = o.viewed.var? := by
  induction c generalizing o t with
  | nil =>
    cases hc
    exact ⟨o, rfl, h, rfl⟩
  | cons i c ih =>
    match t, hc with
    | .array n t, hc =>
      obtain ⟨o₁, run, ho₁, hvar⟩ := h.index hc.1
      obtain ⟨o', run', ho', hvar'⟩ := ih ho₁ hc.2
      exact ⟨o', by rw [at?, run, Option.bind_some, run'], ho', hvar'.trans hvar⟩

/-- The outermost dimension of a view selects a view. -/
theorem Views.index {d : Dim} {ds : List Dim} {i : Int} (h : o.Views vars s t) (hd : o.dims = d :: ds)
    (hi : 0 ≤ i ∧ i < d.length) : ∃ v' u, o.index? i = some ⟨v', ds⟩ ∧
      (⟨v', ds⟩ : Operand).Views vars s u ∧ u.base = t.base ∧ v'.var? = o.viewed.var? := by
  have covers := h.covers
  rw [hd] at covers
  rw [index?, hd]
  cases covers with
  | keep rest =>
    obtain ⟨v', run, hv', hvar⟩ := h.hasTy.select hi
    exact ⟨v', _, by simp [run], ⟨hv', rest⟩, rfl, hvar⟩
  | collapse rest =>
    obtain ⟨v', run, hv', hvar⟩ := h.hasTy.select ⟨Int.le_refl 0, Int.zero_lt_one⟩
    exact ⟨v', _, by simp [run], ⟨hv', rest⟩, rfl, hvar⟩
  | discard rest => exact ⟨o.viewed, _, rfl, ⟨h.hasTy, rest⟩, rfl, rfl⟩

/-- Every coordinate of a view selects an element. -/
theorem at?_of_views {c : List Int} (h : o.Views vars s t) (hc : InBounds c o.lengths) :
    ∃ o', o.at? c = some o' ∧ o'.IsElement vars s t.base ∧ o'.viewed.var? = o.viewed.var? := by
  induction c generalizing o t with
  | nil =>
    have none : o.dims = [] := by
      have := hc.length_eq
      rw [lengths, List.length_map] at this
      exact List.length_eq_zero_iff.1 this.symm
    have covers := h.covers
    rw [none] at covers
    cases covers with
    | element p => exact ⟨o, rfl, ⟨h.hasTy, none⟩, rfl⟩
  | cons i c ih =>
    cases hd : o.dims with
    | nil => rw [lengths, hd] at hc; exact hc.elim
    | cons d ds =>
      rw [lengths, hd] at hc
      obtain ⟨v', u, run, hv', hbase, hvar⟩ := h.index hd hc.1
      obtain ⟨o', run', ho', hvar'⟩ := ih hv' hc.2
      refine ⟨o', by rw [at?, run, Option.bind_some, run'], ?_, hvar'.trans hvar⟩
      rw [← hbase]
      exact ho'

/-- A whole value stretches to lengths its own lengths stretch to. -/
theorem stretch_ok {ns : List Int} (h : o.IsWhole vars s t) (hs : Stretches t.dims ns) :
    ∃ o', o.stretch ns = .ok o' ∧ o'.Views vars s t ∧ o'.lengths = ns := by
  obtain ⟨ds, run, hc, hl⟩ := stretchDims_ok t 0 hs
  refine ⟨{ o with dims := ds }, ?_, ⟨h.hasTy, hc⟩, hl⟩
  have fits : ¬o.dims.length > ns.length := by
    rw [h.dims, whole, List.length_map]
    exact Nat.not_lt.2 hs.length_le
  rw [stretch, if_neg fits, h.dims, run]
  rfl

/-- The type a whole value presents. -/
theorem IsWhole.ty?_eq (h : o.IsWhole vars s t) : o.ty? vars = some t := by
  have base : ∀ {w : Ty}, w.base = t.base → Ty.arrayOf o.lengths (.prim w.base) = t := by
    intro w hw
    rw [h.lengths_eq, hw, Ty.arrayOf_dims_base]
  have typed := h.hasTy
  obtain ⟨v, dims⟩ := o
  match v, typed with
  | .constant c, typed =>
    have typed : c.HasTy t := typed
    exact congrArg some (base (typed.ty_eq ▸ rfl))
  | .variable id coord, typed =>
    obtain ⟨w, ⟨-, l, found, -⟩, leads⟩ := typed
    simp only [ty?, found]
    exact congrArg some (base leads.base_eq.symm)

end Operand

end Elements

end Flat

end SignalLang
