import SignalLang.Proofs.Flat.Views

/-!
# Well-typed programs are valid

Of all that is checked in a program, typing leaves one thing open: that no input is written
(`validate_eq_nil_iff`). Labels are placed once, so the table of places has them all; operands are single
elements in range, of variables that their stream may touch.
-/

namespace SignalLang.Flat.Program

variable {p : Program} {s : Stream} {o : Operand} {t : Prim} {what : String}

/-! ## Operands -/

theorem checkStorage_eq_nil {id : VarId} {t : Ty} (h : HoldsTy p.vars s id t) : p.checkStorage s id = [] := by
  obtain ⟨-, l, found, touch⟩ := h
  simp [checkStorage, found, touch]

theorem dimsOf_eq {id : VarId} {t : Ty} (h : HoldsTy p.vars s id t) : p.dimsOf id = t.dims := by
  obtain ⟨-, l, found, -⟩ := h
  simp [dimsOf, found]

/-- Indexes that lead to an element lie within the lengths. -/
theorem within_of_leads : {coord : List Int} → {t u : Ty} → Leads coord t u → within coord t.dims = true
  | [], _, _, _ => rfl
  | i :: coord, .array n t, _, h => by
    have rest : within coord t.dims = true := within_of_leads h.2
    have here : (0 ≤ i) ∧ i < n := h.1
    simp only [within, Ty.dims, List.zip_cons_cons, List.all_cons] at rest ⊢
    simp [rest, here]

theorem checkOperand_eq_nil (h : o.IsElement p.vars s t) : p.checkOperand s what o = [] := by
  rw [checkOperand, if_pos h.isScalar, List.nil_append]
  have typed := h.hasTy
  split
  · rfl
  · rename_i id coord view
    rw [view] at typed
    obtain ⟨whole, holds, leads⟩ := typed
    have rank : coord.length = whole.dims.length := by
      have := leads.length_add
      simpa [Ty.dims] using this
    simp only [checkElement, checkStorage_eq_nil holds, dimsOf_eq holds]
    rw [if_neg (not_not_intro rank), if_pos (within_of_leads leads)]

theorem checkIndexed_eq_nil {indexes : List Operand} (h : o.IsIndexed p.vars s indexes t) :
    p.checkIndexed s o indexes = [] := by
  obtain ⟨id, whole, rest, view, holds, -, rfl, hlen, hrest⟩ := h
  have zero : isZero (.ofInt 0) = true := rfl
  have count : ¬(Operand.ofInt 0 :: rest).length ≠ whole.dims.length + 1 := by
    rw [List.length_cons, hlen]
    exact not_not_intro rfl
  have all : rest.flatMap (p.checkOperand s "index") = [] :=
    List.flatMap_eq_nil_iff.2 fun x hx => checkOperand_eq_nil (hrest x hx)
  simp only [checkIndexed, view, checkStorage_eq_nil holds, dimsOf_eq holds]
  rw [if_neg count, if_pos zero, all]
  rfl

/-! ## Written operands -/

theorem checkWritable_eq_nil (wt : p.WellTyped) :
    p.checkWritable o = [] ↔ ¬∃ id ∈ p.inputs, o.viewed.var? = some id := by
  unfold checkWritable
  split
  · rename_i view
    simp [view, Viewed.var?]
  · rename_i id coord view
    have input : (p.vars[id]?).any (·.location = .input) = true ↔ id ∈ p.inputs := by
      rw [show id ∈ p.inputs ↔ _ from wt.interface .input id]
      cases p.vars[id]? <;> simp [Interface.location]
    rw [view]
    by_cases h : (p.vars[id]?).any (·.location = .input) = true
    · rw [if_pos h]
      simp [Viewed.var?, input.1 h]
    · rw [if_neg h]
      have := mt input.2 h
      simp [Viewed.var?, this]

theorem checkTarget_eq (h : o.IsPlace p.vars s t) : p.checkTarget s o = p.checkWritable o := by
  have place := h.2
  unfold checkTarget
  split
  · rename_i view
    rw [view] at place
    cases place
  · rw [checkOperand_eq_nil h.1, List.nil_append]

/-! ## Labels -/

/-- Labels in range that are placed once all get a place. -/
theorem placedLabels_eq {count : Nat} {is : List (Instr × Nat)} {placed : List (LabelId × Nat)}
    {errors : List ValidationError} (nodup : (is.filterMap (·.1.label?)).Nodup)
    (range : ∀ l ∈ is.filterMap (·.1.label?), l < count ∧ placed.lookup l = none) :
    ∃ placed', placedLabels count is (placed, errors) s = (placed', errors) ∧
      ∀ l, (placed'.lookup l).isSome ↔ (placed.lookup l).isSome ∨ l ∈ is.filterMap (·.1.label?) := by
  induction is generalizing placed with
  | nil => exact ⟨placed, rfl, by simp⟩
  | cons i is ih =>
    obtain ⟨i, n⟩ := i
    cases hl : i.label? with
    | none =>
      simp only [List.filterMap_cons, hl] at nodup range ⊢
      have skip : placedLabels count ((i, n) :: is) (placed, errors) s =
          placedLabels count is (placed, errors) s := by
        cases i with
        | label l => cases hl
        | _ => simp only [placedLabels]
      rw [skip]
      exact ih nodup range
    | some l =>
      simp only [List.filterMap_cons, hl, List.nodup_cons] at nodup range ⊢
      obtain rfl : i = .label l := by
        cases i with
        | label l' => cases hl; rfl
        | _ => cases hl
      obtain ⟨hcount, fresh⟩ := range l List.mem_cons_self
      have step : placedLabels count ((.label l, n) :: is) (placed, errors) s =
          placedLabels count is ((l, n) :: placed, errors) s := by
        rw [placedLabels, if_neg (Nat.not_le.2 hcount), fresh]
      obtain ⟨placed', run, hplaced⟩ := @ih ((l, n) :: placed) nodup.2 fun m hm => by
        refine ⟨(range m (List.mem_cons_of_mem _ hm)).1, ?_⟩
        have other : m ≠ l := fun e => nodup.1 (e ▸ hm)
        rw [List.lookup_cons, beq_false_of_ne other]
        exact (range m (List.mem_cons_of_mem _ hm)).2
      refine ⟨placed', step.trans run, fun m => (hplaced m).trans ?_⟩
      rw [List.lookup_cons, List.mem_cons]
      by_cases same : m = l
      · simp [same]
      · rw [beq_false_of_ne same]
        simp [same]

theorem checkJump_eq_nil {count : Nat} {placed : List (LabelId × Nat)} {l : LabelId} (hl : l < count)
    (hp : (placed.lookup l).isSome) : checkJump count placed l = [] := by
  rw [checkJump, if_neg (Nat.not_le.2 hl), if_pos hp]

/-! ## Instructions -/

/-- A typed instruction is checked without issues unless it writes an input. -/
theorem checkInstr_eq_nil (wt : p.WellTyped) {placed : List (LabelId × Nat)} {i : Instr}
    (hi : i.Typed p.vars s (p.labelCount s) p.errors.size)
    (hp : ∀ l, l < p.labelCount s → (placed.lookup l).isSome) :
    p.checkInstr s placed i = [] ↔ ¬i.Writes p.inputs := by
  have target {o : Operand} (h : i.target? = some o) :
      p.checkWritable o = [] ↔ ¬i.Writes p.inputs := by
    refine (checkWritable_eq_nil wt).trans (not_congr ⟨fun h' => ⟨o, h, h'⟩, ?_⟩)
    rintro ⟨o', ho', h'⟩
    obtain rfl : o = o' := Option.some.inj (h.symm.trans ho')
    exact h'
  have none (h : i.target? = none) : ¬i.Writes p.inputs := by
    rintro ⟨o, ho, -⟩
    rw [h] at ho
    cases ho
  cases i with
  | move source x =>
    obtain ⟨t, hs, hx⟩ := hi
    rw [checkInstr, checkOperand_eq_nil hs, checkTarget_eq hx, List.nil_append]
    exact target rfl
  | load base indexes x =>
    obtain ⟨t, hb, hx⟩ := hi
    rw [checkInstr, checkIndexed_eq_nil hb, checkTarget_eq hx, List.nil_append]
    exact target rfl
  | store source base indexes =>
    obtain ⟨t, hs, hb⟩ := hi
    rw [checkInstr, checkOperand_eq_nil hs, checkIndexed_eq_nil hb, List.nil_append, List.nil_append]
    exact target rfl
  | unary op a x =>
    obtain ⟨t, u, -, ha, hx⟩ := hi
    rw [checkInstr, checkOperand_eq_nil ha, checkTarget_eq hx, List.nil_append]
    exact target rfl
  | binary op a b x =>
    obtain ⟨t, u, -, ha, hb, hx⟩ := hi
    rw [checkInstr, checkOperand_eq_nil ha, checkOperand_eq_nil hb, checkTarget_eq hx, List.nil_append,
      List.nil_append]
    exact target rfl
  | label l => exact iff_of_true rfl (none rfl)
  | jump l =>
    rw [checkInstr, checkJump_eq_nil hi (hp l hi)]
    exact iff_of_true rfl (none rfl)
  | branch condition l l' =>
    obtain ⟨hc, hl, hl'⟩ := hi
    rw [checkInstr, checkOperand_eq_nil hc, checkJump_eq_nil hl (hp l hl), checkJump_eq_nil hl' (hp l' hl')]
    exact iff_of_true rfl (none rfl)
  | abort code =>
    obtain ⟨hz, hlt⟩ := hi
    rw [checkInstr, if_neg (by omega)]
    exact iff_of_true rfl (none rfl)
  | missing => exact hi.elim

/-! ## Whole programs -/

theorem validateStream_eq_nil (wt : p.WellTyped) (s : Stream) :
    p.validateStream s = [] ↔ ¬∃ i ∈ p.stream s, i.Writes p.inputs := by
  have typed := wt.streams s
  have labels : (p.stream s).toList.zipIdx.filterMap (·.1.label?) = labelsOf (p.stream s) := by
    show (p.stream s).toList.zipIdx.filterMap (Instr.label? ∘ Prod.fst) = _
    rw [← List.filterMap_map, List.zipIdx_map_fst, labelsOf]
  obtain ⟨placed, run, hplaced⟩ := @placedLabels_eq s (p.labelCount s) (p.stream s).toList.zipIdx [] []
    (labels ▸ typed.nodup) fun l hl => ⟨(typed.labels l).1 (labels ▸ hl), rfl⟩
  have all (l : LabelId) (hl : l < p.labelCount s) : (placed.lookup l).isSome := by
    rw [hplaced, labels]
    exact .inr ((typed.labels l).2 hl)
  have check {i : Instr} (hi : i ∈ p.stream s) : p.checkInstr s placed i = [] ↔ ¬i.Writes p.inputs :=
    checkInstr_eq_nil wt (typed.typed i hi) all
  simp only [validateStream, run, List.nil_append, List.flatMap_eq_nil_iff, List.map_eq_nil_iff]
  constructor
  · rintro none ⟨i, hi, writes⟩
    obtain ⟨n, hn, rfl⟩ := Array.mem_iff_getElem.1 hi
    have mem : ((p.stream s)[n], n) ∈ (p.stream s).toList.zipIdx :=
      List.mem_zipIdx_iff_getElem?.2 (by simp [hn])
    exact (check hi).1 (none _ mem) writes
  · rintro none ⟨i, n⟩ mem
    have hi : i ∈ p.stream s := Array.mem_toList_iff.1 (List.fst_mem_of_mem_zipIdx mem)
    exact (check hi).2 fun writes => none ⟨i, hi, writes⟩

theorem checkDeclarations_eq_nil (wt : p.WellTyped) : p.checkDeclarations = [] := by
  have lists (kind : Interface) : p.checkInterface kind (p.interface kind) = [] := by
    refine List.flatMap_eq_nil_iff.2 fun id hid => ?_
    obtain ⟨v, found, located⟩ := (wt.interface kind id).1 hid
    simp [found, located]
  have inputs : p.checkInterface .input p.inputs = [] := lists .input
  have outputs : p.checkInterface .output p.outputs = [] := lists .output
  have statics : p.checkInterface .static p.statics = [] := lists .static
  rw [checkDeclarations, inputs, outputs, statics, List.append_nil, List.append_nil, List.append_nil]
  refine List.flatMap_eq_nil_iff.2 ?_
  rintro ⟨v, i⟩ mem
  obtain ⟨t, l, rfl, ht, -⟩ := wt.vars v (Array.mem_toList_iff.1 (List.fst_mem_of_mem_zipIdx mem))
  simp [ht.runtime]

/-- Static initialization cannot touch inputs. -/
theorem not_writes_staticInit (wt : p.WellTyped) : ¬∃ i ∈ p.stream .staticInit, i.Writes p.inputs := by
  rintro ⟨i, hi, o, ho, id, hid, view⟩
  obtain ⟨t, -, l, found, touch⟩ := ((wt.streams .staticInit).typed i hi).holds ho view
  obtain ⟨v, found', input⟩ := (wt.interface .input id).1 hid
  rw [found] at found'
  cases found'
  obtain rfl : l = .input := input
  cases touch

/-- A well-typed program is valid exactly when its main stream writes no input. -/
theorem validate_eq_nil_iff (wt : p.WellTyped) : p.validate = [] ↔ ¬∃ i ∈ p.main, i.Writes p.inputs := by
  rw [validate, checkDeclarations_eq_nil wt, (validateStream_eq_nil wt .staticInit).2 (not_writes_staticInit wt)]
  exact validateStream_eq_nil wt .main

end SignalLang.Flat.Program
