import SignalLang.Proofs.Flat.Machine

/-!
# Valid programs run safely

A program in which the check finds nothing wrong never gets stuck (`valid_runs_safe`): whatever the operators
compute and whatever the store holds, a run goes on until it ends, aborts with an entry of the error table or
traps. Each instruction that passes its check has an effect, and the effect can be carried out: a write is not to
an input, a label is placed, a code has an entry. Every run keeps to that, step by step.
-/

namespace SignalLang.Flat

namespace Instr

/-- The labels that an instruction may go to. -/
def jumps : Instr → List LabelId
  | .jump l => [l]
  | .branch _ ifTrue ifFalse => [ifTrue, ifFalse]
  | _ => []

/-- The operands that an instruction takes or fills as single elements. -/
def elements : Instr → List Operand
  | .move source target => [source, target]
  | .load _ indexes target => indexes ++ [target]
  | .store source _ indexes => source :: indexes
  | .unary _ a target => [a, target]
  | .binary _ a b target => [a, b, target]
  | .branch condition _ _ => [condition]
  | .label _ | .jump _ | .abort _ | .missing => []

/-- The base and the indexes of an access that is computed as the program runs. -/
def access? : Instr → Option (Operand × List Operand)
  | .load base indexes _ | .store _ base indexes => some (base, indexes)
  | _ => none

/-- The operands of an instruction. -/
def operands (i : Instr) : List Operand := i.elements ++ i.access?.toList.map (·.1)

end Instr

/-- Whether a constant in place of an operand is a scalar. -/
def Operand.isScalarLiteral (o : Operand) : Bool :=
  match o.viewed with
  | .constant c => (Scalar.ofConstant? c).isSome
  | .variable .. => true

theorem Operand.ofConstant?_of_literal {o : Operand} {c : Constant} (h : o.isScalarLiteral = true)
    (view : o.viewed = .constant c) : ∃ x, Scalar.ofConstant? c = some x := by
  rw [isScalarLiteral, view] at h
  exact Option.isSome_iff_exists.1 h

/-- Every constant of a program is a scalar. -/
def Program.ScalarLiterals (p : Program) : Prop :=
  ∀ s, ∀ i ∈ p.stream s, ∀ o ∈ i.operands, o.isScalarLiteral = true

/-- A variable that a stream may use: static initialization has the statics and its own variables, and the main
stream has all but those. -/
def Stream.Owns : Stream → Location → Prop
  | .staticInit, l => l = .static ∨ l = .staticBody
  | .main, l => l ≠ .staticBody

/-- An instruction goes to labels that are placed, its fixed coordinates are complete and in range, it gives an
index for each dimension, and the stream may use its variables. -/
structure Instr.Safe (p : Program) (s : Stream) (i : Instr) : Prop where
  jumps : ∀ l ∈ i.jumps, ∃ n : Nat, (p.stream s)[n]? = some (.label l)
  elements : ∀ o ∈ i.elements, ∀ id coord, o.viewed = .variable id coord →
    coord.length = (p.dimsOf id).length ∧ InBounds coord (p.dimsOf id)
  accesses : ∀ base indexes, i.access? = some (base, indexes) →
    ∃ id, base.viewed = .variable id [] ∧ indexes.length = (p.dimsOf id).length + 1
  storage : ∀ o ∈ i.operands, ∀ id, o.viewed.var? = some id → ∃ v, p.vars[id]? = some v ∧ s.Owns v.location

/-- A state is an end, an abort, a trap, or has a successor. -/
inductive Config.Safe {p : Program} (s : Stream) (ops : Operators) : Config p → Prop where
  | ended (σ : Store p) : Safe s ops (.running (p.stream s).size σ)
  | aborted (code : Int) (σ : Store p) (low : 0 ≤ code) (high : code < p.errors.size) : Safe s ops (.aborted code σ)
  | trapped (σ : Store p) : Safe s ops (.trapped σ)
  | steps {c c' : Config p} {w : Writes p} (step : p.step? s ops c = some (w, c')) : Safe s ops c

variable {p : Program} {s : Stream} {o : Operand} {what : String} {σ : Store p}

/-! ## Constants that are written as zero -/

theorem toString_int_eq_zero {n : Int} (h : toString n = "0") : n = 0 := by
  rw [Int.toString_eq_repr, Int.repr_eq_if] at h
  split at h
  · have digits : Nat.toDigits 10 n.toNat = ['0'] := by
      rw [Nat.repr_eq_ofList_toDigits] at h
      exact String.ofList_injective h
    have value := @Nat.ofDigitChars_ten_toDigits n.toNat
    rw [digits] at value
    have : n.toNat = 0 := value.symm
    omega
  · have first := congrArg (fun t : String => t.toList.head?) h
    simp at first

/-- A number is never written without a point, an exponent or letters. -/
theorem floatText_ne_zero (x : Float) : Constant.floatText x ≠ "0" := by
  unfold Constant.floatText Decimal.withPoint
  split
  · intro h
    rename_i marked
    rw [h] at marked
    exact absurd marked (by decide)
  · intro h
    have size := congrArg (fun t : String => t.toList.length) h
    simp at size

theorem isOrigin_of_isZero (literal : o.isScalarLiteral = true) (h : Program.isZero o = true) : o.isOrigin = true := by
  unfold Program.isZero at h
  split at h
  · rename_i c view
    have text : c.text = "0" := of_decide_eq_true h
    obtain ⟨x, hx⟩ := Operand.ofConstant?_of_literal literal view
    cases c with
    | bool b => cases b <;> exact absurd text (by decide)
    | int n =>
      obtain rfl : n = 0 := toString_int_eq_zero text
      simp [Operand.isOrigin, view, Scalar.ofConstant?, Word.wrap]
    | float x => exact absurd text (floatText_ne_zero x)
    | void | type _ | macroRef _ | array _ => cases hx
  · cases h

/-! ## Operands that pass their check -/

namespace Program

theorem owns_of_mayTouch {l : Location} (h : mayTouch s l = true) : s.Owns l := by
  cases s <;> simpa [mayTouch, Stream.Owns] using h

theorem checkStorage_nil {id : VarId} (h : p.checkStorage s id = []) :
    ∃ v, p.vars[id]? = some v ∧ s.Owns v.location := by
  unfold checkStorage at h
  split at h
  · cases h
  · rename_i v found
    split at h
    · exact ⟨v, found, owns_of_mayTouch ‹_›⟩
    · cases h

theorem inBounds_of_within : {coord dims : List Int} → coord.length = dims.length → within coord dims = true →
    InBounds coord dims
  | [], [], _, _ => trivial
  | c :: cs, d :: ds, hlen, h => by
    simp only [within, List.zip_cons_cons, List.all_cons, Bool.and_eq_true, decide_eq_true_eq] at h
    exact ⟨h.1, inBounds_of_within (Nat.succ.inj hlen) h.2⟩

/-- An operand that passes its check is a single element: a constant, or one that is there. -/
theorem checkOperand_nil (h : p.checkOperand s what o = []) :
    o.isScalar = true ∧ ∀ id coord, o.viewed = .variable id coord →
      p.checkStorage s id = [] ∧ InBounds coord (p.dimsOf id) := by
  obtain ⟨scalar, element⟩ := List.append_eq_nil_iff.1 h
  refine ⟨?_, fun id coord view => ?_⟩
  · split at scalar
    · assumption
    · cases scalar
  · rw [view] at element
    simp only [checkElement] at element
    split at element
    · rename_i stored
      split at element
      · cases element
      · rename_i rank
        split at element
        · exact ⟨stored, inBounds_of_within (Classical.not_not.1 rank) ‹_›⟩
        · cases element
    · rename_i issues
      exact (issues element).elim

theorem element?_of_checkOperand {id : VarId} {coord : List Int} (h : p.checkOperand s what o = [])
    (view : o.viewed = .variable id coord) : ∃ e, o.element? p = some e ∧ e.var = id := by
  obtain ⟨scalar, element⟩ := checkOperand_nil h
  obtain ⟨stored, bounds⟩ := element id coord view
  obtain ⟨v, found, -⟩ := checkStorage_nil stored
  have declared : id < p.vars.size := (Array.getElem?_eq_some_iff.1 found).1
  refine ⟨⟨id, coord, declared, bounds⟩, ?_, rfl⟩
  simp only [Operand.element?, view, scalar, if_true]
  exact element?_eq_some.2 ⟨rfl, rfl⟩

theorem read?_of_checkOperand (literal : o.isScalarLiteral = true) (h : p.checkOperand s what o = []) (σ : Store p) :
    ∃ x, o.read? σ = some x := by
  match view : o.viewed with
  | .constant c =>
    obtain ⟨x, hx⟩ := Operand.ofConstant?_of_literal literal view
    exact ⟨x, by simp only [Operand.read?, view, (checkOperand_nil h).1, if_true, hx]⟩
  | .variable id coord =>
    obtain ⟨e, he, -⟩ := element?_of_checkOperand h view
    exact ⟨σ e, by simp only [Operand.read?, view, he, Option.map_some]⟩

theorem checkWritable_nil {id : VarId} {coord : List Int} (h : p.checkWritable o = [])
    (view : o.viewed = .variable id coord) (e : Element p) (he : e.var = id) : e.location ≠ .input := by
  subst he
  have declared := e.declared
  simp only [checkWritable, view] at h
  split at h
  · cases h
  · rename_i other
    intro input
    exact other (by simpa [Array.getElem?_eq_getElem declared, Element.location] using input)

/-- A target that passes its check is an element of a variable that is no input. -/
theorem checkTarget_nil (h : p.checkTarget s o = []) :
    p.checkOperand s "destination" o = [] ∧ ∃ e, o.element? p = some e ∧ e.location ≠ .input := by
  unfold checkTarget at h
  split at h
  · cases h
  · rename_i id coord view
    obtain ⟨checked, writable⟩ := List.append_eq_nil_iff.1 h
    obtain ⟨e, he, var⟩ := element?_of_checkOperand checked view
    exact ⟨checked, e, he, checkWritable_nil writable view e var⟩

/-- A base with indexes that pass their check: a whole variable, a zero, and an index for each dimension. -/
theorem checkIndexed_nil {indexes : List Operand} (h : p.checkIndexed s o indexes = []) :
    ∃ id first rest, o.viewed = .variable id [] ∧ indexes = first :: rest ∧ p.checkStorage s id = [] ∧
      isZero first = true ∧ rest.length = (p.dimsOf id).length ∧ ∀ x ∈ rest, p.checkOperand s "index" x = [] := by
  unfold checkIndexed at h
  split at h
  · cases h
  · rename_i id coord view
    obtain ⟨whole, h⟩ := List.append_eq_nil_iff.1 h
    have whole : coord = [] := by
      split at whole
      · exact List.isEmpty_iff.1 ‹_›
      · cases whole
    split at h
    · rename_i stored
      cases indexes with
      | nil => cases h
      | cons first rest =>
        dsimp only at h
        split at h
        · cases h
        · rename_i count
          obtain ⟨zero, all⟩ := List.append_eq_nil_iff.1 h
          refine ⟨id, first, rest, whole ▸ view, rfl, stored, ?_, ?_, List.flatMap_eq_nil_iff.1 all⟩
          · split at zero
            · assumption
            · cases zero
          · exact Nat.succ.inj (Classical.not_not.1 count)
    · rename_i issues
      exact (issues h).elim

theorem reads_of_checkOperand {os : List Operand} (literals : ∀ o ∈ os, o.isScalarLiteral = true)
    (h : ∀ o ∈ os, p.checkOperand s what o = []) (σ : Store p) : ∃ xs, os.mapM (Operand.read? σ) = some xs := by
  induction os with
  | nil => exact ⟨[], rfl⟩
  | cons o os ih =>
    obtain ⟨x, hx⟩ := read?_of_checkOperand (literals o List.mem_cons_self) (h o List.mem_cons_self) σ
    obtain ⟨xs, hxs⟩ := ih (fun y hy => literals y (List.mem_cons_of_mem _ hy))
      fun y hy => h y (List.mem_cons_of_mem _ hy)
    exact ⟨x :: xs, by rw [List.mapM_cons, hx, hxs]; rfl⟩

/-- What is selected is an element of the base, unless an index is out of range. -/
theorem selected?_of_checkIndexed {indexes : List Operand} (literals : ∀ x ∈ indexes, x.isScalarLiteral = true)
    (h : p.checkIndexed s o indexes = []) (σ : Store p) :
    ∃ r, o.selected? σ indexes = some r ∧
      ∀ e, r = some e → ∀ id coord, o.viewed = .variable id coord → e.var = id := by
  obtain ⟨id, first, rest, view, rfl, stored, zero, count, all⟩ := checkIndexed_nil h
  obtain ⟨v, found, -⟩ := checkStorage_nil stored
  have declared : id < p.vars.size := (Array.getElem?_eq_some_iff.1 found).1
  have origin := isOrigin_of_isZero (literals first List.mem_cons_self) zero
  obtain ⟨xs, hxs⟩ := reads_of_checkOperand (fun x hx => literals x (List.mem_cons_of_mem _ hx)) all σ
  refine ⟨(xs.mapM Scalar.index?).bind (p.element? id), ?_, fun e he id' coord' view' => ?_⟩
  · simp only [Operand.selected?, view, declared, origin, count, and_self, if_true, hxs, Option.map_some]
  · rw [view] at view'
    cases view'
    obtain ⟨coord, -, he⟩ := Option.bind_eq_some_iff.1 he
    exact (element?_eq_some.1 he).1

/-! ## Labels -/

theorem label_of_placed {count : Nat} {is : List (Instr × Nat)} {placed : List (LabelId × Nat)}
    {errors : List ValidationError} {l : LabelId}
    (h : ((placedLabels count is (placed, errors) s).1.lookup l).isSome) :
    (placed.lookup l).isSome ∨ ∃ n, (.label l, n) ∈ is := by
  induction is generalizing placed errors with
  | nil => exact .inl h
  | cons i is ih =>
    obtain ⟨i, n⟩ := i
    have later : (placed.lookup l).isSome ∨ (∃ n, (.label l, n) ∈ is) →
        (placed.lookup l).isSome ∨ ∃ m, (.label l, m) ∈ (i, n) :: is :=
      Or.imp_right fun ⟨m, hm⟩ => ⟨m, List.mem_cons_of_mem _ hm⟩
    cases i with
    | label l' =>
      rw [placedLabels] at h
      split at h
      · exact later (ih h)
      · split at h
        · exact later (ih h)
        · rcases ih h with found | ⟨m, hm⟩
          · by_cases same : l = l'
            · subst same
              exact .inr ⟨n, List.mem_cons_self⟩
            · rw [List.lookup_cons, beq_false_of_ne same] at found
              exact .inl found
          · exact .inr ⟨m, List.mem_cons_of_mem _ hm⟩
    | _ =>
      simp only [placedLabels] at h
      exact later (ih h)

/-- Labels in a table of places are placed by the stream. -/
def Places (p : Program) (s : Stream) (placed : List (LabelId × Nat)) : Prop :=
  ∀ l, (placed.lookup l).isSome → ∃ n : Nat, (p.stream s)[n]? = some (.label l)

theorem checkJump_nil {count : Nat} {placed : List (LabelId × Nat)} {l : LabelId}
    (h : checkJump count placed l = []) : (placed.lookup l).isSome := by
  unfold checkJump at h
  split at h
  · cases h
  · split at h
    · assumption
    · cases h

/-- In a valid program every instruction passes its check. -/
theorem checkInstr_of_validate (valid : p.validate = []) (s : Stream) :
    ∃ placed, p.Places s placed ∧ ∀ i ∈ p.stream s, p.checkInstr s placed i = [] := by
  have stream : p.validateStream s = [] := by
    obtain ⟨front, main⟩ := List.append_eq_nil_iff.1 valid
    cases s with
    | staticInit => exact (List.append_eq_nil_iff.1 front).2
    | main => exact main
  obtain ⟨-, all⟩ := List.append_eq_nil_iff.1 stream
  refine ⟨(placedLabels (p.labelCount s) (p.stream s).toList.zipIdx ([], []) s).1, fun l hl => ?_, fun i hi => ?_⟩
  · rcases label_of_placed hl with none | ⟨n, hn⟩
    · cases none
    · exact ⟨n, by simpa using List.mem_zipIdx_iff_getElem?.1 hn⟩
  · obtain ⟨n, hn, rfl⟩ := Array.mem_iff_getElem.1 hi
    have mem : ((p.stream s)[n], n) ∈ (p.stream s).toList.zipIdx :=
      List.mem_zipIdx_iff_getElem?.2 (by simp [hn])
    exact List.map_eq_nil_iff.1 (List.flatMap_eq_nil_iff.1 all _ mem)

end Program

/-! ## Instructions that pass their check -/

/-- An effect that can be carried out. -/
def Outcome.Allowed (s : Stream) : Outcome p → Prop
  | .write e _ => e.location ≠ .input
  | .goto l => ∃ n : Nat, (p.stream s)[n]? = some (.label l)
  | .abort code => 0 ≤ code ∧ code < p.errors.size
  | .next | .trap => True

section Checked

variable {placed : List (LabelId × Nat)} {i : Instr}

/-- An instruction that passes its check has an effect, and it can be carried out. -/
theorem Instr.outcome?_of_check (places : p.Places s placed) (literals : ∀ o ∈ i.operands, o.isScalarLiteral = true)
    (h : p.checkInstr s placed i = []) (ops : Operators) (σ : Store p) :
    ∃ f, i.outcome? ops σ = some f ∧ f.Allowed s := by
  have literal {o : Operand} (ho : o ∈ i.elements) : o.isScalarLiteral = true := literals o (List.mem_append_left _ ho)
  cases i with
  | move source target =>
    obtain ⟨hs, ht⟩ := List.append_eq_nil_iff.1 h
    obtain ⟨x, hx⟩ := Program.read?_of_checkOperand (literal (by simp [elements])) hs σ
    obtain ⟨-, e, he, writable⟩ := Program.checkTarget_nil ht
    exact ⟨.write e x, by simp [outcome?, hx, he], writable⟩
  | load base indexes target =>
    obtain ⟨hb, ht⟩ := List.append_eq_nil_iff.1 h
    obtain ⟨r, hr, -⟩ := Program.selected?_of_checkIndexed
      (fun x hx => literal (by simp [elements, hx])) hb σ
    obtain ⟨-, e, he, writable⟩ := Program.checkTarget_nil ht
    refine ⟨r.elim .trap fun e' => .write e (σ e'), by simp [outcome?, hr, he], ?_⟩
    cases r with
    | none => trivial
    | some e' => exact writable
  | store source base indexes =>
    obtain ⟨h, hw⟩ := List.append_eq_nil_iff.1 h
    obtain ⟨hs, hb⟩ := List.append_eq_nil_iff.1 h
    obtain ⟨x, hx⟩ := Program.read?_of_checkOperand (literal (by simp [elements])) hs σ
    obtain ⟨r, hr, hvar⟩ := Program.selected?_of_checkIndexed
      (fun x hx => literal (by simp [elements, hx])) hb σ
    obtain ⟨id, _, _, view, -⟩ := Program.checkIndexed_nil hb
    refine ⟨r.elim .trap fun e => .write e x, by simp [outcome?, hx, hr], ?_⟩
    cases r with
    | none => trivial
    | some e => exact Program.checkWritable_nil hw view e (hvar e rfl id [] view)
  | unary op a target =>
    obtain ⟨ha, ht⟩ := List.append_eq_nil_iff.1 h
    obtain ⟨x, hx⟩ := Program.read?_of_checkOperand (literal (by simp [elements])) ha σ
    obtain ⟨-, e, he, writable⟩ := Program.checkTarget_nil ht
    exact ⟨.write e (ops.unary op x), by simp [outcome?, hx, he], writable⟩
  | binary op a b target =>
    obtain ⟨h, ht⟩ := List.append_eq_nil_iff.1 h
    obtain ⟨ha, hb⟩ := List.append_eq_nil_iff.1 h
    obtain ⟨x, hx⟩ := Program.read?_of_checkOperand (literal (by simp [elements])) ha σ
    obtain ⟨y, hy⟩ := Program.read?_of_checkOperand (literal (by simp [elements])) hb σ
    obtain ⟨-, e, he, writable⟩ := Program.checkTarget_nil ht
    exact ⟨.write e (ops.binary op x y), by simp [outcome?, hx, hy, he], writable⟩
  | label l => exact ⟨.next, rfl, trivial⟩
  | jump l => exact ⟨.goto l, rfl, places l (Program.checkJump_nil h)⟩
  | branch condition l l' =>
    obtain ⟨h, hl'⟩ := List.append_eq_nil_iff.1 h
    obtain ⟨hc, hl⟩ := List.append_eq_nil_iff.1 h
    obtain ⟨x, hx⟩ := Program.read?_of_checkOperand (literal (by simp [elements])) hc σ
    refine ⟨.goto (if x.isTrue then l else l'), by simp [outcome?, hx], ?_⟩
    split
    · exact places l (Program.checkJump_nil hl)
    · exact places l' (Program.checkJump_nil hl')
  | abort code =>
    simp only [Program.checkInstr] at h
    split at h
    · cases h
    · exact ⟨.abort code, rfl, by simp only [Outcome.Allowed]; omega⟩
  | missing => cases h

theorem Instr.checkIndexed_of_check {base : Operand} {indexes : List Operand}
    (h : p.checkInstr s placed i = []) (access : i.access? = some (base, indexes)) :
    p.checkIndexed s base indexes = [] := by
  cases i with
  | load _ _ _ =>
    cases access
    exact (List.append_eq_nil_iff.1 h).1
  | store _ _ _ =>
    cases access
    exact (List.append_eq_nil_iff.1 (List.append_eq_nil_iff.1 h).1).2
  | _ => cases access

/-- A variable is there, may be used, and has an element at a coordinate. -/
def Program.Has (p : Program) (s : Stream) (o : Operand) : Prop :=
  ∀ id coord, o.viewed = .variable id coord → p.checkStorage s id = [] ∧ InBounds coord (p.dimsOf id)

theorem Program.has_of_checkIndexed {base : Operand} {indexes : List Operand}
    (h : p.checkIndexed s base indexes = []) {o : Operand} (ho : o ∈ indexes) : p.Has s o := by
  obtain ⟨id, first, rest, -, rfl, -, zero, -, all⟩ := checkIndexed_nil h
  rcases List.mem_cons.1 ho with rfl | ho
  · intro id coord view
    simp [isZero, view] at zero
  · exact (checkOperand_nil (all o ho)).2

theorem Instr.has_of_check (h : p.checkInstr s placed i = []) {o : Operand} (ho : o ∈ i.elements) : p.Has s o := by
  have operand {what : String} {o : Operand} (h : p.checkOperand s what o = []) : p.Has s o :=
    (Program.checkOperand_nil h).2
  have target {o : Operand} (h : p.checkTarget s o = []) : p.Has s o := operand (Program.checkTarget_nil h).1
  cases i with
  | move source x =>
    obtain ⟨hs, hx⟩ := List.append_eq_nil_iff.1 h
    simp only [elements, List.mem_cons, List.not_mem_nil, or_false] at ho
    rcases ho with rfl | rfl
    · exact operand hs
    · exact target hx
  | load base indexes x =>
    obtain ⟨hb, hx⟩ := List.append_eq_nil_iff.1 h
    rcases List.mem_append.1 ho with ho | ho
    · exact Program.has_of_checkIndexed hb ho
    · obtain rfl := List.mem_singleton.1 ho
      exact target hx
  | store source base indexes =>
    obtain ⟨h, -⟩ := List.append_eq_nil_iff.1 h
    obtain ⟨hs, hb⟩ := List.append_eq_nil_iff.1 h
    rcases List.mem_cons.1 ho with rfl | ho
    · exact operand hs
    · exact Program.has_of_checkIndexed hb ho
  | unary op a x =>
    obtain ⟨ha, hx⟩ := List.append_eq_nil_iff.1 h
    simp only [elements, List.mem_cons, List.not_mem_nil, or_false] at ho
    rcases ho with rfl | rfl
    · exact operand ha
    · exact target hx
  | binary op a b x =>
    obtain ⟨h, hx⟩ := List.append_eq_nil_iff.1 h
    obtain ⟨ha, hb⟩ := List.append_eq_nil_iff.1 h
    simp only [elements, List.mem_cons, List.not_mem_nil, or_false] at ho
    rcases ho with rfl | rfl | rfl
    · exact operand ha
    · exact operand hb
    · exact target hx
  | branch condition l l' =>
    obtain ⟨h, -⟩ := List.append_eq_nil_iff.1 h
    obtain rfl := List.mem_singleton.1 ho
    exact operand (List.append_eq_nil_iff.1 h).1
  | label _ | jump _ | abort _ | missing => cases ho

theorem Instr.safe_of_check (places : p.Places s placed) (h : p.checkInstr s placed i = []) : i.Safe p s where
  jumps := by
    intro l hl
    cases i with
    | jump l' =>
      obtain rfl := List.mem_singleton.1 hl
      exact places l (Program.checkJump_nil h)
    | branch condition t f =>
      obtain ⟨h, hf⟩ := List.append_eq_nil_iff.1 h
      obtain ⟨-, ht⟩ := List.append_eq_nil_iff.1 h
      simp only [jumps, List.mem_cons, List.not_mem_nil, or_false] at hl
      rcases hl with rfl | rfl
      · exact places l (Program.checkJump_nil ht)
      · exact places l (Program.checkJump_nil hf)
    | _ => cases hl
  elements := by
    intro o ho id coord view
    obtain ⟨-, bounds⟩ := has_of_check h ho id coord view
    exact ⟨bounds.length_eq, bounds⟩
  accesses := by
    intro base indexes access
    obtain ⟨id, first, rest, view, rfl, -, -, count, -⟩ :=
      Program.checkIndexed_nil (checkIndexed_of_check h access)
    exact ⟨id, view, congrArg (· + 1) count⟩
  storage := by
    intro o ho id hid
    rcases List.mem_append.1 ho with ho | ho
    · match view : o.viewed with
      | .constant c =>
        rw [view] at hid
        cases hid
      | .variable id' coord =>
        rw [view] at hid
        cases hid
        exact Program.checkStorage_nil (has_of_check h ho id coord view).1
    · obtain ⟨⟨base, indexes⟩, access, rfl⟩ := List.mem_map.1 ho
      obtain ⟨id', _, _, view, -, stored, -⟩ :=
        Program.checkIndexed_nil (checkIndexed_of_check h (Option.mem_toList.1 access))
      simp only [view, Viewed.var?, Option.some.injEq] at hid
      exact Program.checkStorage_nil (hid ▸ stored)

end Checked

/-! ## Runs -/

theorem Program.labelIndex?_of_getElem? {l : LabelId} {n : Nat} (h : (p.stream s)[n]? = some (.label l)) :
    ∃ m, p.labelIndex? s l = some m ∧ m < (p.stream s).size := by
  cases found : p.labelIndex? s l with
  | none =>
    have := Array.findIdx?_eq_none_iff.1 found _ (Array.mem_of_getElem? h)
    simp [Instr.label?] at this
  | some m => exact ⟨m, rfl, (Array.findIdx?_eq_some_iff_getElem.1 found).1⟩

/-- A state is at an instruction or behind the last one, or aborted with an entry of the error table. -/
def Config.Inside (s : Stream) : Config p → Prop
  | .running i _ => i ≤ (p.stream s).size
  | .aborted code _ => 0 ≤ code ∧ code < p.errors.size
  | .trapped _ => True

/-- A state that a run from a store can be in. -/
structure Config.Keeps (s : Stream) (σ₀ : Store p) (c : Config p) : Prop where
  inside : c.Inside s
  inputs : ∀ e : Element p, e.location = .input → c.store e = σ₀ e

/-- An effect that can be carried out leads on, and leaves inputs alone. -/
theorem Outcome.Allowed.after {f : Outcome p} (h : f.Allowed s) {i : Nat} (hi : i < (p.stream s).size)
    {σ₀ : Store p} (inputs : ∀ e : Element p, e.location = .input → σ e = σ₀ e) :
    ∃ w c, f.after? s i σ = some (w, c) ∧ c.Keeps s σ₀ := by
  cases f with
  | write e x =>
    refine ⟨[(e, x)], .running (i + 1) (σ.write e x), rfl, hi, fun e' input => ?_⟩
    have other : e' ≠ e := by
      rintro rfl
      exact h input
    exact (Store.write_of_ne x other).trans (inputs e' input)
  | next => exact ⟨[], .running (i + 1) σ, rfl, hi, inputs⟩
  | goto l =>
    obtain ⟨n, hn⟩ := h
    obtain ⟨m, hm, inside⟩ := Program.labelIndex?_of_getElem? hn
    exact ⟨[], .running (m + 1) σ, by rw [after?, hm]; rfl, inside, inputs⟩
  | abort code => exact ⟨[], .aborted code σ, rfl, h, inputs⟩
  | trap => exact ⟨[], .trapped σ, rfl, trivial, inputs⟩

/-- A state of a run is safe, and the step from it leads to another. -/
theorem Config.Keeps.step (literals : p.ScalarLiterals) (valid : p.validate = []) (ops : Operators)
    {σ₀ : Store p} {c : Config p} (h : c.Keeps s σ₀) :
    c.Safe s ops ∧ ∀ w c', p.step? s ops c = some (w, c') → c'.Keeps s σ₀ := by
  cases c with
  | running i σ =>
    rcases Nat.lt_or_eq_of_le h.inside with hi | rfl
    · obtain ⟨placed, places, checked⟩ := Program.checkInstr_of_validate valid s
      have mem : (p.stream s)[i] ∈ p.stream s := Array.getElem_mem hi
      obtain ⟨f, hf, allowed⟩ := Instr.outcome?_of_check places (literals s _ mem) (checked _ mem) ops σ
      have inputs : ∀ e : Element p, e.location = .input → σ e = σ₀ e := h.inputs
      obtain ⟨w, c, hc, keeps⟩ := allowed.after hi inputs
      have step : p.step? s ops (.running i σ) = some (w, c) := by
        rw [Program.step?, Array.getElem?_eq_getElem hi, Option.bind_some, hf, Option.bind_some, hc]
      refine ⟨.steps step, fun w' c' step' => ?_⟩
      rw [step] at step'
      cases step'
      exact keeps
    · refine ⟨.ended σ, fun w c' step => ?_⟩
      simp [Program.step?] at step
  | aborted code σ =>
    obtain ⟨low, high⟩ := h.inside
    exact ⟨.aborted code σ low high, fun w c' step => by cases step⟩
  | trapped σ => exact ⟨.trapped σ, fun w c' step => by cases step⟩

/-- A run keeps to safe states. -/
theorem Config.Keeps.run (literals : p.ScalarLiterals) (valid : p.validate = []) {ops : Operators} {σ₀ : Store p}
    {a c : Config p} {ws : Writes p} {n : Nat} (h : a.Keeps s σ₀) (run : Runs (p.step? s ops) n a ws c) :
    c.Keeps s σ₀ := by
  induction run with
  | zero => exact h
  | succ first _ ih => exact ih ((h.step literals valid ops).2 _ _ first)

/-- A valid program runs safely. Its instructions go to labels that are placed, access elements that exist and
use the variables of their stream. From any store, with any operators, every state of a run is the end, an
abort with an entry of the error table or a trap, or has a successor, and no input has changed. -/
theorem valid_runs_safe (p : Program) (literals : p.ScalarLiterals) (valid : p.validate = []) (s : Stream) :
    (∀ i ∈ p.stream s, i.Safe p s) ∧
    ∀ (ops : Operators) (σ₀ : Store p) (ws : Writes p) (c : Config p),
      Reaches (p.step? s ops) (.running 0 σ₀) ws c →
        c.Safe s ops ∧ ∀ e : Element p, e.location = .input → c.store e = σ₀ e := by
  obtain ⟨placed, places, checked⟩ := Program.checkInstr_of_validate valid s
  refine ⟨fun i hi => Instr.safe_of_check places (checked i hi), fun ops σ₀ ws c ⟨n, run⟩ => ?_⟩
  have start : (Config.running 0 σ₀).Keeps s σ₀ := ⟨Nat.zero_le _, fun _ _ => rfl⟩
  have keeps := start.run literals valid run
  exact ⟨(keeps.step literals valid ops).1, keeps.inputs⟩

/-- Looks through an array, from an index that is an input on, for the value in its last place. An index behind
the last one traps; when the value is found, the run aborts. -/
def searchProgram : Program where
  vars := #[⟨some .int, .input⟩, ⟨some (.array 4 .int), .static⟩, ⟨some .int, .mainBody⟩, ⟨some .int, .output⟩,
    ⟨some .bool, .mainBody⟩]
  main := #[.move ⟨.variable 0 [], []⟩ ⟨.variable 2 [], []⟩, .label 0,
    .load ⟨.variable 1 [], [⟨4, .keep⟩]⟩ [.ofInt 0, ⟨.variable 2 [], []⟩] ⟨.variable 3 [], []⟩,
    .binary .addI ⟨.variable 2 [], []⟩ (.ofInt 1) ⟨.variable 2 [], []⟩,
    .binary (.compareI .eq) ⟨.variable 1 [3], []⟩ ⟨.variable 3 [], []⟩ ⟨.variable 4 [], []⟩,
    .branch ⟨.variable 4 [], []⟩ 1 0, .label 1, .abort 0]
  staticInit := #[.move (.ofInt 7) ⟨.variable 1 [3], []⟩]
  mainLabels := 2
  errors := #["found"]
  inputs := [0]
  outputs := [3]
  statics := [1]

theorem valid_runs_safe_search :
    (searchProgram.ScalarLiterals ∧ searchProgram.validate = []) ∧
    ∀ (ops : Operators) (σ₀ : Store searchProgram) (ws : Writes searchProgram) (c : Config searchProgram),
      Reaches (searchProgram.step? .main ops) (.running 0 σ₀) ws c →
        c.Safe .main ops ∧ ∀ e : Element searchProgram, e.location = .input → c.store e = σ₀ e := by
  have literals : searchProgram.ScalarLiterals := by
    intro s
    cases s <;> decide
  have valid : searchProgram.validate = [] := rfl
  exact ⟨⟨literals, valid⟩, (valid_runs_safe searchProgram literals valid .main).2⟩

end SignalLang.Flat
