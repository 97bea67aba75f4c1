import SignalLang.Proofs.Broadcast
import SignalLang.Proofs.Staged.Data
import SignalLang.Proofs.Staged.Values

/-!
# Data of a type

`Datum.Has P dims d` says that `d` is made of arrays of the lengths `dims` around data of which `P` holds. With
`IsA p` for `P` it is a value of a type, with `May p` a value of which parts may be unknown. Taking parts, replacing
parts, stretching and computing keep to the type: on values of the types an operator takes, computing in advance has a
result of the type of the operation, or fails for a reason that is a problem of the program.
-/

namespace SignalLang

theorem InBounds.append : {a b m n : List Int} → InBounds a m → InBounds b n → InBounds (a ++ b) (m ++ n)
  | [], _, [], _, _, hb => hb
  | _ :: _, _, _ :: _, _, ha, hb => ⟨ha.1, ha.2.append hb⟩

namespace Staged

/-- Arrays of the given lengths around data of which `P` holds. -/
def Datum.Has (P : Datum → Prop) : (dims : List Int) → Datum → Prop
  | [], d => P d
  | n :: ns, d => ∃ ds, d = .array ds ∧ ds.length = n.toNat ∧ ∀ e ∈ ds, e.Has P ns

namespace Datum

/-- A datum of a primitive type; a type has positive lengths. -/
structure IsA (p : Prim) (d : Datum) : Prop where
  prim : d.prim? = some p
  positive : ∀ b, d = .type b → b.IsPositive

/-- A datum that is unknown or of a primitive type. -/
def May (p : Prim) (d : Datum) : Prop := d = .unknown ∨ d.IsA p

/-! ## Canonical forms -/

section Forms

variable {d : Datum}

theorem IsA.int (h : d.IsA .int) : ∃ n, d = .int n := by
  obtain ⟨prim, -⟩ := h
  cases d <;> cases prim
  exact ⟨_, rfl⟩

theorem IsA.bool (h : d.IsA .bool) : ∃ b, d = .bool b := by
  obtain ⟨prim, -⟩ := h
  cases d <;> cases prim
  exact ⟨_, rfl⟩

theorem IsA.float (h : d.IsA .float) : ∃ x, d = .float x := by
  obtain ⟨prim, -⟩ := h
  cases d <;> cases prim
  exact ⟨_, rfl⟩

theorem IsA.type (h : d.IsA .dataType) : ∃ b, d = .type b ∧ b.IsPositive := by
  obtain ⟨prim, positive⟩ := h
  cases d <;> cases prim
  exact ⟨_, rfl, positive _ rfl⟩

theorem IsA.macroRef (h : d.IsA .macroRef) : ∃ site context, d = .macroRef site context := by
  obtain ⟨prim, -⟩ := h
  cases d <;> cases prim
  exact ⟨_, _, rfl⟩

theorem isA_void : Datum.void.IsA .void := ⟨rfl, nofun⟩

theorem isA_bool (b : Bool) : (Datum.bool b).IsA .bool := ⟨rfl, nofun⟩

theorem isA_int (n : Int) : (Datum.int n).IsA .int := ⟨rfl, nofun⟩

theorem isA_float (x : Float) : (Datum.float x).IsA .float := ⟨rfl, nofun⟩

theorem isA_type {b : Bound} (h : b.IsPositive) : (Datum.type b).IsA .dataType := by
  refine ⟨rfl, fun b' same => ?_⟩
  cases same
  exact h

/-- A plain constant is a datum of its type. -/
theorem isA_ofConstant (context : Table) {c : Constant} (h : c.Plain) :
    (ofConstant context c).IsA c.ty.base ∧ c.ty.dims = [] := by
  cases c with
  | void => exact ⟨isA_void, rfl⟩
  | bool b => exact ⟨isA_bool b, rfl⟩
  | int n => exact ⟨isA_int n, rfl⟩
  | float x => exact ⟨isA_float x, rfl⟩
  | type b => exact ⟨isA_type h, rfl⟩
  | macroRef site => exact ⟨⟨rfl, nofun⟩, rfl⟩
  | array items => exact h.elim

end Forms

/-! ## Parts -/

section Parts

variable {P Q : Datum → Prop} {n : Int} {dims ns : List Int} {d e v : Datum} {i : Int} {a : List Int}

theorem Has.mono (h : d.Has P dims) (hPQ : ∀ l, P l → Q l) : d.Has Q dims := by
  induction dims generalizing d with
  | nil => exact hPQ d h
  | cons n ns ih =>
    obtain ⟨ds, rfl, hlen, hall⟩ := h
    exact ⟨ds, rfl, hlen, fun e he => ih (hall e he)⟩

theorem Has.shaped (h : d.Has P dims) : Shaped dims d := by
  induction dims generalizing d with
  | nil => trivial
  | cons n ns ih =>
    obtain ⟨ds, rfl, hlen, hall⟩ := h
    exact ⟨ds, rfl, hlen, fun e he => ih (hall e he)⟩

theorem Has.element? (h : d.Has P (n :: ns)) (he : d.element? i = some e) : e.Has P ns := by
  obtain ⟨ds, rfl, -, hall⟩ := h
  obtain ⟨_, heq, -, hget⟩ := element?_eq_some.1 he
  cases heq
  exact hall e (List.mem_of_getElem? hget)

theorem Has.item? (h : d.Has P dims) (hlen : a.length ≤ dims.length) (he : d.item? a = some e) :
    e.Has P (dims.drop a.length) := by
  induction a generalizing d dims with
  | nil =>
    cases he
    exact h
  | cons i a ih =>
    obtain ⟨part, hpart, he⟩ := item?_cons_eq_some.1 he
    cases dims with
    | nil => cases hlen
    | cons n ns => exact ih (h.element? hpart) (Nat.le_of_succ_le_succ hlen) he

theorem Has.set? (h : d.Has P dims) (hlen : a.length ≤ dims.length) (hv : v.Has P (dims.drop a.length))
    (he : d.set? a v = some e) : e.Has P dims := by
  induction a generalizing dims d e with
  | nil =>
    rw [set?_nil] at he
    cases he
    exact hv
  | cons i a ih =>
    obtain ⟨items, old, new, rfl, hi, hold, hnew, rfl⟩ := set?_cons_eq_some.1 he
    cases dims with
    | nil => cases hlen
    | cons n ns =>
      obtain ⟨_, heq, hlen', hall⟩ := h
      cases heq
      refine ⟨_, rfl, by rw [List.length_set, hlen'], fun x hx => ?_⟩
      rcases List.mem_or_eq_of_mem_set hx with hx | rfl
      · exact hall x hx
      · exact ih (hall old (List.mem_of_getElem? hold)) (Nat.le_of_succ_le_succ hlen) hv hnew

/-- The leaves of a datum are those at the coordinates of its lengths. -/
theorem has_iff : d.Has P dims ↔ Shaped dims d ∧ ∀ c l, InBounds c dims → d.item? c = some l → P l := by
  constructor
  · intro h
    refine ⟨h.shaped, fun c l hc hl => ?_⟩
    have leaf := h.item? (Nat.le_of_eq hc.length_eq) hl
    rw [hc.length_eq, List.drop_length] at leaf
    exact leaf
  · rintro ⟨shaped, leaves⟩
    induction dims generalizing d with
    | nil => exact leaves [] d trivial rfl
    | cons n ns ih =>
      obtain ⟨ds, rfl, hlen, hall⟩ := shaped
      refine ⟨ds, rfl, hlen, fun e he => ih (hall e he) fun c l hc hl => ?_⟩
      obtain ⟨k, hk, hget⟩ := List.mem_iff_getElem.1 he
      have found : (Datum.array ds).element? k = some e :=
        element?_eq_some.2 ⟨ds, rfl, Int.natCast_nonneg k, List.getElem?_eq_some_iff.2 ⟨hk, hget⟩⟩
      refine leaves (k :: c) l ⟨⟨Int.natCast_nonneg k, by omega⟩, hc⟩ ?_
      exact item?_cons_eq_some.2 ⟨e, found, hl⟩

theorem has_array {xs : List Datum} (h : ∀ x ∈ xs, x.Has P ns) : (Datum.array xs).Has P (xs.length :: ns) :=
  ⟨xs, rfl, by simp, h⟩

theorem has_unknownOf (p : Prim) (dims : List Int) : (unknownOf dims).Has (May p) dims := by
  induction dims with
  | nil => exact .inl rfl
  | cons n ns ih =>
    refine ⟨_, rfl, List.length_replicate, fun e he => ?_⟩
    rw [List.eq_of_mem_replicate he]
    exact ih

/-- A datum without unknown parts is a value. -/
theorem Has.known {p : Prim} (h : d.Has (May p) dims) (known : d.isKnown = true) : d.Has (IsA p) dims := by
  induction dims generalizing d with
  | nil =>
    rcases h with rfl | h
    · cases known
    · exact h
  | cons n ns ih =>
    obtain ⟨ds, rfl, hlen, hall⟩ := h
    rw [isKnown, allKnown_iff] at known
    exact ⟨ds, rfl, hlen, fun e he => ih (hall e he) (known e he)⟩

/-- A datum stretches to all lengths its own lengths stretch to. -/
theorem Has.stretch? {shape : List Int} (h : d.Has P shape) (hs : Stretches shape dims) :
    ∃ e, Datum.stretch? dims shape d = some e ∧ e.Has P dims := by
  obtain ⟨e, run, shaped, items⟩ := stretch?_ok hs h.shaped
  refine ⟨e, run, has_iff.2 ⟨shaped, fun c l hc hl => ?_⟩⟩
  rw [items c hc] at hl
  exact (has_iff.1 h).2 _ l (hc.broadcast hs) hl

end Parts

/-! ## Constants -/

/-- A value that can be written as a constant is one that can be held, and the constant is of its type. -/
theorem Has.toConstant? {t : Ty} (positive : t.IsPositive) {d : Datum} (h : d.Has (IsA t.base) t.dims) {c : Constant}
    (hc : d.toConstant? = some c) : c.HasTy t := by
  induction t generalizing d c with
  | prim p =>
    obtain ⟨prim, -⟩ := h
    cases d <;> cases prim <;> cases hc <;> rfl
  | array n t ih =>
    obtain ⟨ds, rfl, hlen, hall⟩ := h
    obtain ⟨hn, positive⟩ := Ty.isPositive_array.1 positive
    rw [Datum.toConstant?] at hc
    obtain ⟨cs, hcs, rfl⟩ := Option.map_eq_some_iff.1 hc
    have all : ∀ {ds : List Datum} {cs : List Constant}, (∀ e ∈ ds, e.Has (IsA t.base) t.dims) →
        toConstants? ds = some cs → cs.length = ds.length ∧ ∀ k ∈ cs, k.HasTy t := by
      intro ds
      induction ds with
      | nil =>
        intro cs _ hcs
        cases hcs
        exact ⟨rfl, nofun⟩
      | cons e ds ihs =>
        intro cs hall hcs
        rw [toConstants?] at hcs
        obtain ⟨k, hk, hcs⟩ := Option.bind_eq_some_iff.1 hcs
        obtain ⟨ks, hks, hcs⟩ := Option.bind_eq_some_iff.1 hcs
        cases hcs
        obtain ⟨len, rest⟩ := ihs (fun x hx => hall x (List.mem_cons_of_mem _ hx)) hks
        refine ⟨congrArg (· + 1) len, fun x hx => ?_⟩
        rcases List.mem_cons.1 hx with rfl | hx
        · exact ih positive (hall e List.mem_cons_self) hk
        · exact rest x hx
    obtain ⟨len, each⟩ := all hall hcs
    refine Constant.hasTy_array.2 ⟨n, t, rfl, fun empty => ?_, by omega, each⟩
    rw [empty] at len
    rw [← len] at hlen
    simp at hlen
    omega

end Datum

/-! ## Computing in advance -/

/-- A reason to fail that is a problem of the program. -/
def FoldError.IsProblem : FoldError → Prop
  | .divisionByZero | .negativeExponent _ => True
  | .mismatch | .meaningless => False

/-- The outcome of computing in advance: a result of which `Q` holds, or a problem of the program. -/
def Folds (result : Except FoldError Datum) (Q : Datum → Prop) : Prop :=
  match result with
  | .ok d => Q d
  | .error e => e.IsProblem

namespace Datum

/-- The primitive type of the result of a binary operator. -/
def resultPrim (op : BinaryOp) (p : Prim) : Prim := if op.isComparison then .bool else p

theorem folds_scalar {op : BinaryOp} {p : Prim} {l r : Datum} (takes : Stage.binaryAccepts op p = true) (hl : l.IsA p)
    (hr : r.IsA p) : Folds (foldScalar op l r) (IsA (resultPrim op p)) := by
  cases p with
  | int =>
    obtain ⟨a, rfl⟩ := hl.int
    obtain ⟨b, rfl⟩ := hr.int
    cases op <;> first
      | exact isA_int _
      | exact isA_bool _
      | (cases takes; done)
      | (show Folds (if _ then _ else _) _
         split
         · exact trivial
         · exact isA_int _)
  | float =>
    obtain ⟨a, rfl⟩ := hl.float
    obtain ⟨b, rfl⟩ := hr.float
    cases op <;> first | exact isA_float _ | exact isA_bool _ | cases takes
  | bool =>
    obtain ⟨a, rfl⟩ := hl.bool
    obtain ⟨b, rfl⟩ := hr.bool
    cases op <;> first | exact isA_bool _ | cases takes
  | dataType =>
    obtain ⟨a, rfl, -⟩ := hl.type
    obtain ⟨b, rfl, -⟩ := hr.type
    cases op <;> first | exact isA_bool _ | cases takes
  | void => cases op <;> cases takes
  | macroRef => cases op <;> cases takes

/-- An array is folded when each of its elements is. -/
theorem folds_array {n : Int} {ns : List Int} {leaf : Datum → Prop} {f : Int → Except FoldError Datum}
    (each : ∀ i ∈ indexesBelow n, Folds (f i) fun d => d.Has leaf ns) :
    Folds (do return .array (← (indexesBelow n).mapM f)) fun d => d.Has leaf (n :: ns) := by
  unfold Folds
  cases run : (indexesBelow n).mapM f with
  | error e =>
    obtain ⟨i, hi, failed⟩ := mapM_error run
    have folds := each i hi
    rw [failed] at folds
    exact folds
  | ok items =>
    refine ⟨items, rfl, ?_, fun e he => ?_⟩
    · have := congrArg List.length (mapM_ok run)
      simpa [indexesBelow] using this.symm
    · obtain ⟨i, hi, made⟩ := Steps.mem_of_mapM_ok run he
      have folds := each i hi
      rw [made] at folds
      exact folds

theorem folds_elements {op : BinaryOp} {p : Prim} {dims : List Int} {l r : Datum}
    (takes : Stage.binaryAccepts op p = true) (hl : l.Has (IsA p) dims) (hr : r.Has (IsA p) dims) :
    Folds (foldElements op dims l r) fun d => d.Has (IsA (resultPrim op p)) dims := by
  induction dims generalizing l r with
  | nil => exact folds_scalar takes hl hr
  | cons n ns ih =>
    rw [foldElements]
    refine folds_array fun i hi => ?_
    obtain ⟨hi, hlt⟩ := mem_indexesBelow.1 hi
    obtain ⟨a, ha⟩ := hl.shaped.exists_element hi hlt
    obtain ⟨b, hb⟩ := hr.shaped.exists_element hi hlt
    simp only [ha, hb]
    exact ih (hl.element? ha) (hr.element? hb)

/-- A binary operator on values of types that have a common type which it takes. -/
theorem folds_binary {op : BinaryOp} {a b common : Ty} {l r : Datum} (hc : Ty.IsCommon a b common)
    (takes : Stage.binaryAccepts op common.base = true) (hl : l.Has (IsA a.base) a.dims)
    (hr : r.Has (IsA b.base) b.dims) : Folds (foldBinary op l r a.dims b.dims common.dims) fun d =>
      d.Has (IsA (binaryTy op common).base) (binaryTy op common).dims := by
  rw [← hc.left] at hl
  rw [← hc.right] at hr
  obtain ⟨l', left, hl'⟩ := hl.stretch? hc.leftStretches
  obtain ⟨r', right, hr'⟩ := hr.stretch? hc.rightStretches
  have base : (binaryTy op common).base = resultPrim op common.base := by
    unfold binaryTy resultPrim
    split <;> simp
  rw [foldBinary, left, right, dims_binaryTy, base]
  exact folds_elements takes hl' hr'

theorem folds_unaryScalar {op : UnaryOp} {t : Ty} {d : Datum} (takes : Stage.unaryAccepts op t.base = true)
    (h : d.IsA t.base) : Folds (foldUnaryScalar op d) (IsA (unaryTy op t).base) := by
  generalize hp : t.base = p at takes h
  cases p with
  | int =>
    obtain ⟨n, rfl⟩ := h.int
    cases op <;> simp only [unaryTy, Ty.base_withBase, hp] <;>
      first | exact isA_int _ | exact isA_float _ | cases takes
  | float =>
    obtain ⟨x, rfl⟩ := h.float
    cases op <;> simp only [unaryTy, Ty.base_withBase, hp] <;>
      first | exact isA_int _ | exact isA_float _ | cases takes
  | bool =>
    obtain ⟨b, rfl⟩ := h.bool
    cases op <;> simp only [unaryTy, hp] <;> first | exact isA_bool _ | cases takes
  | void => cases op <;> cases takes
  | dataType => cases op <;> cases takes
  | macroRef => cases op <;> cases takes

theorem folds_unaries {op : UnaryOp} {Q : Datum → Prop} {ds : List Datum} (h : ∀ d ∈ ds, Folds (foldUnary op d) Q) :
    Folds (Datum.array <$> foldUnaries op ds) fun d => ∃ es, d = .array es ∧ es.length = ds.length ∧ ∀ e ∈ es, Q e := by
  induction ds with
  | nil => exact ⟨[], rfl, rfl, nofun⟩
  | cons d ds ih =>
    have first := h d List.mem_cons_self
    have rest := ih fun x hx => h x (List.mem_cons_of_mem _ hx)
    rw [foldUnaries]
    cases head : foldUnary op d with
    | error e =>
      rw [head] at first
      exact first
    | ok e =>
      rw [head] at first
      cases tail : foldUnaries op ds with
      | error e =>
        rw [tail] at rest
        exact rest
      | ok es =>
        rw [tail] at rest
        obtain ⟨_, same, len, all⟩ := rest
        cases same
        refine ⟨e :: es, rfl, congrArg (· + 1) len, fun x hx => ?_⟩
        rcases List.mem_cons.1 hx with rfl | hx
        · exact first
        · exact all x hx

/-- A unary operator on a value of a type that it takes. -/
theorem folds_unary {op : UnaryOp} {t : Ty} {d : Datum} (takes : Stage.unaryAccepts op t.base = true)
    (h : d.Has (IsA t.base) t.dims) : Folds (foldUnary op d) fun e => e.Has (IsA (unaryTy op t).base) t.dims := by
  generalize t.dims = dims at h ⊢
  induction dims generalizing d with
  | nil =>
    have same : foldUnary op d = foldUnaryScalar op d := by
      obtain ⟨prim, -⟩ := h
      cases d <;> first | rfl | cases prim
    rw [same]
    exact folds_unaryScalar takes h
  | cons n ns ih =>
    obtain ⟨ds, rfl, hlen, hall⟩ := h
    have all := folds_unaries fun d hd => ih (hall d hd)
    rw [foldUnary]
    cases run : foldUnaries op ds with
    | error e =>
      rw [run] at all
      exact all
    | ok es =>
      rw [run] at all
      obtain ⟨_, same, len, each⟩ := all
      cases same
      exact ⟨es, rfl, len.trans hlen, each⟩

end Datum

end Staged

end SignalLang
