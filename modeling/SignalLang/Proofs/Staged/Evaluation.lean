import SignalLang.Proofs.Staged.Shapes

/-!
# Types at run time

On a memory whose slots hold values of their types, a well-formed expression has a value of its own type, if it has one
at all (`Expr.has_eval`). A literal stands for the datum it was made from.
-/

namespace SignalLang.Staged

open Datum (Has IsA)

/-- Every slot holds a value of its type. -/
def Memory.Typed (vars : Array Variable) (m : Memory) : Prop :=
  ∀ (k : SlotId) x, vars[k]? = some x → (m k).Has (IsA x.ty.base) x.ty.dims

namespace Datum

/-! ## Constants and data -/

/-- A constant is a value of its type. -/
theorem has_ofConstant {context : Table} {t : Ty} {c : Constant} (h : c.HasTy t) :
    (ofConstant context c).Has (IsA t.base) t.dims := by
  induction t generalizing c with
  | prim p =>
    cases c with
    | bool b =>
      cases h
      exact isA_bool b
    | int n =>
      cases h
      exact isA_int n
    | float x =>
      cases h
      exact isA_float x
    | array items =>
      obtain ⟨_, _, same, -⟩ := Constant.hasTy_array.1 h
      cases same
    | void | type b | macroRef site => exact h.elim
  | array n u ih =>
    cases c with
    | array items =>
      obtain ⟨_, _, same, -, len, all⟩ := Constant.hasTy_array.1 h
      cases same
      rw [ofConstant, ofConstants_eq_map]
      refine ⟨_, rfl, by rw [List.length_map]; omega, fun e he => ?_⟩
      obtain ⟨k, hk, rfl⟩ := List.mem_map.1 he
      exact ih (all k hk)
    | bool b | int n | float x => cases h
    | void | type b | macroRef site => exact h.elim

mutual

/-- A datum that was written as a constant is read back. -/
theorem ofConstant_of_toConstant? {context : Table} :
    {d : Datum} → {c : Constant} → d.toConstant? = some c → ofConstant context c = d
  | .bool _, _, h | .int _, _, h | .float _, _, h => by
    cases h
    rfl
  | .array items, _, h => by
    rw [toConstant?] at h
    obtain ⟨cs, hcs, rfl⟩ := Option.map_eq_some_iff.1 h
    rw [ofConstant, ofConstants_of_toConstants? hcs]
  | .unknown, _, h | .void, _, h | .type _, _, h | .macroRef .., _, h => by cases h

theorem ofConstants_of_toConstants? {context : Table} :
    {ds : List Datum} → {cs : List Constant} → toConstants? ds = some cs → ofConstants context cs = ds
  | [], _, h => by
    cases h
    rfl
  | d :: ds, _, h => by
    rw [toConstants?] at h
    obtain ⟨c, hc, h⟩ := Option.bind_eq_some_iff.1 h
    obtain ⟨cs, hcs, h⟩ := Option.bind_eq_some_iff.1 h
    cases h
    rw [ofConstants, ofConstant_of_toConstant? hc, ofConstants_of_toConstants? hcs]

end

theorem Has.fills {p : Prim} {dims : List Int} {d : Datum} (h : d.Has (IsA p) dims) : Fills p dims d := by
  induction dims generalizing d with
  | nil => exact h.prim
  | cons n ns ih =>
    obtain ⟨ds, rfl, len, all⟩ := h
    exact ⟨ds, rfl, len, fun e he => ih (all e he)⟩

theorem length_ints? {ds : List Datum} {ns : List Int} (h : ints? ds = some ns) : ns.length = ds.length := by
  induction ds generalizing ns with
  | nil =>
    cases h
    rfl
  | cons d ds ih =>
    rw [ints?] at h
    obtain ⟨n, -, h⟩ := Option.bind_eq_some_iff.1 h
    obtain ⟨ms, hms, h⟩ := Option.bind_eq_some_iff.1 h
    cases h
    exact congrArg (· + 1) (ih hms)

end Datum

/-- Computing in advance that has a result. -/
theorem Folds.toOption {result : Except FoldError Datum} {Q : Datum → Prop} {x : Datum} (h : Folds result Q)
    (hx : result.toOption = some x) : Q x := by
  cases result with
  | error e => cases hx
  | ok d =>
    cases hx
    exact h

namespace Expr

variable {vars : Array Variable} {m : Memory}

/-- The indexes of an element lead past as many lengths as there are indexes. -/
theorem Selects.dims {es : List Expr} {t u : Ty} (h : Selects vars es t u) :
    t.base = u.base ∧ es.length ≤ t.dims.length ∧ t.dims.drop es.length = u.dims := by
  induction es generalizing t with
  | nil =>
    cases h
    exact ⟨rfl, Nat.zero_le _, rfl⟩
  | cons e es ih =>
    rw [Selects] at h
    obtain ⟨n, elem, rfl, -, -, -, rest⟩ := h
    obtain ⟨base, len, drop⟩ := ih rest
    exact ⟨base, Nat.succ_le_succ len, drop⟩

theorem length_evalAll {es : List Expr} {xs : List Datum} (h : evalAll m es = some xs) : xs.length = es.length := by
  induction es generalizing xs with
  | nil =>
    cases h
    rfl
  | cons e es ih =>
    rw [evalAll] at h
    obtain ⟨x, -, h⟩ := Option.bind_eq_some_iff.1 h
    obtain ⟨ys, hys, h⟩ := Option.bind_eq_some_iff.1 h
    cases h
    exact congrArg (· + 1) (ih hys)

mutual

/-- The value of an expression is of the type of the expression. -/
theorem has_eval (typed : m.Typed vars) : {e : Expr} → e.WellFormed vars → e.LiteralsFit → {x : Datum} →
    e.eval m = some x → x.Has (IsA e.ty.base) e.ty.dims
  | .literal c ty _, _, fits, x, h => by
    rw [eval] at h
    cases h
    exact Datum.has_ofConstant fits
  | .var id ty _, formed, _, x, h => by
    obtain ⟨v, hv, rfl⟩ := Option.map_eq_some_iff.1 formed
    rw [eval] at h
    cases h
    exact typed id v hv
  | .index base indexes ty _, ⟨formed, selects⟩, ⟨fits, _⟩, x, h => by
    rw [eval] at h
    obtain ⟨whole, hwhole, h⟩ := Option.bind_eq_some_iff.1 h
    obtain ⟨ds, hds, h⟩ := Option.bind_eq_some_iff.1 h
    obtain ⟨path, hpath, h⟩ := Option.bind_eq_some_iff.1 h
    obtain ⟨same, len, drop⟩ := selects.dims
    have length : path.length = indexes.length := (Datum.length_ints? hpath).trans (length_evalAll hds)
    have has := (has_eval typed formed fits hwhole).item? (length ▸ len) h
    rw [length, drop, same] at has
    exact has
  | .collect items ty _, ⟨_, t, hty, all⟩, fits, x, h => by
    rw [eval] at h
    obtain ⟨xs, hxs, rfl⟩ := Option.map_eq_some_iff.1 h
    subst hty
    have has := Datum.has_array (has_evalAll typed all fits hxs)
    rw [length_evalAll hxs] at has
    exact has
  | .unary op a ty _, ⟨formed, takes, hty⟩, fits, x, h => by
    rw [eval] at h
    obtain ⟨d, hd, h⟩ := Option.bind_eq_some_iff.1 h
    have has := (Datum.folds_unary takes (has_eval typed formed fits hd)).toOption h
    subst hty
    rw [Expr.ty, dims_unaryTy]
    exact has
  | .binary op l r ty _, ⟨formedL, formedR, common, found, takes, hty⟩, ⟨fitsL, fitsR⟩, x, h => by
    rw [eval] at h
    obtain ⟨a, ha, h⟩ := Option.bind_eq_some_iff.1 h
    obtain ⟨b, hb, h⟩ := Option.bind_eq_some_iff.1 h
    subst hty
    rw [dims_binaryTy] at h
    exact (Datum.folds_binary (Ty.isCommon_of_biggest? found) takes (has_eval typed formedL fitsL ha)
      (has_eval typed formedR fitsR hb)).toOption h
  | .missing, formed, _, _, _ => formed.elim

theorem has_evalAll (typed : m.Typed vars) {t : Ty} : {es : List Expr} → AllOf vars t es → AllFit es →
    {xs : List Datum} → evalAll m es = some xs → ∀ x ∈ xs, x.Has (IsA t.base) t.dims
  | [], _, _, xs, h => by
    cases h
    nofun
  | e :: es, ⟨formed, ty, all⟩, ⟨fits, rest⟩, xs, h => by
    rw [evalAll] at h
    obtain ⟨x, hx, h⟩ := Option.bind_eq_some_iff.1 h
    obtain ⟨ys, hys, h⟩ := Option.bind_eq_some_iff.1 h
    cases h
    intro y hy
    rcases List.mem_cons.1 hy with rfl | hy
    · exact ty ▸ has_eval typed formed fits hx
    · exact has_evalAll typed all rest hys y hy

end

end Expr

end SignalLang.Staged
