import SignalLang.Staged.Basic
import SignalLang.Staged.Fold

/-!
# The meaning of staged programs

A run works on a memory with a value for each slot. An expression has a value unless it divides by zero,
raises to a negative power or leaves an array; a statement that needs the value of such an expression has no
defined effect, and the run ends there. A run also ends at an assertion that fails.

`Program.run` takes the inputs and the statics, starts all else at zero, and gives the outputs and the
statics in the end.
-/

namespace SignalLang.Staged

/-- Why a run ends before its last statement. -/
inductive Halt where
  /-- The assertion at a place in the source fails. -/
  | failed (span : Span)
  | undefined
deriving DecidableEq

/-- A value for each slot. -/
abbrev Memory := SlotId → Datum

/-- Replaces the value of a slot. -/
def Memory.set (m : Memory) (k : SlotId) (x : Datum) : Memory := fun j => if j = k then x else m j

@[simp] theorem Memory.set_self (m : Memory) (k : SlotId) (x : Datum) : m.set k x k = x := if_pos rfl

theorem Memory.set_of_ne {m : Memory} {k j : SlotId} (x : Datum) (h : j ≠ k) : m.set k x j = m j := if_neg h

namespace Datum

/-- A datum as an integer. -/
def int? : Datum → Option Int
  | .int n => some n
  | _ => none

/-- Data as integers. -/
def ints? : List Datum → Option (List Int)
  | [] => some []
  | d :: ds => do
    let n ← d.int?
    let ns ← ints? ds
    return n :: ns

/-- What a variable of a type holds in the beginning. -/
def zero : Ty → Datum
  | .prim .bool => .bool false
  | .prim .float => .float 0
  | .prim _ => .int 0
  | .array n t => .array (List.replicate n.toNat (zero t))

end Datum

namespace Expr

mutual

/-- The value of an expression. -/
def eval (m : Memory) : Expr → Option Datum
  | .literal c _ _ => some (.ofConstant [] c)
  | .var id _ _ => some (m id)
  | .index base indexes _ _ => do
    let whole ← base.eval m
    whole.item? (← Datum.ints? (← evalAll m indexes))
  | .collect items _ _ => (evalAll m items).map .array
  | .unary op a _ _ => do ((← a.eval m).foldUnary op).toOption
  | .binary op l r ty _ => do
    let a ← l.eval m
    let b ← r.eval m
    (Datum.foldBinary op a b l.ty.dims r.ty.dims ty.dims).toOption
  | .missing => none

/-- The values of several expressions. -/
def evalAll (m : Memory) : List Expr → Option (List Datum)
  | [] => some []
  | e :: es => do
    let x ← e.eval m
    let xs ← evalAll m es
    return x :: xs

end

end Expr

/-- The memory after an assignment: the value is stretched to the type of the target. -/
def Target.store (t : Target) (value : Expr) (m : Memory) : Option Memory := do
  let path ← Datum.ints? (← Expr.evalAll m t.indexes)
  let x ← Datum.stretch? t.ty.dims value.ty.dims (← value.eval m)
  return m.set t.var (← (m t.var).set? path x)

/-- Runs a step for each of several numbers in a row. -/
def countUp (step : Int → Memory → Except Halt Memory) : (count : Nat) → (i : Int) → Memory →
    Except Halt Memory
  | 0, _, m => .ok m
  | count + 1, i, m => do countUp step count (i + 1) (← step i m)

/-- Runs the scope of the first condition that holds, or the last scope. -/
def choose (enter : ScopeId → Memory → Except Halt Memory) (otherwise : Option ScopeId) (m : Memory) :
    List Clause → Except Halt Memory
  | [] => otherwise.elim (.ok m) (enter · m)
  | c :: cs =>
    match c.condition.eval m with
    | some (.bool true) => enter c.body m
    | some (.bool false) => choose enter otherwise m cs
    | _ => .error .undefined

/-- The memory after a statement; `enter` runs the scopes in it. -/
def Stmt.exec (enter : ScopeId → Memory → Except Halt Memory) (m : Memory) : Stmt → Except Halt Memory
  | .assign target value _ => (target.store value m).elim (.error .undefined) .ok
  | .assert condition span =>
    match condition.eval m with
    | some (.bool true) => .ok m
    | some (.bool false) => .error (.failed span)
    | _ => .error .undefined
  | .branch clauses otherwise _ => choose enter otherwise m clauses
  | .loop counter start stop body _ =>
    match start.eval m, stop.eval m with
    | some (.int a), some (.int b) =>
      countUp (fun i m => enter body (m.set counter (.int i))) (b - a).toNat a m
    | _, _ => .error .undefined
  | .inlined body _ => enter body m
  | .missing => .error .undefined

/-- The memory after several statements. -/
def execAll (enter : ScopeId → Memory → Except Halt Memory) : List Stmt → Memory → Except Halt Memory
  | [], m => .ok m
  | st :: ss, m => do execAll enter ss (← st.exec enter m)

theorem execAll_append (enter : ScopeId → Memory → Except Halt Memory) (ss ts : List Stmt) (m : Memory) :
    execAll enter (ss ++ ts) m = (execAll enter ss m).bind (execAll enter ts) := by
  induction ss generalizing m with
  | nil => rfl
  | cons st ss ih =>
    simp only [List.cons_append, execAll]
    cases st.exec enter m with
    | error h => rfl
    | ok m' => exact ih m'

namespace Program

/-- Runs a scope whose inner scopes are nested less than `depth` deep. -/
def enter (p : Program) : (depth : Nat) → ScopeId → Memory → Except Halt Memory
  | 0, _, _ => .error .undefined
  | depth + 1, i, m => execAll (p.enter depth) (p.scope i).toList m

/-- The memory before a run. -/
def start (p : Program) (inputs statics : List Datum) : Memory := fun k =>
  ((p.inputs.zip inputs ++ p.statics.zip statics).lookup k).getD
    (.zero ((p.vars[k]?).elim .int (·.ty)))

/-- Runs a program: what it writes to its outputs, and what it leaves in its statics. -/
def run (p : Program) (inputs statics : List Datum) : Except Halt (List Datum × List Datum) := do
  let m ← p.enter p.scopes.size p.entry (p.start inputs statics)
  return (p.outputs.map m, p.statics.map m)

end Program

end SignalLang.Staged
