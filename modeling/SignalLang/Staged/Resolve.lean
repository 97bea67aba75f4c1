import SignalLang.Staged.Value

/-!
# Staging

`resolve` works a scoped program out as far as it can be known in advance. Types are settled, known values
computed, macros inlined, known branches chosen, and loops of known length unrolled; the rest becomes a
staged program.

Expressions and statements are worked out by recursion on themselves. They enter other scopes through `run`,
which is `block` one level further down.
-/

namespace SignalLang.Staged

open Scoped (VarId)

namespace Stage

/-- Makes the inputs of a macro. A known value is only tracked; another one is copied to a slot. -/
def bindInputs : List (VarId × Value) → Stage Unit
  | [] => return
  | (v, given) :: rest => do
    let isStatic := (← get).inStatic
    match given.content with
    | .known d =>
      create v ⟨none, .exactly given.ty, isStatic⟩
      track v d
    | .runtime e _ =>
      let slot ← newSlot given.ty given.span
      create v ⟨some slot, .exactly given.ty, isStatic⟩
      emit (.assign ⟨slot, [], given.ty, given.span⟩ e given.span)
    bindInputs rest

mutual

/-- The value of an expression. Calls in it are inlined into the current scope. -/
def expression (run : Scoped.ScopeId → Stage Unit) : Scoped.Expr → Stage Value
  | .literal value span => return .known (← datumOf value) value.ty span
  | .var id span => readVar id span
  | .collect [] span => refuse (.emptyArray span)
  | .collect (e :: es) span => do
    let first ← expression run e
    let rest ← items run first es
    collected (first :: rest) first.ty span
  | .openBound span => boundValue none none span
  | .upperBound upper span => do
    let u ← concreteTypeOf upper.span (← expression run upper)
    boundValue none (some u) span
  | .closedBound lower upper span => do
    let l ← concreteTypeOf lower.span (← expression run lower)
    let u ← concreteTypeOf upper.span (← expression run upper)
    boundValue (some l) (some u) span
  | .arrayType dims base span => do
    let lengths ← lengthList run dims
    let b ← typeOf .arrayBaseNotType (← expression run base)
    return .known (.type (b.wrap lengths)) .dataType span
  | .index base indexes span => do
    indexed run (← expression run base) span indexes
  | .property base property span => do propertyValue (← expression run base) property span
  | .unary op operand span => do unaryValue op (← expression run operand) span
  | .binary op left right span => do
    let l ← expression run left
    let r ← expression run right
    match op with
    | .asType => asTypeValue l r span
    | .isIn => isInValue l r span
    | op => binaryValue op l r span
  | .call callee calleeSpan inputs outputs span => do
    let m ← readVar callee calleeSpan
    if m.ty ≠ .macroRef then refuse (.notCallable m.span m.ty)
    match m.content with
    | .runtime .. => refuse (.macroAtRunTime m.span)
    | .known (.macroRef site context) =>
      let body := (← read).source.scope site.body
      let given ← values run inputs
      if given.length ≠ body.inputs.length then
        refuse (.inputCount span body.inputs.length given.length site.header)
      if outputs.length ≠ body.outputs.length then
        refuse (.outputCount span body.outputs.length outputs.length site.header)
      let scope ← newScope
      let s ← get
      set { s with
        current := some scope, conditional := 0, returned := false, table := context, tables := s.table :: s.tables }
      bindInputs (body.inputs.zip given)
      run site.body
      modify fun t => { t with returned := false, table := s.table ++ t.table }
      let result ← callOutputs run (.known .void .void span) span body.outputs outputs
      modify fun t => { t with
        current := s.current, conditional := s.conditional, returned := s.returned, table := s.table
        tables := t.tables.tail }
      if !((← get).out.scope scope).isEmpty then emit (.inlined scope span)
      return result
    | .known _ => breakDown .badShape

/-- The items of an array after the first, which must have its type. -/
def items (run : Scoped.ScopeId → Stage Unit) (first : Value) : List Scoped.Expr → Stage (List Value)
  | [] => return []
  | e :: es => do
    let v ← expression run e
    if v.ty ≠ first.ty then refuse (.mixedItems v.span v.ty first.ty first.span)
    return v :: (← items run first es)

/-- The values of expressions in order. -/
def values (run : Scoped.ScopeId → Stage Unit) : List Scoped.Expr → Stage (List Value)
  | [] => return []
  | e :: es => do
    let v ← expression run e
    return v :: (← values run es)

/-- Array lengths in order. -/
def lengthList (run : Scoped.ScopeId → Stage Unit) : List Scoped.Expr → Stage (List Int)
  | [] => return []
  | e :: es => do
    let n ← lengthOf (← expression run e)
    return n :: (← lengthList run es)

/-- A value under indexes. -/
def indexed (run : Scoped.ScopeId → Stage Unit) (v : Value) (whole : Span) :
    List Scoped.IndexArg → Stage Value
  | [] => return v
  | .mk e optional :: rest => do
    let index ← expression run e
    match v.ty with
    | .array length elem => do
      checkIndex index length whole
      indexed run (← elementOf v index elem whole) whole rest
    | .prim _ =>
      if optional then indexed run v whole rest
      else refuse (.notIndexable whole v.ty.text index.span)

/-- Hands the outputs of an inlined macro on, which are the variables `vars` of its body: one becomes the
value of the call, the others are assigned to their targets. -/
def callOutputs (run : Scoped.ScopeId → Stage Unit) (result : Value) (span : Span) (vars : List VarId) :
    List Scoped.Output → Stage Value
  | [] => return result
  | .inline _ :: rest => do
    match vars with
    | [] => return result
    | v :: vars => callOutputs run (← readVar v span) span vars rest
  | .target target outSpan :: rest => do
    match vars with
    | [] => return result
    | v :: vars =>
      let p ← place run target
      assign p (← readVar v outSpan) outSpan
      callOutputs run result span vars rest

/-- The place of a target. -/
def place (run : Scoped.ScopeId → Stage Unit) : Scoped.Target → Stage Place
  | .mk var indexes span => do
    let (id, r) ← recordOf var
    if (← get).inStatic && !r.isStatic then crossStream var span
    placeUnder run ⟨var, id, [], none, r.bound.actual, span⟩ indexes

/-- A place under indexes. -/
def placeUnder (run : Scoped.ScopeId → Stage Unit) (p : Place) : List Scoped.Expr → Stage Place
  | [] => return p
  | e :: rest =>
    match p.ty with
    | some (.array length elem) => do
      let index ← expression run e
      checkIndex index length p.span
      let slot := (← record p.record).slot
      placeUnder run (← addIndex p slot index elem) rest
    | some ty => refuse (.notIndexable p.span ty.text e.span)
    | none => do refuse (.notIndexable p.span (← record p.record).bound.text e.span)

end

/-- Makes a variable. One with a value from the start keeps it; one of a runtime type gets a slot. -/
def creation (run : Scoped.ScopeId → Stage Unit) (v : VarId) (type : Scoped.Expr) : Stage Unit := do
  let b ← typeOf .notADataType (← expression run type)
  let var ← sourceVar v
  let isStatic := (← get).inStatic
  match var.initial with
  | some value =>
    create v ⟨none, b, isStatic⟩
    track v (← datumOf value)
  | none =>
    let slot ←
      match b.actual with
      | some ty => if ty.isRuntime then some <$> newSlot ty var.definition else pure none
      | none => pure none
    create v ⟨slot, b, isStatic⟩

/-- An assertion. One that is known to hold leaves nothing to do. -/
def assertion (run : Scoped.ScopeId → Stage Unit) (condition : Scoped.Expr) (span : Span) : Stage Unit := do
  let c ← expression run condition
  if c.ty ≠ .bool then refuse (.conditionNotBool c.span "assert" c.ty)
  match c.content with
  | .runtime e _ => emit (.assert e span)
  | .known (.bool true) => return
  | .known (.bool false) => refuse (.assertionFails span)
  | .known _ => breakDown .badShape

/-- Works a scope that may not run out into a scope of its own. -/
def guarded (run : Scoped.ScopeId → Stage Unit) (body : Scoped.ScopeId) : Stage ScopeId := do
  let scope ← newScope
  withCurrent (some scope) (inBranch (run body))
  return scope

/-- The clauses of a branch from `cs` on, where `done` were kept before. A clause known to fail is dropped.
A clause known to hold runs in place when none was kept before it, and then the branch is settled. -/
def clauses (run : Scoped.ScopeId → Stage Unit) (otherwise : Option Scoped.ScopeId) (span : Span) :
    (done : List Clause) → List Scoped.Clause → Stage Unit
  | done, [] => do
    match done, otherwise with
    | [], none => return
    | [], some body => run body
    | done, none => emit (.branch done none span)
    | done, some body => do
      let scope ← guarded run body
      emit (.branch done (some scope) span)
  | done, c :: rest => do
    let condition ← expression run c.condition
    if condition.ty ≠ .bool then refuse (.conditionNotBool condition.span "if" condition.ty)
    let keep : Stage Unit := do
      let e ← asExpr condition
      let scope ← guarded run c.body
      clauses run otherwise span (done ++ [⟨e, scope⟩]) rest
    match condition.content with
    | .known (.bool false) => clauses run otherwise span done rest
    | .known (.bool true) => if done.isEmpty then run c.body else keep
    | .known _ => breakDown .badShape
    | .runtime .. => keep

/-- One pass over the body of a loop that is kept, into a scope or nowhere. -/
def loopPass (run : Scoped.ScopeId → Stage Unit) (body : Scoped.ScopeId) (into : Option ScopeId) :
    Stage Unit := do
  let s ← get
  set { s with current := into, discarding := s.discarding || into.isNone }
  withTable s.table (inBranch (run body))
  modify fun t => { t with current := s.current, discarding := s.discarding }

/-- Rounds of an unrolled loop, the counter from `i` on, until a return. -/
def rounds (run : Scoped.ScopeId → Stage Unit) (counter : VarId) (body : Scoped.ScopeId) :
    (count : Nat) → (i : Int) → Stage Unit
  | 0, _ => return
  | count + 1, i => do
    let s ← get
    if s.returned then return
    withTable s.table do
      create counter ⟨none, .exactly .int, s.inStatic⟩
      track counter (.int i)
      run body
    rounds run counter body count (i + 1)

/-- A loop that is kept for run time. The first pass over its body finds out what the body writes; its
statements are dropped. -/
def keptLoop (run : Scoped.ScopeId → Stage Unit) (counter : VarId) (start stop : Value)
    (body : Scoped.ScopeId) (span : Span) : Stage Unit := do
  let slot ← newSlot .int (← sourceVar counter).definition
  create counter ⟨some slot, .exactly .int, (← get).inStatic⟩
  loopPass run body none
  let scope ← newScope
  loopPass run body (some scope)
  let startExpr ← asExpr start
  let stopExpr ← asExpr stop
  emit (.loop slot startExpr stopExpr scope span)

/-- Whether a loop of known bounds may be unrolled, if it is not too long. -/
def mayUnroll (o : Options) (allowed : Bool) : Bool := allowed && o.unroll

/-- Whether a loop of known bounds is unrolled. -/
def unrolls (o : Options) (allowed : Bool) (start stop : Int) : Bool :=
  mayUnroll o allowed && (o.maxUnroll ≤ 0 || stop - start ≤ o.maxUnroll)

/-- A loop, unrolled or kept. Where it may be unrolled, known bounds are taken for integers, which a value that was
computed for another type need not be. -/
def loop (run : Scoped.ScopeId → Stage Unit) (counter : VarId) (start stop : Scoped.Expr)
    (body : Scoped.ScopeId) (allowUnroll : Bool) (span : Span) : Stage Unit := do
  let lower ← expression run start
  let upper ← expression run stop
  if lower.ty ≠ .int then refuse (.boundNotInt lower.span lower.ty)
  if upper.ty ≠ .int then refuse (.boundNotInt upper.span upper.ty)
  match lower.content, upper.content with
  | .known (.int a), .known (.int b) =>
    if unrolls (← read).options allowUnroll a b then rounds run counter body (b - a).toNat a
    else keptLoop run counter lower upper body span
  | .known _, .known _ =>
    if mayUnroll (← read).options allowUnroll then breakDown .badShape
    else keptLoop run counter lower upper body span
  | _, _ => keptLoop run counter lower upper body span

/-- The records of the exports of a static block, each of which must have a slot. -/
def exported (exports : List VarId) (span : Span) : Stage (List Record) :=
  exports.mapM fun v => do
    let (_, r) ← recordOf v
    if r.slot.isNone then
      let var ← sourceVar v
      refuse (.exportNotRuntime span var.name r.bound var.definition)
    return r

/-- A static block: its body goes to the static initialization, and its exports are made where it stands. -/
def static (run : Scoped.ScopeId → Stage Unit) (body : Scoped.ScopeId) (exports : List VarId)
    (span : Span) : Stage Unit := do
  let s ← get
  let into := if s.discarding then none else some s.out.staticInit
  set { s with current := into, inStatic := true }
  let records ← withTable s.table do
    run body
    exported exports span
  modify fun t => { t with current := s.current, inStatic := s.inStatic }
  (exports.zip records).forM fun (v, r) => do
    create v { r with isStatic := true }
    if !(← get).discarding then
      modify fun t => { t with out := { t.out with statics := t.out.statics ++ r.slot.toList } }

/-- A value that stands alone must be that of a call without a value. -/
def discarded (v : Value) (span : Span) : Stage Unit :=
  match v.content with
  | .known .void => return
  | _ => refuse (.dangling span v.ty)

/-- Works a statement out. -/
def statement (run : Scoped.ScopeId → Stage Unit) : Scoped.Stmt → Stage Unit
  | .create v type _ => creation run v type
  | .assign target value span => do
    let v ← expression run value
    let p ← place run target
    assign p v span
  | .assert condition span => assertion run condition span
  | .branch cs otherwise span => clauses run otherwise span [] cs
  | .loop counter start stop body allowUnroll span => loop run counter start stop body allowUnroll span
  | .static body exports span => static run body exports span
  | .block body _ => run body
  | .ret span => do
    if (← get).conditional > 0 then refuse (.returnInBranch span)
    modify fun s => { s with returned := true }
  | .expr value span => do discarded (← expression run value) span

/-- Works statements out in order, until a return. -/
def statements (run : Scoped.ScopeId → Stage Unit) : List Scoped.Stmt → Stage Unit
  | [] => return
  | s :: ss => do
    statement run s
    if (← get).returned then return
    statements run ss

/-- Works the statements of a scope out; `depth` bounds the nesting of scopes. -/
def block : (depth : Nat) → Scoped.ScopeId → Stage Unit
  | 0, _ => throw .tooDeep
  | depth + 1, id => do statements (block depth) ((← read).source.scope id).body.toList

/-- The slots of inputs or outputs; `problem` is what is wrong with one that has none. -/
def ioSlots (problem : Span → String → Bound → Problem) (vars : List VarId) : Stage (List SlotId) :=
  vars.mapM fun v => do
    let r : Record ←
      match ← recordId? v with
      | some id => record id
      | none => pure ⟨none, .auto, false⟩
    match r.slot with
    | some slot => return slot
    | none =>
      let var ← sourceVar v
      refuse (problem var.definition var.name r.bound)

/-- Works a whole program out: first the predefined names, whose statements go nowhere. -/
def program (depth : Nat) : Stage Program := do
  let p := (← read).source
  block depth p.builtins
  modify fun s => { s with current := some s.out.entry }
  block depth p.entry
  let inputs ← ioSlots .inputNotRuntime p.inputs
  let outputs ← ioSlots .outputNotRuntime p.outputs
  return { (← get).out with inputs := inputs, outputs := outputs }

end Stage

/-- Stages a program whose scopes are nested at most `depth` deep, macro calls included. -/
def resolveTo (depth : Nat) (source : Scoped.Program) (options : Options) : Except Failure Program :=
  let start : State := { tracked := Array.replicate source.vars.size none }
  ((Stage.program depth).run ⟨source, options⟩).run' start

/-- The nesting of scopes that is worked out at most. -/
def maxDepth : Nat := 20000

/-- Stages a program. -/
def resolve (source : Scoped.Program) (options : Options) : Except Failure Program :=
  resolveTo maxDepth source options

end SignalLang.Staged
