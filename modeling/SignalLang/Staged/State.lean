import SignalLang.Scoped.Basic
import SignalLang.Staged.Basic
import SignalLang.Staged.Datum
import SignalLang.Staged.Problems

/-!
# The state of staging

While a program is staged, each variable has a record of its type and its slot, and a tracked value. The
current table says which record a variable has; scopes that are entered several times get tables of their
own, while a record is shared by every table that names it. Tracked values are kept per variable.

`written` collects the variables whose tracked value changed since the innermost branch was entered. When
the branch is left they become unknown, because the branch may not have run. What was current where a table of
its own or a branch was entered is kept on a stack until it is left.

Every change of a tracked value is also kept in a log, so that what is known of an array can be followed
while its index is worked out (`Glimpse`).
-/

namespace SignalLang.Staged

open Scoped (VarId)

/-- How much is worked out in advance. A loop of more than `maxUnroll` rounds is kept; zero is no limit. -/
structure Options where
  unroll : Bool := true
  maxUnroll : Int := 4096
deriving DecidableEq, Repr

/-- A state that staging never reaches on programs it is meant for. -/
inductive Fault where
  /-- A variable was used before it was made. -/
  | notCreated (name : String)
  /-- A value was met that no rule covers. -/
  | unreachable
  /-- A tracked value has not the shape of its type. -/
  | badShape
deriving DecidableEq, Repr

/-- The words of a fault, where it has some. -/
def Fault.message? : Fault → Option String
  | .notCreated name => some s!"resolved: variable {name} used before its creation point"
  | .unreachable => some "unreachable"
  | .badShape => none

/-- Why staging stopped. -/
inductive Failure where
  | problem (p : Problem)
  | fault (f : Fault)
  /-- Scopes were nested deeper than the given bound. -/
  | tooDeep

/-- What is known about a variable apart from its value. -/
structure Record where
  slot : Option SlotId := none
  bound : Bound
  isStatic : Bool
deriving Inhabited

/-- A change of a tracked value: the element at `coord`, or all of it when `coord` is empty. -/
structure Write where
  var : VarId
  coord : List Int
  value : Datum

/-- What staging works with and never changes. -/
structure Context where
  source : Scoped.Program
  options : Options

/-- What staging has found out so far. Statements go to the scope `current`, or nowhere. -/
structure State where
  out : Program := {}
  current : Option ScopeId := none
  records : Array Record := #[]
  table : Table := []
  /-- The tables to go back to, the next one first. -/
  tables : List Table := []
  tracked : Array (Option Datum) := #[]
  written : List VarId := []
  /-- What was written before each branch that is entered, the innermost first. -/
  writtenBefore : List (List VarId) := []
  log : Array Write := #[]
  inStatic : Bool := false
  /-- Set in the first pass over a loop, whose statements are dropped. -/
  discarding : Bool := false
  /-- The branches and loops entered since the innermost macro call. -/
  conditional : Nat := 0
  /-- Set by a return, until the macro call ends. -/
  returned : Bool := false
deriving Inhabited

/-- A step of staging. -/
abbrev Stage := ReaderT Context (StateT State (Except Failure))

/-- A view of part of a tracked value, taken when the log had `since` entries. -/
structure Glimpse where
  var : VarId
  path : List Int
  seen : Datum
  since : Nat
  /-- Cleared once the part in view has been replaced as a whole. -/
  attached : Bool := true

namespace Glimpse

/-- What a write does to a view: a write below the part in view changes it, a write at or above it replaces
it, and then the view no longer follows. -/
def see (g : Glimpse) (w : Write) : Glimpse :=
  if !g.attached || w.var ≠ g.var then g
  else if w.coord.isPrefixOf g.path then { g with attached := false }
  else if g.path.isPrefixOf w.coord then
    match g.seen.set? (w.coord.drop g.path.length) w.value with
    | some d => { g with seen := d }
    | none => g
  else g

/-- The view after all writes of a log. -/
def refresh (g : Glimpse) (log : Array Write) : Glimpse :=
  if g.since = log.size then g
  else { (log.extract g.since log.size).foldl see g with since := log.size }

/-- The view of an element. -/
def narrow (g : Glimpse) (i : Int) (seen : Datum) : Glimpse := { g with path := g.path ++ [i], seen := seen }

end Glimpse

namespace Stage

/-- Stops with a problem. -/
def refuse {α : Type} (p : Problem) : Stage α := throw (.problem p)

/-- Stops with a fault. -/
def breakDown {α : Type} (f : Fault) : Stage α := throw (.fault f)

/-- The value of something that only a bad shape can lack. -/
def orBadShape {α : Type} : Option α → Stage α
  | some a => return a
  | none => breakDown .badShape

/-- A variable of the source. -/
def sourceVar (v : VarId) : Stage Scoped.Variable := return (← read).source.var v

/-- Appends a statement to the current scope, if there is one. -/
def emit (stmt : Stmt) : Stage Unit :=
  modify fun s =>
    match s.current with
    | some scope => { s with out := s.out.addStmt scope stmt }
    | none => s

/-- Makes a scope of the output. -/
def newScope : Stage ScopeId := do
  let id := (← get).out.scopes.size
  modify fun s => { s with out := s.out.addScope }
  return id

/-- Makes a variable of the output. -/
def newSlot (ty : Ty) (definition : Span) : Stage SlotId := do
  let id := (← get).out.vars.size
  modify fun s => { s with out := s.out.addVariable ⟨ty, definition⟩ }
  return id

/-- The record of a variable in the current table. -/
def recordId? (v : VarId) : Stage (Option Nat) := return (← get).table.lookup v

/-- A record by its number. -/
def record (id : Nat) : Stage Record := return (← get).records.getD id default

/-- The record of a variable, which must have been made. -/
def recordOf (v : VarId) : Stage (Nat × Record) := do
  match ← recordId? v with
  | some id => return (id, ← record id)
  | none => breakDown (.notCreated ((← read).source.variableName v))

/-- Notes that the tracked value of a variable changed. -/
def noteWrite (w : Write) : Stage Unit :=
  modify fun s => { s with
    written := if s.written.contains w.var then s.written else w.var :: s.written
    log := s.log.push w }

/-- Sets the tracked value of a variable without noting it. -/
def putTracked (v : VarId) (d : Datum) : Stage Unit :=
  modify fun s => { s with tracked := s.tracked.setIfInBounds v (some d) }

/-- Replaces the tracked value of a variable. -/
def track (v : VarId) (d : Datum) : Stage Unit := do
  putTracked v d
  noteWrite ⟨v, [], d⟩

/-- The unknown value of a bound. -/
def unknownFor (b : Bound) : Datum := b.actual.elim .unknown fun t => .unknownOf t.dims

/-- The tracked value of a variable, in the shape of its type. -/
def tracked (v : VarId) (r : Record) : Stage Datum := do
  let known := ((← get).tracked.getD v none)
  match known, r.bound.actual with
  | none, none => return .unknown
  | none, some t | some .unknown, some t =>
    let d := Datum.unknownOf t.dims
    putTracked v d
    return d
  | some d, _ => return d

/-- Sets the element at a coordinate of the tracked value of a variable. -/
def trackAt (v : VarId) (r : Record) (coord : List Int) (d : Datum) : Stage Unit := do
  let whole ← tracked v r
  if coord.isEmpty then track v d
  else
    putTracked v (← orBadShape (whole.set? coord d))
    noteWrite ⟨v, coord, d⟩

/-- Makes a variable: a new record in the current table, and an unknown value. -/
def create (v : VarId) (r : Record) : Stage Unit := do
  modify fun s => { s with
    records := s.records.push r, table := (v, s.records.size) :: s.table }
  track v (unknownFor r.bound)

/-- Works in a table of its own; the old one is restored. -/
def withTable {α : Type} (table : Table) (act : Stage α) : Stage α := do
  let old := (← get).table
  modify fun s => { s with table := table, tables := old :: s.tables }
  let a ← act
  modify fun s => { s with table := old, tables := s.tables.tail }
  return a

/-- Sends statements elsewhere; the old scope is restored. -/
def withCurrent {α : Type} (scope : Option ScopeId) (act : Stage α) : Stage α := do
  let old := (← get).current
  modify fun s => { s with current := scope }
  let a ← act
  modify fun s => { s with current := old }
  return a

/-- Forgets the tracked values of variables that a branch wrote. -/
def forget (written : List VarId) : Stage Unit :=
  written.forM fun v => do
    match ← recordId? v with
    | none => return
    | some id =>
      let r ← record id
      if r.bound.actual.isSome then
        putTracked v (unknownFor r.bound)
        modify fun s => { s with log := s.log.push ⟨v, [], unknownFor r.bound⟩ }

/-- Works on something that may not run: what it writes is unknown afterwards, and a return in it cannot be
decided. -/
def inBranch (act : Stage Unit) : Stage Unit := do
  let outer := (← get).written
  modify fun s => { s with
    written := [], writtenBefore := outer :: s.writtenBefore, conditional := s.conditional + 1 }
  act
  let inner := (← get).written
  forget inner
  modify fun s => { s with
    written := inner ++ outer.filter (!inner.contains ·), writtenBefore := s.writtenBefore.tail
    conditional := s.conditional - 1 }

end Stage

end SignalLang.Staged
