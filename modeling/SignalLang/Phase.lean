import SignalLang.Text.Quoted

/-!
# Phases of compilation

A program passes through five forms. Each is a phase that a compilation can stop at, and a compiler counts
how often it worked on each.
-/

namespace SignalLang

/-- The form of a program that a compilation asks for. -/
inductive Phase where
  | ast
  | vague
  | resolved
  | trivial
  | llvmir
deriving DecidableEq, Repr, Inhabited

namespace Phase

/-- Every phase, in order. -/
def all : List Phase := [.ast, .vague, .resolved, .trivial, .llvmir]

/-- The name of a phase. -/
def text : Phase → String
  | .ast => "ast"
  | .vague => "vague"
  | .resolved => "resolved"
  | .trivial => "trivial"
  | .llvmir => "llvmir"

/-- The phase of a name. -/
def ofName? (name : String) : Option Phase := all.find? (·.text = name)

/-- The words for a name that no phase has. -/
def unknownMessage (name : String) : String :=
  "unknown phase " ++ Text.quote name ++ " (want one of " ++ ", ".intercalate (all.map text) ++ ")"

@[simp] theorem ofName?_text (p : Phase) : ofName? p.text = some p := by
  cases p <;> rfl

end Phase

/-- How often each phase was worked on. -/
structure PhaseCounts where
  ast : Nat := 0
  vague : Nat := 0
  resolved : Nat := 0
  trivial : Nat := 0
  llvmir : Nat := 0
deriving DecidableEq, Repr, Inhabited

namespace PhaseCounts

/-- The count of a phase. -/
def get (c : PhaseCounts) : Phase → Nat
  | .ast => c.ast
  | .vague => c.vague
  | .resolved => c.resolved
  | .trivial => c.trivial
  | .llvmir => c.llvmir

/-- Counts one more run of a phase. -/
def add (c : PhaseCounts) : Phase → PhaseCounts
  | .ast => { c with ast := c.ast + 1 }
  | .vague => { c with vague := c.vague + 1 }
  | .resolved => { c with resolved := c.resolved + 1 }
  | .trivial => { c with trivial := c.trivial + 1 }
  | .llvmir => { c with llvmir := c.llvmir + 1 }

theorem get_add (c : PhaseCounts) (p q : Phase) :
    (c.add p).get q = c.get q + if p = q then 1 else 0 := by
  cases p <;> cases q <;> rfl

/-- A table of the counts beside the milliseconds that each phase took. -/
def table (c : PhaseCounts) (millis : Phase → String) : String :=
  let row (p : Phase) : String :=
    String.ofList (List.replicate (8 - p.text.length) ' ') ++
      s!"{p.text}: {millis p}ms ({c.get p} invocations)"
  "\n".intercalate ("          Performance" :: Phase.all.map row)

end PhaseCounts

end SignalLang
