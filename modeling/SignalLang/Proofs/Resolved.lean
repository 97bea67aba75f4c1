import SignalLang.Proofs.Compiler
import SignalLang.Proofs.Scoped.Blocks
import SignalLang.Proofs.Staged.Faultless
import SignalLang.Proofs.Staged.Meaning
import SignalLang.Proofs.Staged.Nesting

/-!
# What staging guarantees of its result

Every program that staging ends with refers to variables and scopes it has, its arrays are not empty, and its scopes
form a forest below static initialization and the entry.

When every call of a program names a macro, staging it comes to an end. When moreover no return skips an output or an
export, staging it breaks down nowhere, and all the variables it ends with can be held when the program runs. Without
these conditions each of the three fails for some program.
-/

namespace SignalLang.Staged

mutual

theorem Expr.slots_lt {vars : Array Variable} : {e : Expr} → e.WellFormed vars → ∀ k ∈ e.slots, k < vars.size
  | .literal .., _ => nofun
  | .var id ty span, h => by
    intro k hk
    obtain rfl := List.mem_singleton.1 hk
    obtain ⟨v, found, -⟩ := Option.map_eq_some_iff.1 h
    exact (Array.getElem?_eq_some_iff.1 found).1
  | .index base indexes ty span, h => by
    intro k hk
    rcases List.mem_append.1 hk with hk | hk
    · exact Expr.slots_lt h.1 k hk
    · exact Expr.slotsOf_lt_of_selects h.2 k hk
  | .collect items ty span, h => by
    obtain ⟨-, t, -, all⟩ := h
    exact Expr.slotsOf_lt_of_allOf all
  | .unary op a ty span, h => by
    intro k hk
    exact Expr.slots_lt h.1 k hk
  | .binary op l r ty span, h => by
    intro k hk
    rcases List.mem_append.1 hk with hk | hk
    · exact Expr.slots_lt h.1 k hk
    · exact Expr.slots_lt h.2.1 k hk
  | .missing, h => h.elim

theorem Expr.slotsOf_lt_of_selects {vars : Array Variable} : {es : List Expr} → {t u : Ty} →
    Expr.Selects vars es t u → ∀ k ∈ Expr.slotsOf es, k < vars.size
  | [], _, _, _ => nofun
  | e :: es, t, u, h => by
    rw [Expr.Selects] at h
    obtain ⟨n, elem, -, he, -, -, hes⟩ := h
    intro k hk
    rcases List.mem_append.1 hk with hk | hk
    · exact Expr.slots_lt he k hk
    · exact Expr.slotsOf_lt_of_selects hes k hk

theorem Expr.slotsOf_lt_of_allOf {vars : Array Variable} : {es : List Expr} → {t : Ty} →
    Expr.AllOf vars t es → ∀ k ∈ Expr.slotsOf es, k < vars.size
  | [], _, _ => nofun
  | e :: es, t, h => by
    rw [Expr.AllOf] at h
    intro k hk
    rcases List.mem_append.1 hk with hk | hk
    · exact Expr.slots_lt h.1 k hk
    · exact Expr.slotsOf_lt_of_allOf h.2.2 k hk

end

/-- A well-formed statement uses only variables that exist. -/
theorem Stmt.slots_lt {vars : Array Variable} {st : Stmt} (h : st.WellFormed vars) :
    ∀ k ∈ st.slots, k < vars.size := by
  intro k hk
  rcases List.mem_append.1 hk with hk | hk
  · cases st with
    | assign target value span =>
      obtain rfl := Option.mem_toList.1 hk |> Option.some.inj
      obtain ⟨-, -, v, found, -⟩ := h
      exact (Array.getElem?_eq_some_iff.1 found).1
    | loop counter start stop body span =>
      obtain rfl := Option.mem_toList.1 hk |> Option.some.inj
      obtain ⟨v, found, -⟩ := Option.map_eq_some_iff.1 h.1
      exact (Array.getElem?_eq_some_iff.1 found).1
    | _ => cases hk
  · cases st with
    | assign target value span =>
      obtain ⟨hvalue, -, v, -, selects⟩ := h
      rw [Stmt.exprs, Expr.slotsOf_append] at hk
      rcases List.mem_append.1 hk with hk | hk
      · exact Expr.slotsOf_lt_of_selects selects k hk
      · rcases List.mem_append.1 hk with hk | hk
        · exact Expr.slots_lt hvalue k hk
        · cases hk
    | assert condition span =>
      rcases List.mem_append.1 hk with hk | hk
      · exact Expr.slots_lt h.1 k hk
      · cases hk
    | branch clauses otherwise span =>
      have all (cs : List Clause) (hcs : ∀ x ∈ cs, x.condition.WellFormed vars) :
          ∀ k ∈ Expr.slotsOf (cs.map (·.condition)), k < vars.size := by
        induction cs with
        | nil =>
          intro k hk
          cases hk
        | cons x cs ih =>
          intro k hk
          rcases List.mem_append.1 hk with hk | hk
          · exact Expr.slots_lt (hcs x List.mem_cons_self) k hk
          · exact ih (fun y hy => hcs y (List.mem_cons_of_mem _ hy)) k hk
      exact all clauses (fun x hx => (h x hx).1) k hk
    | loop counter start stop body span =>
      obtain ⟨-, ⟨hstart, -⟩, hstop, -⟩ := h
      rcases List.mem_append.1 hk with hk | hk
      · exact Expr.slots_lt hstart k hk
      · rcases List.mem_append.1 hk with hk | hk
        · exact Expr.slots_lt hstop k hk
        · cases hk
    | inlined body span => cases hk
    | missing => cases hk

end SignalLang.Staged

namespace SignalLang.Compiler

variable {c c' c₁ : Compiler} {name : String}

theorem forest_of_stagedOf {p : Staged.Program} (h : (stagedOf name).run c = (.ok p, c')) : p.Forest := by
  obtain ⟨source, c₁, -, staged⟩ := stagedOf_ok.1 ⟨c', h⟩
  obtain ⟨⟨q, s'⟩, run, rfl⟩ := Steps.except_map_ok.1 staged
  exact Staged.forest_of_program rfl run

/-- What every staged program has: lengths that are positive, variables and scopes that exist wherever they are named,
each scope met once at most on the way from static initialization and from the entry, and inputs and outputs that
are all different. -/
theorem stagedOf_wellFormed {p : Staged.Program} (h : (stagedOf name).run c = (.ok p, c')) :
    (∀ v ∈ p.vars, ∀ n ∈ v.ty.dims, 1 ≤ n) ∧
    (∀ i, ∀ st ∈ p.scope i, ∀ k ∈ st.slots, k < p.vars.size) ∧
    (∀ k ∈ p.inputs ++ p.outputs ++ p.statics, k < p.vars.size) ∧
    (∀ i, ∀ st ∈ p.scope i, ∀ j ∈ st.scopes, j < p.scopes.size) ∧
    (∀ depth, (p.reached depth p.staticInit ++ p.reached depth p.entry).Nodup) ∧
    (p.inputs ++ p.outputs).Nodup := by
  have formed := wellFormed_of_stagedOf h
  refine ⟨fun v hv n hn => formed.positive v hv n hn, fun i st hst => Staged.Stmt.slots_lt (formed.stmts i st hst),
    fun k hk => formed.interface k ?_, fun i st hst j hj => (formed.nested i st hst j hj).2, fun depth => ?_,
    formed.nodup⟩
  · simp only [List.mem_append] at hk ⊢
    tauto
  · refine (forest_of_stagedOf h).nodup_walk (fun i j inside => ?_) depth
    obtain ⟨st, hst, hj⟩ := List.mem_flatMap.1 inside
    exact (formed.nested i st (Array.mem_toList_iff.1 hst) j hj).1

/-! ## Programs whose calls name macros -/

section Direct

variable {source : Scoped.Program}

theorem lexical_of_scopedOf (h : (scopedOf name).run c = (.ok source, c')) : source.Lexical := by
  obtain ⟨lib, lib', file, tree, built⟩ := ofTree_of_scopedOf h
  exact Scoped.lexical_of_ofTree built

/-- A program that exports a static and calls a macro which reads it in a loop. -/
def sumText : String :=
  "static s \x7b INT s = 1; \x7d\ninput INT a;\noutput INT o;\n" ++
    "macro Sum(n): y \x7b\n  INT y = 0;\n  for i = 0 to n \x7b y = y + s; \x7d\n\x7d\no = Sum(3) + a;\n"

theorem direct_sumText :
    ∃ source c', (scopedOf "main").run (ofText sumText) = (.ok source, c') ∧ source.Direct ∧ source.Lasting ∧
      ∃ p c', (stagedOf "main").run (ofText sumText) = (.ok p, c') := by
  let sound (source : Scoped.Program) : Bool :=
    decide source.Direct && decide source.Lasting && (Staged.resolve source {}).toOption.isSome
  obtain ⟨source, c', built, conditions⟩ := ok_of_any (P := sound)
    (show ((scopedOf "main").run (ofText sumText)).1.toOption.any sound = true by decide +kernel)
  simp only [sound, Bool.and_eq_true, decide_eq_true_eq] at conditions
  obtain ⟨⟨direct, lasting⟩, staged⟩ := conditions
  refine ⟨source, c', built, direct, lasting, ?_⟩
  cases ended : Staged.resolve source {} with
  | ok p => exact ⟨p, stagedOf_ok.2 ⟨source, c', built, ended⟩⟩
  | error e =>
    rw [ended] at staged
    cases staged

/-- A program whose calls name macros and whose outputs and exports no return skips is staged, or there is a problem
with it. It breaks down at no depth, and beyond the number of its scopes no depth is used up. -/
theorem resolveTo_answers (built : (scopedOf name).run c = (.ok source, c')) (direct : source.Direct)
    (lasting : source.Lasting) (options : Staged.Options) :
    (∀ depth f, Staged.resolveTo depth source options ≠ .error (.fault f)) ∧
      ∀ depth, source.scopes.size < depth →
        (∃ q, Staged.resolveTo depth source options = .ok q) ∨
          ∃ problem, Staged.resolveTo depth source options = .error (.problem problem) := by
  have lexical := lexical_of_scopedOf built
  refine ⟨fun depth => (Staged.resolveTo_faultless lexical direct lasting options depth).2, fun depth h => ?_⟩
  exact Staged.resolveTo_problem lexical direct lasting options h

theorem resolveTo_answers_sumText :
    ∃ source c', (scopedOf "main").run (ofText sumText) = (.ok source, c') ∧ source.Direct ∧ source.Lasting ∧
      (∀ depth f, Staged.resolveTo depth source {} ≠ .error (.fault f)) ∧
      ∀ depth, source.scopes.size < depth →
        (∃ q, Staged.resolveTo depth source {} = .ok q) ∨
          ∃ problem, Staged.resolveTo depth source {} = .error (.problem problem) := by
  obtain ⟨source, c', built, direct, lasting, -⟩ := direct_sumText
  exact ⟨source, c', built, direct, lasting, resolveTo_answers built direct lasting {}⟩

/-- A program whose calls name macros is worked out at a depth beyond its number of scopes, and no greater depth changes
the answer. -/
theorem resolveTo_of_direct (built : (scopedOf name).run c = (.ok source, c')) (direct : source.Direct)
    (options : Staged.Options) {depth : Nat} (h : source.scopes.size < depth) :
    Staged.resolveTo depth source options ≠ .error .tooDeep ∧
      Staged.resolveTo depth source options = Staged.resolveTo (source.scopes.size + 1) source options := by
  obtain ⟨finite, same⟩ := Staged.resolveTo_of_acyclic ((lexical_of_scopedOf built).acyclic direct) options h
  exact ⟨fun stopped => finite _ stopped rfl, same⟩

theorem resolveTo_of_direct_sumText :
    ∃ source c', (scopedOf "main").run (ofText sumText) = (.ok source, c') ∧ source.Direct ∧
      source.scopes.size < source.scopes.size + 2 ∧
      Staged.resolveTo (source.scopes.size + 2) source {} ≠ .error .tooDeep ∧
      Staged.resolveTo (source.scopes.size + 2) source {} = Staged.resolveTo (source.scopes.size + 1) source {} := by
  obtain ⟨source, c', built, direct, -⟩ := direct_sumText
  have h : source.scopes.size < source.scopes.size + 2 := Nat.lt_add_of_pos_right Nat.two_pos
  exact ⟨source, c', built, direct, h, resolveTo_of_direct built direct {} h⟩

/-- What a staged program has in addition to `stagedOf_wellFormed` when its calls name macros and no return skips an
output or an export: all its variables can be held when it runs. -/
theorem stagedOf_wellFormed_runtime {p : Staged.Program} (built : (scopedOf name).run c = (.ok source, c₁))
    (direct : source.Direct) (lasting : source.Lasting) (h : (stagedOf name).run c = (.ok p, c')) :
    (∀ v ∈ p.vars, (v.ty.base = .bool ∨ v.ty.base = .int ∨ v.ty.base = .float) ∧ ∀ n ∈ v.ty.dims, 1 ≤ n) ∧
    (∀ i, ∀ st ∈ p.scope i, ∀ k ∈ st.slots, k < p.vars.size) ∧
    (∀ k ∈ p.inputs ++ p.outputs ++ p.statics, k < p.vars.size) ∧
    (∀ i, ∀ st ∈ p.scope i, ∀ j ∈ st.scopes, j < p.scopes.size) ∧
    (∀ depth, (p.reached depth p.staticInit ++ p.reached depth p.entry).Nodup) ∧
    (p.inputs ++ p.outputs).Nodup := by
  obtain ⟨positive, formed⟩ := stagedOf_wellFormed h
  refine ⟨fun v hv => ⟨?_, positive v hv⟩, formed⟩
  obtain ⟨source', c₂, built', staged⟩ := stagedOf_ok.1 ⟨c', h⟩
  obtain ⟨rfl, -⟩ : source = source' ∧ c₁ = c₂ := by
    rw [built] at built'
    cases built'
    exact ⟨rfl, rfl⟩
  have fits := (Staged.resolveTo_faultless (lexical_of_scopedOf built) direct lasting _ _).1 p staged
  rw [← Ty.isRuntime_prim, Ty.isRuntime_base]
  exact fits.1 v hv

theorem stagedOf_wellFormed_runtime_sumText :
    ∃ source c₁ p c', (scopedOf "main").run (ofText sumText) = (.ok source, c₁) ∧ source.Direct ∧ source.Lasting ∧
      (stagedOf "main").run (ofText sumText) = (.ok p, c') ∧
      (∀ v ∈ p.vars, (v.ty.base = .bool ∨ v.ty.base = .int ∨ v.ty.base = .float) ∧ ∀ n ∈ v.ty.dims, 1 ≤ n) ∧
      (∀ i, ∀ st ∈ p.scope i, ∀ k ∈ st.slots, k < p.vars.size) ∧
      (∀ k ∈ p.inputs ++ p.outputs ++ p.statics, k < p.vars.size) ∧
      (∀ i, ∀ st ∈ p.scope i, ∀ j ∈ st.scopes, j < p.scopes.size) ∧
      (∀ depth, (p.reached depth p.staticInit ++ p.reached depth p.entry).Nodup) ∧
      (p.inputs ++ p.outputs).Nodup := by
  obtain ⟨source, c₁, built, direct, lasting, p, c', staged⟩ := direct_sumText
  exact ⟨source, c₁, p, c', built, direct, lasting, staged, stagedOf_wellFormed_runtime built direct lasting staged⟩

end Direct

theorem ok_of_decide {α : Type} {x : Compile α} {P : α → Prop} [DecidablePred P]
    (h : (x.run c).1.toOption.any (fun a => decide (P a)) = true) : ∃ a c', x.run c = (.ok a, c') ∧ P a := by
  obtain ⟨a, c', run, found⟩ := ok_of_any h
  exact ⟨a, c', run, of_decide_eq_true found⟩

/-- A macro value that is called after its surroundings were entered again has an element of a type taken at
run time, and then a variable holds a type. -/
theorem stagedOf_variable_of_types :
    let text := "input INT a;\nmacro K(p) \x7b \x7d\n" ++
      "macro M(x): g \x7b\n  macro h(i) \x7b K(x[i]); \x7d\n  MACRO g = h;\n\x7d\n" ++
      "MACRO g1;\nMACRO g2;\nM([INT, FLOAT]):(g1);\nM([1, 2]):(g2);\ng1(a);\n"
    ∃ p c', (stagedOf "main").run (ofText text) = (.ok p, c') ∧ ∃ v ∈ p.vars, v.ty.base = .dataType := by
  intro text
  exact ok_of_decide (by decide +kernel)

/-- The constant that a statement assigns as an `INT`. -/
def wordLiteral? : Staged.Stmt → Option Constant
  | .assign _ (.literal value ty _) _ => if ty = .int then some value else none
  | _ => none

/-- The floating-point number that a constant is. -/
def float? : Constant → Option Float
  | .float x => some x
  | _ => none

/-- A macro value that is called after its surroundings were entered again reads what the later call left there, and
then a literal of type `INT` is a number past the words. -/
theorem stagedOf_word_past_range :
    let text := "macro M(x): g \x7b macro h(): o \x7b AUTO o = x; \x7d MACRO g = h; \x7d\n" ++
      "MACRO g1;\nMACRO g2;\nM(1):(g1);\nM(3000000000.0):(g2);\nAUTO y = g1();\n"
    ∃ p c', (stagedOf "main").run (ofText text) = (.ok p, c') ∧
      ∃ st ∈ p.scope p.entry, ∃ value ∈ wordLiteral? st, ∃ x ∈ float? value, 2147483647 < x := by
  intro text
  exact ok_of_decide (by decide +kernel)

/-! ## Where staging falls short -/

/-- A macro that returns before it makes its output stops staging by a fault where it is called. -/
theorem resolve_output_not_made :
    ∃ p c', (scopedOf "main").run (ofText "macro M(): o { return; INT o = 1; }\nINT x = M();\n") = (.ok p, c') ∧
      Staged.resolve p {} = .error (.fault (.notCreated "o#53")) := by
  let faulty (p : Scoped.Program) : Bool :=
    match Staged.resolve p {} with
    | .error (.fault f) => f = .notCreated "o#53"
    | _ => false
  obtain ⟨p, c', built, fault⟩ := ok_of_any (P := faulty)
    (show ((scopedOf "main").run (ofText "macro M(): o { return; INT o = 1; }\nINT x = M();\n")).1.toOption.any
      _ = true by decide +kernel)
  refine ⟨p, c', built, ?_⟩
  unfold faulty at fault
  split at fault
  · rename_i f stopped
    rw [stopped, of_decide_eq_true fault]
  · cases fault

/-- The slots that each statement of static initialization uses. -/
def initialSlots (p : Staged.Program) : List (List Staged.SlotId) :=
  (p.scope p.staticInit).toList.map Staged.Stmt.slots

/-- What the program proper assigns to a static is taken for its value in the static initialization behind it, which
then no longer reads the static. -/
theorem stagedOf_static_after_assignment :
    let first := "static s { INT s = 1; }\n"
    let second := "static t { INT t = s; }\n"
    (∃ p c', (stagedOf "main").run (ofText (first ++ "s = 5;\n" ++ second)) = (.ok p, c') ∧
      initialSlots p = [[0], [1]]) ∧
    ∃ p c', (stagedOf "main").run (ofText (first ++ second)) = (.ok p, c') ∧ initialSlots p = [[0], [1, 0]] := by
  intro first second
  constructor
  · exact ok_of_decide (by decide +kernel)
  · exact ok_of_decide (by decide +kernel)

/-- The numbers that a run without statics puts out. -/
def numbersOf (p : Staged.Program) (inputs : List Staged.Datum) : Option (List (Option Int)) :=
  (p.run inputs []).toOption.map fun r => r.1.map Staged.Datum.int?

/-- The two programs differ in their first line only. With the input three the first one puts out zero, since its loop is
kept and worked out with what is known before it; the second one has the constant three instead, and puts out one. -/
theorem stagedOf_input_for_constant :
    let rest := "output INT out;\nINT x = 0;\nINT y = 0;\nfor i = 0 to a \x7b\n    out = y;\n" ++
      "    if x == 0 \x7b x = 1; \x7d else \x7b y = 1; \x7d\n\x7d\n"
    (∃ p c', (stagedOf "main").run (ofText ("input INT a;\n" ++ rest)) = (.ok p, c') ∧
      numbersOf p [.int 3] = some [some 0]) ∧
    ∃ p c', (stagedOf "main").run (ofText ("INT a = 3;\n" ++ rest)) = (.ok p, c') ∧
      numbersOf p [] = some [some 1] := by
  intro rest
  constructor
  · exact ok_of_decide (by decide +kernel)
  · exact ok_of_decide (by decide +kernel)

/-- A loop that is kept is worked out with what is known before it, so a branch that later rounds take is left out: the
program puts out one when the loop is unrolled, and zero when it is kept. -/
theorem stagedOf_kept_loop :
    let text := "output INT out;\nINT x = 0;\nINT y = 0;\nfor i = 0 to 3 \x7b\n    out = y;\n" ++
      "    if x == 0 \x7b x = 1; \x7d else \x7b y = 1; \x7d\n\x7d\n"
    let kept : Options := { staging := { unroll := false } }
    (∃ p c', (stagedOf "main").run (ofText text) = (.ok p, c') ∧ numbersOf p [] = some [some 1]) ∧
    ∃ p c', (stagedOf "main").run ((new kept {}).addSource "main" text) = (.ok p, c') ∧
      numbersOf p [] = some [some 0] := by
  intro text kept
  constructor
  · exact ok_of_decide (by decide +kernel)
  · exact ok_of_decide (by decide +kernel)

end SignalLang.Compiler
