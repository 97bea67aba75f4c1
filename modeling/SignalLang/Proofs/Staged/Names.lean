import SignalLang.Proofs.Staged.Parallel

/-!
# Staging does not read names

Names stand in the words of problems and faults, and nothing else in staging depends on them: programs that differ in
names only are staged alike. The main statement is `resolveTo_alike`.
-/

namespace SignalLang.Staged

open Scoped (VarId)

namespace Pair

/-- Two runs from one state under contexts that differ in names only; every scope may be entered in both. -/
def renamed {c c' : Context} (h : c.Renames c') (start : State) : Pair where
  c := c
  c' := c'
  s₀ := start
  t₀ := start
  inside _ := True
  shared _ := True
  renames := h
  leads _ _ := trivial
  mentions _ _ _ := trivial

variable {P : Pair} {strict : Prop} {s t : State}

/-- Runs from one state come to one program. -/
theorem States.out (h : P.States strict s t) (start : P.t₀ = P.s₀) : t.out = s.out := by
  have scopes : t.out.scopes = s.out.scopes := by
    refine Array.ext h.size fun i hi hi' => ?_
    obtain ⟨new, hs, ht⟩ := h.added i
    rw [start, ← hs, Program.scope, Program.scope] at ht
    simpa [hi, hi'] using ht
  have rest := congrArg State.out h.common
  calc t.out = { t.common.out with scopes := t.out.scopes } := rfl
    _ = s.out := by rw [rest, scopes]; rfl

open Stage

theorem run_slotOr (h : P.States strict s t) {problem : Span → String → Bound → Problem}
    (alike : ∀ span name name' b, (problem span name b).Alike (problem span name' b)) (v : VarId) (r : Record) :
    P.Run strict s t
      (match r.slot with
        | some slot => return slot
        | none => do
          let var ← sourceVar v
          refuse (problem var.definition var.name r.bound) : Stage SlotId)
      (match r.slot with
        | some slot => return slot
        | none => do
          let var ← sourceVar v
          refuse (problem var.definition var.name r.bound)) Eq := by
  split
  · exact .pure h rfl
  · exact .sourceVar_bind fun _ _ _ => .refuse (alike _ _ _ _)

theorem run_ioSlots (h : P.States strict s t) {problem : Span → String → Bound → Problem}
    (alike : ∀ span name name' b, (problem span name b).Alike (problem span name' b)) (vars : List VarId) :
    P.Run strict s t (ioSlots problem vars) (ioSlots problem vars) Eq := by
  refine (Run.mapM (R := Eq) (Q := Eq) (List.forall₂_same.2 fun _ _ => rfl) h fun v v' s t same h => ?_).mono
    fun _ _ same => List.forall₂_eq_eq_eq ▸ same
  subst same
  refine (run_recordId h v).bind fun id id' s₁ t₁ h₁ same => ?_
  subst same
  dsimp only
  split
  · refine (run_record h₁ _).bind fun r r' s₂ t₂ h₂ same => ?_
    subst same
    exact run_slotOr h₂ alike v r
  · exact (Run.pure (R := Eq) h₁ rfl).bind fun r r' s₂ t₂ h₂ same => same ▸ run_slotOr h₂ alike v r

/-- The whole program is worked out alike in two runs from the start. -/
theorem run_program (depth : Nat) (h : P.States strict s t) (hs : s.Flows P.c.source) (start : P.t₀ = P.s₀)
    (inside : ∀ i, P.inside i) : P.Run strict s t (program depth) (program depth) Eq := by
  have entered := P.entered_block depth
  refine .read_bind ?_
  dsimp only
  rw [P.renames.source.builtins, P.renames.source.entry, P.renames.source.inputs, P.renames.source.outputs]
  refine (entered.alike (inside _) h hs).bind_ends (entered.flows _ s hs) fun _ _ s₁ t₁ h₁ _ hs₁ => .modify_bind ?_
  rw [h₁.entry]
  refine (entered.alike (inside _) ?_ ?_).bind fun _ _ s₂ t₂ h₂ _ => ?_
  · exact h₁.still (congrArg (fun u : State => { u with current := some s₁.out.entry }) h₁.common) rfl rfl
  · exact ⟨hs₁.tracked, hs₁.log⟩
  refine (run_ioSlots h₂ (fun _ _ _ _ => ⟨rfl, rfl⟩) _).bind fun inputs inputs' s₃ t₃ h₃ same => ?_
  refine (run_ioSlots h₃ (fun _ _ _ _ => ⟨rfl, rfl⟩) _).bind fun outputs outputs' s₄ t₄ h₄ same' => .get_bind ?_
  subst same same'
  exact .pure h₄ (by rw [h₄.out start])

end Pair

/-- Programs that differ in names only are staged alike: to one program, or they are refused by problems of one kind in one
place, or staging breaks down or goes too deep for both. -/
theorem resolveTo_alike {p q : Scoped.Program} (h : p.Renames q) (depth : Nat) (options : Options) :
    Outcomes Eq Failure.Alike (resolveTo depth p options) (resolveTo depth q options) := by
  unfold resolveTo
  rw [h.vars]
  let start : State := { tracked := Array.replicate p.vars.size none }
  have renames : (⟨p, options⟩ : Context).Renames ⟨q, options⟩ := ⟨h, rfl⟩
  let P := Pair.renamed renames start
  have begun : P.States True start start :=
    ⟨rfl, rfl, ⟨le_rfl, le_rfl⟩, fun _ => ⟨#[], rfl, rfl⟩, rfl, fun _ _ => rfl, fun _ => rfl, #[], rfl, rfl⟩
  have ended : P.Run True start start _ _ Eq :=
    P.run_program depth begun (State.flows_start _ _) rfl fun _ => trivial
  exact Outcomes.bind ended fun r r' same => .ok same.2

end SignalLang.Staged
