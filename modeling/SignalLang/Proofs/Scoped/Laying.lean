import SignalLang.Proofs.Scoped.Built
import SignalLang.Proofs.Scoped.Lexical

/-!
# Built programs are lexical

While a program is built, some scopes are open: the current one and those around it. `Program.Making` is the invariant.
An open scope ends at the variable that would be made next, so its end moves on with every variable (`Layout.Grows`);
everything else that was laid stays where it is.
-/

namespace SignalLang.Scoped

namespace Program

/-- The variables in sight behind all statements of a scope. -/
def InSight (p : Program) (L : Layout) (i : ScopeId) (v : VarId) : Prop := p.Sight L i (p.statements i) v

/-- The invariant of building, where `opens` are the open scopes, the innermost first. -/
structure Making (p : Program) (L : Layout) (opens : List ScopeId) : Prop where
  laid : p.Laid L
  unmade : ∀ i, p.scopes.size ≤ i → ∀ v, ¬L.sees i v
  first : ∀ i < p.scopes.size, L.first i ≤ L.past i
  past : ∀ i < p.scopes.size, L.past i ≤ p.vars.size
  frame : ∀ i < p.scopes.size, L.frame i ≤ i
  opens_lt : ∀ i ∈ opens, i < p.scopes.size
  opens_past : ∀ i ∈ opens, L.past i = p.vars.size
  opens_frame : ∀ i ∈ opens, L.frame i ∈ opens
  sorted : opens.Pairwise (· > ·)
  owners : ∀ i v, p.InSight L i v → L.owner v ≤ L.frame i ∧ (L.frame i ∈ opens → L.owner v ∈ opens)
  symbols : ∀ i, ∀ e ∈ (p.scope i).symbols, p.InSight L i e.2 ∧ L.Inside i e.2
  parents : ∀ i ∈ opens, ∀ j, (p.scope i).parent = some j → (j ∈ opens ∧ j < i) ∧ ∀ v, p.InSight L j v → L.sees i v
  nested : ∀ i, ∀ st ∈ p.statements i, ∀ j ∈ st.scopes, j < p.scopes.size ∧ j ∉ opens
  bodies : ∀ m site, (p.var m).initial = some (.macroRef site) → site.body < p.scopes.size ∧ site.body ∉ opens
  readOnly : ∀ v value, (p.var v).initial = some value → (p.var v).readOnly = true

/-- What the invariant says of a scope. -/
structure LaidAt (p : Program) (L : Layout) (opens : List ScopeId) (i : ScopeId) : Prop where
  stmts : ∀ before st after, p.statements i = before ++ st :: after → p.Places L i (p.Sight L i before) st
  sight : ∀ v, p.InSight L i v → v < L.rank i ∧ L.rank i ≤ L.height v
  first : L.first i ≤ L.past i
  past : L.past i ≤ p.vars.size
  frame : L.frame i ≤ i
  owners : ∀ v, p.InSight L i v → L.owner v ≤ L.frame i ∧ (L.frame i ∈ opens → L.owner v ∈ opens)
  symbols : ∀ e ∈ (p.scope i).symbols, p.InSight L i e.2 ∧ L.Inside i e.2
  nested : ∀ st ∈ p.statements i, ∀ j ∈ st.scopes, j < p.scopes.size ∧ j ∉ opens

/-- What the invariant says of an open scope besides. -/
structure OpenAt (p : Program) (L : Layout) (opens : List ScopeId) (i : ScopeId) : Prop where
  lt : i < p.scopes.size
  past : L.past i = p.vars.size
  frame : L.frame i ∈ opens
  parents : ∀ j, (p.scope i).parent = some j → (j ∈ opens ∧ j < i) ∧ ∀ v, p.InSight L j v → L.sees i v

variable {p p' : Program} {L L' : Layout} {opens opens' : List ScopeId} {cur i j : ScopeId} {v : VarId}

theorem scope_of_size_le (h : p.scopes.size ≤ i) : p.scope i = { parent := none } := by
  rw [scope, Array.getD_eq_getD_getElem?, Array.getElem?_eq_none h]
  rfl

theorem var_of_size_le (h : p.vars.size ≤ v) : (p.var v).initial = none := by
  rw [var, Array.getD_eq_getD_getElem?, Array.getElem?_eq_none h]
  rfl

theorem lt_of_mem_statements {st : Stmt} (h : st ∈ p.statements i) : i < p.scopes.size := by
  rcases Nat.lt_or_ge i p.scopes.size with hi | hi
  · exact hi
  · rw [statements, scope_of_size_le hi] at h
    cases h

theorem lt_of_inSight (unmade : ∀ i, p.scopes.size ≤ i → ∀ v, ¬L.sees i v) (hv : p.InSight L i v) :
    i < p.scopes.size := by
  rcases Nat.lt_or_ge i p.scopes.size with hi | hi
  · exact hi
  · rcases hv with ⟨st, hst, -⟩ | hv | hv
    · exact lt_of_mem_statements hst
    · rw [scope_of_size_le hi] at hv
      cases hv
    · exact (unmade i hi v hv).elim

/-- A closed scope is not the current one. -/
theorem ne_of_closed (hcur : cur ∈ opens) : ∀ j < p.scopes.size, j ∉ opens → j ≠ cur :=
  fun _ _ hclosed same => hclosed (same ▸ hcur)

namespace Making

/-- The invariant holds if it does of each scope. -/
theorem of_scopes (unmade : ∀ i, p.scopes.size ≤ i → ∀ v, ¬L.sees i v)
    (laid : ∀ i < p.scopes.size, p.LaidAt L opens i) (opened : ∀ i ∈ opens, p.OpenAt L opens i)
    (sorted : opens.Pairwise (· > ·))
    (bodies : ∀ m site, (p.var m).initial = some (.macroRef site) →
      p.Bodies L m site.body ∧ site.body < p.scopes.size ∧ site.body ∉ opens)
    (readOnly : ∀ v value, (p.var v).initial = some value → (p.var v).readOnly = true) : p.Making L opens := by
  refine ⟨⟨fun i before st after eq => ?_, fun i v hv => (laid i (lt_of_inSight unmade hv)).sight v hv,
    fun m site hm => (bodies m site hm).1⟩, unmade, fun i hi => (laid i hi).first, fun i hi => (laid i hi).past,
    fun i hi => (laid i hi).frame, fun i hi => (opened i hi).lt, fun i hi => (opened i hi).past,
    fun i hi => (opened i hi).frame, sorted, fun i v hv => (laid i (lt_of_inSight unmade hv)).owners v hv,
    fun i e he => ?_, fun i hi => (opened i hi).parents,
    fun i st hst => (laid i (lt_of_mem_statements hst)).nested st hst, fun m site hm => (bodies m site hm).2,
    readOnly⟩
  · have hst : st ∈ p.statements i := by rw [eq]; simp
    exact (laid i (lt_of_mem_statements hst)).stmts before st after eq
  · rcases Nat.lt_or_ge i p.scopes.size with hi | hi
    · exact (laid i hi).symbols e he
    · rw [scope_of_size_le hi] at he
      cases he

theorem rank_le (h : p.Making L opens) (hi : i < p.scopes.size) : L.rank i ≤ p.vars.size :=
  h.past _ (Nat.lt_of_le_of_lt (h.frame i hi) hi)

/-- Everything in sight was made. -/
theorem made (h : p.Making L opens) (hv : p.InSight L i v) : v < p.vars.size :=
  Nat.lt_of_lt_of_le (h.laid.sight i v hv).1 (h.rank_le (lt_of_inSight h.unmade hv))

/-- What a statement may refer to was made. -/
theorem made_before (h : p.Making L opens) {before after : List Stmt} {st : Stmt}
    (eq : p.statements i = before ++ st :: after) : ∀ v, p.Sight L i before v → v < p.vars.size := by
  intro v hv
  refine h.made (i := i) ?_
  rcases hv with ⟨x, hx, hv⟩ | hv
  · exact .inl ⟨x, by rw [eq]; simp [hx], hv⟩
  · exact .inr hv

theorem not_mem_opens (h : p.Making L opens) : p.scopes.size ∉ opens :=
  fun hmem => Nat.lt_irrefl _ (h.opens_lt _ hmem)

/-- What a name stands for in an open scope is in sight there. -/
theorem inSight_of_lookup (h : p.Making L opens) (hi : i ∈ opens) {name : String}
    (found : p.lookup? i name = some v) : p.InSight L i v := by
  have chain (fuel : Nat) : ∀ i ∈ opens, ∀ v, (p.chain fuel i).findSome? (·.find? name) = some v →
      p.InSight L i v := by
    induction fuel with
    | zero => exact fun i _ v hv => by cases hv
    | succ fuel ih =>
      intro i hi v hv
      rw [Program.chain, List.findSome?_cons] at hv
      split at hv
      · rename_i w hw
        cases hv
        obtain ⟨before, after, eq, -⟩ := List.lookup_eq_some_iff.1 hw
        exact (h.symbols i (name, v) (by rw [eq]; simp)).1
      · split at hv
        · rename_i j hj
          obtain ⟨hopen, sees⟩ := h.parents i hi j hj
          exact .inr (.inr (sees v (ih j hopen.1 v hv)))
        · cases hv
  exact chain _ i hi v found

end Making

/-! ## Growth -/

/-- What was laid stays where it is, except for the current scope and the ends of the open scopes. -/
structure Grows (p : Program) (L : Layout) (opens : List ScopeId) (cur : ScopeId) (p' : Program) (L' : Layout) :
    Prop where
  scopes : p.scopes.size ≤ p'.scopes.size
  vars : p.vars.size ≤ p'.vars.size
  var : ∀ v < p.vars.size, p'.var v = p.var v
  scope : ∀ i < p.scopes.size, i ≠ cur → p'.scope i = p.scope i
  sees : ∀ i < p.scopes.size, i ≠ cur → L'.sees i = L.sees i
  first : ∀ i < p.scopes.size, L'.first i = L.first i
  frame : ∀ i < p.scopes.size, L'.frame i = L.frame i
  closed : ∀ i < p.scopes.size, i ∉ opens → L'.past i = L.past i
  opened : ∀ i ∈ opens, L'.past i = p'.vars.size
  owner : ∀ v < p.vars.size, L'.owner v = L.owner v

namespace Grows

theorem trans {p'' : Program} {L'' : Layout} (g : p.Grows L opens cur p' L') (g' : p'.Grows L' opens cur p'' L'') :
    p.Grows L opens cur p'' L'' := by
  have here {i : ScopeId} (hi : i < p.scopes.size) : i < p'.scopes.size := Nat.lt_of_lt_of_le hi g.scopes
  have made {v : VarId} (hv : v < p.vars.size) : v < p'.vars.size := Nat.lt_of_lt_of_le hv g.vars
  refine ⟨Nat.le_trans g.scopes g'.scopes, Nat.le_trans g.vars g'.vars, fun v hv => ?_, fun i hi hne => ?_,
    fun i hi hne => ?_, fun i hi => ?_, fun i hi => ?_, fun i hi hclosed => ?_, g'.opened, fun v hv => ?_⟩
  · exact (g'.var v (made hv)).trans (g.var v hv)
  · exact (g'.scope i (here hi) hne).trans (g.scope i hi hne)
  · exact (g'.sees i (here hi) hne).trans (g.sees i hi hne)
  · exact (g'.first i (here hi)).trans (g.first i hi)
  · exact (g'.frame i (here hi)).trans (g.frame i hi)
  · exact (g'.closed i (here hi) hclosed).trans (g.closed i hi hclosed)
  · exact (g'.owner v (made hv)).trans (g.owner v hv)

variable (h : p.Making L opens) (g : p.Grows L opens cur p' L')

include h g

theorem past_le (hi : i < p.scopes.size) : L.past i ≤ L'.past i := by
  by_cases hopen : i ∈ opens
  · rw [g.opened i hopen]
    exact Nat.le_trans (h.past i hi) g.vars
  · exact Nat.le_of_eq (g.closed i hi hopen).symm

theorem inside (hi : i < p.scopes.size) (hv : L.Inside i v) : L'.Inside i v := by
  have made : v < p.vars.size := Nat.lt_of_lt_of_le hv.past (h.past i hi)
  refine ⟨?_, ?_, Nat.lt_of_lt_of_le hv.past (g.past_le h hi)⟩
  · rw [g.owner v made, g.frame i hi]
    exact hv.owner
  · rw [g.first i hi]
    exact hv.first

omit h in
theorem settable {S : VarId → Prop} (hS : ∀ v, S v → v < p.vars.size) (hv : p.Settable S v) : p'.Settable S v :=
  ⟨hv.1, (g.var v (hS v hv.1)).symm ▸ hv.2⟩

theorem nests (apart : ∀ j < p.scopes.size, j ∉ opens → j ≠ cur) (hi : i < p.scopes.size)
    (hj : j < p.scopes.size) (hclosed : j ∉ opens) {S T : VarId → Prop} (hn : p.Nests L i S T j) :
    p'.Nests L' i S T j := by
  have hne : j ≠ cur := apart j hj hclosed
  have past : L'.past j = L.past j := g.closed j hj hclosed
  refine ⟨?_, fun v hv => hn.sees v ?_, ?_, ?_, ?_, fun v hv => ?_, hn.inner⟩
  · rw [g.frame j hj, g.frame i hi]
    exact hn.frame
  · rw [← g.sees j hj hne]
    exact hv
  · rw [g.scope j hj hne]
    exact hn.inputs
  · rw [g.first i hi, g.first j hj]
    exact hn.first
  · rw [past]
    exact Nat.le_trans hn.past (g.past_le h hi)
  · rw [g.first j hj, past]
    exact hn.apart v hv

theorem declares (apart : ∀ j < p.scopes.size, j ∉ opens → j ≠ cur) (hi : i < p.scopes.size) {S : VarId → Prop}
    {type : Expr} (hd : p.Declares L i S v type) : p'.Declares L' i S v type := by
  have made : v < p.vars.size := Nat.lt_of_lt_of_le hd.inside.past (h.past i hi)
  refine ⟨g.inside h hi hd.inside, hd.fresh, fun value hvalue => hd.constant value ?_, fun site hsite w hw => ?_⟩
  · rw [← g.var v made]
    exact hvalue
  · rw [g.var v made] at hsite
    obtain ⟨hlt, hclosed⟩ := h.bodies v site hsite
    rw [g.sees _ hlt (apart _ hlt hclosed)] at hw
    exact hd.body site hsite w hw

omit h in
theorem sight_eq (hi : i < p.scopes.size) (hne : i ≠ cur) (before : List Stmt) :
    p'.Sight L' i before = p.Sight L i before := by
  funext v
  rw [Sight, Sight, g.scope i hi hne, g.sees i hi hne]

omit h in
theorem statements_eq (hi : i < p.scopes.size) (hne : i ≠ cur) : p'.statements i = p.statements i := by
  rw [statements, statements, g.scope i hi hne]

/-- A statement still fits its place. -/
theorem places (apart : ∀ j < p.scopes.size, j ∉ opens → j ≠ cur) (hi : i < p.scopes.size)
    {S : VarId → Prop} (hS : ∀ v, S v → v < p.vars.size) {st : Stmt}
    (nested : ∀ j ∈ st.scopes, j < p.scopes.size ∧ j ∉ opens)
    (hst : p.Places L i S st) : p'.Places L' i S st := by
  have uses {e : Expr} (he : e.Uses S (p.Settable S)) : e.Uses S (p'.Settable S) :=
    he.mono (fun _ hv => hv) fun _ hv => g.settable hS hv
  have nests (j : ScopeId) (hj : j ∈ st.scopes) {T : VarId → Prop} (hn : p.Nests L i S T j) :
      p'.Nests L' i S T j :=
    g.nests h apart hi (nested j hj).1 (nested j hj).2 hn
  cases st with
  | create v type span => exact ⟨uses hst.1, g.declares h apart hi hst.2⟩
  | assign target value span => exact ⟨uses hst.1, hst.2.mono (fun _ hv => hv) fun _ hv => g.settable hS hv⟩
  | assert condition span => exact uses hst
  | branch clauses otherwise span =>
    refine ⟨fun x hx => ⟨uses (hst.1 x hx).1, nests _ ?_ (hst.1 x hx).2⟩, fun body hbody => nests _ ?_ (hst.2 body hbody)⟩
    · exact List.mem_append_left _ (List.mem_map_of_mem hx)
    · exact List.mem_append_right _ (Option.mem_toList.2 hbody)
  | loop counter start stop body allowUnroll span =>
    obtain ⟨hstart, hstop, inside, seen, initial, hn⟩ := hst
    obtain ⟨hlt, hclosed⟩ := nested body List.mem_cons_self
    refine ⟨uses hstart, uses hstop, g.inside h hlt inside, ?_, ?_, nests body List.mem_cons_self hn⟩
    · rw [g.sees body hlt (apart body hlt hclosed)]
      exact seen
    · rw [g.var counter (Nat.lt_of_lt_of_le inside.past (h.past body hlt))]
      exact initial
  | static body exports span =>
    obtain ⟨hlt, hclosed⟩ := nested body List.mem_cons_self
    have hne : body ≠ cur := apart body hlt hclosed
    refine ⟨nests body List.mem_cons_self hst.1, fun v hv => ⟨g.inside h hlt (hst.2 v hv).1, ?_⟩⟩
    rw [g.sight_eq hlt hne, g.statements_eq hlt hne]
    exact (hst.2 v hv).2
  | block body span => exact nests body List.mem_cons_self hst
  | ret span => trivial
  | expr value span => exact uses hst

/-- What was in sight of a scope is not lower than the scope. -/
theorem sight (hv : p.InSight L i v) : v < L'.rank i ∧ L'.rank i ≤ L'.height v := by
  have hi := lt_of_inSight h.unmade hv
  have hframe : L.frame i < p.scopes.size := Nat.lt_of_le_of_lt (h.frame i hi) hi
  obtain ⟨hlt, hle⟩ := h.laid.sight i v hv
  obtain ⟨howner, hopens⟩ := h.owners i v hv
  have hheight : L'.height v = L'.past (L.owner v) := by rw [Layout.height, g.owner v (h.made hv)]
  have hrank : L'.rank i = L'.past (L.frame i) := by rw [Layout.rank, g.frame i hi]
  rw [hheight, hrank]
  refine ⟨Nat.lt_of_lt_of_le hlt (g.past_le h hframe), ?_⟩
  by_cases hopen : L.frame i ∈ opens
  · exact Nat.le_of_eq ((g.opened _ hopen).trans (g.opened _ (hopens hopen)).symm)
  · rw [g.closed _ hframe hopen]
    exact Nat.le_trans hle (g.past_le h (Nat.lt_of_le_of_lt howner hframe))

theorem bodies {m : VarId} {b : ScopeId} (apart : ∀ j < p.scopes.size, j ∉ opens → j ≠ cur)
    (hlt : b < p.scopes.size) (hclosed : b ∉ opens) (hb : p.Bodies L m b) : p'.Bodies L' m b := by
  have hne : b ≠ cur := apart b hlt hclosed
  refine ⟨?_, ?_, fun v hv => ?_, fun v hv => ?_⟩
  · rw [g.frame b hlt]
    exact hb.frame
  · rw [g.closed b hlt hclosed]
    exact hb.past
  · rw [g.scope b hlt hne] at hv
    obtain ⟨inside, initial⟩ := hb.inputs v hv
    refine ⟨g.inside h hlt inside, ?_⟩
    rw [g.var v (Nat.lt_of_lt_of_le inside.past (h.past b hlt))]
    exact initial
  · rw [g.scope b hlt hne] at hv
    rw [g.sight_eq hlt hne, g.statements_eq hlt hne]
    exact hb.outputs v hv

omit h in
theorem inSight_iff (hi : i < p.scopes.size) (hne : i ≠ cur) : p'.InSight L' i v ↔ p.InSight L i v := by
  rw [InSight, InSight, g.sight_eq hi hne, g.statements_eq hi hne]

/-- A statement of a scope still fits its place. -/
theorem places_laid (apart : ∀ j < p.scopes.size, j ∉ opens → j ≠ cur) {before after : List Stmt} {st : Stmt}
    (eq : p.statements i = before ++ st :: after) : p'.Places L' i (p.Sight L i before) st := by
  have hst : st ∈ p.statements i := by rw [eq]; simp
  exact g.places h apart (lt_of_mem_statements hst) (h.made_before eq) (h.nested i st hst)
    (h.laid.stmts i before st after eq)

/-- A scope is still between its ends. -/
theorem bounds (hi : i < p.scopes.size) :
    L'.first i ≤ L'.past i ∧ L'.past i ≤ p'.vars.size ∧ L'.frame i ≤ i := by
  refine ⟨?_, ?_, ?_⟩
  · rw [g.first i hi]
    exact Nat.le_trans (h.first i hi) (g.past_le h hi)
  · by_cases hopen : i ∈ opens
    · exact Nat.le_of_eq (g.opened i hopen)
    · rw [g.closed i hi hopen]
      exact Nat.le_trans (h.past i hi) g.vars
  · rw [g.frame i hi]
    exact h.frame i hi

/-- What was in sight of a scope still belongs to a body around it. -/
theorem owners (same : ∀ j < p.scopes.size, (j ∈ opens' ↔ j ∈ opens)) (hv : p.InSight L i v) :
    L'.owner v ≤ L'.frame i ∧ (L'.frame i ∈ opens' → L'.owner v ∈ opens') := by
  have hi := lt_of_inSight h.unmade hv
  have hframe : L.frame i < p.scopes.size := Nat.lt_of_le_of_lt (h.frame i hi) hi
  obtain ⟨howner, hopens⟩ := h.owners i v hv
  rw [g.owner v (h.made hv), g.frame i hi, same _ hframe, same _ (Nat.lt_of_le_of_lt howner hframe)]
  exact ⟨howner, hopens⟩

/-- The invariant still holds of a scope that is not the current one. -/
theorem laidAt (apart : ∀ j < p.scopes.size, j ∉ opens → j ≠ cur)
    (same : ∀ j < p.scopes.size, (j ∈ opens' ↔ j ∈ opens)) (hi : i < p.scopes.size) (hne : i ≠ cur) :
    p'.LaidAt L' opens' i := by
  obtain ⟨first, past, frame⟩ := g.bounds h hi
  refine ⟨fun before st after eq => ?_, fun v hv => g.sight h ((g.inSight_iff hi hne).1 hv), first, past, frame,
    fun v hv => g.owners h same ((g.inSight_iff hi hne).1 hv), fun e he => ?_, fun st hst j hj => ?_⟩
  · rw [g.statements_eq hi hne] at eq
    rw [g.sight_eq hi hne]
    exact g.places_laid h apart eq
  · rw [g.scope i hi hne] at he
    obtain ⟨seen, inside⟩ := h.symbols i e he
    exact ⟨(g.inSight_iff hi hne).2 seen, g.inside h hi inside⟩
  · rw [g.statements_eq hi hne] at hst
    obtain ⟨hlt, hclosed⟩ := h.nested i st hst j hj
    exact ⟨Nat.lt_of_lt_of_le hlt g.scopes, mt (same j hlt).1 hclosed⟩

theorem openAt (same : ∀ j < p.scopes.size, (j ∈ opens' ↔ j ∈ opens)) (hi : i ∈ opens) (hne : i ≠ cur)
    (below : ∀ j < i, j ≠ cur) : p'.OpenAt L' opens' i := by
  have hlt := h.opens_lt i hi
  have hframe : L.frame i < p.scopes.size := Nat.lt_of_le_of_lt (h.frame i hlt) hlt
  refine ⟨Nat.lt_of_lt_of_le hlt g.scopes, g.opened i hi, ?_, fun j hj => ?_⟩
  · rw [g.frame i hlt]
    exact (same _ hframe).2 (h.opens_frame i hi)
  · rw [g.scope i hlt hne] at hj
    obtain ⟨⟨hopen, hless⟩, hsees⟩ := h.parents i hi j hj
    have hj := h.opens_lt j hopen
    refine ⟨⟨(same j hj).2 hopen, hless⟩, fun v hv => ?_⟩
    rw [g.sees i hlt hne]
    exact hsees v ((g.inSight_iff hj (below j hless)).1 hv)

/-- A variable of an open scope is not lower than the scope. -/
theorem sight_inside (hi : i ∈ opens) (inside : L'.Inside i v) : v < L'.rank i ∧ L'.rank i ≤ L'.height v := by
  have hrank : L'.rank i = p'.vars.size := by
    rw [Layout.rank, g.frame i (h.opens_lt i hi)]
    exact g.opened _ (h.opens_frame i hi)
  rw [Layout.height, inside.owner]
  refine ⟨?_, Nat.le_refl _⟩
  rw [hrank]
  exact Nat.lt_of_lt_of_le inside.past (Nat.le_of_eq (g.opened i hi))

end Grows

/-- A change of the innermost open scope. -/
theorem Making.change (h : p.Making L opens) (g : p.Grows L opens cur p' L') (hcur : cur ∈ opens)
    (inner : ∀ i ∈ opens, i ≤ cur) (scopes : p'.scopes.size = p.scopes.size)
    (parent : (p'.scope cur).parent = (p.scope cur).parent)
    (unmade : ∀ i, p.scopes.size ≤ i → ∀ v, ¬L'.sees i v)
    (sees : ∀ j, (p.scope cur).parent = some j → ∀ v, p.InSight L j v → L'.sees cur v)
    (stmts : ∀ before st after, p'.statements cur = before ++ st :: after →
      p'.Places L' cur (p'.Sight L' cur before) st)
    (sight : ∀ v, p'.InSight L' cur v → p.InSight L cur v ∨ L'.Inside cur v)
    (symbols : ∀ e ∈ (p'.scope cur).symbols, p'.InSight L' cur e.2 ∧ L'.Inside cur e.2)
    (nested : ∀ st ∈ p'.statements cur, ∀ j ∈ st.scopes, j < p.scopes.size ∧ j ∉ opens)
    (bodies : ∀ m site, p.vars.size ≤ m → (p'.var m).initial = some (.macroRef site) →
      p'.Bodies L' m site.body ∧ site.body < p.scopes.size ∧ site.body ∉ opens)
    (readOnly : ∀ v value, p.vars.size ≤ v → (p'.var v).initial = some value → (p'.var v).readOnly = true) :
    p'.Making L' opens := by
  have hlt : cur < p.scopes.size := h.opens_lt cur hcur
  have apart : ∀ j < p.scopes.size, j ∉ opens → j ≠ cur := ne_of_closed hcur
  refine .of_scopes (fun i hi => unmade i (scopes ▸ hi)) (fun i hi => ?_) (fun i hi => ?_) h.sorted
    (fun m site hm => ?_) fun v value hv => ?_
  · by_cases hne : i = cur
    · subst hne
      obtain ⟨first, past, frame⟩ := g.bounds h hlt
      refine ⟨stmts, fun v hv => ?_, first, past, frame, fun v hv => ?_, symbols, scopes ▸ nested⟩
      · exact (sight v hv).elim (g.sight h) (g.sight_inside h hcur)
      · rcases sight v hv with seen | inside
        · exact g.owners h (fun _ _ => Iff.rfl) seen
        · rw [inside.owner]
          exact ⟨Nat.le_refl _, fun hopen => hopen⟩
    · exact g.laidAt h apart (fun _ _ => Iff.rfl) (scopes ▸ hi) hne
  · by_cases hne : i = cur
    · subst hne
      refine ⟨scopes ▸ hlt, g.opened i hcur, ?_, fun j hj => ?_⟩
      · rw [g.frame i hlt]
        exact h.opens_frame i hcur
      · rw [parent] at hj
        obtain ⟨⟨hopen, hless⟩, -⟩ := h.parents i hi j hj
        refine ⟨⟨hopen, hless⟩, fun v hv => sees j hj v ?_⟩
        exact (g.inSight_iff (h.opens_lt j hopen) (Nat.ne_of_lt hless)).1 hv
    · exact g.openAt h (fun _ _ => Iff.rfl) hi hne fun j hless same =>
        absurd (inner i hi) (Nat.not_le.2 (same ▸ hless))
  · rw [scopes]
    rcases Nat.lt_or_ge m p.vars.size with made | fresh
    · rw [g.var m made] at hm
      obtain ⟨hlt, hclosed⟩ := h.bodies m site hm
      exact ⟨g.bodies h apart hlt hclosed (h.laid.bodies m site hm), hlt, hclosed⟩
    · exact bodies m site fresh hm
  · rcases Nat.lt_or_ge v p.vars.size with made | fresh
    · rw [g.var v made] at hv ⊢
      exact h.readOnly v value hv
    · exact readOnly v value fresh hv

theorem eq_or_of_snoc {α : Type} {l before after : List α} {x y : α} (h : l ++ [x] = before ++ y :: after) :
    (before = l ∧ y = x) ∨ ∃ after', l = before ++ y :: after' := by
  rcases List.eq_nil_or_concat after with rfl | ⟨rest, z, rfl⟩
  · have := List.append_inj' h rfl
    exact .inl ⟨this.1.symm, (List.cons.inj this.2).1.symm⟩
  · rw [List.concat_eq_append, ← List.cons_append, ← List.append_assoc] at h
    exact .inr ⟨rest, (List.append_inj' h rfl).1⟩

/-- The innermost open scope gets a statement, and names for what it declares. -/
theorem Making.extend (h : p.Making L opens) (g : p.Grows L opens cur p' L') (hcur : cur ∈ opens)
    (inner : ∀ i ∈ opens, i ≤ cur) (scopes : p'.scopes.size = p.scopes.size) {symbols : List (String × VarId)}
    {st : Stmt}
    (scope : p'.scope cur = { p.scope cur with symbols := symbols, body := (p.scope cur).body.push st })
    (sees : L'.sees = L.sees) (place : p'.Places L' cur (p.InSight L cur) st)
    (declares : ∀ v ∈ st.declares, L'.Inside cur v)
    (named : ∀ e ∈ symbols, e ∈ (p.scope cur).symbols ∨ e.2 ∈ st.declares)
    (nested : ∀ j ∈ st.scopes, j < p.scopes.size ∧ j ∉ opens)
    (bodies : ∀ m site, p.vars.size ≤ m → (p'.var m).initial = some (.macroRef site) →
      p'.Bodies L' m site.body ∧ site.body < p.scopes.size ∧ site.body ∉ opens)
    (readOnly : ∀ v value, p.vars.size ≤ v → (p'.var v).initial = some value → (p'.var v).readOnly = true) :
    p'.Making L' opens := by
  have hlt : cur < p.scopes.size := h.opens_lt cur hcur
  have body : p'.statements cur = p.statements cur ++ [st] := by
    rw [statements, scope]
    simp [statements]
  have sightEq (before : List Stmt) : p'.Sight L' cur before = p.Sight L cur before := by
    funext v
    rw [Sight, Sight, scope, sees]
  have more {v : VarId} (hv : p.InSight L cur v) : p'.InSight L' cur v := by
    rw [InSight, sightEq, body]
    rcases hv with ⟨st', hst', hv⟩ | hv
    · exact .inl ⟨st', List.mem_append_left _ hst', hv⟩
    · exact .inr hv
  have own {v : VarId} (hv : v ∈ st.declares) : p'.InSight L' cur v :=
    .inl ⟨st, by rw [body]; simp, hv⟩
  refine h.change g hcur inner scopes (by rw [scope]) (fun i hi v => sees ▸ h.unmade i hi v)
    (fun j hj v hv => sees ▸ (h.parents cur hcur j hj).2 v hv) (fun before st' after eq => ?_) (fun v hv => ?_)
    (fun e he => ?_) (fun st' hst' j hj => ?_) bodies readOnly
  · rw [body] at eq
    rw [sightEq]
    rcases eq_or_of_snoc eq with ⟨rfl, rfl⟩ | ⟨after', eq⟩
    · exact place
    · exact g.places_laid h (ne_of_closed hcur) eq
  · rw [InSight, sightEq, body] at hv
    rcases hv with ⟨st', hst', hv⟩ | hv
    · rcases List.mem_append.1 hst' with hst' | hst'
      · exact .inl (.inl ⟨st', hst', hv⟩)
      · rw [List.mem_singleton.1 hst'] at hv
        exact .inr (declares v hv)
    · exact .inl (.inr hv)
  · rw [scope] at he
    rcases named e he with he | he
    · obtain ⟨seen, inside⟩ := h.symbols cur e he
      exact ⟨more seen, g.inside h hlt inside⟩
    · exact ⟨own he, declares _ he⟩
  · rw [body] at hst'
    rcases List.mem_append.1 hst' with hst' | hst'
    · exact h.nested cur st' hst' j hj
    · rw [List.mem_singleton.1 hst'] at hj
      exact nested j hj

/-! ## Steps of building -/

theorem scope_modifyScope_self (hi : i < p.scopes.size) (f : Scope → Scope) :
    (p.modifyScope i f).scope i = f (p.scope i) := by
  simp [scope, modifyScope, Array.getElem?_modify, Array.getElem?_eq_getElem hi]

theorem scope_modifyScope_ne (hne : j ≠ i) (f : Scope → Scope) : (p.modifyScope i f).scope j = p.scope j := by
  simp [scope, modifyScope, Array.getElem?_modify, hne.symm]

theorem scope_define_self (hi : i < p.scopes.size) (x : Variable) :
    (p.define i x).scope i = (p.scope i).bind x.name p.vars.size :=
  scope_modifyScope_self (p := { p with vars := p.vars.push x }) hi _

theorem scope_define_ne (hne : j ≠ i) (x : Variable) : (p.define i x).scope j = p.scope j :=
  scope_modifyScope_ne (p := { p with vars := p.vars.push x }) hne _

@[simp] theorem scopes_size_define (p : Program) (i : ScopeId) (x : Variable) :
    (p.define i x).scopes.size = p.scopes.size :=
  scopes_size_modifyScope _ _ _

end Program

/-- A variable was made for a macro body, and the open scopes end behind it. -/
def Layout.next (L : Layout) (opens : List ScopeId) (v : VarId) (owner : ScopeId) : Layout := { L with
  past := fun i => if i ∈ opens then v + 1 else L.past i
  owner := fun w => if w = v then owner else L.owner w }

namespace Program

variable {p p' : Program} {L L' : Layout} {opens : List ScopeId} {cur i j : ScopeId} {v : VarId}

theorem var_push_self {q : Program} {x : Variable} (h : q.vars = p.vars.push x) : q.var p.vars.size = x := by
  simp [var, h]

theorem var_push_lt {q : Program} {x : Variable} (h : q.vars = p.vars.push x) (hv : v < p.vars.size) :
    q.var v = p.var v := by
  simp only [var, h, Array.getD_eq_getD_getElem?]
  rw [Array.getElem?_push, if_neg (Nat.ne_of_lt hv)]

theorem var_push_gt {q : Program} {x : Variable} (h : q.vars = p.vars.push x) (hv : p.vars.size < v) :
    (q.var v).initial = none :=
  var_of_size_le (by rw [h, Array.size_push]; exact hv)

theorem inside_next (h : p.Making L opens) (hcur : cur ∈ opens) :
    (L.next opens p.vars.size (L.frame cur)).Inside cur p.vars.size := by
  refine ⟨if_pos rfl, ?_, ?_⟩
  · exact Nat.le_trans (h.first cur (h.opens_lt cur hcur)) (h.past cur (h.opens_lt cur hcur))
  · show p.vars.size < if cur ∈ opens then p.vars.size + 1 else _
    rw [if_pos hcur]
    exact Nat.lt_succ_self _

/-- A program that has one more variable and is changed in the current scope only. -/
theorem grows_next {x : Variable} (scopes : p'.scopes.size = p.scopes.size) (vars : p'.vars = p.vars.push x)
    (scope : ∀ i, i ≠ cur → p'.scope i = p.scope i) {owner : ScopeId}
    (sees : ∀ i, i ≠ cur → L'.sees i = L.sees i) (first : L'.first = L.first) (frame : L'.frame = L.frame)
    (past : L'.past = (L.next opens p.vars.size owner).past)
    (owners : L'.owner = (L.next opens p.vars.size owner).owner) : p.Grows L opens cur p' L' := by
  have size : p'.vars.size = p.vars.size + 1 := by rw [vars, Array.size_push]
  refine ⟨Nat.le_of_eq scopes.symm, by omega, fun v hv => var_push_lt vars hv, fun i _ hne => scope i hne,
    fun i _ hne => sees i hne, fun i _ => by rw [first], fun i _ => by rw [frame], fun i _ hclosed => ?_,
    fun i hopen => ?_, fun v hv => ?_⟩
  · rw [past]
    exact if_neg hclosed
  · rw [past, size]
    exact if_pos hopen
  · rw [owners]
    exact if_neg (Nat.ne_of_lt hv)

/-- A variable is declared in the innermost open scope. -/
theorem Making.declare (h : p.Making L opens) (hcur : cur ∈ opens) (inner : ∀ i ∈ opens, i ≤ cur) {x : Variable}
    {type : Expr} {span : Span} (htype : type.Uses (p.InSight L cur) (p.Settable (p.InSight L cur)))
    (hreadOnly : ∀ value, x.initial = some value → x.readOnly = true ∧ value.Plain ∧
      ∃ span, type = .literal (.type (.exactly value.ty)) span)
    (hbody : ∀ site, x.initial = some (.macroRef site) → p.Bodies L p.vars.size site.body ∧
      (∀ w, L.sees site.body w → p.InSight L cur w) ∧ site.body < p.scopes.size ∧ site.body ∉ opens) :
    ((p.define cur x).addStmt cur (.create p.vars.size type span)).Making
      (L.next opens p.vars.size (L.frame cur)) opens := by
  have hlt : cur < p.scopes.size := h.opens_lt cur hcur
  let q : Program := (p.define cur x).addStmt cur (.create p.vars.size type span)
  let K : Layout := L.next opens p.vars.size (L.frame cur)
  have vars : q.vars = p.vars.push x := rfl
  have scopes : q.scopes.size = p.scopes.size := by simp [q, addStmt]
  have other (i : ScopeId) (hne : i ≠ cur) : q.scope i = p.scope i :=
    (scope_modifyScope_ne hne _).trans (scope_define_ne hne x)
  have scope : q.scope cur = { p.scope cur with
      symbols := ((p.scope cur).bind x.name p.vars.size).symbols
      body := (p.scope cur).body.push (.create p.vars.size type span) } := by
    show ((p.define cur x).addStmt cur _).scope cur = _
    rw [addStmt, scope_modifyScope_self (by simpa using hlt), scope_define_self hlt]
    rfl
  have g : p.Grows L opens cur q K :=
    grows_next scopes vars other (fun _ _ => rfl) rfl rfl rfl rfl
  refine h.extend g hcur inner scopes scope rfl ⟨?_, ?_⟩ (fun v hv => ?_) (fun e he => ?_) (fun j hj => by cases hj)
    (fun m site hm initial => ?_) fun v value hv initial => ?_
  · exact htype.mono (fun _ hv => hv) fun v hv => g.settable (fun w hw => h.made hw) hv
  · refine ⟨inside_next h hcur, fun seen => Nat.lt_irrefl _ (h.made seen), fun value initial => ?_,
      fun site initial w hw => ?_⟩
    · rw [var_push_self vars] at initial
      exact (hreadOnly value initial).2
    · rw [var_push_self vars] at initial
      exact (hbody site initial).2.1 w hw
  · rw [List.mem_singleton.1 hv]
    exact inside_next h hcur
  · rcases List.mem_cons.1 he with rfl | he
    · exact .inr List.mem_cons_self
    · exact .inl (List.mem_filter.1 he).1
  · rcases Nat.lt_or_eq_of_le hm with hm | rfl
    · rw [var_push_gt vars hm] at initial
      cases initial
    · rw [var_push_self vars] at initial
      obtain ⟨laid, -, hlt, hclosed⟩ := hbody site initial
      exact ⟨g.bodies h (ne_of_closed hcur) hlt hclosed laid, hlt, hclosed⟩
  · rcases Nat.lt_or_eq_of_le hv with hv | rfl
    · rw [var_push_gt vars hv] at initial
      cases initial
    · rw [var_push_self vars] at initial ⊢
      exact (hreadOnly value initial).1

/-- A program that differs in the current scope only. -/
theorem grows_same (h : p.Making L opens) (scopes : p'.scopes.size = p.scopes.size) (vars : p'.vars = p.vars)
    (scope : ∀ i, i ≠ cur → p'.scope i = p.scope i) (sees : ∀ i, i ≠ cur → L'.sees i = L.sees i)
    (first : L'.first = L.first) (frame : L'.frame = L.frame) (past : L'.past = L.past) (owner : L'.owner = L.owner) :
    p.Grows L opens cur p' L' := by
  refine ⟨Nat.le_of_eq scopes.symm, Nat.le_of_eq (by rw [vars]), fun v _ => by rw [var, vars]; rfl,
    fun i _ hne => scope i hne, fun i _ hne => sees i hne, fun i _ => by rw [first], fun i _ => by rw [frame],
    fun i _ _ => by rw [past], fun i hopen => ?_, fun v _ => by rw [owner]⟩
  rw [past, vars]
  exact h.opens_past i hopen

theorem no_new_vars {P : Prop} (vars : p'.vars = p.vars) {value : Constant} (hv : p.vars.size ≤ v)
    (initial : (p'.var v).initial = some value) : P := by
  rw [var_of_size_le (by rw [vars]; exact hv)] at initial
  cases initial

/-- The innermost open scope gets a statement; the variables it declares were made before. -/
theorem Making.addStmt (h : p.Making L opens) (hcur : cur ∈ opens) (inner : ∀ i ∈ opens, i ≤ cur)
    (scopes : p'.scopes.size = p.scopes.size) (vars : p'.vars = p.vars)
    (other : ∀ i, i ≠ cur → p'.scope i = p.scope i) {symbols : List (String × VarId)} {st : Stmt}
    (scope : p'.scope cur = { p.scope cur with symbols := symbols, body := (p.scope cur).body.push st })
    (place : p.Places L cur (p.InSight L cur) st) (declares : ∀ v ∈ st.declares, L.Inside cur v)
    (named : ∀ e ∈ symbols, e ∈ (p.scope cur).symbols ∨ e.2 ∈ st.declares)
    (nested : ∀ j ∈ st.scopes, j < p.scopes.size ∧ j ∉ opens) : p'.Making L opens := by
  have g : p.Grows L opens cur p' L := grows_same h scopes vars other (fun _ _ => rfl) rfl rfl rfl rfl
  refine h.extend g hcur inner scopes scope rfl ?_ declares named nested (fun m site hm => no_new_vars vars hm)
    fun v value hv => no_new_vars vars hv
  exact g.places h (ne_of_closed hcur) (h.opens_lt cur hcur) (fun v hv => h.made hv) nested place

/-- A change of the current scope that leaves its statements and what is in sight alone. -/
theorem Making.relabel (h : p.Making L opens) (hcur : cur ∈ opens) (inner : ∀ i ∈ opens, i ≤ cur)
    (scopes : p'.scopes.size = p.scopes.size) (vars : p'.vars = p.vars)
    (other : ∀ i, i ≠ cur → p'.scope i = p.scope i) (parent : (p'.scope cur).parent = (p.scope cur).parent)
    (symbols : (p'.scope cur).symbols = (p.scope cur).symbols) (body : (p'.scope cur).body = (p.scope cur).body)
    {T : VarId → Prop} (sees : ∀ j, (p.scope cur).parent = some j → ∀ v, p.InSight L j v → T v)
    (sight : ∀ v, v ∈ (p'.scope cur).inputs ∨ T v ↔ v ∈ (p.scope cur).inputs ∨ L.sees cur v) :
    p'.Making { L with sees := fun i => if i = cur then T else L.sees i } opens := by
  have g : p.Grows L opens cur p' { L with sees := fun i => if i = cur then T else L.sees i } :=
    grows_same h scopes vars other (fun i hne => if_neg hne) rfl rfl rfl rfl
  have here : (if cur = cur then T else L.sees cur) = T := if_pos rfl
  have sightEq (before : List Stmt) : p'.Sight { L with sees := fun i => if i = cur then T else L.sees i } cur before =
      p.Sight L cur before := by
    funext v
    show (_ ∨ _ ∨ (if cur = cur then T else L.sees cur) v) = (_ ∨ _ ∨ _)
    rw [here]
    exact propext (or_congr Iff.rfl (sight v))
  have statementsEq : p'.statements cur = p.statements cur := by rw [statements, statements, body]
  refine h.change g hcur inner scopes parent (fun i hi v => ?_) (fun j hj v hv => ?_) (fun before st after eq => ?_)
    (fun v hv => ?_) (fun e he => ?_) (fun st hst => ?_) (fun m site hm => no_new_vars vars hm)
    fun v value hv => no_new_vars vars hv
  · show ¬(if i = cur then T else L.sees i) v
    have other : i ≠ cur := fun same => absurd (h.opens_lt cur hcur) (Nat.not_lt.2 (same ▸ hi))
    rw [if_neg other]
    exact h.unmade i hi v
  · show (if cur = cur then T else L.sees cur) v
    rw [here]
    exact sees j hj v hv
  · rw [statementsEq] at eq
    rw [sightEq]
    exact g.places_laid h (ne_of_closed hcur) eq
  · rw [InSight, sightEq, statementsEq] at hv
    exact .inl hv
  · rw [symbols] at he
    obtain ⟨seen, inside⟩ := h.symbols cur e he
    refine ⟨?_, inside.owner, inside.first, inside.past⟩
    rw [InSight, sightEq, statementsEq]
    exact seen
  · rw [statementsEq] at hst
    exact h.nested cur st hst

/-- A change of what a layout does not speak of. -/
theorem Making.setOutputs (h : p.Making L opens) (hcur : cur ∈ opens) (inner : ∀ i ∈ opens, i ≤ cur)
    (scopes : p'.scopes.size = p.scopes.size) (vars : p'.vars = p.vars)
    (other : ∀ i, i ≠ cur → p'.scope i = p.scope i) {outs : List VarId}
    (scope : p'.scope cur = { p.scope cur with outputs := outs }) : p'.Making L opens := by
  have same : ({ L with sees := fun i => if i = cur then L.sees cur else L.sees i } : Layout) = L := by
    obtain ⟨sees, first, past, frame, owner⟩ := L
    congr 1
    funext i
    split
    · rename_i hi
      rw [hi]
    · rfl
  rw [← same]
  exact h.relabel hcur inner scopes vars other (by rw [scope]) (by rw [scope]) (by rw [scope])
    (fun j hj => (h.parents cur hcur j hj).2) fun v => by rw [scope]

/-- A variable without a value is brought into sight of the current scope, which has no statements yet. -/
theorem Making.bring (h : p.Making L opens) (hcur : cur ∈ opens) (inner : ∀ i ∈ opens, i ≤ cur)
    (empty : p.statements cur = []) {x : Variable} (bare : x.initial = none) :
    (p.define cur x).Making { L.next opens p.vars.size (L.frame cur) with
      sees := fun i v => L.sees i v ∨ (i = cur ∧ v = p.vars.size) } opens := by
  have hlt : cur < p.scopes.size := h.opens_lt cur hcur
  let q : Program := p.define cur x
  let K : Layout := { L.next opens p.vars.size (L.frame cur) with
    sees := fun i v => L.sees i v ∨ (i = cur ∧ v = p.vars.size) }
  have vars : q.vars = p.vars.push x := rfl
  have scope : q.scope cur = (p.scope cur).bind x.name p.vars.size := scope_define_self hlt x
  have inside : K.Inside cur p.vars.size :=
    ⟨(inside_next h hcur).owner, (inside_next h hcur).first, (inside_next h hcur).past⟩
  have g : p.Grows L opens cur q K := by
    refine grows_next (scopes_size_define p cur x) vars (fun i hne => scope_define_ne hne x) (fun i hne => ?_) rfl rfl rfl
      rfl
    funext v
    simp [K, hne]
  have none : q.statements cur = [] := by
    rw [statements, scope]
    exact empty
  have bareNew {P : Prop} (v : VarId) (value : Constant) (hv : p.vars.size ≤ v)
      (initial : (q.var v).initial = some value) : P := by
    rcases Nat.lt_or_eq_of_le hv with hv | rfl
    · rw [var_push_gt vars hv] at initial
      cases initial
    · rw [var_push_self vars, bare] at initial
      cases initial
  refine h.change g hcur inner (scopes_size_define p cur x) (by rw [scope]; rfl) (fun i hi v => ?_)
    (fun j hj v hv => .inl ((h.parents cur hcur j hj).2 v hv)) (fun before st after eq => ?_) (fun v hv => ?_)
    (fun e he => ?_) (fun st hst => ?_) (fun m site hm => bareNew m _ hm) fun v value hv => bareNew v value hv
  · rintro (seen | ⟨rfl, -⟩)
    · exact h.unmade i hi v seen
    · exact absurd hlt (Nat.not_lt.2 hi)
  · rw [none] at eq
    simp at eq
  · rw [InSight, none] at hv
    rcases hv with ⟨st, hst, -⟩ | hv | hv | ⟨-, rfl⟩
    · cases hst
    · rw [scope] at hv
      exact .inl (.inr (.inl hv))
    · exact .inl (.inr (.inr hv))
    · exact .inr inside
  · rw [scope] at he
    rcases List.mem_cons.1 he with rfl | he
    · exact ⟨.inr (.inr (.inr ⟨rfl, rfl⟩)), inside⟩
    · obtain ⟨seen, inner⟩ := h.symbols cur e (List.mem_filter.1 he).1
      refine ⟨?_, g.inside h hlt inner⟩
      rcases seen with ⟨st, hst, -⟩ | seen | seen
      · rw [empty] at hst
        cases hst
      · refine .inr (.inl ?_)
        rw [scope]
        exact seen
      · exact .inr (.inr (.inl seen))
  · rw [none] at hst
    cases hst

end Program

/-- A scope is opened with `sees` in sight, as part of the macro body `frame`. -/
def Layout.opened (L : Layout) (j : ScopeId) (sees : VarId → Prop) (n : VarId) (frame : ScopeId) : Layout where
  sees := fun i => if i = j then sees else L.sees i
  first := fun i => if i = j then n else L.first i
  past := fun i => if i = j then n else L.past i
  frame := fun i => if i = j then frame else L.frame i
  owner := L.owner

namespace Program

variable {p p' : Program} {L L' : Layout} {opens : List ScopeId} {cur i j : ScopeId} {v : VarId}

theorem scope_addScope_lt (hi : i < p.scopes.size) (parent : Option ScopeId) :
    (p.addScope parent).scope i = p.scope i := by
  simp only [scope, addScope, Array.getD_eq_getD_getElem?]
  rw [Array.getElem?_push, if_neg (Nat.ne_of_lt hi)]

theorem scope_addScope_new (p : Program) (parent : Option ScopeId) :
    (p.addScope parent).scope p.scopes.size = { parent := parent } := by
  simp [scope, addScope]

theorem scopes_size_addScope (p : Program) (parent : Option ScopeId) :
    (p.addScope parent).scopes.size = p.scopes.size + 1 :=
  Array.size_push _

theorem grows_opened (h : p.Making L opens) (parent : Option ScopeId) {sees : VarId → Prop} {frame : ScopeId} :
    p.Grows L opens cur (p.addScope parent) (L.opened p.scopes.size sees p.vars.size frame) := by
  have other {i : ScopeId} (hi : i < p.scopes.size) : i ≠ p.scopes.size := Nat.ne_of_lt hi
  exact ⟨by rw [scopes_size_addScope]; exact Nat.le_succ _, Nat.le_refl _, fun _ _ => rfl,
    fun i hi _ => scope_addScope_lt hi parent, fun i hi _ => if_neg (other hi), fun i hi => if_neg (other hi),
    fun i hi => if_neg (other hi), fun i hi _ => if_neg (other hi),
    fun i hopen => (if_neg (other (h.opens_lt i hopen))).trans (h.opens_past i hopen), fun _ _ => rfl⟩

section Opening

variable {frame : ScopeId}

theorem statements_opened (p : Program) (parent : Option ScopeId) :
    (p.addScope parent).statements p.scopes.size = [] := by rw [statements, scope_addScope_new]

/-- The scope that is opened has what is behind the statements of the innermost one in sight. -/
theorem inSight_opened : (p.addScope (some cur)).InSight (L.opened p.scopes.size (p.InSight L cur) p.vars.size frame)
    p.scopes.size v ↔ p.InSight L cur v := by
  rw [InSight, statements_opened, Sight, scope_addScope_new]
  show (_ ∨ _ ∨ (if p.scopes.size = p.scopes.size then p.InSight L cur else _) v) ↔ _
  simp

variable (h : p.Making L opens) (hcur : cur ∈ opens) (hframe : frame = L.frame cur ∨ frame = p.scopes.size)

include h hcur hframe

/-- The frame of the scope that is opened is open. -/
theorem frame_opened : L.frame cur ≤ frame ∧ frame ≤ p.scopes.size ∧ frame ∈ p.scopes.size :: opens ∧
    (L.opened p.scopes.size (p.InSight L cur) p.vars.size frame).past frame = p.vars.size := by
  have hlt : cur < p.scopes.size := h.opens_lt cur hcur
  have frameLt : L.frame cur < p.scopes.size := Nat.lt_of_le_of_lt (h.frame cur hlt) hlt
  have hopen := h.opens_frame cur hcur
  rcases hframe with rfl | rfl
  · exact ⟨Nat.le_refl _, Nat.le_of_lt frameLt, List.mem_cons_of_mem _ hopen,
      (if_neg (Nat.ne_of_lt frameLt)).trans (h.opens_past _ hopen)⟩
  · exact ⟨Nat.le_of_lt frameLt, Nat.le_refl _, List.mem_cons_self, if_pos rfl⟩

/-- What the invariant says of the scope that is opened: it is empty, and of the innermost one what is in sight. -/
theorem laidAt_opened : (p.addScope (some cur)).LaidAt (L.opened p.scopes.size (p.InSight L cur) p.vars.size frame)
    (p.scopes.size :: opens) p.scopes.size := by
  have hlt : cur < p.scopes.size := h.opens_lt cur hcur
  have frameLt : L.frame cur < p.scopes.size := Nat.lt_of_le_of_lt (h.frame cur hlt) hlt
  obtain ⟨above, below, -, past⟩ := frame_opened h hcur hframe
  let K : Layout := L.opened p.scopes.size (p.InSight L cur) p.vars.size frame
  have frameNew : K.frame p.scopes.size = frame := if_pos rfl
  have firstNew : K.first p.scopes.size = p.vars.size := if_pos rfl
  have pastNew : K.past p.scopes.size = p.vars.size := if_pos rfl
  refine ⟨fun before st after eq => ?_, fun v hv => ?_, Nat.le_of_eq (firstNew.trans pastNew.symm),
    Nat.le_of_eq pastNew, Nat.le_trans (Nat.le_of_eq frameNew) below, fun v hv => ?_, fun e he => ?_,
    fun st hst => ?_⟩
  · rw [statements_opened] at eq
    simp at eq
  · have seen := inSight_opened.1 hv
    obtain ⟨howner, hopens⟩ := h.owners cur v seen
    have height : K.height v = p.vars.size :=
      (if_neg (Nat.ne_of_lt (Nat.lt_of_le_of_lt howner frameLt))).trans
        (h.opens_past _ (hopens (h.opens_frame cur hcur)))
    have rank : K.rank p.scopes.size = p.vars.size := by rw [Layout.rank, frameNew, past]
    rw [rank, height]
    exact ⟨h.made seen, Nat.le_refl _⟩
  · rw [frameNew]
    obtain ⟨howner, hopens⟩ := h.owners cur v (inSight_opened.1 hv)
    exact ⟨Nat.le_trans howner above, fun _ => List.mem_cons_of_mem _ (hopens (h.opens_frame cur hcur))⟩
  · rw [scope_addScope_new] at he
    cases he
  · rw [statements_opened] at hst
    cases hst

/-- A scope is opened inside the innermost one, in the same macro body or as the body of a new macro. -/
theorem Making.openScope :
    (p.addScope (some cur)).Making (L.opened p.scopes.size (p.InSight L cur) p.vars.size frame)
      (p.scopes.size :: opens) := by
  have hlt : cur < p.scopes.size := h.opens_lt cur hcur
  have size := scopes_size_addScope p (some cur)
  have g : p.Grows L opens p.scopes.size (p.addScope (some cur))
      (L.opened p.scopes.size (p.InSight L cur) p.vars.size frame) := grows_opened h (some cur)
  have apart (j : ScopeId) (hj : j < p.scopes.size) : j ∉ opens → j ≠ p.scopes.size := fun _ => Nat.ne_of_lt hj
  have same (j : ScopeId) (hj : j < p.scopes.size) : j ∈ p.scopes.size :: opens ↔ j ∈ opens := by
    simp [Nat.ne_of_lt hj]
  refine .of_scopes (fun i hi v => ?_) (fun i hi => ?_) (fun i hi => ?_)
    (List.pairwise_cons.2 ⟨fun i hi => h.opens_lt i hi, h.sorted⟩) (fun m site hm => ?_) h.readOnly
  · show ¬(if i = p.scopes.size then p.InSight L cur else L.sees i) v
    have beyond : p.scopes.size < i := Nat.le_trans (Nat.le_of_eq size.symm) hi
    rw [if_neg (Nat.ne_of_gt beyond)]
    exact h.unmade i (Nat.le_of_lt beyond) v
  · rcases Nat.lt_or_eq_of_le (Nat.le_of_lt_add_one (Nat.lt_of_lt_of_eq hi size)) with hi | rfl
    · exact g.laidAt h apart same hi (Nat.ne_of_lt hi)
    · exact laidAt_opened h hcur hframe
  · rcases List.mem_cons.1 hi with rfl | hi
    · refine ⟨by rw [size]; exact Nat.lt_succ_self _, if_pos rfl, ?_, fun k hk => ?_⟩
      · show (if p.scopes.size = p.scopes.size then frame else _) ∈ _
        rw [if_pos rfl]
        exact (frame_opened h hcur hframe).2.2.1
      · rw [scope_addScope_new] at hk
        cases hk
        refine ⟨⟨List.mem_cons_of_mem _ hcur, hlt⟩, fun v hv => ?_⟩
        show (if p.scopes.size = p.scopes.size then p.InSight L cur else _) v
        rw [if_pos rfl]
        exact (g.inSight_iff hlt (Nat.ne_of_lt hlt)).1 hv
    · have hlt := h.opens_lt i hi
      exact g.openAt h same hi (Nat.ne_of_lt hlt) fun j hless => Nat.ne_of_lt (Nat.lt_trans hless hlt)
  · obtain ⟨hlt, hclosed⟩ := h.bodies m site hm
    refine ⟨g.bodies h apart hlt hclosed (h.laid.bodies m site hm), by rw [size]; exact Nat.lt_succ_of_lt hlt, ?_⟩
    exact mt (same _ hlt).1 hclosed

end Opening

/-- The innermost scope is closed. -/
theorem Making.closeScope (h : p.Making L (j :: opens)) : p.Making L opens := by
  obtain ⟨smaller, sorted⟩ := List.pairwise_cons.1 h.sorted
  have keep {i : ScopeId} (hi : i < j) (hmem : i ∈ j :: opens) : i ∈ opens := by
    rcases List.mem_cons.1 hmem with rfl | hmem
    · exact absurd hi (Nat.lt_irrefl _)
    · exact hmem
  have frameLt {i : ScopeId} (hi : i ∈ opens) : L.frame i < j :=
    Nat.lt_of_le_of_lt (h.frame i (h.opens_lt i (List.mem_cons_of_mem _ hi))) (smaller i hi)
  refine ⟨h.laid, h.unmade, h.first, h.past, h.frame, fun i hi => h.opens_lt i (List.mem_cons_of_mem _ hi),
    fun i hi => h.opens_past i (List.mem_cons_of_mem _ hi), fun i hi => ?_, sorted, fun i v hv => ?_, h.symbols,
    fun i hi k hk => ?_, fun i st hst k hk => ?_, fun m site hm => ?_, h.readOnly⟩
  · exact keep (frameLt hi) (h.opens_frame i (List.mem_cons_of_mem _ hi))
  · obtain ⟨howner, hopens⟩ := h.owners i v hv
    refine ⟨howner, fun hopen => ?_⟩
    exact keep (Nat.lt_of_le_of_lt howner (smaller _ hopen)) (hopens (List.mem_cons_of_mem _ hopen))
  · obtain ⟨⟨hopen, hless⟩, hsees⟩ := h.parents i (List.mem_cons_of_mem _ hi) k hk
    exact ⟨⟨keep (Nat.lt_trans hless (smaller i hi)) hopen, hless⟩, hsees⟩
  · obtain ⟨hlt, hclosed⟩ := h.nested i st hst k hk
    exact ⟨hlt, fun hopen => hclosed (List.mem_cons_of_mem _ hopen)⟩
  · obtain ⟨hlt, hclosed⟩ := h.bodies m site hm
    exact ⟨hlt, fun hopen => hclosed (List.mem_cons_of_mem _ hopen)⟩

end Program

end SignalLang.Scoped
