import SignalLang.Proofs.Scoped.Blocks
import SignalLang.Proofs.Staged.Termination

/-!
# Includes are taken once

While a program is built, each open scope has a frame with the files it has taken in. `Build.During` lists the moments
of building: before each statement, at whatever depth of blocks, macros and included files, with the files that are
being taken in around it. Where all included files are in the library, the frames hold different files at every moment,
and an include statement builds the statements of its file exactly when no frame has it
(`ofTree_includes_once`). So includes are nested no deeper than there are files, and the bound on their nesting that
building works with is never met.

Nothing but scopes and includes touches the frames (`Build.Quiet`). `Build.Agree` says of two steps that they do the
same and add files to the innermost frame only; the bound is irrelevant because steps with different bounds agree.
-/

namespace SignalLang

/-! ## Included files -/

/-- The file of a library that an include names. -/
def Library.included? (lib : Library) (path : List UInt8) : Option Nat :=
  (String.fromUTF8? ⟨path.toArray⟩).bind lib.find?

namespace Tree

mutual

/-- The names of the files that a statement includes, at any depth. -/
def Stmt.includes : Stmt → List (List UInt8)
  | .macroDef _ _ _ body _ _ | .loop _ _ _ _ body _ | .static _ body _ | .block body => body.includes
  | .branch clauses otherwise _ => clauseIncludes clauses ++ otherwiseIncludes otherwise
  | .includeFile path _ => [path]
  | .io .. | .decl .. | .assign .. | .call .. | .expr .. | .assert .. | .ret _ => []

/-- The names of the files that a block includes. -/
def Block.includes : Block → List (List UInt8)
  | .mk statements _ => stmtIncludes statements

/-- The names of the files that statements include. -/
def stmtIncludes : List Stmt → List (List UInt8)
  | [] => []
  | s :: ss => s.includes ++ stmtIncludes ss

/-- The names of the files that the bodies of clauses include. -/
def clauseIncludes : List Clause → List (List UInt8)
  | [] => []
  | .mk _ body :: rest => body.includes ++ clauseIncludes rest

/-- The names of the files that the body without a condition includes. -/
def otherwiseIncludes : Option Block → List (List UInt8)
  | none => []
  | some body => body.includes

end

theorem clauseIncludes_append (cs ds : List Clause) :
    clauseIncludes (cs ++ ds) = clauseIncludes cs ++ clauseIncludes ds := by
  induction cs with
  | nil => rfl
  | cons c cs ih =>
    obtain ⟨condition, body⟩ := c
    rw [List.cons_append, clauseIncludes, clauseIncludes, ih, List.append_assoc]

end Tree

/-- Every file that a tree or a file of the library includes is in the library. -/
structure Library.HasIncludes (lib : Library) (tree : Tree.File) : Prop where
  tree : ∀ path ∈ Tree.stmtIncludes tree.statements, (lib.included? path).isSome
  files : ∀ (i : Nat) (t : Tree.File), i < lib.files.size → Tree.ofLibrary lib i = .ok t →
    ∀ path ∈ Tree.stmtIncludes t.statements, (lib.included? path).isSome

namespace Scoped

namespace Builder

/-- The files that open scopes have taken in. -/
def taken (b : Builder) : List Nat := b.included.flatten

/-- The innermost scope takes a file in. -/
def mark (b : Builder) (i : Nat) : Builder := { b with
  included :=
    match b.included with
    | frame :: rest => (i :: frame) :: rest
    | [] => [[i]] }

/-- The open frames hold different files of a library, and at least `n`. -/
structure Framed (lib : Library) (n : Nat) (b : Builder) : Prop where
  library : b.library = lib
  innermost : b.included ≠ []
  nodup : b.taken.Nodup
  known : ∀ i ∈ b.taken, i < lib.files.size
  most : n ≤ b.taken.length

/-- The innermost frame has got more files. -/
structure Gathers (lib : Library) (n : Nat) (b b' : Builder) : Prop where
  framed : b'.Framed lib n
  frames : ∃ frame frames more, b.included = frame :: frames ∧ b'.included = (more ++ frame) :: frames

variable {lib : Library} {n : Nat} {b b' b'' : Builder}

theorem Gathers.same (h : b.Framed lib n) (library : b'.library = b.library) (included : b'.included = b.included) :
    b.Gathers lib n b' := by
  have taken : b'.taken = b.taken := congrArg List.flatten included
  obtain ⟨frame, frames, eq⟩ := List.exists_cons_of_ne_nil h.innermost
  refine ⟨⟨library.trans h.library, included ▸ h.innermost, taken ▸ h.nodup, taken ▸ h.known, taken ▸ h.most⟩,
    frame, frames, [], eq, included.trans eq⟩

theorem Gathers.trans (g : b.Gathers lib n b') (g' : b'.Gathers lib n b'') : b.Gathers lib n b'' := by
  obtain ⟨frame, frames, more, eq, eq'⟩ := g.frames
  obtain ⟨frame', frames', more', eq₁, eq₁'⟩ := g'.frames
  obtain ⟨rfl, rfl⟩ := List.cons.inj (eq'.symm.trans eq₁)
  exact ⟨g'.framed, frame, frames, more' ++ more, eq, by rw [eq₁', List.append_assoc]⟩

theorem Gathers.mem_taken (g : b.Gathers lib n b') {i : Nat} (h : i ∈ b.taken) : i ∈ b'.taken := by
  obtain ⟨frame, frames, more, eq, eq'⟩ := g.frames
  rw [taken, eq, List.flatten_cons] at h
  rw [taken, eq', List.flatten_cons, List.append_assoc]
  exact List.mem_append_right _ h

theorem taken_mark (b : Builder) (i : Nat) : (b.mark i).taken = i :: b.taken := by
  unfold taken mark
  cases b.included <;> rfl

theorem Framed.le (h : b.Framed lib n) {m : Nat} (hm : m ≤ b.taken.length) : b.Framed lib m :=
  ⟨h.library, h.innermost, h.nodup, h.known, hm⟩

/-- Another file is taken in. -/
theorem Framed.mark (h : b.Framed lib n) {i : Nat} (hi : i < lib.files.size) (fresh : i ∉ b.taken) :
    (b.mark i).Framed lib (n + 1) := by
  refine ⟨h.library, ?_, ?_, ?_, ?_⟩
  · unfold Builder.mark
    cases b.included <;> exact List.cons_ne_nil _ _
  · rw [taken_mark]
    exact List.nodup_cons.2 ⟨fresh, h.nodup⟩
  · rw [taken_mark]
    intro j hj
    rcases List.mem_cons.1 hj with rfl | hj
    · exact hi
    · exact h.known j hj
  · rw [taken_mark]
    exact Nat.succ_le_succ h.most

theorem Framed.gathers_mark (h : b.Framed lib n) {i : Nat} (hi : i < lib.files.size) (fresh : i ∉ b.taken) :
    b.Gathers lib n (b.mark i) := by
  have marked := h.mark hi fresh
  obtain ⟨frame, frames, eq⟩ := List.exists_cons_of_ne_nil h.innermost
  exact ⟨marked.le (Nat.le_of_succ_le marked.most), frame, frames, [i], eq, by rw [Builder.mark, eq]; rfl⟩

theorem Framed.opened (h : b.Framed lib n) : b.opened.Framed lib n :=
  ⟨h.library, List.cons_ne_nil _ _, h.nodup, h.known, h.most⟩

/-- No more files are taken in than there are. -/
theorem Framed.length_le (h : b.Framed lib n) : b.taken.length ≤ lib.files.size :=
  Staged.Stage.length_le_of_nodup h.nodup h.known

/-- When as many files are taken in as there are, all of them are. -/
theorem Framed.mem_of_full (h : b.Framed lib lib.files.size) {i : Nat} (hi : i < lib.files.size) : i ∈ b.taken := by
  by_contra fresh
  have more := (h.mark hi fresh).length_le
  rw [taken_mark, List.length_cons] at more
  have := h.most
  omega

end Builder

theorem lt_of_included {lib : Library} {path : List UInt8} {i : Nat} (h : lib.included? path = some i) :
    i < lib.files.size := by
  obtain ⟨name, -, found⟩ := Option.bind_eq_some_iff.1 h
  exact (Array.findIdx?_eq_some_iff_getElem.1 found).1

namespace Build

open Builder

variable {α β : Type}

/-! ## Steps that leave the frames alone -/

/-- The step leaves the library and the open frames as they are, also when it fails. -/
def Quiet (m : Build α) : Prop := ∀ b, (m.run b).2.library = b.library ∧ (m.run b).2.included = b.included

namespace Quiet

variable {m : Build α} {f : α → Build β}

theorem pure (a : α) : Quiet (Pure.pure a) := fun _ => ⟨rfl, rfl⟩

theorem refuse (p : Problem) : Quiet (Build.refuse p : Build α) := fun _ => ⟨rfl, rfl⟩

theorem get : Quiet (get : Build Builder) := fun _ => ⟨rfl, rfl⟩

theorem modify {u : Builder → Builder} (library : ∀ b, (u b).library = b.library)
    (included : ∀ b, (u b).included = b.included) : Quiet (modify u) := fun b => ⟨library b, included b⟩

theorem change (f : Program → Program) : Quiet (change f) := modify (fun _ => rfl) fun _ => rfl

theorem bind (hm : Quiet m) (hf : ∀ a, Quiet (f a)) : Quiet (m >>= f) := by
  intro b
  have first := hm b
  rw [run_bind]
  rcases hr : m.run b with ⟨r, b'⟩
  rw [hr] at first
  cases r with
  | error e => exact first
  | ok a =>
    obtain ⟨library, included⟩ := hf a b'
    exact ⟨library.trans first.1, included.trans first.2⟩

theorem map {g : α → β} (hm : Quiet m) : Quiet (g <$> m) := by
  rw [map_eq_pure_bind]
  exact hm.bind fun _ => pure _

theorem forM {f : α → Build Unit} (h : ∀ a, Quiet (f a)) (xs : List α) : Quiet (xs.forM f) := by
  induction xs with
  | nil => exact pure ()
  | cons x xs ih => exact (h x).bind fun _ => ih

theorem mapM {f : α → Build β} (h : ∀ a, Quiet (f a)) (xs : List α) : Quiet (xs.mapM f) := by
  induction xs with
  | nil =>
    rw [List.mapM_nil]
    exact pure []
  | cons x xs ih =>
    rw [List.mapM_cons]
    exact (h x).bind fun _ => ih.bind fun _ => pure _

end Quiet

theorem quiet_emit (st : Stmt) : Quiet (emit st) := .bind .get fun _ => .change _

theorem quiet_define (v : Variable) : Quiet (define v) := .bind .get fun _ => .bind (.change _) fun _ => .pure _

theorem quiet_defineIdent (id : Tree.Ident) : Quiet (defineIdent id) := quiet_define _

theorem quiet_lookup (id : Tree.Ident) : Quiet (lookup id) := by
  refine .bind .get fun b => ?_
  split
  · exact .pure _
  · exact .refuse _

theorem quiet_writable (id : Tree.Ident) : Quiet (writable id) := by
  refine (quiet_lookup id).bind fun v => .bind .get fun b => ?_
  dsimp only
  split
  · exact .refuse _
  · exact .pure v

theorem quiet_targetIdent (e : Tree.Expr) : Quiet (targetIdent e) := by
  fun_induction targetIdent e with
  | case1 id => exact .pure id
  | case2 => exact .refuse _
  | case3 base _ optional span hopt ih => exact ih
  | case4 e => exact .refuse _

theorem quiet_property (name : String) (span : Span) : Quiet (property name span) := by
  unfold property
  split
  · exact .pure _
  · exact .pure _
  · exact .refuse _

mutual

theorem quiet_value : (e : Tree.Expr) → Quiet (value e)
  | .name id => by
    rw [value]
    exact (quiet_lookup id).bind fun _ => .pure _
  | .int v span => by
    rw [value]
    split
    · exact .refuse _
    · exact .pure _
  | .float v span => by
    rw [value]
    exact .pure _
  | .array items span => by
    rw [value]
    exact (quiet_values items).bind fun _ => .pure _
  | .arrayType dims base span => by
    rw [value]
    exact (quiet_values dims).bind fun _ => (quiet_value base).bind fun _ => .pure _
  | .openBound span => by
    rw [value]
    exact .pure _
  | .upperBound upper span => by
    rw [value]
    exact (quiet_value upper).bind fun _ => .pure _
  | .closedBound lower upper span => by
    rw [value]
    exact (quiet_value lower).bind fun _ => (quiet_value upper).bind fun _ => .pure _
  | .index base index optional span => by
    rw [value]
    refine (quiet_value base).bind fun v => (quiet_value index).bind fun i => ?_
    dsimp only
    split <;> exact .pure _
  | .property base name nameSpan span => by
    rw [value]
    exact (quiet_value base).bind fun _ => (quiet_property name nameSpan).bind fun _ => .pure _
  | .unary op operand span => by
    rw [value]
    exact (quiet_value operand).bind fun _ => .pure _
  | .binary op left right span => by
    rw [value]
    exact (quiet_value left).bind fun _ => (quiet_value right).bind fun _ => .pure _
  | .call callee inputs explicit outs span => by
    rw [value]
    refine (quiet_lookup callee).bind fun v => (quiet_values inputs).bind fun vs => ?_
    split
    · refine (quiet_outputs false outs).bind fun r => ?_
      dsimp only
      split
      · exact .pure _
      · exact .refuse _
    · exact .pure _
  | .decl type name span => by
    rw [value]
    exact .refuse _

theorem quiet_values : (es : List Tree.Expr) → Quiet (values es)
  | [] => by
    rw [values]
    exact .pure []
  | e :: es => by
    rw [values]
    exact (quiet_value e).bind fun _ => (quiet_values es).bind fun _ => .pure _

theorem quiet_outputs (seen : Bool) : (outs : List Tree.Output) → Quiet (outputs seen outs)
  | [] => by
    rw [outputs]
    exact .pure _
  | .inline span :: rest => by
    rw [outputs]
    split
    · exact .bind (.refuse _) fun _ => (quiet_outputs true rest).bind fun _ => .pure _
    · exact (quiet_outputs true rest).bind fun _ => .pure _
  | .target e span :: rest => by
    rw [outputs]
    exact (quiet_target e).bind fun _ => (quiet_outputs seen rest).bind fun _ => .pure _

theorem quiet_target : (e : Tree.Expr) → Quiet (target e)
  | .decl type name span => by
    rw [target]
    exact (quiet_value type).bind fun _ => (quiet_defineIdent name).bind fun _ => (quiet_emit _).bind fun _ => .pure _
  | .name id => by
    rw [target]
    exact (quiet_writable id).bind fun _ => .pure _
  | .index base index optional span => by
    have place : Quiet (do
        let v ← writable (← targetIdent base)
        let inner ← targetIndexes base
        return .mk v (inner ++ [← value index]) span : Build Target) :=
      (quiet_targetIdent base).bind fun _ => (quiet_writable _).bind fun _ => (quiet_targetIndexes base).bind fun _ =>
        (quiet_value index).bind fun _ => .pure _
    rw [target]
    split
    · exact .bind (.refuse _) fun _ => place
    · exact place
  | .int .. | .float .. | .array .. | .arrayType .. | .openBound .. | .upperBound .. | .closedBound .. | .property ..
  | .unary .. | .binary .. | .call .. => by
    simp only [target]
    exact .refuse _

theorem quiet_targetIndexes : (e : Tree.Expr) → Quiet (targetIndexes e)
  | .index base index optional span => by
    rw [targetIndexes]
    exact (quiet_targetIndexes base).bind fun _ => (quiet_value index).bind fun _ => .pure _
  | .name .. | .int .. | .float .. | .array .. | .arrayType .. | .openBound .. | .upperBound .. | .closedBound ..
  | .property .. | .unary .. | .binary .. | .call .. | .decl .. => by
    simp only [targetIndexes]
    exact .pure []

end

theorem quiet_callAlone (e : Tree.Expr) : Quiet (callAlone e) := by
  unfold callAlone
  split
  · refine (quiet_lookup _).bind fun v => (quiet_values _).bind fun vs => ?_
    split
    · exact (quiet_outputs false _).map.bind fun _ => .pure _
    · exact .bind (.pure _) fun _ => .pure _
  · exact quiet_value _

theorem quiet_checkSignature (callee : String) (seen ids : List Tree.Ident) :
    Quiet (checkSignature callee seen ids) := by
  fun_induction checkSignature callee seen ids with
  | case1 seen => exact .pure ()
  | case2 seen id rest first found => exact .refuse _
  | case3 seen id rest fresh ih => exact ih

theorem quiet_macroOutputs (body : ScopeId) (callee : String) (header : Span) (outs : List Tree.Ident) :
    Quiet (macroOutputs body callee header outs) := by
  refine .mapM (fun id => .bind .get fun b => ?_) outs
  split
  · exact .pure _
  · exact .refuse _

theorem quiet_exportNames (body : ScopeId) (names : List Tree.Ident) : Quiet (exportNames body names) := by
  refine .mapM (fun id => .bind .get fun b => ?_) names
  split
  · exact .bind (.change _) fun _ => .pure _
  · exact .refuse _

theorem quiet_ioNames (isOutput : Bool) (type : Expr) (span : Span) (names : List Tree.Ident) :
    Quiet (ioNames isOutput type span names) :=
  .forM (fun id => (quiet_defineIdent id).bind fun _ => (quiet_emit _).bind fun _ => .change _) names

/-! ## Steps that differ in how they take files in -/

/-- Two steps do the same, and add files to the innermost frame only. -/
def Agree (lib : Library) (n : Nat) (b : Builder) (m m' : Build α) : Prop :=
  m.run b = m'.run b ∧ ∀ a b', m.run b = (.ok a, b') → b.Gathers lib n b'

variable {lib : Library} {n : Nat} {b b' : Builder}

theorem Quiet.agree {m : Build α} (hm : Quiet m) (h : b.Framed lib n) : Agree lib n b m m := by
  refine ⟨rfl, fun a b' run => ?_⟩
  obtain ⟨library, included⟩ := hm b
  rw [run] at library included
  exact .same h library included

theorem Agree.bind {m m' : Build α} {f f' : α → Build β} (hm : Agree lib n b m m')
    (hf : ∀ a b', b'.Framed lib n → Agree lib n b' (f a) (f' a)) : Agree lib n b (m >>= f) (m' >>= f') := by
  refine ⟨?_, fun y b'' run => ?_⟩
  · rw [run_bind, run_bind, ← hm.1]
    rcases hr : m.run b with ⟨r, b'⟩
    cases r with
    | error e => rfl
    | ok a => exact (hf a b' (hm.2 a b' hr).framed).1
  · obtain ⟨a, b', first, run⟩ := run_bind_ok.1 run
    have gathers := hm.2 a b' first
    exact gathers.trans ((hf a b' gathers.framed).2 y b'' run)

theorem Agree.map {m m' : Build α} {g : α → β} (hm : Agree lib n b m m') : Agree lib n b (g <$> m) (g <$> m') := by
  rw [map_eq_pure_bind, map_eq_pure_bind]
  exact hm.bind fun _ _ framed => (Quiet.pure _).agree framed

theorem run_inNewScope (body : ScopeId → Build Unit) : (inNewScope body).run b =
    match (body b.program.scopes.size).run b.opened with
    | (.ok _, b') => (.ok b.program.scopes.size, b'.left b.current)
    | (.error e, b') => (.error e, b') := by
  show ((do body b.program.scopes.size; closeScope b.current; return b.program.scopes.size :
    Build ScopeId).run b.opened) = _
  rw [run_bind]
  rcases (body b.program.scopes.size).run b.opened with ⟨r, b'⟩
  cases r <;> rfl

/-- What is taken in inside a scope is gone when the scope is closed. -/
theorem agree_inNewScope {body body' : ScopeId → Build Unit} (h : b.Framed lib n)
    (hbody : ∀ scope b', b'.Framed lib n → Agree lib n b' (body scope) (body' scope)) :
    Agree lib n b (inNewScope body) (inNewScope body') := by
  obtain ⟨same, inside⟩ := hbody b.program.scopes.size b.opened h.opened
  refine ⟨?_, fun j b' run => ?_⟩
  · rw [run_inNewScope, run_inNewScope, same]
  · rw [run_inNewScope] at run
    split at run
    · rename_i b₁ built
      obtain ⟨framed, frame, frames, more, eq, eq'⟩ := inside _ b₁ built
      obtain ⟨-, rfl⟩ := List.cons.inj eq
      obtain ⟨-, rfl⟩ := Prod.mk.inj run
      refine .same h (framed.library.trans h.library.symm) ?_
      show b₁.included.tail = b.included
      rw [eq', List.tail_cons]
    · cases run

/-- Two ways to take in a file do the same for the files of the library. -/
def Alike (lib : Library) (n : Nat) (take take' : List UInt8 → Span → Build Unit) : Prop :=
  ∀ path span b, (lib.included? path).isSome → b.Framed lib n → Agree lib n b (take path span) (take' path span)

section

variable {take take' : List UInt8 → Span → Build Unit}

mutual

theorem agree_stmt (htake : Alike lib n take take') :
    (s : Tree.Stmt) → (∀ path ∈ s.includes, (lib.included? path).isSome) → ∀ {b : Builder}, b.Framed lib n →
      Agree lib n b (stmt take s) (stmt take' s)
  | .io isOutput type names span, _, b, h => by
    rw [stmt, stmt]
    refine Quiet.agree (.bind .get fun b => ?_) h
    dsimp only
    split
    · exact .bind (.refuse _) fun _ => (quiet_value type).bind fun t => quiet_ioNames isOutput t span names
    · exact (quiet_value type).bind fun t => quiet_ioNames isOutput t span names
  | .decl type name declSpan _, _, b, h => by
    rw [stmt, stmt]
    exact Quiet.agree ((quiet_value type).bind fun _ => (quiet_defineIdent name).bind fun _ => quiet_emit _) h
  | .assign place source span, _, b, h => by
    rw [stmt, stmt]
    exact Quiet.agree ((quiet_value source).bind fun _ => (quiet_target place).bind fun _ => quiet_emit _) h
  | .macroDef name inputs outs body header span, known, b, h => by
    rw [stmt, stmt]
    refine (agree_inNewScope h fun scope b₁ h₁ => ?_).bind fun scope b₁ h₁ =>
      Quiet.agree ((quiet_define _).bind fun _ => quiet_emit _) h₁
    refine ((quiet_checkSignature name.name [] (inputs ++ outs)).agree h₁).bind fun _ b₂ h₂ => ?_
    refine Agree.bind (Quiet.agree (.modify (fun _ => rfl) fun _ => rfl) h₂) fun _ b₃ h₃ => ?_
    refine ((Quiet.mapM quiet_defineIdent inputs).agree h₃).bind fun ins b₄ h₄ => ?_
    refine ((Quiet.change _).agree h₄).bind fun _ b₅ h₅ => ?_
    refine (agree_block htake body known h₅).bind fun _ b₆ h₆ => ?_
    refine ((quiet_macroOutputs scope name.name header outs).agree h₆).bind fun _ b₇ h₇ => ?_
    exact Quiet.agree (.bind (.change _) fun _ => .modify (fun _ => rfl) fun _ => rfl) h₇
  | .call call span, _, b, h => by
    rw [stmt, stmt]
    exact Quiet.agree ((quiet_callAlone call).bind fun _ => quiet_emit _) h
  | .expr e span, _, b, h => by
    rw [stmt, stmt]
    exact Quiet.agree ((quiet_value e).bind fun _ => quiet_emit _) h
  | .branch cs otherwise span, known, b, h => by
    rw [stmt, stmt]
    refine (agree_clauses htake cs (fun path hp => known path (List.mem_append_left _ hp)) h).bind fun _ b₁ h₁ => ?_
    refine (agree_otherwiseScope htake otherwise (fun path hp => known path (List.mem_append_right _ hp)) h₁).bind
      fun _ b₂ h₂ => ?_
    exact (quiet_emit _).agree h₂
  | .loop counter start stop noUnroll body span, known, b, h => by
    rw [stmt, stmt]
    refine ((quiet_value start).agree h).bind fun _ b₁ h₁ => ?_
    refine ((quiet_value stop).agree h₁).bind fun _ b₂ h₂ => ?_
    refine (Quiet.get.agree h₂).bind fun _ b₃ h₃ => ?_
    refine (agree_inNewScope h₃ fun _ b₄ h₄ => ?_).bind fun _ b₄ h₄ => (quiet_emit _).agree h₄
    exact ((quiet_defineIdent counter).agree h₄).bind fun _ b₅ h₅ => agree_block htake body known h₅
  | .static exports body span, known, b, h => by
    rw [stmt, stmt]
    refine (agree_inNewScope h fun _ b₁ h₁ => agree_block htake body known h₁).bind fun scope b₁ h₁ => ?_
    exact Quiet.agree ((quiet_exportNames scope exports).bind fun _ => quiet_emit _) h₁
  | .assert condition span, _, b, h => by
    rw [stmt, stmt]
    exact Quiet.agree ((quiet_value condition).bind fun _ => quiet_emit _) h
  | .ret span, _, b, h => by
    rw [stmt, stmt]
    refine Quiet.agree (.bind .get fun b => ?_) h
    dsimp only
    split
    · exact .bind (.refuse _) fun _ => quiet_emit _
    · exact quiet_emit _
  | .includeFile path span, known, b, h => by
    rw [stmt, stmt]
    exact htake path span b (known path List.mem_cons_self) h
  | .block (.mk statements span), known, b, h => by
    rw [stmt, stmt]
    exact (agree_inNewScope h fun _ b₁ h₁ => agree_stmts htake statements known h₁).bind fun _ b₁ h₁ =>
      (quiet_emit _).agree h₁

theorem agree_block (htake : Alike lib n take take') :
    (body : Tree.Block) → (∀ path ∈ body.includes, (lib.included? path).isSome) → ∀ {b : Builder}, b.Framed lib n →
      Agree lib n b (block take body) (block take' body)
  | .mk statements _, known, b, h => by
    rw [block, block]
    exact agree_stmts htake statements known h

theorem agree_stmts (htake : Alike lib n take take') :
    (ss : List Tree.Stmt) → (∀ path ∈ Tree.stmtIncludes ss, (lib.included? path).isSome) → ∀ {b : Builder},
      b.Framed lib n → Agree lib n b (stmts take ss) (stmts take' ss)
  | [], _, b, h => by
    rw [stmts, stmts]
    exact (Quiet.pure ()).agree h
  | s :: ss, known, b, h => by
    rw [stmts, stmts]
    exact (agree_stmt htake s (fun path hp => known path (List.mem_append_left _ hp)) h).bind fun _ b₁ h₁ =>
      agree_stmts htake ss (fun path hp => known path (List.mem_append_right _ hp)) h₁

theorem agree_clauses (htake : Alike lib n take take') :
    (cs : List Tree.Clause) → (∀ path ∈ Tree.clauseIncludes cs, (lib.included? path).isSome) → ∀ {b : Builder},
      b.Framed lib n → Agree lib n b (clauses take cs) (clauses take' cs)
  | [], _, b, h => by
    rw [clauses, clauses]
    exact (Quiet.pure []).agree h
  | .mk condition body :: rest, known, b, h => by
    rw [clauses, clauses]
    refine ((quiet_value condition).agree h).bind fun _ b₁ h₁ => ?_
    refine (agree_inNewScope h₁ fun _ b₂ h₂ =>
      agree_block htake body (fun path hp => known path (List.mem_append_left _ hp)) h₂).bind fun _ b₂ h₂ => ?_
    exact (agree_clauses htake rest (fun path hp => known path (List.mem_append_right _ hp)) h₂).bind
      fun _ b₃ h₃ => (Quiet.pure _).agree h₃

theorem agree_otherwiseScope (htake : Alike lib n take take') :
    (otherwise : Option Tree.Block) → (∀ path ∈ Tree.otherwiseIncludes otherwise, (lib.included? path).isSome) →
      ∀ {b : Builder}, b.Framed lib n →
        Agree lib n b (otherwiseScope take otherwise) (otherwiseScope take' otherwise)
  | none, _, b, h => by
    rw [otherwiseScope, otherwiseScope]
    exact (Quiet.pure none).agree h
  | some body, known, b, h => by
    rw [otherwiseScope, otherwiseScope]
    exact (agree_inNewScope h fun _ b₁ h₁ => agree_block htake body known h₁).map

end

end

/-! ## Taking a file in -/

theorem contains_iff_mem_taken {i : Nat} : b.included.any (·.contains i) = true ↔ i ∈ b.taken := by
  rw [taken, List.mem_flatten, List.any_eq_true]
  simp only [List.contains_iff_mem]

theorem run_loadFile {path : List UInt8} {i : Nat} (library : b.library = lib)
    (found : lib.included? path = some i) (span : Span) : (loadFile path span).run b = (.ok i, b) := by
  obtain ⟨name, utf8, known⟩ := Option.bind_eq_some_iff.1 found
  have load : b.library.load name = .ok (lib, i) := by
    rw [library, Library.load, known]
  rw [loadFile, run_get_bind, utf8]
  dsimp only
  rw [load, ← library]
  rfl

/-- The statements of a file of the library are built unless an open scope has taken the file in. -/
theorem run_takeFile {path : List UInt8} {i : Nat} (library : b.library = lib)
    (found : lib.included? path = some i) (fuel : Nat) (span : Span) :
    (takeFile (fuel + 1) path span).run b =
      if i ∈ b.taken then (.ok (), b)
      else match Tree.ofLibrary lib i with
        | .error e => (.error (.source e), b.mark i)
        | .ok t => (stmts (takeFile fuel) t.statements).run (b.mark i) := by
  rw [takeFile, run_bind, run_loadFile library found]
  dsimp only
  rw [run_get_bind]
  by_cases hi : i ∈ b.taken
  · rw [if_pos hi, if_pos (contains_iff_mem_taken.2 hi)]
    rfl
  · rw [if_neg hi, if_neg fun h => hi (contains_iff_mem_taken.1 h), run_bind]
    show ((match Tree.ofLibrary (b.mark i).library i with
      | .error e => throw (.source e)
      | .ok tree => stmts (takeFile fuel) tree.statements : Build Unit).run (b.mark i)) = _
    rw [show (b.mark i).library = lib from library]
    cases Tree.ofLibrary lib i <;> rfl

/-- So are they for an include statement. -/
theorem run_includeFile {path : List UInt8} {i : Nat} (library : b.library = lib)
    (found : lib.included? path = some i) (fuel : Nat) (span : Span) :
    (stmt (takeFile (fuel + 1)) (.includeFile path span)).run b =
      if i ∈ b.taken then (.ok (), b)
      else match Tree.ofLibrary lib i with
        | .error e => (.error (.source e), b.mark i)
        | .ok t => (stmts (takeFile fuel) t.statements).run (b.mark i) := by
  rw [stmt, run_takeFile library found]

/-- Nothing happens at an include of a file that an open scope has taken in. -/
theorem agree_taken {path : List UInt8} {i : Nat} (h : b.Framed lib n) (found : lib.included? path = some i)
    (hi : i ∈ b.taken) (k m : Nat) (span : Span) : Agree lib n b (takeFile k path span) (takeFile m path span) := by
  have idle (k : Nat) : (takeFile k path span).run b = (.ok (), b) := by
    cases k with
    | zero => rfl
    | succ k => rw [run_takeFile h.library found, if_pos hi]
  refine ⟨(idle k).trans (idle m).symm, fun a b' run => ?_⟩
  rw [idle k] at run
  cases run
  exact .same h rfl rfl

/-- A bound on the nesting of includes does not matter as long as it covers the files that are not taken in. -/
theorem alike_takeFile {tree : Tree.File} (has : lib.HasIncludes tree) {k m : Nat} (hk : lib.files.size ≤ n + k)
    (hm : lib.files.size ≤ n + m) : Alike lib n (takeFile k) (takeFile m) := by
  -- Each file that is taken in raises `n` and lowers both bounds.
  induction k generalizing n m with
  | zero =>
    intro path span b found h
    obtain ⟨i, found⟩ := Option.isSome_iff_exists.1 found
    exact agree_taken h found ((h.le (Nat.le_trans hk h.most)).mem_of_full (lt_of_included found)) 0 m span
  | succ k ih =>
    intro path span b found h
    obtain ⟨i, found⟩ := Option.isSome_iff_exists.1 found
    have known := lt_of_included found
    by_cases hi : i ∈ b.taken
    · exact agree_taken h found hi (k + 1) m span
    · have room : b.taken.length < lib.files.size :=
        Nat.lt_of_le_of_ne h.length_le fun full => hi ((h.le (Nat.le_of_eq full.symm)).mem_of_full known)
      obtain ⟨m, rfl⟩ : ∃ m', m = m' + 1 := Nat.exists_eq_succ_of_ne_zero (by have := h.most; omega)
      rw [Agree, run_takeFile h.library found, run_takeFile h.library found, if_neg hi, if_neg hi]
      cases ht : Tree.ofLibrary lib i with
      | error e => exact ⟨rfl, nofun⟩
      | ok t =>
        obtain ⟨same, inside⟩ := agree_stmts (ih (n := n + 1) (m := m) (by omega) (by omega)) t.statements
          (has.files i t known ht) (h.mark known hi)
        refine ⟨same, fun a b' run => (h.gathers_mark known hi).trans ?_⟩
        have gathers := inside a b' run
        exact ⟨gathers.framed.le (Nat.le_of_succ_le gathers.framed.most), gathers.frames⟩

/-! ## The moments of building -/

/-- Building a statement comes to the statements of a body, in the state that is reached there. -/
inductive Enters (take : List UInt8 → Span → Build Unit) :
    Tree.Stmt → Builder → List Tree.Stmt → Builder → Prop
  | macroBody {name : Tree.Ident} {inputs outs : List Tree.Ident} {statements : List Tree.Stmt}
      {bodySpan header span : Span} {b b' : Builder} {u : Unit}
      (run : (do
        let scope ← openScope
        checkSignature name.name [] (inputs ++ outs)
        modify fun b => { b with macroDepth := b.macroDepth + 1 }
        let ins ← inputs.mapM defineIdent
        change (·.modifyScope scope fun s => { s with inputs := ins }) : Build Unit).run b = (.ok u, b')) :
      Enters take (.macroDef name inputs outs (.mk statements bodySpan) header span) b statements b'
  | clause {before after : List Tree.Clause} {condition : Tree.Expr} {statements : List Tree.Stmt}
      {bodySpan span : Span} {otherwise : Option Tree.Block} {b b' : Builder} {scope : ScopeId}
      (run : (do
        let _ ← clauses take before
        let _ ← value condition
        openScope : Build ScopeId).run b = (.ok scope, b')) :
      Enters take (.branch (before ++ .mk condition (.mk statements bodySpan) :: after) otherwise span) b statements b'
  | otherwise {cs : List Tree.Clause} {statements : List Tree.Stmt} {bodySpan span : Span} {b b' : Builder}
      {scope : ScopeId}
      (run : (do
        let _ ← clauses take cs
        openScope : Build ScopeId).run b = (.ok scope, b')) :
      Enters take (.branch cs (some (.mk statements bodySpan)) span) b statements b'
  | loopBody {counter : Tree.Ident} {start stop : Tree.Expr} {noUnroll : Bool} {statements : List Tree.Stmt}
      {bodySpan span : Span} {b b' : Builder} {v : VarId}
      (run : (do
        let _ ← value start
        let _ ← value stop
        let _ ← openScope
        defineIdent counter : Build VarId).run b = (.ok v, b')) :
      Enters take (.loop counter start stop noUnroll (.mk statements bodySpan) span) b statements b'
  | staticBody {exports : List Tree.Ident} {statements : List Tree.Stmt} {bodySpan span : Span} {b : Builder} :
      Enters take (.static exports (.mk statements bodySpan) span) b statements b.opened
  | block {statements : List Tree.Stmt} {span : Span} {b : Builder} :
      Enters take (.block (.mk statements span)) b statements b.opened

/-- The frames stay as they have to be on the way into a body, and keep all they have. -/
theorem Enters.framed {take : List UInt8 → Span → Build Unit} {s : Tree.Stmt} {ss : List Tree.Stmt}
    (e : Enters take s b ss b') (htake : Alike lib n take take)
    (known : ∀ path ∈ s.includes, (lib.included? path).isSome) (h : b.Framed lib n) :
    b'.Framed lib n ∧ (∀ i ∈ b.taken, i ∈ b'.taken) ∧ ∀ path ∈ Tree.stmtIncludes ss, (lib.included? path).isSome := by
  cases e with
  | @macroBody name inputs outs _ _ _ _ _ _ _ run =>
    obtain ⟨scope, b₁, opened, run⟩ := run_bind_ok.1 run
    cases opened
    have rest : Quiet (do
        checkSignature name.name [] (inputs ++ outs)
        modify fun b : Builder => { b with macroDepth := b.macroDepth + 1 }
        let ins ← inputs.mapM defineIdent
        change (·.modifyScope b.program.scopes.size fun s => { s with inputs := ins }) : Build Unit) :=
      (quiet_checkSignature name.name [] (inputs ++ outs)).bind fun _ =>
        .bind (.modify (fun _ => rfl) fun _ => rfl) fun _ =>
          (Quiet.mapM quiet_defineIdent inputs).bind fun _ => .change _
    have gathers := (rest.agree h.opened).2 _ _ run
    exact ⟨gathers.framed, fun i hi => gathers.mem_taken hi, known⟩
  | @clause before after condition _ _ _ otherwise _ _ scope run =>
    simp only [Tree.Stmt.includes, Tree.clauseIncludes_append, Tree.clauseIncludes, Tree.Block.includes,
      List.mem_append] at known
    obtain ⟨cs, b₁, first, run⟩ := run_bind_ok.1 run
    obtain ⟨v, b₂, second, run⟩ := run_bind_ok.1 run
    cases run
    have clauses := (agree_clauses htake before (fun path hp => known path (.inl (.inl hp))) h).2 cs b₁ first
    have guard := clauses.trans (((quiet_value condition).agree clauses.framed).2 v b₂ second)
    exact ⟨guard.framed.opened, fun i hi => guard.mem_taken hi, fun path hp => known path (.inl (.inr (.inl hp)))⟩
  | @otherwise cs _ _ _ _ _ scope run =>
    obtain ⟨built, b₁, first, run⟩ := run_bind_ok.1 run
    cases run
    have clauses := (agree_clauses htake cs (fun path hp => known path (List.mem_append_left _ hp)) h).2 built b₁ first
    exact ⟨clauses.framed.opened, fun i hi => clauses.mem_taken hi,
      fun path hp => known path (List.mem_append_right _ hp)⟩
  | @loopBody counter start stop _ _ _ _ _ _ _ run =>
    obtain ⟨v, b₁, first, run⟩ := run_bind_ok.1 run
    obtain ⟨w, b₂, second, run⟩ := run_bind_ok.1 run
    obtain ⟨scope, b₃, opened, run⟩ := run_bind_ok.1 run
    cases opened
    have lower := ((quiet_value start).agree h).2 v b₁ first
    have upper := lower.trans (((quiet_value stop).agree lower.framed).2 w b₂ second)
    have counted := ((quiet_defineIdent counter).agree upper.framed.opened).2 _ _ run
    exact ⟨counted.framed, fun i hi => counted.mem_taken (upper.mem_taken hi), known⟩
  | staticBody => exact ⟨h.opened, fun _ hi => hi, known⟩
  | block => exact ⟨h.opened, fun _ hi => hi, known⟩

end Build

/-- Building a program starts in its global scope, which has taken in the file of the program. -/
def Builder.start (lib : Library) (file : Nat) : Builder := ⟨lib, Program.initial, Program.initial.entry, [[file]], 0⟩

namespace Build

/-- The moments while the program of a file is built at which statements are about to be built: the files around them
that are being taken in, the nesting of includes that is still allowed, the statements and the state. -/
inductive During (lib : Library) (file : Nat) (tree : Tree.File) :
    List Nat → Nat → List Tree.Stmt → Builder → Prop
  | start : During lib file tree [file] (includeBound lib) tree.statements (.start lib file)
  | next {chain : List Nat} {fuel : Nat} {s : Tree.Stmt} {ss : List Tree.Stmt} {b b' : Builder} {u : Unit} :
    During lib file tree chain fuel (s :: ss) b → (stmt (takeFile fuel) s).run b = (.ok u, b') →
      During lib file tree chain fuel ss b'
  | enter {chain : List Nat} {fuel : Nat} {s : Tree.Stmt} {ss ss' : List Tree.Stmt} {b b' : Builder} :
    During lib file tree chain fuel (s :: ss) b → Enters (takeFile fuel) s b ss' b' →
      During lib file tree chain fuel ss' b'
  | take {chain : List Nat} {fuel : Nat} {path : List UInt8} {span : Span} {ss : List Tree.Stmt} {b : Builder} {i : Nat}
    {t : Tree.File} :
    During lib file tree chain (fuel + 1) (.includeFile path span :: ss) b → lib.included? path = some i →
      i ∉ b.taken → Tree.ofLibrary lib i = .ok t → During lib file tree (i :: chain) fuel t.statements (b.mark i)

/-- What holds at every moment. -/
structure Moment (lib : Library) (chain : List Nat) (fuel : Nat) (ss : List Tree.Stmt) (b : Builder) : Prop where
  framed : b.Framed lib chain.length
  chained : chain ⊆ b.taken
  nodup : chain.Nodup
  fuel : chain.length + fuel = includeBound lib + 1
  known : ∀ path ∈ Tree.stmtIncludes ss, (lib.included? path).isSome

theorem size_lt_includeBound (lib : Library) : lib.files.size < includeBound lib := by
  have counted (files : List SourceFile) (n : Nat) :
      n + files.length ≤ files.foldl (fun n f => n + f.content.utf8ByteSize + 1) n := by
    induction files generalizing n with
    | nil => exact Nat.le_refl n
    | cons f files ih =>
      have := ih (n + f.content.utf8ByteSize + 1)
      rw [List.length_cons, List.foldl_cons]
      omega
  have files := counted lib.files.toList 1
  rw [Array.foldl_toList, Array.length_toList] at files
  unfold includeBound
  omega

/-- There is always room for one more include. -/
theorem Moment.room {chain : List Nat} {fuel : Nat} {ss : List Tree.Stmt} (m : Moment lib chain fuel ss b) :
    chain.length ≤ lib.files.size ∧ lib.files.size ≤ chain.length + fuel ∧ ∃ k, fuel = k + 1 := by
  have depth : chain.length ≤ lib.files.size :=
    Staged.Stage.length_le_of_nodup m.nodup fun i hi => m.framed.known i (m.chained hi)
  have bound := size_lt_includeBound lib
  have fuel := m.fuel
  exact ⟨depth, by omega, Nat.exists_eq_succ_of_ne_zero (by omega)⟩

theorem During.moment {file : Nat} {tree : Tree.File} (hfile : file < lib.files.size) (has : lib.HasIncludes tree)
    {chain : List Nat} {fuel : Nat} {ss : List Tree.Stmt} (d : During lib file tree chain fuel ss b) :
    Moment lib chain fuel ss b := by
  induction d with
  | start =>
    refine ⟨⟨rfl, List.cons_ne_nil _ _, List.nodup_singleton file, fun i hi => ?_, Nat.le_refl 1⟩, fun _ hi => hi,
      List.nodup_singleton file, Nat.add_comm _ _, has.tree⟩
    rw [List.mem_singleton.1 hi]
    exact hfile
  | @next chain fuel s ss b b' u _ run m =>
    have alike := alike_takeFile has m.room.2.1 m.room.2.1
    obtain ⟨-, gathers⟩ := agree_stmt alike s (fun path hp => m.known path (List.mem_append_left _ hp)) m.framed
    have gathers := gathers u b' run
    exact ⟨gathers.framed, fun i hi => gathers.mem_taken (m.chained hi), m.nodup, m.fuel,
      fun path hp => m.known path (List.mem_append_right _ hp)⟩
  | @enter chain fuel s ss ss' b b' _ enters m =>
    have alike := alike_takeFile has m.room.2.1 m.room.2.1
    obtain ⟨framed, kept, known⟩ :=
      enters.framed alike (fun path hp => m.known path (List.mem_append_left _ hp)) m.framed
    exact ⟨framed, fun i hi => kept i (m.chained hi), m.nodup, m.fuel, known⟩
  | @take chain fuel path span ss b i t _ found fresh read m =>
    have known := lt_of_included found
    refine ⟨m.framed.mark known fresh, fun j hj => ?_, List.nodup_cons.2 ⟨fun hi => fresh (m.chained hi), m.nodup⟩, ?_,
      has.files i t known read⟩
    · rw [Builder.taken_mark]
      exact (List.cons_subset_cons i m.chained) hj
    · have := m.fuel
      rw [List.length_cons]
      omega

end Build

/-- Where all included files are known, building a program does not depend on the bound on the nesting of includes. At
every moment the open scopes have taken in different files, and so have the files that are nested in each other; and
an include statement builds the statements of its file if no open scope has taken it in, and else does nothing. -/
theorem ofTree_includes_once {lib : Library} {file : Nat} {tree : Tree.File} (hfile : file < lib.files.size)
    (has : lib.HasIncludes tree) :
    (∀ bound, lib.files.size ≤ bound → ofTree lib file tree =
      match (Build.stmts (Build.takeFile bound) tree.statements).run (.start lib file) with
      | (.ok _, b) => (.ok b.program, b.library)
      | (.error e, b) => (.error e, b.library)) ∧
    ∀ chain fuel ss b, Build.During lib file tree chain fuel ss b →
      b.taken.Nodup ∧ (chain.Nodup ∧ chain ⊆ b.taken ∧ chain.length ≤ lib.files.size) ∧
      ∀ path span rest, ss = .includeFile path span :: rest → ∃ i k, lib.included? path = some i ∧ fuel = k + 1 ∧
        (Build.stmt (Build.takeFile fuel) (.includeFile path span)).run b =
          if i ∈ b.taken then (.ok (), b)
          else match Tree.ofLibrary lib i with
            | .error e => (.error (.source e), b.mark i)
            | .ok t => (Build.stmts (Build.takeFile k) t.statements).run (b.mark i) := by
  constructor
  · intro bound hbound
    have start := (@Build.During.start lib file tree).moment hfile has
    have alike := Build.alike_takeFile (n := 1) has (Nat.le_add_left_of_le (Build.size_lt_includeBound lib).le)
      (Nat.le_add_left_of_le hbound)
    rw [ofTree, ← (Build.agree_stmts alike tree.statements has.tree start.framed).1]
    rfl
  · intro chain fuel ss b during
    have moment := during.moment hfile has
    refine ⟨moment.framed.nodup, ⟨moment.nodup, moment.chained, moment.room.1⟩, fun path span rest eq => ?_⟩
    subst eq
    obtain ⟨i, found⟩ := Option.isSome_iff_exists.1 (moment.known path List.mem_cons_self)
    obtain ⟨-, -, k, rfl⟩ := moment.room
    exact ⟨i, k, found, rfl, Build.run_includeFile moment.framed.library found k span⟩

/-- The statements are an include of the second file of a library and a block that includes it again. -/
def includesTwice (lib : Library) : List Tree.Stmt → Bool
  | [.includeFile path _, .block (.mk [.includeFile path' _] _)] =>
    lib.included? path = some 1 && lib.included? path' = some 1
  | _ => false

theorem exists_of_includesTwice {lib : Library} {ss : List Tree.Stmt} (h : includesTwice lib ss = true) :
    ∃ path span path' span' blockSpan,
      ss = [.includeFile path span, .block (.mk [.includeFile path' span'] blockSpan)] ∧
      lib.included? path = some 1 ∧ lib.included? path' = some 1 := by
  unfold includesTwice at h
  split at h
  · exact ⟨_, _, _, _, _, rfl, by simpa using h⟩
  · cases h

/-- The only statement is an include of the first file. -/
def includesBack (lib : Library) : List Tree.Stmt → Bool
  | [.includeFile path _] => lib.included? path = some 0
  | _ => false

theorem exists_of_includesBack {lib : Library} {ss : List Tree.Stmt} (h : includesBack lib ss = true) :
    ∃ path span, ss = [.includeFile path span] ∧ lib.included? path = some 0 := by
  unfold includesBack at h
  split at h
  · exact ⟨_, _, rfl, by simpa using h⟩
  · cases h

/-- Two files that include each other, one of them a second time from a nested block. It is taken in where it is first
included. The include in it and the one in the block do nothing. -/
theorem ofTree_includes_once_mutual :
    let main := "include \"lib\";\n\x7b\n    include \"lib\";\n\x7d\n"
    let lib := (({} : Library).add "main" main).add "lib" "include \"main\";\n"
    let start := Builder.start lib 0
    ∃ tree other path span path' span' blockSpan back backSpan k,
      Tree.ofLibrary lib 0 = .ok tree ∧ Tree.ofLibrary lib 1 = .ok other ∧
      tree.statements = [.includeFile path span, .block (.mk [.includeFile path' span'] blockSpan)] ∧
      other.statements = [.includeFile back backSpan] ∧
      (Build.stmt (Build.takeFile (includeBound lib)) (.includeFile path span)).run start =
        (Build.stmts (Build.takeFile k) other.statements).run (start.mark 1) ∧
      (Build.stmt (Build.takeFile k) (.includeFile back backSpan)).run (start.mark 1) = (.ok (), start.mark 1) ∧
      (Build.stmt (Build.takeFile (includeBound lib)) (.includeFile path' span')).run (start.mark 1).opened =
        (.ok (), (start.mark 1).opened) ∧
      ∀ chain fuel ss b, Build.During lib 0 tree chain fuel ss b → b.taken.Nodup ∧ chain.length ≤ 2 := by
  intro main lib start
  let inLibrary (t : Tree.File) : Bool := (Tree.stmtIncludes t.statements).all fun p => (lib.included? p).isSome
  obtain ⟨tree, read, first⟩ := Steps.exists_ok_of_any (x := Tree.ofLibrary lib 0)
    (P := fun t => includesTwice lib t.statements && inLibrary t) (by decide +kernel)
  obtain ⟨other, read', second⟩ := Steps.exists_ok_of_any (x := Tree.ofLibrary lib 1)
    (P := fun t => includesBack lib t.statements && inLibrary t) (by decide +kernel)
  obtain ⟨first, known⟩ := Bool.and_eq_true_iff.1 first
  obtain ⟨second, known'⟩ := Bool.and_eq_true_iff.1 second
  obtain ⟨path, span, path', span', blockSpan, shape, found, found'⟩ := exists_of_includesTwice first
  obtain ⟨back, backSpan, shape', foundBack⟩ := exists_of_includesBack second
  have has : lib.HasIncludes tree := by
    refine ⟨List.all_eq_true.1 known, fun i t hi readAgain => ?_⟩
    obtain rfl | rfl : i = 0 ∨ i = 1 := by
      have size : i < 2 := hi
      omega
    · exact Except.ok.inj (read.symm.trans readAgain) ▸ List.all_eq_true.1 known
    · exact Except.ok.inj (read'.symm.trans readAgain) ▸ List.all_eq_true.1 known'
  obtain ⟨-, moments⟩ := @ofTree_includes_once lib 0 tree (by decide) has
  have atStart : Build.During lib 0 tree [0] (includeBound lib)
      [.includeFile path span, .block (.mk [.includeFile path' span'] blockSpan)] start := shape ▸ Build.During.start
  obtain ⟨i, k, eq, room, taken⟩ := (moments _ _ _ _ atStart).2.2 path span _ rfl
  obtain rfl : i = 1 := Option.some.inj (eq.symm.trans found)
  rw [if_neg (by decide), read'] at taken
  have inOther : Build.During lib 0 tree [1, 0] k other.statements (start.mark 1) :=
    .take (room ▸ atStart) found (by decide) read'
  obtain ⟨j, m, eq', -, skipped⟩ := (moments _ _ _ _ inOther).2.2 back backSpan [] shape'
  obtain rfl : j = 0 := Option.some.inj (eq'.symm.trans foundBack)
  rw [if_pos (by decide)] at skipped
  have done : (Build.stmts (Build.takeFile k) other.statements).run (start.mark 1) = (.ok (), start.mark 1) := by
    rw [shape', Build.stmts, Build.run_bind, skipped]
    rfl
  have inBlock : Build.During lib 0 tree [0] (includeBound lib) [.includeFile path' span'] (start.mark 1).opened :=
    .enter (.next atStart (taken.trans done)) .block
  obtain ⟨l, m, eq'', -, idle⟩ := (moments _ _ _ _ inBlock).2.2 path' span' [] rfl
  obtain rfl : l = 1 := Option.some.inj (eq''.symm.trans found')
  rw [if_pos (by decide)] at idle
  refine ⟨tree, other, path, span, path', span', blockSpan, back, backSpan, k, read, read', shape, shape', taken,
    skipped, idle, fun chain fuel ss b during => ?_⟩
  obtain ⟨distinct, ⟨-, -, depth⟩, -⟩ := moments chain fuel ss b during
  exact ⟨distinct, depth⟩

end Scoped

end SignalLang
