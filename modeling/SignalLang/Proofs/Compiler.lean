import SignalLang.Compiler
import SignalLang.Proofs.Flat.Lowered
import SignalLang.Proofs.Flat.Validity
import SignalLang.Proofs.Ir.Generation
import SignalLang.Proofs.Scoped.Built
import SignalLang.Proofs.Staged.Preservation

/-!
# What staging promises the later phases

A source that can be staged gives a well-formed program. When that program is ready to run, the phases
behind staging fail in three ways only: static initialization shares a variable with the program proper, an
input is assigned, or a static is exported twice.
-/

namespace SignalLang.Compiler

variable {α β : Type} {c c' c'' : Compiler} {name : String}

/-! ## Running phases -/

theorem bind_run (x : Compile α) (f : α → Compile β) (c : Compiler) :
    (x >>= f).run c = match x.run c with
      | (.ok a, c') => (f a).run c'
      | (.error e, c') => (.error e, c') := by
  show ((x c : Except CompileError α × Compiler) |> fun r => ExceptT.bindCont f r.1 r.2) = _
  show _ = match (x c : Except CompileError α × Compiler) with
    | (.ok a, c') => (f a).run c'
    | (.error e, c') => (.error e, c')
  rcases (x c : Except CompileError α × Compiler) with ⟨r | r, c'⟩ <;> rfl

theorem bind_ok {x : Compile α} {f : α → Compile β} {b : β} :
    (x >>= f).run c = (.ok b, c'') ↔ ∃ a c', x.run c = (.ok a, c') ∧ (f a).run c' = (.ok b, c'') := by
  rw [bind_run]
  constructor
  · intro h
    split at h
    · rename_i a c' run
      exact ⟨a, c', run, h⟩
    · cases h
  · rintro ⟨a, c', run, h⟩
    rw [run]
    exact h

theorem get_bind {f : Compiler → Compile α} : (get >>= f).run c = (f c).run c := rfl

/-- A step leaves the options as they are. -/
def Keeps (x : Compile α) : Prop := ∀ c, (x.run c).2.options = c.options

theorem Keeps.bind {x : Compile α} {f : α → Compile β} (hx : Keeps x) (hf : ∀ a, Keeps (f a)) :
    Keeps (x >>= f) := by
  intro c
  rw [bind_run, ← hx c]
  rcases x.run c with ⟨e | a, c'⟩
  · rfl
  · exact hf a c'

theorem keeps_pure (a : α) : Keeps (pure a) := fun _ => rfl

theorem keeps_throw (e : CompileError) : Keeps (throw e : Compile α) := fun _ => rfl

theorem keeps_get : Keeps get := fun _ => rfl

theorem keeps_count (p : Phase) : Keeps (count p) := fun _ => rfl

theorem keeps_source (name : String) : Keeps (source name) := by
  refine keeps_get.bind fun c => ?_
  split
  · exact keeps_pure _
  · exact keeps_throw _

theorem keeps_treeOf (name : String) : Keeps (treeOf name) := by
  refine (keeps_source name).bind fun file => (keeps_count .ast).bind fun _ => keeps_get.bind fun c => ?_
  split
  · exact keeps_pure _
  · exact keeps_throw _

theorem keeps_scopedOf (name : String) : Keeps (scopedOf name) := by
  refine (keeps_treeOf name).bind fun t => (keeps_source name).bind fun file =>
    (keeps_count .vague).bind fun _ => keeps_get.bind fun c => ?_
  refine Keeps.bind (fun _ => rfl) fun _ => ?_
  split
  · exact keeps_pure _
  · exact keeps_throw _

theorem keeps_stagedOf (name : String) : Keeps (stagedOf name) := by
  refine (keeps_scopedOf name).bind fun p => (keeps_count .resolved).bind fun _ => keeps_get.bind fun c => ?_
  split
  · exact keeps_pure _
  · exact keeps_throw _

/-! ## Staging -/

/-- The scoped program of a source is built from its tree. -/
theorem ofTree_of_scopedOf {p : Scoped.Program} (h : (scopedOf name).run c = (.ok p, c')) :
    ∃ lib lib' file tree, Scoped.ofTree lib file tree = (.ok p, lib') := by
  obtain ⟨t, c₁, -, h⟩ := bind_ok.1 h
  obtain ⟨file, c₂, -, h⟩ := bind_ok.1 h
  obtain ⟨_, c₃, -, h⟩ := bind_ok.1 h
  rw [get_bind] at h
  obtain ⟨_, c₄, -, h⟩ := bind_ok.1 h
  split at h
  · rename_i q built
    cases h
    exact ⟨_, _, _, _, Prod.ext built rfl⟩
  · cases h

theorem plain_of_scopedOf {p : Scoped.Program} (h : (scopedOf name).run c = (.ok p, c')) : p.Plain := by
  obtain ⟨lib, lib', file, tree, built⟩ := ofTree_of_scopedOf h
  exact Scoped.plain_of_ofTree built

theorem stagedOf_ok {p : Staged.Program} :
    (∃ c', (stagedOf name).run c = (.ok p, c')) ↔
      ∃ source c₁, (scopedOf name).run c = (.ok source, c₁) ∧
        Staged.resolve source c.options.staging = .ok p := by
  constructor
  · rintro ⟨c', h⟩
    obtain ⟨source, c₁, built, h⟩ := bind_ok.1 h
    obtain ⟨_, c₂, counted, h⟩ := bind_ok.1 h
    cases counted
    rw [get_bind] at h
    refine ⟨source, c₁, built, ?_⟩
    rw [← keeps_scopedOf name c, built]
    split at h
    · rename_i q staged
      cases h
      exact staged
    · cases h
  · rintro ⟨source, c₁, built, staged⟩
    rw [← keeps_scopedOf name c, built] at staged
    let c₂ : Compiler := { c₁ with counts := c₁.counts.add .resolved }
    refine ⟨c₂, bind_ok.2 ⟨source, c₁, built, bind_ok.2 ⟨(), c₂, rfl, ?_⟩⟩⟩
    rw [get_bind]
    split
    · rename_i q staged'
      cases staged.symm.trans staged'
      rfl
    · rename_i e failed
      cases staged.symm.trans failed

theorem wellFormed_of_stagedOf {p : Staged.Program} (h : (stagedOf name).run c = (.ok p, c')) :
    p.WellFormed := by
  obtain ⟨source, c₁, built, staged⟩ := stagedOf_ok.1 ⟨c', h⟩
  exact Staged.wellFormed_of_resolve (plain_of_scopedOf built) staged

/-! ## The phases behind staging -/

theorem flatOf_ok {q : Flat.Program} :
    (∃ c'', (flatOf name).run c = (.ok q, c'')) ↔
      ∃ p c', (stagedOf name).run c = (.ok p, c') ∧ Flat.lower p (some c'.library) = .ok q ∧
        (c.options.validate = true → q.validate = []) := by
  constructor
  · rintro ⟨c'', h⟩
    obtain ⟨p, c', staged, h⟩ := bind_ok.1 h
    obtain ⟨_, c₁, counted, h⟩ := bind_ok.1 h
    cases counted
    rw [get_bind] at h
    refine ⟨p, c', staged, ?_⟩
    rw [← keeps_stagedOf name c, staged]
    split at h
    · cases h
    · rename_i q' lowered
      split at h
      · cases h
      · rename_i valid
        cases h
        refine ⟨lowered, fun checked => ?_⟩
        rw [if_pos checked] at valid
        exact valid
  · rintro ⟨p, c', staged, lowered, valid⟩
    rw [← keeps_stagedOf name c, staged] at valid
    have checks : (if c'.options.validate = true then q.validate else []) = [] := by
      split
      · exact valid ‹_›
      · rfl
    let counted : Compiler := { c' with counts := c'.counts.add .trivial }
    refine ⟨counted, bind_ok.2 ⟨p, c', staged, bind_ok.2 ⟨(), counted, rfl, ?_⟩⟩⟩
    rw [get_bind]
    dsimp only [counted]
    rw [lowered]
    dsimp only
    rw [checks]
    rfl

theorem moduleOf_ok {q : Flat.Program} (h : (flatOf name).run c = (.ok q, c')) :
    (∃ m c'', (moduleOf name).run c = (.ok m, c'')) ↔
      ∃ m, Ir.generate q c'.options.moduleName "" = .ok m := by
  constructor
  · rintro ⟨m, c'', run⟩
    obtain ⟨q', c₁, flat, run⟩ := bind_ok.1 run
    rw [h] at flat
    cases flat
    obtain ⟨_, c₁, counted, run⟩ := bind_ok.1 run
    cases counted
    rw [get_bind] at run
    split at run
    · rename_i m' generated
      exact ⟨m', generated⟩
    · cases run
  · rintro ⟨m, generated⟩
    let counted : Compiler := { c' with counts := c'.counts.add .llvmir }
    refine ⟨m, counted, bind_ok.2 ⟨q, c', h, bind_ok.2 ⟨(), counted, rfl, ?_⟩⟩⟩
    rw [get_bind]
    dsimp only [counted]
    rw [generated]
    rfl

/-- A staged program that is ready and gets through flattening keeps its streams apart. -/
theorem isLowered_of_flatOf {p : Staged.Program} (staged : (stagedOf name).run c = (.ok p, c'))
    (ready : p.Ready) {q : Flat.Program} (flat : ∃ c'', (flatOf name).run c = (.ok q, c'')) :
    p.StreamsApart ∧ Flat.IsLowered p q ∧ (c.options.validate = true → q.validate = []) := by
  obtain ⟨p', c₁, staged', lowered, valid⟩ := flatOf_ok.1 flat
  rw [staged] at staged'
  cases staged'
  have lower := Flat.lower_ok (wellFormed_of_stagedOf staged) ready (some c'.library)
  have apart : p.StreamsApart := Classical.byContradiction fun mixed => by
    obtain ⟨e, failed⟩ := lower.2 mixed
    rw [lowered] at failed
    cases failed
  obtain ⟨q', lowered', is⟩ := lower.1 apart
  rw [lowered] at lowered'
  cases lowered'
  exact ⟨apart, is, valid⟩

/-- A flat program passes its checks exactly when the program it was made of assigns no input. -/
theorem validate_iff_inputsKept {p : Staged.Program} {q : Flat.Program} (is : Flat.IsLowered p q) :
    q.validate = [] ↔ p.InputsKept := by
  rw [Flat.Program.validate_eq_nil_iff is.wellTyped, is.writes]
  simp [Staged.Program.InputsKept]

/-- A compiler with one source, named "main". -/
def ofText (text : String) : Compiler := (new {} {}).addSource "main" text

theorem ok_of_any {x : Compile α} {P : α → Bool} (h : (x.run c).1.toOption.any P = true) :
    ∃ a c', x.run c = (.ok a, c') ∧ P a = true := by
  rcases run : x.run c with ⟨e | a, c'⟩
  · rw [run] at h
    cases h
  · rw [run] at h
    exact ⟨a, c', rfl, h⟩

theorem toList_append_of {a b : String} {as bs : List Char} (h : a.toList = as) (h' : b.toList = bs) :
    (a ++ b).toList = as ++ bs := by
  rw [String.toList_append, h, h']

/-- The tree of a source that is given by its characters. A string is kept as bytes, which are slow to decode where a
source that is written out is evaluated. -/
def treeOfChars (cs : List Char) : Option Tree.File :=
  match Token.scanFrom {} cs with
  | .error _ => none
  | .ok tokens =>
    match Tree.parse 0 tokens with
    | ⟨tree, []⟩ => some tree
    | ⟨_, _ :: _⟩ => none

/-- The library of a compiler with one source. -/
def libraryOf (text : String) : Library := { files := #[⟨"main", text⟩] }

variable {text : String} {cs : List Char}

theorem ofText_eq (text : String) : ofText text = { library := libraryOf text } := by
  simp [ofText, addSource, Library.put, Library.find?, new, Library.add, libraryOf]

theorem source_main (text : String) (counts : PhaseCounts) :
    (source "main").run { library := libraryOf text, counts := counts } =
      (.ok 0, { library := libraryOf text, counts := counts }) := by
  have found : (libraryOf text).find? "main" = some 0 := by simp [Library.find?, libraryOf]
  unfold source
  rw [get_bind]
  dsimp only
  rw [found]
  rfl

theorem ofLibrary_libraryOf {t : Tree.File} (chars : text.toList = cs) (read : treeOfChars cs = some t) :
    Tree.ofLibrary (libraryOf text) 0 = .ok t := by
  have scanned : Token.scan ((libraryOf text).contentOf (0 : Nat)) = Token.scanFrom {} cs :=
    congrArg (Token.scanFrom {}) chars
  rw [treeOfChars] at read
  rw [Tree.ofLibrary, scanned]
  cases tokens : Token.scanFrom {} cs with
  | error e =>
    rw [tokens] at read
    cases read
  | ok tokens' =>
    rw [tokens] at read
    dsimp only at read ⊢
    rw [Int.ofNat_zero]
    rcases parsed : Tree.parse 0 tokens' with ⟨tree, _ | ⟨e, es⟩⟩
    · rw [parsed] at read
      exact congrArg Except.ok (Option.some.inj read)
    · rw [parsed] at read
      cases read

theorem scopedOf_main {t : Tree.File} {p : Scoped.Program} {lib : Library}
    (read : Tree.ofLibrary (libraryOf text) 0 = .ok t) (built : Scoped.ofTree (libraryOf text) 0 t = (.ok p, lib)) :
    (scopedOf "main").run (ofText text) =
      (.ok p, { library := lib, counts := (({} : PhaseCounts).add .ast).add .vague }) := by
  have tree : (treeOf "main").run (ofText text) =
      (.ok t, { library := libraryOf text, counts := ({} : PhaseCounts).add .ast }) := by
    rw [ofText_eq]
    refine bind_ok.2 ⟨0, _, source_main text {}, bind_ok.2 ⟨(), _, rfl, ?_⟩⟩
    rw [get_bind, read]
    rfl
  refine bind_ok.2 ⟨t, _, tree, bind_ok.2 ⟨0, _, source_main text _, bind_ok.2 ⟨(), _, rfl, ?_⟩⟩⟩
  rw [get_bind]
  dsimp only
  rw [built]
  rfl

/-- What holds of the program that is built from the characters of a source holds of the program of the source. -/
theorem scopedOf_of_any {P : Scoped.Program → Bool} (chars : text.toList = cs)
    (h : ((treeOfChars cs).any fun t => (Scoped.ofTree (libraryOf text) 0 t).1.toOption.any P) = true) :
    ∃ p c', (scopedOf "main").run (ofText text) = (.ok p, c') ∧ P p = true := by
  obtain ⟨t, read, h⟩ := (Option.any_eq_true _ _).1 h
  obtain ⟨p, built, tested⟩ := Steps.exists_ok_of_any h
  exact ⟨p, _, scopedOf_main (ofLibrary_libraryOf chars read) (Prod.ext built rfl), tested⟩

/-- What lets a staged program through flattening and its checks. -/
theorem flatOf_ok_iff {p : Staged.Program} (staged : (stagedOf name).run c = (.ok p, c'))
    (ready : p.Ready) :
    (∃ q c'', (flatOf name).run c = (.ok q, c'')) ↔
      p.StreamsApart ∧ (c.options.validate = true → p.InputsKept) := by
  constructor
  · rintro ⟨q, run⟩
    obtain ⟨apart, is, valid⟩ := isLowered_of_flatOf staged ready run
    exact ⟨apart, fun checked => (validate_iff_inputsKept is).1 (valid checked)⟩
  · rintro ⟨apart, kept⟩
    obtain ⟨q, lowered, is⟩ :=
      (Flat.lower_ok (wellFormed_of_stagedOf staged) ready (some c'.library)).1 apart
    exact ⟨q, flatOf_ok.2 ⟨p, c', staged, lowered, fun checked =>
      (validate_iff_inputsKept is).2 (kept checked)⟩⟩

/-- A program with a static, a loop and an assertion satisfies the assumptions, and its being flattened
shows that its streams are apart and its inputs kept. -/
theorem flatOf_ok_iff_applies :
    let c := ofText ("input INT a; output INT y; static s { INT s = 1; }\n" ++
      "for i = 0 to a { y = s + i; assert y < 9; }\n")
    ∃ p c', (stagedOf "main").run c = (.ok p, c') ∧ p.Ready ∧
      p.StreamsApart ∧ (c.options.validate = true → p.InputsKept) := by
  intro c
  obtain ⟨p, c', staged, fits⟩ := ok_of_any
    (show ((stagedOf "main").run c).1.toOption.any (fun p => decide p.Fits) = true by decide +kernel)
  obtain ⟨q, c'', flat, -⟩ := ok_of_any
    (show ((flatOf "main").run c).1.toOption.any (fun _ => true) = true by decide +kernel)
  have ready := (of_decide_eq_true fits).ready
  exact ⟨p, c', staged, ready, (flatOf_ok_iff staged ready).1 ⟨q, c'', flat⟩⟩

/-- An input that is assigned gets through staging, and stops the checks of the flat program. -/
theorem flatOf_assigned_input :
    let c := ofText "input INT a;\na = 3;\n"
    c.options.validate = true ∧ ((stagedOf "main").run c).1.isOk = true ∧
      ((flatOf "main").run c).1.isOk = false := by
  decide +kernel

/-- What lets a program that was flattened through code generation. -/
theorem moduleOf_ok_iff {p : Staged.Program} (staged : (stagedOf name).run c = (.ok p, c'))
    (ready : p.Ready) {q : Flat.Program} (flat : (flatOf name).run c = (.ok q, c'')) :
    (∃ m d, (moduleOf name).run c = (.ok m, d)) ↔ p.statics.Nodup := by
  obtain ⟨-, is, -⟩ := isLowered_of_flatOf staged ready ⟨c'', flat⟩
  rw [moduleOf_ok flat, Ir.generate_ok_iff is.wellTyped, is.statics]

/-- A program that exports two statics, one of them an array, satisfies the assumptions and has a module. -/
theorem moduleOf_ok_iff_applies :
    let c := ofText ("input BOOL up; static n, h { INT n = 0; [2]INT h = [0, 0]; }\n" ++
      "if up { h[n] = 1; }\n")
    ∃ p q c' c'', (stagedOf "main").run c = (.ok p, c') ∧ p.Ready ∧
      (flatOf "main").run c = (.ok q, c'') ∧ ∃ m d, (moduleOf "main").run c = (.ok m, d) := by
  intro c
  obtain ⟨p, c', staged, fits⟩ := ok_of_any
    (show ((stagedOf "main").run c).1.toOption.any (fun p => decide (p.Fits ∧ p.statics.Nodup)) = true by
      decide +kernel)
  obtain ⟨q, c'', flat, -⟩ := ok_of_any
    (show ((flatOf "main").run c).1.toOption.any (fun _ => true) = true by decide +kernel)
  obtain ⟨fits, nodup⟩ := of_decide_eq_true fits
  exact ⟨p, q, c', c'', staged, fits.ready, flat, (moduleOf_ok_iff staged fits.ready flat).2 nodup⟩

/-- A static that is exported twice gets through the checks of the flat program, and stops code
generation. -/
theorem moduleOf_repeated_static :
    let c := ofText "static s, s { INT s = 1; }\n"
    c.options.validate = true ∧ ((flatOf "main").run c).1.isOk = true ∧
      ((moduleOf "main").run c).1.isOk = false := by
  decide +kernel

end SignalLang.Compiler
