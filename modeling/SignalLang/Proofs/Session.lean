import SignalLang.Session

/-!
# A session keeps what compiles

An entry changes a session in few ways (`Session.eval_cases`): it sets the phase, drops all lines or the last one, or
adds a line with which the program compiles. So in every session each program that starts like the one entered so far
compiles (`Session.Kept`), which one entry keeps (`Session.Kept.eval`) and any sequence of entries, as long as the
phase stays. The main statement, `eval_keeps`, also says what every entry leads to in such a session.
-/

namespace SignalLang.Session

/-- The entry is a command. -/
def isCommand (entry : String) : Bool := (Text.trim entry).startsWith ":"

/-- The name of a command, with its colon. -/
def commandName (entry : String) : String := (Text.words (Text.trim entry)).headD ""

/-- The entry asks for another phase. -/
def AsksPhase (entry : String) : Prop := isCommand entry ∧ commandName entry = ":phase"

instance (entry : String) : Decidable (AsksPhase entry) := inferInstanceAs (Decidable (_ ∧ _))

/-- The text of a program in the phase of a session. -/
def textOf (s : Session) (program : String) : Except CompileError String :=
  ((Compiler.dump sourceName s.phase).run ((Compiler.new s.options s.storage).addSource sourceName program)).1

/-- The program of a session with one more entry. -/
def extended (s : Session) (entry : String) : String := programText (s.lines ++ [Text.trim entry])

/-- Every program that starts like the one entered so far compiles. -/
def Kept (s : Session) : Prop :=
  ∀ lines, lines ≠ [] → lines <+: s.lines → ∃ text, s.textOf (programText lines) = .ok text

/-- The session after entries. -/
def after (s : Session) (entries : List String) : Session := entries.foldl (fun s entry => (s.eval entry).2) s

variable {s : Session} {entry : String}

/-! ### What one entry does -/

/-- A command is carried out under its name, if it has one. -/
theorem eval_command (h : isCommand entry) (s : Session) :
    (commandName entry = "" ∧ s.eval entry = (.say "", s)) ∨
      ∃ args, s.eval entry = s.command (commandName entry) args := by
  have colon : (Text.trim entry).startsWith ":" = true := h
  unfold commandName
  simp only [eval, colon, if_true]
  split
  · rename_i name args words
    exact .inr ⟨args, by rw [words, List.headD_cons]⟩
  · rename_i words
    exact .inl ⟨by rw [words, List.headD_nil], rfl⟩

/-- All commands but three change nothing. -/
theorem eval_unchanged (h : isCommand entry) (other : commandName entry ∉ [":reset", ":undo", ":phase"]) :
    (s.eval entry).2 = s := by
  rcases eval_command h s with ⟨-, entered⟩ | ⟨args, entered⟩
  · rw [entered]
  · rw [entered]
    unfold command
    split <;> first | rfl | simp_all

theorem eval_undo (h : isCommand entry) (name : commandName entry = ":undo") :
    s.eval entry = (.say "", { s with lines := s.lines.dropLast }) := by
  rcases eval_command h s with ⟨none, -⟩ | ⟨args, entered⟩
  · simp [name] at none
  · rw [entered, name]
    rfl

theorem eval_reset (h : isCommand entry) (name : commandName entry = ":reset") :
    s.eval entry = (.say "", { s with lines := [] }) := by
  rcases eval_command h s with ⟨none, -⟩ | ⟨args, entered⟩
  · simp [name] at none
  · rw [entered, name]
    rfl

theorem changePhase_cases (s : Session) (args : List String) :
    (s.changePhase args).2 = s ∨ ∃ phase, (s.changePhase args).2 = { s with phase := phase } := by
  unfold changePhase
  split
  · split
    · exact .inr ⟨_, rfl⟩
    · exact .inl rfl
  · exact .inl rfl

/-- Asking for another phase may change the phase and nothing else. -/
theorem eval_asksPhase (h : AsksPhase entry) (s : Session) :
    (s.eval entry).2 = s ∨ ∃ phase, (s.eval entry).2 = { s with phase := phase } := by
  obtain ⟨command, name⟩ := h
  rcases eval_command command s with ⟨-, entered⟩ | ⟨args, entered⟩
  · exact .inl (by rw [entered])
  · rw [entered, name]
    exact changePhase_cases s args

theorem eval_blank (h : ¬isCommand entry) (blank : Text.trim entry = "") : s.eval entry = (.say "", s) := by
  have colon : (Text.trim entry).startsWith ":" = false := Bool.eq_false_iff.2 h
  simp only [eval, colon, Bool.false_eq_true, if_false, if_pos (String.isEmpty_iff.2 blank)]

theorem eval_statement (h : ¬isCommand entry) (some : Text.trim entry ≠ "") :
    s.eval entry = s.extend (Text.trim entry) := by
  have colon : (Text.trim entry).startsWith ":" = false := Bool.eq_false_iff.2 h
  simp only [eval, colon, Bool.false_eq_true, if_false, if_neg (mt String.isEmpty_iff.1 some)]

/-- A line with which the program compiles is kept, and the text of the program is shown. -/
theorem eval_accepted (h : ¬isCommand entry) (some : Text.trim entry ≠ "") {text : String}
    (compiles : s.textOf (s.extended entry) = .ok text) :
    s.eval entry = (.say text, { s with lines := s.lines ++ [Text.trim entry] }) := by
  have dumped : (s.dump (s.lines ++ [Text.trim entry])).1 = .ok text := compiles
  rw [eval_statement h some, extend]
  split
  · rename_i found
    rw [found] at dumped
    cases dumped
    rfl
  · rename_i found
    rw [found] at dumped
    cases dumped
  · rename_i found
    rw [found] at dumped
    cases dumped

/-- A line with which it does not is not kept. -/
theorem eval_refused (h : ¬isCommand entry) (fails : ∀ text, s.textOf (s.extended entry) ≠ .ok text) :
    (s.eval entry).2 = s := by
  by_cases blank : Text.trim entry = ""
  · rw [eval_blank h blank]
  · rw [eval_statement h blank, extend]
    split
    · rename_i text _ found
      exact absurd (congrArg Prod.fst found) (fails text)
    · rfl
    · rfl

/-- An entry does nothing to the session, or sets the phase, or drops lines, or adds a line with which the program
compiles. -/
theorem eval_cases (s : Session) (entry : String) :
    (s.eval entry).2 = s ∨ AsksPhase entry ∨ (s.eval entry).2 = { s with lines := [] } ∨
      (s.eval entry).2 = { s with lines := s.lines.dropLast } ∨
      ∃ text, s.textOf (s.extended entry) = .ok text ∧
        s.eval entry = (.say text, { s with lines := s.lines ++ [Text.trim entry] }) := by
  by_cases h : isCommand entry
  · by_cases other : commandName entry ∈ [":reset", ":undo", ":phase"]
    · simp only [List.mem_cons, List.not_mem_nil, or_false] at other
      rcases other with name | name | name
      · exact .inr (.inr (.inl (by rw [eval_reset h name])))
      · exact .inr (.inr (.inr (.inl (by rw [eval_undo h name]))))
      · exact .inr (.inl ⟨h, name⟩)
    · exact .inl (eval_unchanged h other)
  · by_cases blank : Text.trim entry = ""
    · exact .inl (by rw [eval_blank h blank])
    · by_cases compiles : ∃ text, s.textOf (s.extended entry) = .ok text
      · obtain ⟨text, compiles⟩ := compiles
        exact .inr (.inr (.inr (.inr ⟨text, compiles, eval_accepted h blank compiles⟩)))
      · exact .inl (eval_refused h (not_exists.1 compiles))

/-! ### What a session keeps -/

theorem eval_phase (s : Session) (h : ¬AsksPhase entry) :
    (s.eval entry).2.phase = s.phase ∧ (s.eval entry).2.options = s.options ∧ (s.eval entry).2.storage = s.storage := by
  rcases eval_cases s entry with same | asks | same | same | ⟨text, -, same⟩
  · simp [same]
  · exact absurd asks h
  all_goals simp [same]

/-- What a program compiles to depends on the phase, the options and the files. -/
theorem textOf_congr {s' : Session} (phase : s'.phase = s.phase) (options : s'.options = s.options)
    (storage : s'.storage = s.storage) (program : String) : s'.textOf program = s.textOf program := by
  unfold textOf
  rw [phase, options, storage]

@[simp] theorem textOf_setLines (s : Session) (lines : List String) (program : String) :
    ({ s with lines := lines } : Session).textOf program = s.textOf program :=
  textOf_congr rfl rfl rfl program

theorem Kept.setLines (kept : s.Kept) {lines : List String} (start : lines <+: s.lines) :
    ({ s with lines := lines } : Session).Kept := by
  intro ls some start'
  rw [textOf_setLines]
  exact kept ls some (start'.trans start)

theorem Kept.eval (kept : s.Kept) (h : ¬AsksPhase entry) : (s.eval entry).2.Kept := by
  rcases eval_cases s entry with same | asks | same | same | ⟨text, compiles, same⟩
  · rw [same]
    exact kept
  · exact absurd asks h
  · rw [same]
    exact kept.setLines List.nil_prefix
  · rw [same]
    exact kept.setLines (List.dropLast_prefix _)
  · rw [same]
    intro ls some start
    rw [textOf_setLines]
    -- the whole program is the one that was just compiled, and what is shorter was kept before
    rcases List.prefix_concat_iff.1 start with rfl | start
    · exact ⟨text, compiles⟩
    · exact kept ls some start

theorem after_cons (s : Session) (entry : String) (entries : List String) :
    s.after (entry :: entries) = (s.eval entry).2.after entries := by
  unfold after
  rw [List.foldl_cons]

theorem kept_after {entries : List String} (kept : s.Kept) (h : ∀ entry ∈ entries, ¬AsksPhase entry) :
    (s.after entries).Kept ∧ (s.after entries).phase = s.phase := by
  induction entries generalizing s with
  | nil => exact ⟨kept, rfl⟩
  | cons entry entries ih =>
    have first := h entry List.mem_cons_self
    obtain ⟨kept', phase⟩ := ih (kept.eval first) fun e he => h e (List.mem_cons_of_mem _ he)
    rw [after_cons]
    exact ⟨kept', phase.trans (eval_phase s first).1⟩

theorem kept_new (s : Session) (new : s.lines = []) : s.Kept := by
  intro ls some start
  rw [new, List.prefix_nil] at start
  exact absurd start some

theorem eval_show (s : Session) : s.eval ":show" = (.say s.source, s) := by
  have command : isCommand ":show" := by decide +kernel
  have name : commandName ":show" = ":show" := by decide +kernel
  rcases eval_command command s with ⟨none, -⟩ | ⟨args, entered⟩
  · simp [name] at none
  · rw [entered, name]
    rfl

/-- What adds a line is a line with which the program compiles: the text of the program is shown, and it is the program
that can be asked for then. -/
theorem eval_grows (s : Session) (entry : String) (grows : s.lines.length < (s.eval entry).2.lines.length) :
    ∃ text program, (s.eval entry).1 = .say text ∧
      (s.eval entry).2.eval ":show" = (.say program, (s.eval entry).2) ∧
      (s.eval entry).2.textOf program = .ok text := by
  rcases eval_cases s entry with same | asks | same | same | ⟨text, compiles, same⟩
  · simp [same] at grows
  · rcases eval_asksPhase asks s with same | ⟨phase, same⟩ <;> simp [same] at grows
  · simp [same] at grows
  · rw [same, List.length_dropLast] at grows
    exact absurd grows (Nat.not_lt.2 (Nat.sub_le _ _))
  · rw [same]
    exact ⟨text, s.extended entry, rfl, eval_show _, by rw [textOf_setLines]; exact compiles⟩

/-- What an entry leads to in a session. -/
structure Answers (s : Session) (entry : String) : Prop where
  /-- All commands but three change nothing. -/
  unchanged : isCommand entry → commandName entry ∉ [":reset", ":undo", ":phase"] → (s.eval entry).2 = s
  /-- The last line can be dropped, if there is one. -/
  undone : isCommand entry → commandName entry = ":undo" → (s.eval entry).2 = { s with lines := s.lines.dropLast }
  /-- A line with which the program does not compile is not kept. -/
  refused : ¬isCommand entry → (∀ text, s.textOf (s.extended entry) ≠ .ok text) → (s.eval entry).2 = s
  /-- A line with which it does is kept. -/
  accepted : ¬isCommand entry → Text.trim entry ≠ "" → ∀ text, s.textOf (s.extended entry) = .ok text →
    s.eval entry = (.say text, { s with lines := s.lines ++ [Text.trim entry] })
  /-- Where a line is kept, the text shown is that of the program that can be asked for then. -/
  shown : s.lines.length < (s.eval entry).2.lines.length → ∃ text program, (s.eval entry).1 = .say text ∧
    (s.eval entry).2.eval ":show" = (.say program, (s.eval entry).2) ∧ (s.eval entry).2.textOf program = .ok text

theorem answers (s : Session) (entry : String) : s.Answers entry where
  unchanged := eval_unchanged
  undone h name := by rw [eval_undo h name]
  refused := eval_refused
  accepted h some _ := eval_accepted h some
  shown := eval_grows s entry

/-- In a session that was started in some phase and never asked for another, every program that starts like the one
entered so far compiles in that phase, and every entry is answered as it should be. -/
theorem eval_keeps (options : Options) (phase : Phase) (storage : Storage) (entries : List String)
    (stays : ∀ entry ∈ entries, ¬AsksPhase entry) :
    let s := after { options := options, phase := phase, storage := storage } entries
    s.phase = phase ∧ s.Kept ∧ ∀ entry, s.Answers entry := by
  obtain ⟨kept, same⟩ := kept_after (kept_new { options := options, phase := phase, storage := storage } rfl) stays
  exact ⟨same, kept, answers _⟩

/-- A line that fails, one that is taken back, an unknown command and a blank entry between lines that are kept. -/
theorem eval_keeps_undo :
    let entries := ["input INT a;", "INT x = ;", " output INT b;", ":undo", ":nope", " ", "a = 1;"]
    let s := after { options := {}, phase := .ast } entries
    (∀ entry ∈ entries, ¬AsksPhase entry) ∧ s.lines = ["input INT a;", "a = 1;"] ∧
      (∃ text, s.textOf "input INT a;\n" = .ok text) ∧ (s.eval ":undo").2.lines = ["input INT a;"] := by
  intro entries s
  have stays : ∀ entry ∈ entries, ¬AsksPhase entry := by decide +kernel
  have lines : s.lines = ["input INT a;", "a = 1;"] := by decide +kernel
  obtain ⟨-, kept, answers⟩ := eval_keeps {} .ast {} entries stays
  refine ⟨stays, lines, kept ["input INT a;"] (by simp) (lines ▸ ⟨["a = 1;"], rfl⟩), ?_⟩
  rw [(answers ":undo").undone (by decide +kernel) (by decide +kernel)]
  show s.lines.dropLast = _
  rw [lines]
  rfl

end SignalLang.Session
