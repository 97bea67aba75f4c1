import SignalLang.Proofs.Tree.Running

/-!
# Parsing makes progress

Each round over the statements of a file reads at least one token, whether it finds a statement or recovers
from an error: a statement that is read is never empty, and behind an error the token where it was found is
skipped. So the rounds end, and they end at the end of the file, after at most one error for each token.
-/

namespace SignalLang.Tree

/-- What one round reads of a file: a statement or an error, and where the next round starts. -/
def round (fuel : Nat) (s : Stream) : Except ParseError (Option Stmt) × Stream :=
  match (statement fuel).run s with
  | (.ok stmt, s') => (.ok stmt, s')
  | (.error e, s') => (.error e, recover s')

/-- The statements of a file are read round by round. -/
theorem topLevel_succ {fuel steps : Nat} {s : Stream} (more : s.atEnd = false) :
    topLevel fuel (steps + 1) s = match round fuel s with
      | (.ok stmt, s') =>
        let (stmts, errors, final) := topLevel fuel steps s'
        (stmt.toList ++ stmts, errors, final)
      | (.error e, s') =>
        let (stmts, errors, final) := topLevel fuel steps s'
        (stmts, e :: errors, final) := by
  rw [topLevel, if_neg (by simp [more]), round]
  rcases ((statement fuel).run s : Except ParseError (Option Stmt) × Stream) with ⟨e | stmt, s'⟩ <;> rfl

/-- What reading a file comes to: its tree, or the first error and how many there are. -/
def Parsed.outcome (p : Parsed) : Except SourceError File :=
  match p.errors with
  | [] => .ok p.file
  | e :: es => .error (.parse e (es.length + 1))

theorem ofLibrary_eq_outcome {lib : Library} {file : Nat} {tokens : List Token}
    (scanned : Token.scan (lib.contentOf file) = .ok tokens) :
    ofLibrary lib file = (parse file tokens).outcome := by
  simp only [ofLibrary, scanned, Parsed.outcome]
  obtain ⟨tree, errors⟩ := parse file tokens
  cases errors <;> rfl

namespace Listing

variable {l : Listing} {i fuel fuel' : Nat}

/-! ## Recovery -/

/-- A search for the next statement ends at a token of the listing, the end of the file at the latest. -/
theorem skipTo_at (l : Listing) (i : Nat) (fits : i + 1 ≤ l.body.length) :
    ∃ k, i + 1 ≤ k ∧ k ≤ l.body.length ∧
      ∀ m, skipTo l.file (l.at m (i + 1)).previous (l.at m (i + 1)).rest = l.at m k := by
  by_cases stops : (l.token (i + 1)).kind = .endOfFile ∨
      (some (l.token i)).any (fun p => p.kind = .semicolon ∨ p.kind = .rightBrace) ∨
      startsStatement (l.token (i + 1)).kind
  · refine ⟨i + 1, Nat.le_refl _, fits, fun m => ?_⟩
    have here : l.at m (i + 1) = ⟨l.file, some (l.token i), (l.at m (i + 1)).rest⟩ := by
      rw [← previous_at (m := m) fits]
      rfl
    rw [previous_at fits, here, rest_at, skipTo, if_pos stops]
  · have lt : i + 1 < l.body.length := lt_of_kind fun isEnd => stops (.inl isEnd)
    obtain ⟨k, le, fits', run⟩ := skipTo_at l (i + 1) lt
    refine ⟨k, Nat.le_of_succ_le le, fits', fun m => ?_⟩
    rw [previous_at fits, rest_at, if_pos lt, skipTo, if_neg stops, ← previous_at lt]
    exact run m
termination_by l.body.length - i

/-- Recovery moves behind the token where it starts, unless that is the end of the file. -/
theorem recover_at (l : Listing) (fits : i ≤ l.body.length) :
    ∃ k, i ≤ k ∧ k ≤ l.body.length ∧ (i < l.body.length → i < k) ∧ ∀ m, recover (l.at m i) = l.at m k := by
  rcases Nat.lt_or_eq_of_le fits with lt | rfl
  · obtain ⟨k, le, fits', run⟩ := skipTo_at l i lt
    refine ⟨k, Nat.le_of_succ_le le, fits', fun _ => le, fun m => ?_⟩
    rw [recover, advance_at lt]
    exact run m
  · refine ⟨_, Nat.le_refl _, Nat.le_refl _, fun lt => absurd lt (Nat.lt_irrefl _), fun m => ?_⟩
    have ends : (l.token l.body.length).kind = .endOfFile := (token_of_le (Nat.le_refl _)).symm ▸ l.ends
    have stays : (l.at m l.body.length).advance = l.at m l.body.length := by
      rw [Stream.advance, atEnd_at, decide_eq_true ends, if_pos rfl]
    have here : l.at m l.body.length =
        ⟨l.file, (l.at m l.body.length).previous, (l.at m l.body.length).rest⟩ := rfl
    rw [recover, stays, here, rest_at, skipTo, if_pos (.inl ends)]

/-! ## Rounds -/

/-- A round over a listing reads at least one token. -/
theorem round_at (le : fuel ≤ fuel') (enough : l.Enough i 6 fuel) (lt : i < l.body.length) :
    ∃ r j, i < j ∧ j ≤ l.body.length ∧
      (∀ m, round fuel (l.at m i) = (r, l.at m j) ∧ round fuel' (l.at m i) = (r, l.at m j)) ∧
      (∀ stmt, r = .ok stmt → l.LaidAll i j (stmtNodes stmt.toList)) ∧
      ∀ e, r = .error e → e.fault ≠ .tooDeep := by
  obtain ⟨r, j, before, fits, run, isPost, notDeep⟩ := (stmtsRun le).statement enough (Nat.le_of_lt lt)
  cases r with
  | ok stmt =>
    obtain ⟨past, laid⟩ := isPost stmt rfl
    refine ⟨.ok stmt, j, past, fits, fun m => ?_, fun _ same => ?_, fun _ same => by cases same⟩
    · rw [round, round, (run m).1, (run m).2]
      exact ⟨rfl, rfl⟩
    · cases same
      exact laid
  | error e =>
    obtain ⟨k, le, fits', past, recovers⟩ := recover_at l fits
    refine ⟨.error e, k, ?_, fits', fun m => ?_, fun _ same => (by cases same), notDeep⟩
    · -- A statement may fail where it starts; recovery moves on from there.
      rcases Nat.lt_or_eq_of_le before with lt' | rfl
      · exact Nat.lt_of_lt_of_le lt' le
      · exact past lt
    · rw [round, round, (run m).1, (run m).2, ← recovers]
      exact ⟨rfl, rfl⟩

/-- All rounds from a token on end at the end of the file. The induction is on the tokens that are left, which
each round makes fewer. -/
theorem topLevel_at (le : fuel ≤ fuel') (i : Nat) (enough : l.Enough i 6 fuel) (fits : i ≤ l.body.length) :
    ∃ ss es, (∀ m steps, l.body.length - i < steps →
        topLevel fuel steps (l.at m i) = (ss, es, l.at m l.body.length) ∧
        topLevel fuel' steps (l.at m i) = (ss, es, l.at m l.body.length)) ∧
      l.LaidAll i l.body.length (stmtNodes ss) ∧ es.length ≤ l.body.length - i ∧
      ∀ e ∈ es, e.fault ≠ .tooDeep := by
  rcases Nat.lt_or_eq_of_le fits with lt | rfl
  · obtain ⟨r, j, past, fits', run, isLaid, notDeep⟩ := round_at le enough lt
    obtain ⟨ss, es, ends, laid, few, notDeep'⟩ :=
      topLevel_at le j (enough.weaken (Nat.le_of_lt past) (Nat.le_refl 6)) fits'
    have more (m : Margins) : (l.at m i).atEnd = false := atEnd_at_of_lt lt
    cases r with
    | ok stmt =>
      refine ⟨stmt.toList ++ ss, es, fun m steps enoughSteps => ?_, ?_, by omega, notDeep'⟩
      · obtain ⟨steps, rfl⟩ := Nat.exists_eq_add_of_lt enoughSteps
        obtain ⟨left, right⟩ := ends m (l.body.length - i + steps) (by omega)
        rw [topLevel_succ (more m), topLevel_succ (more m), (run m).1, (run m).2]
        simp only [left, right, and_self]
      · rw [stmtNodes_append]
        exact (isLaid stmt rfl).append laid
    | error e =>
      refine ⟨ss, e :: es, fun m steps enoughSteps => ?_, laid.widen (Nat.le_of_lt past) (Nat.le_refl _), ?_, ?_⟩
      · obtain ⟨steps, rfl⟩ := Nat.exists_eq_add_of_lt enoughSteps
        obtain ⟨left, right⟩ := ends m (l.body.length - i + steps) (by omega)
        rw [topLevel_succ (more m), topLevel_succ (more m), (run m).1, (run m).2]
        simp only [left, right, and_self]
      · rw [List.length_cons]
        omega
      · exact List.forall_mem_cons.2 ⟨notDeep e rfl, notDeep'⟩
  · refine ⟨[], [], fun m steps enoughSteps => ?_, .nil (Nat.le_refl _), Nat.zero_le _, List.forall_mem_nil _⟩
    obtain ⟨steps, rfl⟩ := Nat.exists_eq_add_of_lt enoughSteps
    have ends : (l.at m l.body.length).atEnd = true := by
      rw [atEnd_at, token_of_le (Nat.le_refl _), decide_eq_true l.ends]
    rw [topLevel, topLevel, if_pos ends, if_pos ends]
    exact ⟨rfl, rfl⟩
termination_by l.body.length - i

/-! ## Files -/

/-- A bound that is enough for all tokens. -/
def bound (l : Listing) : Nat := 16 * (l.tokens.length + 1)

theorem length_tokens (l : Listing) : l.tokens.length = l.body.length + 1 := by
  rw [tokens, List.length_append, List.length_singleton]

theorem enough_bound (l : Listing) (i : Nat) : l.Enough i 6 l.bound := by
  have := l.length_tokens
  unfold Enough bound
  omega

/-- What parsing reads: the rounds from the first token on. -/
theorem parse_at (l : Listing) : ∃ ss es,
    parse l.file l.tokens = ⟨⟨ss, (l.at ⟨none, []⟩ l.body.length).spanFrom (l.token 0)⟩, es⟩ ∧
    (∀ m fuel steps, l.bound ≤ fuel → l.tokens.length < steps →
      topLevel fuel steps (l.at m 0) = (ss, es, l.at m l.body.length)) ∧
    l.LaidAll 0 l.body.length (stmtNodes ss) ∧ es.length ≤ l.body.length ∧ ∀ e ∈ es, e.fault ≠ .tooDeep := by
  have length := l.length_tokens
  obtain ⟨ss, es, ends, laid, few, notDeep⟩ :=
    topLevel_at (Nat.le_refl l.bound) 0 (l.enough_bound 0) (Nat.zero_le _)
  refine ⟨ss, es, ?_, fun m fuel steps le enoughSteps => ?_, laid, few, notDeep⟩
  · have run := (ends ⟨none, []⟩ (l.tokens.length + 1) (by omega)).1
    have start : (⟨l.file, none, l.tokens⟩ : Stream) = l.at ⟨none, []⟩ 0 := rfl
    rw [parse, start]
    rw [bound] at run
    simp only [run, peek_at]
  · obtain ⟨ss', es', ends', -⟩ := topLevel_at le 0 (l.enough_bound 0) (Nat.zero_le _)
    obtain ⟨bounded, more⟩ := ends' m steps (by omega)
    rw [more, ← bounded]
    exact (ends m steps (by omega)).1

/-- Parsing the tokens of a file reads all of them and nothing else, in rounds that each read one at least. -/
structure Progresses (l : Listing) : Prop where
  /-- With any larger bounds and whatever stands around the tokens, the rounds end at the end of the file with
  the same result. -/
  ends : ∀ m fuel steps, l.bound ≤ fuel → l.tokens.length < steps →
    topLevel fuel steps (l.at m 0) =
      ((parse l.file l.tokens).file.statements, (parse l.file l.tokens).errors, l.at m l.body.length)
  /-- No call is cut off by the bound on nested calls. -/
  notDeep : ∀ e ∈ (parse l.file l.tokens).errors, e.fault ≠ .tooDeep
  /-- Each round does the next part of the loop over the file, and what is left of that starts where it ends. -/
  rounds : ∀ m fuel steps, ∀ i < l.body.length, topLevel fuel (steps + 1) (l.at m i) =
    match round fuel (l.at m i) with
    | (.ok stmt, s) =>
      let (stmts, errors, final) := topLevel fuel steps s
      (stmt.toList ++ stmts, errors, final)
    | (.error e, s) =>
      let (stmts, errors, final) := topLevel fuel steps s
      (stmts, e :: errors, final)
  /-- A round that starts at a token before the end of the file ends at a later one. -/
  advances : ∀ i < l.body.length, ∃ read j, i < j ∧ j ≤ l.body.length ∧
    ∀ m fuel, l.bound ≤ fuel → round fuel (l.at m i) = (read, l.at m j)
  /-- There is at most one error for each token before the end of the file. -/
  few : (parse l.file l.tokens).errors.length ≤ l.body.length
  /-- A file with errors is refused for the first of them, and no other file is. -/
  fails : ∀ e, (parse l.file l.tokens).outcome = .error e ↔ ∃ first more,
    (parse l.file l.tokens).errors = first :: more ∧ e = .parse first (more.length + 1)
  /-- That is what becomes of a file of a library with these tokens. -/
  library : ∀ (lib : Library) (file : Nat), l.file = file → Token.scan (lib.contentOf file) = .ok l.tokens →
    ofLibrary lib file = (parse l.file l.tokens).outcome

theorem outcome_eq_error_iff {p : Parsed} {e : SourceError} : p.outcome = .error e ↔
    ∃ first more, p.errors = first :: more ∧ e = .parse first (more.length + 1) := by
  unfold Parsed.outcome
  constructor
  · intro isError
    split at isError
    · cases isError
    · rename_i first more same
      cases isError
      exact ⟨first, more, same, rfl⟩
  · rintro ⟨first, more, same, rfl⟩
    rw [same]

/-- Parsing ends on every list of tokens with the end of the file at its end only. -/
theorem progresses (l : Listing) : l.Progresses := by
  obtain ⟨ss, es, same, ends, -, few, notDeep⟩ := l.parse_at
  exact {
    ends := by rwa [same]
    notDeep := by rwa [same]
    rounds := fun m fuel steps i lt => topLevel_succ (atEnd_at_of_lt lt)
    advances := fun i lt => by
      obtain ⟨read, j, past, fits, run, -⟩ := round_at (Nat.le_refl l.bound) (l.enough_bound i) lt
      refine ⟨read, j, past, fits, fun m fuel le => ?_⟩
      obtain ⟨read', j', -, -, run', -⟩ := round_at le (l.enough_bound i) lt
      rw [(run' m).2, ← (run' m).1, (run m).1]
    few := by rwa [same]
    fails := fun _ => outcome_eq_error_iff
    library := fun lib file named scanned => by
      rw [named]
      exact ofLibrary_eq_outcome scanned }

end Listing

end SignalLang.Tree
