import SignalLang.Proofs.Tree.Parsers

/-!
# Parsers on the tokens of a file

A `Listing` is a list of tokens whose last one and no other is the end of the file; `Listing.at` is the
stream in front of one of them. `Runs p q i post` says that two parsers which start at token `i` do the
same: both fail alike or return the same, at a token of the listing that is no earlier one, whatever stands
around the listing, and never because a bound was too small. There is a rule for each way in which parsers
are put together. With the same parser under two bounds it says that the bounds do not matter.
-/

namespace SignalLang.Tree

/-- The tokens of a file: the last one, and no other, is its end. -/
structure Listing where
  file : Int
  body : List Token
  last : Token
  ends : last.kind = .endOfFile
  inside : ∀ t ∈ body, t.kind ≠ .endOfFile

/-- What stands before and behind a list of tokens: a parser that reads outside the list would find this. -/
structure Margins where
  before : Option Token
  behind : List Token

namespace Listing

/-- All tokens. -/
def tokens (l : Listing) : List Token := l.body ++ [l.last]

/-- A token by its number; the end of the file from there on. -/
def token (l : Listing) (i : Nat) : Token := l.body[i]?.getD l.last

/-- The stream in front of a token. -/
def «at» (l : Listing) (m : Margins) (i : Nat) : Stream :=
  ⟨l.file, (l.body.take i).getLast?.or m.before, l.body.drop i ++ l.last :: m.behind⟩

variable {l : Listing} {m : Margins} {i j : Nat}

theorem token_of_lt (lt : i < l.body.length) : l.token i = l.body[i] := by
  rw [token, List.getElem?_eq_getElem lt, Option.getD_some]

theorem token_of_le (le : l.body.length ≤ i) : l.token i = l.last := by
  rw [token, List.getElem?_eq_none le, Option.getD_none]

theorem token_mem (lt : i < l.body.length) : l.token i ∈ l.body := by
  rw [token_of_lt lt]
  exact List.getElem_mem lt

theorem lt_of_kind (inside : (l.token i).kind ≠ .endOfFile) : i < l.body.length := by
  rcases Nat.lt_or_ge i l.body.length with lt | le
  · exact lt
  · rw [token_of_le le] at inside
    exact absurd l.ends inside

theorem kind_token (lt : i < l.body.length) : (l.token i).kind ≠ .endOfFile := l.inside _ (token_mem lt)

/-- A token of any other class is not the last one. -/
theorem more {kind : TokenKind} (known : (l.token i).kind = kind) (inside : kind ≠ .endOfFile) :
    (l.token i).kind ≠ .endOfFile := fun isEnd => inside (known.symm.trans isEnd)

/-- The tokens from one on. -/
theorem rest_at :
    (l.at m i).rest = l.token i :: (if i < l.body.length then (l.at m (i + 1)).rest else m.behind) := by
  rcases Nat.lt_or_ge i l.body.length with lt | ge
  · rw [if_pos lt, Listing.at, Listing.at, List.drop_eq_getElem_cons lt, token_of_lt lt]
    rfl
  · rw [if_neg (Nat.not_lt.2 ge), Listing.at, List.drop_eq_nil_of_le ge, token_of_le ge]
    rfl

theorem peek_at : (l.at m i).peek = l.token i := by
  rw [Stream.peek, rest_at]
  rfl

theorem atEnd_at : (l.at m i).atEnd = decide ((l.token i).kind = .endOfFile) := by
  rw [Stream.atEnd, peek_at]

theorem atEnd_at_of_lt (lt : i < l.body.length) : (l.at m i).atEnd = false := by
  rw [atEnd_at, decide_eq_false (kind_token lt)]

/-- The token before another one, which is not the first. -/
theorem previous_at (fits : i + 1 ≤ l.body.length) : (l.at m (i + 1)).previous = some (l.token i) := by
  rw [Listing.at, List.take_succ_eq_append_getElem fits, List.getLast?_concat, token_of_lt fits]
  rfl

theorem advance_at (lt : i < l.body.length) : (l.at m i).advance = l.at m (i + 1) := by
  have going : (l.at m i).atEnd ≠ true := by simp [atEnd_at_of_lt lt]
  have rest : (l.at m i).rest.tail = (l.at m (i + 1)).rest := by
    rw [rest_at, if_pos lt, List.tail_cons]
  have previous : some (l.token i) = (l.at m (i + 1)).previous := by
    rw [previous_at lt]
  rw [Stream.advance, if_neg going, peek_at, rest, previous]
  rfl

theorem run_peekSecond (lt : i < l.body.length) :
    Parse.peekSecond.run (l.at m i) = (.ok (l.token (i + 1)), l.at m i) := by
  have second : (l.at m i).rest.tail.head? = some (l.token (i + 1)) := by
    rw [rest_at, if_pos lt, List.tail_cons, rest_at]
    rfl
  show (Except.ok (((l.at m i).rest.tail.head?).getD (l.at m i).peek), l.at m i) = _
  rw [second]
  rfl

/-- The span from one token up to another, which it does not hold. -/
def cover (l : Listing) (i j : Nat) : Span :=
  ((l.token i).span l.file).union ((l.token (j - 1)).span l.file)

theorem spanFrom_at (lt : i < j) (fits : j ≤ l.body.length) : (l.at m j).spanFrom (l.token i) = l.cover i j := by
  obtain ⟨j, rfl⟩ := Nat.exists_eq_add_of_lt lt
  rw [Stream.spanFrom, previous_at fits]
  rfl

end Listing

/-! ## Runs -/

theorem run_pure {α : Type} {a : α} {s : Stream} : (pure a : Parse α).run s = (.ok a, s) := rfl

theorem run_fail {α : Type} {t : Token} {fault : Fault} {s : Stream} :
    (Parse.fail t fault : Parse α).run s = (.error ⟨fault, t, s.file⟩, s) := rfl

/-- Two parsers do the same from a token on. -/
def Runs (l : Listing) {α : Type} (p q : Parse α) (i : Nat) (post : α → Nat → Prop) : Prop :=
  i ≤ l.body.length → ∃ r j, i ≤ j ∧ j ≤ l.body.length ∧
    (∀ m, p.run (l.at m i) = (r, l.at m j) ∧ q.run (l.at m i) = (r, l.at m j)) ∧
    (∀ a, r = .ok a → post a j) ∧ ∀ e, r = .error e → e.fault ≠ .tooDeep

namespace Runs

variable {l : Listing} {i j : Nat} {α β : Type} {p q : Parse α} {f g : α → Parse β} {post post' : α → Nat → Prop}
  {goal : β → Nat → Prop} {kind : TokenKind} {t : Token}

/-- What is to be shown may use that the parser stands in the listing. -/
theorem of_le (h : i ≤ l.body.length → Runs l p q i post) : Runs l p q i post := fun fits => h fits fits

/-- Parsers that succeed. -/
theorem of_ok {a : α} (le : i ≤ j) (fits : j ≤ l.body.length)
    (run : ∀ m, p.run (l.at m i) = (.ok a, l.at m j) ∧ q.run (l.at m i) = (.ok a, l.at m j)) (h : post a j) :
    Runs l p q i post := by
  refine fun _ => ⟨.ok a, j, le, fits, run, fun b same => ?_, fun e same => ?_⟩
  · cases same
    exact h
  · cases same

/-- Parsers that fail. -/
theorem of_error {e : ParseError} (le : i ≤ j) (fits : j ≤ l.body.length)
    (run : ∀ m, p.run (l.at m i) = (.error e, l.at m j) ∧ q.run (l.at m i) = (.error e, l.at m j))
    (h : e.fault ≠ .tooDeep) : Runs l p q i post := by
  refine fun _ => ⟨.error e, j, le, fits, run, fun b same => ?_, fun e same => ?_⟩
  · cases same
  · cases same
    exact h

protected theorem pure {a : α} (h : post a i) : Runs l (pure a) (pure a) i post :=
  of_le fun fits => of_ok (Nat.le_refl i) fits (fun _ => ⟨run_pure, run_pure⟩) h

theorem fail {fault : Fault} (h : fault ≠ .tooDeep) :
    Runs l (Parse.fail t fault : Parse α) (Parse.fail t fault) i post :=
  of_le fun fits => of_error (e := ⟨fault, t, l.file⟩) (Nat.le_refl i) fits (fun _ => ⟨run_fail, run_fail⟩) h

protected theorem bind (first : Runs l p q i post)
    (next : ∀ a j, i ≤ j → j ≤ l.body.length → post a j → Runs l (f a) (g a) j goal) :
    Runs l (p >>= f) (q >>= g) i goal := by
  intro fits
  obtain ⟨r, j, le, fits', run, isPost, notDeep⟩ := first fits
  cases r with
  | error e =>
    exact of_error le fits' (fun m => ⟨run_bind_error (run m).1, run_bind_error (run m).2⟩) (notDeep e rfl) fits
  | ok a =>
    obtain ⟨r, k, le', fits'', run', isGoal, notDeep'⟩ := next a j le fits' (isPost a rfl) fits'
    refine ⟨r, k, Nat.le_trans le le', fits'', fun m => ?_, isGoal, notDeep'⟩
    exact ⟨(run_bind_ok (run m).1).trans (run' m).1, (run_bind_ok (run m).2).trans (run' m).2⟩

theorem mono (h : Runs l p q i post) (weaker : ∀ a j, i ≤ j → j ≤ l.body.length → post a j → post' a j) :
    Runs l p q i post' := by
  intro fits
  obtain ⟨r, j, le, fits', run, isPost, notDeep⟩ := h fits
  exact ⟨r, j, le, fits', run, fun a same => weaker a j le fits' (isPost a same), notDeep⟩

theorem map {h : α → β} (first : Runs l p q i post)
    (next : ∀ a j, i ≤ j → j ≤ l.body.length → post a j → goal (h a) j) : Runs l (h <$> p) (h <$> q) i goal := by
  rw [← bind_pure_comp, ← bind_pure_comp]
  exact first.bind fun a j le fits isPost => .pure (next a j le fits isPost)

/-- A step that cannot fail. -/
theorem step {a : α} (le : i ≤ j) (fits : j ≤ l.body.length)
    (run : ∀ m, p.run (l.at m i) = (.ok a, l.at m j)) (next : Runs l (f a) (g a) j goal) :
    Runs l (p >>= f) (p >>= g) i goal := by
  intro _
  obtain ⟨r, k, le', fits', run', isGoal, notDeep⟩ := next fits
  refine ⟨r, k, Nat.le_trans le le', fits', fun m => ?_, isGoal, notDeep⟩
  exact ⟨(run_bind_ok (run m)).trans (run' m).1, (run_bind_ok (run m)).trans (run' m).2⟩

/-- A look at the next token. -/
theorem look {a : Token → α} (run : ∀ s, p.run s = (.ok (a s.peek), s))
    (next : Runs l (f (a (l.token i))) (g (a (l.token i))) i goal) : Runs l (p >>= f) (p >>= g) i goal :=
  of_le fun fits => step (Nat.le_refl i) fits (fun m => by rw [run, Listing.peek_at]) next

theorem peek {f g : Token → Parse β} (next : Runs l (f (l.token i)) (g (l.token i)) i goal) :
    Runs l (Parse.peek >>= f) (Parse.peek >>= g) i goal := look (a := id) (fun _ => rfl) next

theorem check {f g : Bool → Parse β}
    (next : Runs l (f (decide ((l.token i).kind = kind))) (g (decide ((l.token i).kind = kind))) i goal) :
    Runs l (Parse.check kind >>= f) (Parse.check kind >>= g) i goal :=
  look (a := fun t => decide (t.kind = kind)) (fun _ => rfl) next

theorem atEnd {f g : Bool → Parse β}
    (next : Runs l (f (decide ((l.token i).kind = .endOfFile))) (g (decide ((l.token i).kind = .endOfFile))) i goal) :
    Runs l (Parse.atEnd >>= f) (Parse.atEnd >>= g) i goal :=
  look (a := fun t => decide (t.kind = .endOfFile)) (fun _ => rfl) next

theorem advance {f g : Token → Parse β} (more : (l.token i).kind ≠ .endOfFile)
    (next : i < l.body.length → Runs l (f (l.token i)) (g (l.token i)) (i + 1) goal) :
    Runs l (Parse.advance >>= f) (Parse.advance >>= g) i goal := by
  have lt := Listing.lt_of_kind more
  refine step (Nat.le_succ i) lt (fun m => ?_) (next lt)
  rw [run_advance, Listing.peek_at, Listing.advance_at lt]

theorem accept {f g : Bool → Parse β} (inside : kind ≠ .endOfFile)
    (yes : i < l.body.length → (l.token i).kind = kind → Runs l (f true) (g true) (i + 1) goal)
    (no : (l.token i).kind ≠ kind → Runs l (f false) (g false) i goal) :
    Runs l (Parse.accept kind >>= f) (Parse.accept kind >>= g) i goal := by
  refine of_le fun fits => ?_
  by_cases same : (l.token i).kind = kind
  · have lt : i < l.body.length := Listing.lt_of_kind (same ▸ inside)
    refine step (Nat.le_succ i) lt (fun m => ?_) (yes lt same)
    rw [run_accept (by rw [← Stream.kind_peek, Listing.peek_at, same]), Listing.advance_at lt]
  · refine step (Nat.le_refl i) fits (fun m => ?_) (no same)
    exact run_not_accept (by rwa [← Stream.kind_peek, Listing.peek_at])

/-- A look at the next token and, if it is of a class, at the one behind it: what that one is does not matter
otherwise. -/
theorem checkSecond {f g : Bool → Token → Parse β} {p q : Parse β} (inside : kind ≠ .endOfFile)
    (yes : i < l.body.length → (l.token i).kind = kind →
      Runs l (f true (l.token (i + 1))) (g true (l.token (i + 1))) i goal)
    (no : Runs l p q i goal) (left : ∀ t, f false t = p) (right : ∀ t, g false t = q) :
    Runs l (Parse.check kind >>= fun b => Parse.peekSecond >>= f b)
      (Parse.check kind >>= fun b => Parse.peekSecond >>= g b) i goal := by
  refine .check ?_
  by_cases same : (l.token i).kind = kind
  · rw [decide_eq_true same]
    have lt : i < l.body.length := Listing.lt_of_kind (same ▸ inside)
    exact step (Nat.le_refl i) (Nat.le_of_lt lt) (fun m => Listing.run_peekSecond lt) (yes lt same)
  · -- The token behind may be one of the margins, so the rule for a step with one result does not apply.
    rw [decide_eq_false same]
    refine of_le fun fits => ?_
    obtain ⟨r, j, le, fits', run, isGoal⟩ := no fits
    refine fun _ => ⟨r, j, le, fits', fun m => ?_, isGoal⟩
    have second (s : Stream) : Parse.peekSecond.run s = (.ok ((s.rest.tail.head?).getD s.peek), s) := rfl
    rw [run_bind_ok (second _), run_bind_ok (second _), left, right]
    exact run m

/-- Reads a token of a class. -/
theorem runs_expect (inside : kind ≠ .endOfFile) :
    Runs l (Parse.expect kind) (Parse.expect kind) i fun _ j => j = i + 1 ∧ (l.token i).kind = kind := by
  refine of_le fun fits => ?_
  by_cases same : (l.token i).kind = kind
  · have lt : i < l.body.length := Listing.lt_of_kind (same ▸ inside)
    have run (m : Margins) : (Parse.expect kind).run (l.at m i) = (.ok (), l.at m (i + 1)) := by
      rw [run_expect (by rw [← Stream.kind_peek, Listing.peek_at, same]), Listing.advance_at lt]
    exact of_ok (Nat.le_succ i) lt (fun m => ⟨run m, run m⟩) ⟨rfl, same⟩
  · have run (m : Margins) : (Parse.expect kind).run (l.at m i) =
        (.error ⟨.expected kind (l.token i).kind, l.token i, l.file⟩, l.at m i) := by
      rw [run_not_expect (by rwa [← Stream.kind_peek, Listing.peek_at]), Listing.peek_at]
      rfl
    exact of_error (Nat.le_refl i) fits (fun m => ⟨run m, run m⟩) (fun deep => by cases deep)

theorem expect {f g : Unit → Parse β} (inside : kind ≠ .endOfFile)
    (next : i < l.body.length → (l.token i).kind = kind → Runs l (f ()) (g ()) (i + 1) goal) :
    Runs l (Parse.expect kind >>= f) (Parse.expect kind >>= g) i goal := by
  refine (runs_expect inside).bind fun _ j _ fits read => ?_
  obtain ⟨rfl, same⟩ := read
  exact next fits same

theorem spanOf {f g : Span → Parse β} (next : Runs l (f (t.span l.file)) (g (t.span l.file)) i goal) :
    Runs l (Parse.spanOf t >>= f) (Parse.spanOf t >>= g) i goal :=
  of_le fun fits => step (Nat.le_refl i) fits (fun _ => rfl) next

/-- The span from a token that was read. -/
theorem spanFrom {f g : Span → Parse β} (lt : i < j) (next : Runs l (f (l.cover i j)) (g (l.cover i j)) j goal) :
    Runs l (Parse.spanFrom (l.token i) >>= f) (Parse.spanFrom (l.token i) >>= g) j goal :=
  of_le fun fits => step (Nat.le_refl j) fits
    (fun m => congrArg (fun span => (Except.ok span, l.at m j)) (Listing.spanFrom_at lt fits)) next

/-- An attempt that finds nothing goes back to where it started. -/
theorem attempt {p q : Parse (Option α)} {post : Option α → Nat → Prop} (h : Runs l p q i post) :
    Runs l (Parse.attempt p) (Parse.attempt q) i fun r j =>
      r = none ∧ j = i ∨ ∃ a, r = some a ∧ post (some a) j := by
  intro fits
  obtain ⟨r, j, le, fits', run, isPost, notDeep⟩ := h fits
  -- What was read before nothing was found does not show: an attempt that fails starts over.
  by_cases finds : ∃ a, r = .ok (some a)
  · obtain ⟨a, rfl⟩ := finds
    have run' (m : Margins) := And.intro (run_attempt_some (run m).1) (run_attempt_some (run m).2)
    exact of_ok le fits' run' (.inr ⟨a, rfl, isPost _ rfl⟩) fits
  · have nothing {p : Parse (Option α)} {m : Margins} (run : p.run (l.at m i) = (r, l.at m j)) :
        (Parse.attempt p).run (l.at m i) = (.ok none, l.at m i) :=
      run_attempt_none fun a s same => finds ⟨a, congrArg Prod.fst (run.symm.trans same)⟩
    have run' (m : Margins) := And.intro (nothing (run m).1) (nothing (run m).2)
    exact of_ok (Nat.le_refl i) fits run' (.inl ⟨rfl, rfl⟩) fits

end Runs

end SignalLang.Tree
