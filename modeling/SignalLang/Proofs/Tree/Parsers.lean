import SignalLang.Proofs.Tree.Views

/-!
# Parsers on streams of tokens

`Reads p s good rest` says that a parser succeeds on a stream, with a good result, and leaves `rest`. It is
built up along the parser: for each way in which parsers are put together there is a rule that asks for what
each part reads.
-/

namespace SignalLang.Tree

open Parse
open Lexeme (mark)

/-! ## Streams -/

/-- The tokens that are left, without their places. -/
def Stream.lexemes (s : Stream) : List Lexeme := s.rest.map Token.toLexeme

/-- The class of the next token. -/
def nextKind : List Lexeme → TokenKind
  | [] => .endOfFile
  | l :: _ => l.kind

@[simp] theorem nextKind_cons (l : Lexeme) (ls : List Lexeme) : nextKind (l :: ls) = l.kind := rfl

@[simp] theorem kind_mark (kind : TokenKind) : (mark kind).kind = kind := rfl

namespace Stream

variable {s : Stream} {l : Lexeme} {ls : List Lexeme}

theorem kind_peek (s : Stream) : s.peek.kind = nextKind s.lexemes := by
  unfold peek lexemes
  cases s.rest <;> rfl

theorem toLexeme_peek (here : s.lexemes = l :: ls) : s.peek.toLexeme = l := by
  unfold lexemes at here
  unfold peek
  obtain ⟨t, ts, same, rfl, -⟩ := List.map_eq_cons_iff.1 here
  rw [same]
  rfl

theorem atEnd_eq (s : Stream) : s.atEnd = decide (nextKind s.lexemes = .endOfFile) := by
  rw [atEnd, kind_peek]

theorem lexemes_advance (here : s.lexemes = l :: ls) (inside : l.kind ≠ .endOfFile) :
    s.advance.lexemes = ls := by
  have notEnd : s.atEnd = false := by simp [atEnd_eq, here, inside]
  unfold advance
  rw [if_neg (by simp [notEnd])]
  simp only [lexemes] at here ⊢
  rw [List.map_tail, here, List.tail_cons]

end Stream

/-! ## Parsers that succeed -/

variable {α β : Type} {p : Parse α} {f : α → Parse β} {s : Stream} {good : α → Prop} {good' : β → Prop}
  {l : Lexeme} {ls mid rest : List Lexeme} {kind : TokenKind} {token : Token}

theorem run_bind (p : Parse α) (f : α → Parse β) (s : Stream) :
    (p >>= f).run s = match p.run s with
      | (.ok a, s') => (f a).run s'
      | (.error e, s') => (.error e, s') := by
  show ((p s : Except ParseError α × Stream) |> fun r => ExceptT.bindCont f r.1 r.2) = _
  show _ = match (p s : Except ParseError α × Stream) with
    | (.ok a, s') => (f a).run s'
    | (.error e, s') => (.error e, s')
  rcases (p s : Except ParseError α × Stream) with ⟨r | r, s'⟩ <;> rfl

theorem run_bind_ok {a : α} {s' : Stream} (run : p.run s = (.ok a, s')) :
    (p >>= f).run s = (f a).run s' := by
  rw [run_bind, run]

theorem run_bind_error {e : ParseError} {s' : Stream} (run : p.run s = (.error e, s')) :
    (p >>= f).run s = (.error e, s') := by
  rw [run_bind, run]

theorem run_peek : Parse.peek.run s = (.ok s.peek, s) := rfl

theorem run_advance : Parse.advance.run s = (.ok s.peek, s.advance) := rfl

theorem run_expect (same : nextKind s.lexemes = kind) : (expect kind).run s = (.ok (), s.advance) := by
  show ((if s.peek.kind = kind then modify Stream.advance else fail s.peek _ : Parse Unit)).run s = _
  rw [if_pos (by rw [s.kind_peek, same])]
  rfl

theorem run_not_expect (other : nextKind s.lexemes ≠ kind) :
    (expect kind).run s = (.error ⟨.expected kind s.peek.kind, s.peek, s.file⟩, s) := by
  show ((if s.peek.kind = kind then modify Stream.advance else fail s.peek _ : Parse Unit)).run s = _
  rw [if_neg (by rw [s.kind_peek]; exact other)]
  rfl

theorem run_accept (same : nextKind s.lexemes = kind) : (accept kind).run s = (.ok true, s.advance) := by
  show (if decide (s.peek.kind = kind) = true then (do modify Stream.advance; pure true)
    else pure false : Parse Bool).run s = _
  rw [if_pos (by simp [s.kind_peek, same])]
  rfl

theorem run_not_accept (other : nextKind s.lexemes ≠ kind) : (accept kind).run s = (.ok false, s) := by
  show (if decide (s.peek.kind = kind) = true then (do modify Stream.advance; pure true)
    else pure false : Parse Bool).run s = _
  rw [if_neg (by simp [s.kind_peek, other])]
  rfl

theorem run_attempt (p : Parse (Option α)) (s : Stream) :
    (attempt p).run s = match p.run s with
      | (.ok (some a), s') => (.ok (some a), s')
      | _ => (.ok none, s) := rfl

theorem run_attempt_some {p : Parse (Option α)} {a : α} {s' : Stream} (run : p.run s = (.ok (some a), s')) :
    (attempt p).run s = (.ok (some a), s') := by
  rw [run_attempt, run]

theorem run_attempt_none {p : Parse (Option α)} (none : ∀ a s', p.run s ≠ (.ok (some a), s')) :
    (attempt p).run s = (.ok .none, s) := by
  rw [run_attempt]
  split
  · rename_i a s' run
    exact absurd run (none a s')
  · rfl

/-- A parser succeeds with a good result and leaves the given tokens. -/
def Reads (p : Parse α) (s : Stream) (good : α → Prop) (rest : List Lexeme) : Prop :=
  ∃ a s', p.run s = (.ok a, s') ∧ good a ∧ s'.lexemes = rest

namespace Reads

protected theorem pure {a : α} (h : good a) (here : s.lexemes = rest) : Reads (pure a) s good rest :=
  ⟨a, s, rfl, h, here⟩

protected theorem bind (first : Reads p s good mid)
    (next : ∀ a s', good a → s'.lexemes = mid → Reads (f a) s' good' rest) :
    Reads (p >>= f) s good' rest := by
  obtain ⟨a, s', run, isGood, left⟩ := first
  obtain ⟨b, s'', run', isGood', left'⟩ := next a s' isGood left
  exact ⟨b, s'', by rw [run_bind, run]; exact run', isGood', left'⟩

/-- What is known of a result when the parser is known to succeed. -/
theorem result {a : α} {s' : Stream} (h : Reads p s good rest) (run : p.run s = (.ok a, s')) :
    good a ∧ s'.lexemes = rest := by
  obtain ⟨b, t, run', isGood, left⟩ := h
  cases run.symm.trans run'
  exact ⟨isGood, left⟩

theorem mono {good₂ : α → Prop} (h : Reads p s good rest) (weaker : ∀ a, good a → good₂ a) :
    Reads p s good₂ rest := by
  obtain ⟨a, s', run, isGood, left⟩ := h
  exact ⟨a, s', run, weaker a isGood, left⟩

theorem map {g : α → β} (h : Reads p s good rest) (next : ∀ a, good a → good' (g a)) :
    Reads (g <$> p) s good' rest := by
  rw [← bind_pure_comp]
  exact h.bind fun a s' isGood left => .pure (next a isGood) left

/-- Looking at the next token. -/
theorem peek {f : Token → Parse β} (next : Reads (f s.peek) s good' rest) :
    Reads (Parse.peek >>= f) s good' rest := next

theorem peekSecond {f : Token → Parse β}
    (next : ∀ t, t.kind = nextKind (s.lexemes.tail) ∨ s.lexemes.tail = [] → Reads (f t) s good' rest) :
    Reads (Parse.peekSecond >>= f) s good' rest := by
  refine next ((s.rest.tail.head?).getD s.peek) ?_
  unfold Stream.lexemes
  rw [← List.map_tail]
  cases s.rest.tail with
  | nil => exact .inr rfl
  | cons t ts => exact .inl rfl

/-- Reading the next token. -/
theorem advance {f : Token → Parse β} (here : s.lexemes = l :: ls) (inside : l.kind ≠ .endOfFile)
    (next : ∀ s', s'.lexemes = ls → Reads (f s.peek) s' good' rest) :
    Reads (Parse.advance >>= f) s good' rest :=
  next s.advance (s.lexemes_advance here inside)

theorem expect {f : Unit → Parse β} (here : s.lexemes = l :: ls) (same : l.kind = kind)
    (inside : kind ≠ .endOfFile) (next : ∀ s', s'.lexemes = ls → Reads (f ()) s' good' rest) :
    Reads (Parse.expect kind >>= f) s good' rest := by
  obtain ⟨b, s', run, isGood, left⟩ := next s.advance (s.lexemes_advance here (same ▸ inside))
  exact ⟨b, s', (run_bind_ok (run_expect (by rw [here, nextKind_cons, same]))).trans run, isGood, left⟩

theorem check {f : Bool → Parse β} (next : Reads (f (nextKind s.lexemes = kind)) s good' rest) :
    Reads (Parse.check kind >>= f) s good' rest := by
  rw [← s.kind_peek] at next
  exact next

theorem atEnd {f : Bool → Parse β} (next : Reads (f (nextKind s.lexemes = .endOfFile)) s good' rest) :
    Reads (Parse.atEnd >>= f) s good' rest := by
  rw [← s.kind_peek] at next
  exact next

theorem accept {f : Bool → Parse β} (here : s.lexemes = l :: ls) (same : l.kind = kind)
    (inside : kind ≠ .endOfFile) (next : ∀ s', s'.lexemes = ls → Reads (f true) s' good' rest) :
    Reads (Parse.accept kind >>= f) s good' rest := by
  obtain ⟨b, s', run, isGood, left⟩ := next s.advance (s.lexemes_advance here (same ▸ inside))
  exact ⟨b, s', (run_bind_ok (run_accept (by rw [here, nextKind_cons, same]))).trans run, isGood, left⟩

theorem not_accept {f : Bool → Parse β} (other : nextKind s.lexemes ≠ kind)
    (next : Reads (f false) s good' rest) : Reads (Parse.accept kind >>= f) s good' rest := by
  obtain ⟨b, s', run, isGood, left⟩ := next
  exact ⟨b, s', (run_bind_ok (run_not_accept other)).trans run, isGood, left⟩

theorem spanOf {f : Span → Parse β} (next : ∀ span, Reads (f span) s good' rest) :
    Reads (Parse.spanOf token >>= f) s good' rest := next _

theorem spanFrom {f : Span → Parse β} (next : ∀ span, Reads (f span) s good' rest) :
    Reads (Parse.spanFrom token >>= f) s good' rest := next _

end Reads

end SignalLang.Tree
