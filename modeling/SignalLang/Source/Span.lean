/-!
# Positions and spans

A `Position` is a place in a source file, counted three ways: line and column from one, byte
offset from zero. A `Span` is a range between two positions of one file. Files are numbered from
zero; a negative number stands for code that the compiler provides itself.
-/

namespace SignalLang

/-- A place in a source file. -/
structure Position where
  line : Int
  column : Int
  offset : Int
deriving DecidableEq, Repr, Inhabited

namespace Position

/-- The position of things that were never written down. -/
def zero : Position := ⟨0, 0, 0⟩

/-- Positions of one file are ordered by their byte offset alone. -/
def before (p q : Position) : Bool := p.offset < q.offset

end Position

/-- A range of text in one source file. -/
structure Span where
  file : Int
  start : Position
  stop : Position
deriving DecidableEq, Repr, Inhabited

namespace Span

/-- The span of code that has no written source. -/
def builtin : Span := ⟨-1, .zero, .zero⟩

/-- Whether the span belongs to code the compiler provides. -/
def isBuiltin (s : Span) : Bool := s.file < 0

/-- The empty span at one position. -/
def point (file : Int) (p : Position) : Span := ⟨file, p, p⟩

/-- The smallest span that covers both. Spans of different files cannot be joined: the first wins. -/
def union (s t : Span) : Span :=
  if s.file ≠ t.file then s
  else
    { s with
      start := if t.start.before s.start then t.start else s.start
      stop := if s.stop.before t.stop then t.stop else s.stop }

/-- `line:column` of the start. -/
def text (s : Span) : String :=
  if s.isBuiltin then "<builtin>" else s!"{s.start.line}:{s.start.column}"

theorem union_self (s : Span) : s.union s = s := by
  simp [union, Position.before]

theorem union_file (s t : Span) : (s.union t).file = s.file := by
  unfold union; split <;> rfl

end Span

end SignalLang
