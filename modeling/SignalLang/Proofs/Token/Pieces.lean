import Mathlib.Data.String.Basic
import SignalLang.Proofs.Token.Items

/-!
# Texts in pieces

Scanning cuts a text into pieces, the tokens and the gaps between them. `Cuts` says which pieces it finds
before it comes to stand somewhere in the text, `placed` gives the tokens among them their places, and
`scan_ok_iff` and `scan_error_iff` say of the whole text what scanning makes of it.
-/

namespace SignalLang.Token

/-- A piece of a text: a token of a class, or a gap. -/
structure Piece where
  kind : Option TokenKind
  text : List Char

/-- The pieces scanning finds at the front of a text, and the text it comes to stand at. -/
inductive Cuts : List Char → List Piece → List Char → Prop
  | here (cs : List Char) : Cuts cs [] cs
  | piece {c : Char} {cs rest : List Char} {item : Item} {pieces : List Piece} :
    itemAt c cs = .ok item → Cuts (cs.drop item.extra) pieces rest →
      Cuts (c :: cs) (⟨item.kind, c :: cs.take item.extra⟩ :: pieces) rest

/-- Scanning a text comes to stand at `rest`. -/
def Reaches (cs rest : List Char) : Prop := ∃ pieces, Cuts cs pieces rest

/-- The characters of pieces. -/
def chars (pieces : List Piece) : List Char := pieces.flatMap Piece.text

/-- Moves behind pieces. -/
def Cursor.passAll (p : Cursor) : List Piece → Cursor
  | [] => p
  | piece :: pieces => (p.pass piece.kind piece.text).passAll pieces

/-- The token that a piece is, where it stands. -/
def Piece.tokenAt (piece : Piece) (p : Cursor) : Option Token :=
  piece.kind.map fun kind => ⟨kind, String.ofList piece.text, p.line, p.column, p.offset⟩

/-- The tokens among pieces, the first of which stands at `p`. -/
def placed (p : Cursor) : List Piece → List Token
  | [] => []
  | piece :: pieces => (piece.tokenAt p).toList ++ placed (p.pass piece.kind piece.text) pieces

/-- The end of the file at a place. -/
def ending (p : Cursor) : Token := ⟨.endOfFile, "", p.line, p.column, p.offset⟩

/-- A piece is a token with a class of its own, or a gap. -/
def Piece.IsSound (piece : Piece) : Prop :=
  piece.text ≠ [] ∧ ((∃ kind, piece.kind = some kind ∧ kind ≠ .endOfFile) ∨ piece.kind = none ∧ IsGap piece.text)

variable {c : Char} {cs rest : List Char} {pieces before after : List Piece} {p : Cursor} {source : String}

@[simp] theorem chars_nil : chars [] = [] := rfl

@[simp] theorem chars_cons (piece : Piece) (pieces : List Piece) :
    chars (piece :: pieces) = piece.text ++ chars pieces := rfl

@[simp] theorem chars_append : chars (before ++ after) = chars before ++ chars after :=
  List.flatMap_append

theorem placed_append (p : Cursor) :
    placed p (before ++ after) = placed p before ++ placed (p.passAll before) after := by
  induction before generalizing p with
  | nil => rfl
  | cons piece before ih => simp only [List.cons_append, placed, ih, Cursor.passAll, List.append_assoc]

/-! ## Scanning is cutting -/

/-- Nothing is lost between the pieces. -/
theorem Cuts.text (h : Cuts cs pieces rest) : cs = chars pieces ++ rest := by
  induction h with
  | here cs => rfl
  | piece _ _ ih => rw [chars_cons, List.append_assoc, ← ih, List.cons_append, List.take_append_drop]

theorem Cuts.isSound (h : Cuts cs pieces rest) : ∀ piece ∈ pieces, piece.IsSound := by
  induction h with
  | here => exact nofun
  | piece item _ ih =>
    intro piece mem
    rcases List.mem_cons.1 mem with rfl | mem
    · exact ⟨List.cons_ne_nil _ _, itemAt_ok item⟩
    · exact ih piece mem

/-- The tokens of a text are those of the pieces at its front and those of the rest. -/
theorem Cuts.scanFrom (h : Cuts cs pieces rest) (p : Cursor) :
    scanFrom p cs = (scanFrom (p.passAll pieces) rest).map (placed p pieces ++ ·) := by
  induction h generalizing p with
  | here cs =>
    show _ = (Token.scanFrom p cs).map id
    cases Token.scanFrom p cs <;> rfl
  | @piece c cs rest item pieces isItem _ ih =>
    rw [Token.scanFrom, isItem]
    simp only [ih, Cursor.passAll, placed, Piece.tokenAt]
    cases Token.scanFrom ((p.pass item.kind (c :: cs.take item.extra)).passAll pieces) rest with
    | error e => rfl
    | ok tokens => cases item.kind <;> rfl

/-- Scanning goes on to the end of a text or to something that is no item. -/
theorem exists_cuts (n : Nat) : ∀ cs : List Char, cs.length ≤ n → ∃ pieces rest, Cuts cs pieces rest ∧
    (rest = [] ∨ ∃ c tail fault, rest = c :: tail ∧ itemAt c tail = .error fault) := by
  induction n with
  | zero =>
    intro cs size
    exact ⟨[], cs, .here cs, .inl (List.eq_nil_of_length_eq_zero (Nat.le_zero.1 size))⟩
  | succ n ih =>
    intro cs size
    cases cs with
    | nil => exact ⟨[], [], .here [], .inl rfl⟩
    | cons c cs =>
      cases isItem : itemAt c cs with
      | error fault => exact ⟨[], c :: cs, .here _, .inr ⟨c, cs, fault, rfl, isItem⟩⟩
      | ok item =>
        have shorter : (cs.drop item.extra).length ≤ n := by
          simp only [List.length_cons, List.length_drop] at size ⊢
          omega
        obtain ⟨pieces, rest, cuts, stops⟩ := ih _ shorter
        exact ⟨_, rest, .piece isItem cuts, stops⟩

theorem scan_of_cuts (h : Cuts source.toList pieces []) :
    scan source = .ok (placed {} pieces ++ [ending (Cursor.passAll {} pieces)]) := by
  rw [scan, h.scanFrom, Token.scanFrom]
  rfl

theorem scan_of_unclosed {fault : ScanFault} (h : Cuts source.toList pieces (c :: cs))
    (none : itemAt c cs = .error fault) : scan source = .error ⟨fault, Cursor.passAll {} pieces⟩ := by
  rw [scan, h.scanFrom, Token.scanFrom, none]
  rfl

/-- The tokens of a text are those among the pieces it is cut into, and the end of the file. -/
theorem scan_ok_iff {tokens : List Token} : scan source = .ok tokens ↔
    ∃ pieces, Cuts source.toList pieces [] ∧
      tokens = placed {} pieces ++ [ending (Cursor.passAll {} pieces)] := by
  constructor
  · intro scanned
    obtain ⟨pieces, rest, cuts, rfl | ⟨c, tail, fault, rfl, none⟩⟩ := exists_cuts _ source.toList (Nat.le_refl _)
    · rw [scan_of_cuts cuts] at scanned
      cases scanned
      exact ⟨pieces, cuts, rfl⟩
    · rw [scan_of_unclosed cuts none] at scanned
      cases scanned
  · rintro ⟨pieces, cuts, rfl⟩
    exact scan_of_cuts cuts

/-- Scanning fails exactly where it comes to stand at a string or a block comment that is never closed. -/
theorem scan_error_iff : (∃ e, scan source = .error e) ↔
    ∃ rest, Reaches source.toList rest ∧ (UnclosedString rest ∨ UnclosedComment rest) := by
  constructor
  · rintro ⟨e, scanned⟩
    obtain ⟨pieces, rest, cuts, rfl | ⟨c, tail, fault, rfl, none⟩⟩ := exists_cuts _ source.toList (Nat.le_refl _)
    · rw [scan_of_cuts cuts] at scanned
      cases scanned
    · refine ⟨c :: tail, ⟨pieces, cuts⟩, ?_⟩
      rcases itemAt_error_iff.1 none with ⟨-, unclosed⟩ | ⟨-, unclosed⟩
      · exact .inl unclosed
      · exact .inr unclosed
  · rintro ⟨rest, ⟨pieces, cuts⟩, unclosed⟩
    cases rest with
    | nil =>
      rcases unclosed with ⟨start, -⟩ | ⟨start, -⟩
      · cases start
      · simp at start
    | cons c tail =>
      rcases unclosed with unclosed | unclosed
      · exact ⟨_, scan_of_unclosed cuts (itemAt_error_iff.2 (.inl ⟨rfl, unclosed⟩))⟩
      · exact ⟨_, scan_of_unclosed cuts (itemAt_error_iff.2 (.inr ⟨rfl, unclosed⟩))⟩

/-! ## Where pieces stand -/

theorem Cursor.offset_foldl_skip (p : Cursor) (cs : List Char) :
    (cs.foldl Cursor.skip p).offset = p.offset + String.utf8Len cs := by
  induction cs generalizing p with
  | nil => rfl
  | cons c cs ih =>
    rw [List.foldl_cons, ih, String.utf8Len_cons]
    show p.offset + c.utf8Size + _ = _
    omega

theorem Cursor.offset_foldl_step (p : Cursor) (cs : List Char) :
    (cs.foldl Cursor.step p).offset = p.offset + String.utf8Len cs := by
  induction cs generalizing p with
  | nil => rfl
  | cons c cs ih =>
    have one : (p.step c).offset = p.offset + c.utf8Size := by
      unfold Cursor.step
      split <;> rfl
    rw [List.foldl_cons, ih, one, String.utf8Len_cons]
    omega

@[simp] theorem Cursor.offset_pass (p : Cursor) (kind : Option TokenKind) (cs : List Char) :
    (p.pass kind cs).offset = p.offset + String.utf8Len cs := by
  unfold Cursor.pass
  split
  · exact p.offset_foldl_skip cs
  · exact p.offset_foldl_step cs

@[simp] theorem Cursor.offset_passAll (p : Cursor) (pieces : List Piece) :
    (p.passAll pieces).offset = p.offset + String.utf8Len (chars pieces) := by
  induction pieces generalizing p with
  | nil => rfl
  | cons piece pieces ih =>
    rw [Cursor.passAll, ih, Cursor.offset_pass, chars_cons, String.utf8Len_append]
    omega

/-- A token among pieces is one of them, and stands behind those before it. -/
theorem mem_placed_iff {t : Token} : t ∈ placed p pieces ↔ ∃ before piece after,
    pieces = before ++ piece :: after ∧ piece.tokenAt (p.passAll before) = some t := by
  constructor
  · intro mem
    induction pieces generalizing p with
    | nil => cases mem
    | cons piece pieces ih =>
      rcases List.mem_append.1 mem with mem | mem
      · exact ⟨[], piece, pieces, rfl, Option.mem_toList.1 mem⟩
      · obtain ⟨before, found, after, rfl, isToken⟩ := ih mem
        exact ⟨piece :: before, found, after, rfl, isToken⟩
  · rintro ⟨before, piece, after, rfl, isToken⟩
    rw [placed_append, placed, isToken]
    simp

theorem Piece.tokenAt_eq_some {piece : Piece} {t : Token} (h : piece.tokenAt p = some t) :
    piece.kind = some t.kind ∧ t.lexeme = String.ofList piece.text ∧ t.line = p.line ∧ t.column = p.column ∧
      t.offset = p.offset := by
  obtain ⟨kind, isKind, rfl⟩ := Option.map_eq_some_iff.1 h
  exact ⟨isKind, rfl, rfl, rfl, rfl⟩

end SignalLang.Token
