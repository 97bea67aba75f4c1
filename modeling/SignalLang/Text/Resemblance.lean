import SignalLang.Text.LowerCase

/-!
# Names that resemble each other

`editDistance` counts the insertions, deletions and replacements that turn one text into another.
`closest?` picks, among sorted candidates, the name that another most plausibly misspells.
-/

namespace SignalLang.Text

/-- The next row of the edit distance table: `diag` and `row` are the row above, `left` the entry just
written. -/
def distanceRow (c : Char) : (diag left : Nat) → List Char → List Nat → List Nat
  | diag, left, t :: ts, up :: ups =>
    let here := min (min (left + 1) (up + 1)) (if c = t then diag else diag + 1)
    here :: distanceRow c up here ts ups
  | _, _, _, _ => []

/-- The least number of single-character edits between two texts. -/
def editDistance (s t : List Char) : Nat :=
  let step (row : Nat × List Nat) (c : Char) : Nat × List Nat :=
    (row.1 + 1, distanceRow c row.1 (row.1 + 1) t row.2)
  let last := s.foldl step (0, (List.range t.length).map (· + 1))
  (last.1 :: last.2).getLast?.getD 0

/-- Whether the characters of the first list occur in the second in order. -/
def isSubsequence : List Char → List Char → Bool
  | [], _ => true
  | _ :: _, [] => false
  | c :: cs, t :: ts => if c = t then isSubsequence cs ts else isSubsequence (c :: cs) ts

theorem isSubsequence_iff {s t : List Char} : isSubsequence s t = true ↔ s.Sublist t := by
  fun_induction isSubsequence s t with
  | case1 => simp
  | case2 => simp
  | case3 cs c ts ih => rw [ih, List.cons_sublist_cons]
  | case4 c cs t ts h ih =>
    rw [ih]
    constructor
    · exact List.Sublist.cons t
    · intro hs
      cases hs with
      | cons _ hs => exact hs
      | cons_cons _ _ => exact absurd rfl h

/-- Whether `name` can be read in `candidate` in order, letter case apart. -/
def isContainedIn (name candidate : String) : Bool :=
  let low (s : String) : List Char := s.toList.map toLowerCase
  (String.ofList (low name)).utf8ByteSize ≤ (String.ofList (low candidate)).utf8ByteSize &&
    isSubsequence (low name) (low candidate)

/-- The first candidate of least weight among those below a limit. -/
def lightest? (weight : String → Nat) : List String → Option Nat → Option String
  | [], _ => none
  | c :: cs, limit =>
    if limit.all (weight c < ·) then some ((lightest? weight cs (some (weight c))).getD c)
    else lightest? weight cs limit

/-- The candidate that `name` most plausibly misspells: the nearest of those that contain it, else the
nearest one at a distance below three. -/
def closest? (name : String) (candidates : List String) : Option String :=
  let distance (c : String) : Nat := editDistance name.toList c.toList
  match lightest? distance (candidates.filter (isContainedIn name)) none with
  | some found => some found
  | none => lightest? distance candidates (some 3)

end SignalLang.Text
