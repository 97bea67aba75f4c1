/-!
# Searching in texts
-/

namespace SignalLang.Text

/-- How often a list of characters occurs in another, counted from the front without overlaps; `skip`
characters belong to an occurrence already counted. -/
def occurrencesFrom (pattern : List Char) : (skip : Nat) → List Char → Nat
  | _, [] => 0
  | skip + 1, _ :: cs => occurrencesFrom pattern skip cs
  | 0, c :: cs =>
    if pattern.isPrefixOf (c :: cs) then 1 + occurrencesFrom pattern (pattern.length - 1) cs
    else occurrencesFrom pattern 0 cs

/-- How often a pattern occurs in a text without overlaps. The empty pattern occurs around every character. -/
def occurrences (pattern text : String) : Nat :=
  if pattern.isEmpty then text.length + 1 else occurrencesFrom pattern.toList 0 text.toList

/-- Whether a pattern occurs in a list of characters. -/
def occursIn (pattern : List Char) : List Char → Bool
  | [] => pattern.isEmpty
  | c :: cs => pattern.isPrefixOf (c :: cs) || occursIn pattern cs

theorem occursIn_iff {pattern text : List Char} : occursIn pattern text = true ↔ pattern <:+: text := by
  induction text with
  | nil => simp [occursIn]
  | cons c cs ih => simp [occursIn, ih, List.infix_cons_iff]

/-- Whether a text holds a pattern. -/
def holds (text pattern : String) : Bool := occursIn pattern.toList text.toList

end SignalLang.Text
