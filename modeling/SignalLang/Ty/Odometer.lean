import SignalLang.Ty.Coordinates

/-!
# Walking an index space

An odometer gives the coordinates of an index space one at a time. It starts at the origin, and going on it
turns the last index; an index that comes to the end of its dimension is zero again, and the index before it
turns.
-/

namespace SignalLang

/-- A walk over the coordinates of an index space. -/
structure Odometer where
  dims : List Int
  current : List Int
  started : Bool
  done : Bool
deriving DecidableEq, Repr

namespace Odometer

/-- The coordinate of all zeros. -/
def origin (dims : List Int) : List Int := dims.map fun _ => 0

/-- A walk that has not begun. There is nothing to walk if a dimension is empty. -/
def start (dims : List Int) : Odometer := ⟨dims, origin dims, false, dims.any (· ≤ 0)⟩

/-- Turns the indexes from the last one on until one does not come to the end of its dimension. Also says
whether there is such an index. -/
def turn : (dims current : List Int) → List Int × Bool
  | d :: ds, i :: is =>
    match turn ds is with
    | (is, true) => (i :: is, true)
    | (is, false) => if i + 1 < d then ((i + 1) :: is, true) else (0 :: is, false)
  | _, _ => ([], false)

/-- The next coordinate, and the walk behind it. -/
def next (w : Odometer) : Option (List Int) × Odometer :=
  if w.done then (none, w)
  else if !w.started then (some w.current, { w with started := true })
  else
    match turn w.dims w.current with
    | (current, true) => (some current, { w with current })
    | (current, false) => (none, { w with current, done := true })

end Odometer

end SignalLang
