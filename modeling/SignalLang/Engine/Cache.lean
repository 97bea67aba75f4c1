/-!
# A bounded cache

A `Cache` keeps the values that were used last, the latest first. Looking a key up or putting it is a use;
what exceeds the limit is dropped from the end. The elements stand in an order, and an index leads from a key to
its element.
-/

namespace SignalLang

/-- A key with its value. The number tells an element from all others that were ever made. -/
structure Cache.Element (κ α : Type) where
  id : Nat
  key : κ
  value : α

/-- Elements in order and an index of them. A limit that is not positive keeps nothing. -/
structure Cache (κ α : Type) where
  limit : Int
  /-- The elements, the most recently used first. -/
  order : List (Cache.Element κ α) := []
  /-- The number of the element of each key. -/
  index : List (κ × Nat) := []
  /-- How many elements were made so far. -/
  made : Nat := 0

namespace Cache

variable {κ α : Type} [DecidableEq κ]

/-- A cache that holds nothing. -/
def new (limit : Int) : Cache κ α := { limit := limit }

/-- How many elements there are. -/
def size (c : Cache κ α) : Nat := c.order.length

/-- The keys in order, the most recently used first. -/
def keys (c : Cache κ α) : List κ := c.order.map (·.key)

/-- The keys and values in order, the most recently used first. -/
def entries (c : Cache κ α) : List (κ × α) := c.order.map fun e => (e.key, e.value)

/-- The element that the index leads to. -/
def element? (c : Cache κ α) (k : κ) : Option (Element κ α) :=
  (c.index.lookup k).bind fun id => c.order.find? (·.id = id)

/-- The cache with an element, changed or not, moved to the front. -/
def toFront (c : Cache κ α) (e : Element κ α) : Cache κ α :=
  { c with order := e :: c.order.filter (·.id ≠ e.id) }

/-- The value of a key, and the cache after this use of it. -/
def get (c : Cache κ α) (k : κ) : Option α × Cache κ α :=
  match c.element? k with
  | some e => (some e.value, c.toFront e)
  | none => (none, c)

/-- The cache with a new element at the front. -/
def push (c : Cache κ α) (k : κ) (a : α) : Cache κ α :=
  { c with order := ⟨c.made, k, a⟩ :: c.order, index := (k, c.made) :: c.index, made := c.made + 1 }

/-- The cache without its last element, which is `e`. -/
def dropLast (c : Cache κ α) (e : Element κ α) : Cache κ α :=
  { c with order := c.order.dropLast, index := c.index.filter (·.1 ≠ e.key) }

/-- Drops elements from the end while there are too many. -/
def evict (c : Cache κ α) : Cache κ α :=
  if c.limit < c.size then
    match _last : c.order.getLast? with
    | some e => (c.dropLast e).evict
    | none => c
  else c
termination_by c.size
decreasing_by
  have some : c.order ≠ [] := by
    rintro none
    simp [none] at _last
  have := List.length_pos_iff.2 some
  simp only [size, dropLast, List.length_dropLast]
  omega

/-- Sets the value of a key; the least recently used elements go when there are too many. -/
def put (c : Cache κ α) (k : κ) (a : α) : Cache κ α :=
  if c.limit ≤ 0 then c
  else
    match c.element? k with
    | some e => c.toFront { e with value := a }
    | none => (c.push k a).evict

end Cache

end SignalLang
