import Mathlib.Data.List.Induction
import Mathlib.Data.List.Nodup
import SignalLang.Engine.Cache

/-!
# The cache keeps what was used last

A cache has its elements twice, in an order and in an index. `Cache.Linked` says that the two agree, and then an
operation does to the keys and values in order (`Cache.entries`) what its description says: `get_eq`, `entries_get`
and `entries_put`. Each operation keeps the two in agreement.

A run of operations uses a key when it puts it or finds it. `after_holds` says what a new cache holds after any run:
of the keys that were used, each taken once and the latest use first, as many as the limit allows, with the value
that was put last.
-/

namespace SignalLang.Cache

/-- Where the marks of a list differ, the first entry of a mark is the only one. -/
theorem find?_eq_some_iff_of_nodup {β γ : Type} [DecidableEq γ] {mark : β → γ} {xs : List β}
    (nodup : (xs.map mark).Nodup) {x : β} {y : γ} : xs.find? (mark · = y) = some x ↔ x ∈ xs ∧ mark x = y := by
  constructor
  · exact fun found => ⟨List.mem_of_find?_eq_some found, by simpa using List.find?_some found⟩
  · rintro ⟨mem, rfl⟩
    obtain ⟨x', found⟩ :=
      Option.isSome_iff_exists.1 (List.find?_isSome (p := (mark · = mark x)).2 ⟨x, mem, by simp⟩)
    have same : mark x' = mark x := by simpa using List.find?_some found
    rw [found, List.inj_on_of_nodup_map nodup (List.mem_of_find?_eq_some found) mem same]

/-- Where the keys of a list differ, a key is mapped to what it is paired with. -/
theorem lookup_eq_some_iff_of_nodup {κ β : Type} [DecidableEq κ] {pairs : List (κ × β)}
    (nodup : (pairs.map (·.1)).Nodup) {k : κ} {b : β} : pairs.lookup k = some b ↔ (k, b) ∈ pairs := by
  rw [List.lookup_eq_some_iff]
  constructor
  · rintro ⟨before, after, rfl, -⟩
    simp
  · intro mem
    obtain ⟨before, after, rfl⟩ := List.mem_iff_append.1 mem
    refine ⟨before, after, rfl, fun p hp => ?_⟩
    rw [List.map_append, List.nodup_append] at nodup
    have apart := nodup.2.2 p.1 (List.mem_map_of_mem hp) k (by simp)
    simpa using fun same => apart same.symm

variable {κ α : Type} {c : Cache κ α} {k : κ} {a : α} {e : Element κ α}

/-! ### The order and the index -/

/-- The index leads from the key of each element to its number, and no two elements have a key or a number in
common. -/
structure Linked (c : Cache κ α) : Prop where
  index : c.index.Perm (c.order.map fun e => (e.key, e.id))
  keys : c.keys.Nodup
  ids : (c.order.map (·.id)).Nodup
  made : ∀ e ∈ c.order, e.id < c.made

theorem mem_keys : k ∈ c.keys ↔ ∃ e ∈ c.order, e.key = k := List.mem_map

theorem keys_eq_map_entries (c : Cache κ α) : c.keys = c.entries.map (·.1) := by
  simp [keys, entries]

theorem mem_entries {p : κ × α} : p ∈ c.entries ↔ ∃ e ∈ c.order, (e.key, e.value) = p := List.mem_map

namespace Linked

theorem new (limit : Int) : (Cache.new limit : Cache κ α).Linked := ⟨.nil, .nil, .nil, nofun⟩

theorem perm_keys (h : c.Linked) : (c.index.map (·.1)).Perm c.keys := by
  simpa [Cache.keys, Function.comp_def] using h.index.map (·.1)

/-- Moving an element to the front only changes the order. -/
theorem perm_toFront (h : c.Linked) (mem : e ∈ c.order) : (c.toFront e).order.Perm c.order := by
  obtain ⟨before, after, split⟩ := List.mem_iff_append.1 mem
  have ids := h.ids
  rw [split, List.map_append, List.map_cons, List.nodup_append, List.nodup_cons] at ids
  have others : c.order.filter (·.id ≠ e.id) = before ++ after := by
    rw [split, List.filter_append, List.filter_cons_of_neg (by simp), List.filter_eq_self.2, List.filter_eq_self.2]
    · intro e' mem'
      simpa using fun same : e'.id = e.id => ids.2.1.1 (same ▸ List.mem_map_of_mem mem')
    · intro e' mem'
      simpa using ids.2.2 e'.id (List.mem_map_of_mem mem') e.id (by simp)
  rw [toFront, others, split]
  exact List.perm_middle.symm

/-- An element may change its value on its way to the front. -/
theorem toFront (h : c.Linked) (mem : e ∈ c.order) (a : α) : (c.toFront { e with value := a }).Linked := by
  have perm := h.perm_toFront mem
  refine ⟨h.index.trans (perm.map _).symm, (perm.map _).nodup_iff.2 h.keys, (perm.map _).nodup_iff.2 h.ids,
    fun e' mem' => ?_⟩
  obtain ⟨old, mem, id⟩ : ∃ old ∈ (c.toFront e).order, old.id = e'.id := by
    rcases List.mem_cons.1 mem' with rfl | mem'
    · exact ⟨e, List.mem_cons_self, rfl⟩
    · exact ⟨e', List.mem_cons_of_mem _ mem', rfl⟩
  exact id ▸ h.made old (perm.mem_iff.1 mem)

theorem push (h : c.Linked) (absent : k ∉ c.keys) (a : α) : (c.push k a).Linked := by
  refine ⟨h.index.cons _, List.nodup_cons.2 ⟨absent, h.keys⟩, List.nodup_cons.2 ⟨fun mem => ?_, h.ids⟩, fun e mem => ?_⟩
  · obtain ⟨e, mem, id⟩ := List.mem_map.1 mem
    exact absurd id (Nat.ne_of_lt (h.made e mem))
  · rcases List.mem_cons.1 mem with rfl | mem
    · exact Nat.lt_succ_self _
    · exact Nat.lt_succ_of_lt (h.made e mem)

variable [DecidableEq κ]

/-- The index leads to the only element of a key. -/
theorem element?_eq_some_iff (h : c.Linked) : c.element? k = some e ↔ e ∈ c.order ∧ e.key = k := by
  have index (id : Nat) : c.index.lookup k = some id ↔ ∃ e ∈ c.order, e.key = k ∧ e.id = id := by
    have nodup : (c.index.map (·.1)).Nodup := h.perm_keys.nodup_iff.2 h.keys
    simp [lookup_eq_some_iff_of_nodup nodup, h.index.mem_iff]
  simp only [element?, Option.bind_eq_some_iff, index, find?_eq_some_iff_of_nodup h.ids]
  constructor
  · rintro ⟨_, ⟨e', mem', rfl, rfl⟩, mem, same⟩
    obtain rfl : e = e' := List.inj_on_of_nodup_map h.ids mem mem' same
    exact ⟨mem, rfl⟩
  · rintro ⟨mem, rfl⟩
    exact ⟨e.id, ⟨e, mem, rfl, rfl⟩, mem, rfl⟩

theorem element?_eq_none_iff (h : c.Linked) : c.element? k = none ↔ k ∉ c.keys := by
  rw [Option.eq_none_iff_forall_ne_some, mem_keys]
  simp [h.element?_eq_some_iff]

/-- The elements with another number are those with another key. -/
theorem filter_id (h : c.Linked) (mem : e ∈ c.order) :
    c.order.filter (·.id ≠ e.id) = c.order.filter (·.key ≠ e.key) := by
  refine List.filter_congr fun e' mem' => ?_
  have same : e'.id = e.id ↔ e'.key = e.key :=
    ⟨fun h' => congrArg _ (List.inj_on_of_nodup_map h.ids mem' mem h'),
      fun h' => congrArg _ (List.inj_on_of_nodup_map h.keys mem' mem h')⟩
  simp [same]

theorem dropLast (h : c.Linked) (last : c.order.getLast? = some e) : (c.dropLast e).Linked := by
  have split : c.order = c.order.dropLast ++ [e] := (List.dropLast_append_getLast? e last).symm
  have kept : c.order.dropLast.Sublist c.order := List.dropLast_sublist _
  refine ⟨?_, h.keys.sublist (kept.map _), h.ids.sublist (kept.map _), fun e' mem' => h.made e' (kept.subset mem')⟩
  -- the key of the last element stands nowhere else
  have keys : (c.order.dropLast.map (·.key) ++ [e.key]).Nodup := by
    have := h.keys
    rwa [Cache.keys, split, List.map_append] at this
  have others : (c.order.map fun e => (e.key, e.id)).filter (·.1 ≠ e.key) =
      c.order.dropLast.map fun e => (e.key, e.id) := by
    conv_lhs => rw [split]
    rw [List.map_append, List.filter_append, List.filter_eq_self.2]
    · simp
    · intro p hp
      obtain ⟨e', mem', rfl⟩ := List.mem_map.1 hp
      simpa using (List.nodup_append.1 keys).2.2 e'.key (List.mem_map_of_mem mem') e.key (by simp)
  exact others ▸ h.index.filter _

theorem evict (h : c.Linked) : c.evict.Linked := by
  fun_induction Cache.evict c with
  | case1 c _ e last ih => exact ih (h.dropLast last)
  | case2 => exact h
  | case3 => exact h

theorem get (h : c.Linked) (k : κ) : (c.get k).2.Linked := by
  unfold Cache.get
  split
  · rename_i e found
    exact h.toFront (h.element?_eq_some_iff.1 found).1 e.value
  · exact h

theorem put (h : c.Linked) (k : κ) (a : α) : (c.put k a).Linked := by
  unfold Cache.put
  split
  · exact h
  · split
    · rename_i e found
      exact h.toFront (h.element?_eq_some_iff.1 found).1 a
    · rename_i absent
      exact (h.push (h.element?_eq_none_iff.1 absent) a).evict

end Linked

/-- The index and the order agree, and there are no more elements than the limit allows. -/
structure Bounded (c : Cache κ α) : Prop extends c.Linked where
  fits : c.size ≤ c.limit.toNat

/-! ### What the operations do to keys and values -/

variable [DecidableEq κ]

/-- Evicting keeps the front. -/
theorem order_evict (c : Cache κ α) : c.evict.order = c.order.take c.limit.toNat := by
  fun_induction Cache.evict c with
  | case1 c full e last ih =>
    have full : c.limit < c.order.length := full
    rw [ih]
    show c.order.dropLast.take c.limit.toNat = _
    rw [List.dropLast_eq_take, List.take_take, Nat.min_eq_left (by omega)]
  | case2 c full none =>
    simp [List.getLast?_eq_none_iff.1 none]
  | case3 c fits =>
    have fits : ¬c.limit < c.order.length := fits
    rw [List.take_of_length_le (by omega)]

/-- What a key is found to have stands in order. -/
theorem get_eq_some_iff (h : c.Linked) : (c.get k).1 = some a ↔ (k, a) ∈ c.entries := by
  simp only [mem_entries, Prod.mk.injEq]
  cases found : c.element? k with
  | none =>
    have absent := mem_keys.not.1 (h.element?_eq_none_iff.1 found)
    simp only [get, found, reduceCtorEq, false_iff]
    exact fun ⟨e, mem, key, _⟩ => absent ⟨e, mem, key⟩
  | some e =>
    obtain ⟨mem, rfl⟩ := h.element?_eq_some_iff.1 found
    simp only [get, found, Option.some.injEq]
    constructor
    · rintro rfl
      exact ⟨e, mem, rfl, rfl⟩
    · rintro ⟨e', mem', key, rfl⟩
      rw [List.inj_on_of_nodup_map h.keys mem' mem key]

theorem isSome_get_iff (h : c.Linked) : (c.get k).1.isSome ↔ k ∈ c.keys := by
  simp [Option.isSome_iff_exists, get_eq_some_iff h, mem_entries, mem_keys]

theorem entries_toFront (h : c.Linked) (mem : e ∈ c.order) (a : α) :
    (c.toFront { e with value := a }).entries = (e.key, a) :: c.entries.filter (·.1 ≠ e.key) := by
  simp only [entries, toFront, List.map_cons, h.filter_id mem, List.filter_map, Function.comp_def]

/-- A key that is found comes to the front with its value, and the others stay in order. -/
theorem entries_get (h : c.Linked) (k : κ) :
    (c.get k).2.entries = (c.get k).1.elim c.entries fun a => (k, a) :: c.entries.filter (·.1 ≠ k) := by
  cases found : c.element? k with
  | none => simp [get, found]
  | some e =>
    obtain ⟨mem, rfl⟩ := h.element?_eq_some_iff.1 found
    simpa [get, found] using entries_toFront h mem e.value

theorem size_get (h : c.Linked) (k : κ) : (c.get k).2.size = c.size := by
  unfold get
  split
  · rename_i e found
    exact (h.perm_toFront (h.element?_eq_some_iff.1 found).1).length_eq
  · rfl

/-- A key that is put stands in front of the others, as many as the limit allows. -/
theorem entries_put (h : c.Bounded) (k : κ) (a : α) :
    (c.put k a).entries = ((k, a) :: c.entries.filter (·.1 ≠ k)).take c.limit.toNat := by
  have fits : c.order.length ≤ c.limit.toNat := h.fits
  by_cases refused : c.limit ≤ 0
  · have none : c.order = [] := List.length_eq_zero_iff.1 (by omega)
    simp [put, refused, entries, none, Int.toNat_of_nonpos refused]
  · cases found : c.element? k with
    | none =>
      have absent : ∀ p ∈ c.entries, p.1 ≠ k := by
        rintro _ mem rfl
        obtain ⟨e, mem', rfl⟩ := mem_entries.1 mem
        exact h.element?_eq_none_iff.1 found (mem_keys.2 ⟨e, mem', rfl⟩)
      rw [List.filter_eq_self.2 (by simpa using absent)]
      simp only [put, refused, found, if_false, entries, order_evict, List.map_take]
      rfl
    | some e =>
      obtain ⟨mem, rfl⟩ := h.element?_eq_some_iff.1 found
      have same : (c.toFront { e with value := a }).entries.length = c.order.length := by
        simpa [entries, toFront] using (h.perm_toFront mem).length_eq
      rw [← entries_toFront h.toLinked mem a, List.take_of_length_le (same ▸ fits)]
      simp [put, refused, found]

@[simp] theorem limit_get (c : Cache κ α) (k : κ) : (c.get k).2.limit = c.limit := by
  unfold get
  split <;> rfl

theorem limit_evict (c : Cache κ α) : c.evict.limit = c.limit := by
  fun_induction Cache.evict c with
  | case1 _ _ _ _ ih => exact ih
  | case2 => rfl
  | case3 => rfl

@[simp] theorem limit_put (c : Cache κ α) (k : κ) (a : α) : (c.put k a).limit = c.limit := by
  unfold put
  split
  · rfl
  · split
    · rfl
    · exact limit_evict _

namespace Bounded

omit [DecidableEq κ] in
theorem new (limit : Int) : (Cache.new limit : Cache κ α).Bounded := ⟨.new limit, Nat.zero_le _⟩

theorem get (h : c.Bounded) (k : κ) : (c.get k).2.Bounded :=
  ⟨h.toLinked.get k, by rw [size_get h.toLinked, limit_get]; exact h.fits⟩

theorem put (h : c.Bounded) (k : κ) (a : α) : (c.put k a).Bounded := by
  refine ⟨h.toLinked.put k a, ?_⟩
  have entries : (c.put k a).size = (c.put k a).entries.length := (List.length_map _).symm
  rw [entries, entries_put h, limit_put]
  exact List.length_take_le _ _

end Bounded

theorem eq_of_get_none {c' : Cache κ α} (h : c.get k = (none, c')) : c' = c := by
  unfold get at h
  split at h <;> cases h
  rfl

/-- A value that is found was put there, and the use of it only changes the order. -/
theorem mem_of_get (h : c.Linked) {c' : Cache κ α} (found : c.get k = (some a, c')) :
    (k, a) ∈ c.entries ∧ ∀ p ∈ c'.entries, p ∈ c.entries := by
  have mem : (k, a) ∈ c.entries := (get_eq_some_iff h).1 (congrArg Prod.fst found)
  have entries := entries_get h k
  rw [found, Option.elim_some] at entries
  refine ⟨mem, fun p hp => ?_⟩
  rcases List.mem_cons.1 (entries ▸ hp) with rfl | hp
  · exact mem
  · exact (List.mem_filter.1 hp).1

theorem eq_or_mem_of_mem_put (h : c.Bounded) {p : κ × α} (mem : p ∈ (c.put k a).entries) :
    p = (k, a) ∨ p ∈ c.entries ∧ p.1 ≠ k := by
  rw [entries_put h] at mem
  rcases List.mem_cons.1 (List.mem_of_mem_take mem) with rfl | mem
  · exact .inl rfl
  · exact .inr (by simpa using mem)

/-! ### Runs -/

/-- A use of the cache. -/
inductive Op (κ α : Type) where
  | get (k : κ)
  | put (k : κ) (a : α)

/-- The cache after an operation. -/
def step (c : Cache κ α) : Op κ α → Cache κ α
  | .get k => (c.get k).2
  | .put k a => c.put k a

/-- The cache after operations, one after the other. -/
def after (c : Cache κ α) (ops : List (Op κ α)) : Cache κ α := ops.foldl step c

/-- The key that an operation uses: one that is put, or one that is found. -/
def used (c : Cache κ α) : Op κ α → Option κ
  | .get k => if (c.get k).1.isSome then some k else none
  | .put k _ => some k

/-- The keys that operations use, the latest use first. -/
def uses (c : Cache κ α) : List (Op κ α) → List κ
  | [] => []
  | op :: ops => (c.step op).uses ops ++ (c.used op).toList

/-- The distinct keys that operations use, the most recently used first. -/
def recent (c : Cache κ α) (ops : List (Op κ α)) : List κ := (c.uses ops).eraseDups

/-- The value that was put last for a key. -/
def lastPut? (ops : List (Op κ α)) (k : κ) : Option α :=
  ops.reverse.findSome? fun
    | .put k' a => if k' = k then some a else none
    | .get _ => none

theorem after_concat (c : Cache κ α) (ops : List (Op κ α)) (op : Op κ α) :
    c.after (ops ++ [op]) = (c.after ops).step op := by
  simp [after]

theorem uses_concat (c : Cache κ α) (ops : List (Op κ α)) (op : Op κ α) :
    c.uses (ops ++ [op]) = ((c.after ops).used op).toList ++ c.uses ops := by
  induction ops generalizing c with
  | nil => simp [uses, after]
  | cons first ops ih => simp [uses, ih, after]

/-! ### Distinct keys -/

/-- Leaving keys out and taking each once can be done in any order. -/
theorem eraseDups_filter (p : κ → Bool) (ks : List κ) : (ks.filter p).eraseDups = ks.eraseDups.filter p := by
  induction n : ks.length using Nat.strongRecOn generalizing ks with
  | _ n ih =>
    subst n
    cases ks with
    | nil => rfl
    | cons k ks =>
      have shorter : (ks.filter fun k' => !k' == k).length < (k :: ks).length :=
        Nat.lt_succ_of_le (List.length_filter_le _ _)
      have rest := ih _ shorter _ rfl
      by_cases keep : p k
      · rw [List.filter_cons_of_pos keep, List.eraseDups_cons, List.eraseDups_cons, List.filter_cons_of_pos keep,
          ← rest, List.filter_comm]
      · rw [List.filter_cons_of_neg keep, List.eraseDups_cons, List.filter_cons_of_neg keep, ← rest,
          List.filter_filter]
        refine congrArg _ (List.filter_congr fun k' _ => ?_)
        by_cases same : k' = k
        · simp [same, keep]
        · simp [same]

/-- A key in front is taken out of what is behind it. -/
theorem eraseDups_cons_eq (k : κ) (ks : List κ) : (k :: ks).eraseDups = k :: ks.eraseDups.filter (· ≠ k) := by
  rw [List.eraseDups_cons, eraseDups_filter]
  exact congrArg _ (List.filter_congr fun k' _ => by by_cases same : k' = k <;> simp [same])

theorem nodup_eraseDups (ks : List κ) : ks.eraseDups.Nodup := by
  induction ks with
  | nil => exact .nil
  | cons k ks ih =>
    rw [eraseDups_cons_eq]
    exact List.nodup_cons.2 ⟨by simp, ih.filter _⟩

/-- Taking each key once keeps the order of their first places. -/
theorem pairwise_idxOf_eraseDups (ks : List κ) :
    ks.eraseDups.Pairwise fun k k' => ks.idxOf k < ks.idxOf k' := by
  induction ks with
  | nil => exact .nil
  | cons k ks ih =>
    have behind {k' : κ} (mem : k' ∈ ks.eraseDups.filter (· ≠ k)) :
        (k :: ks).idxOf k' = ks.idxOf k' + 1 := by
      have apart : k ≠ k' := Ne.symm (by simpa using (List.mem_filter.1 mem).2)
      exact List.idxOf_cons_ne _ apart
    rw [eraseDups_cons_eq]
    refine List.pairwise_cons.2 ⟨fun k' mem => ?_, (ih.filter _).imp_of_mem fun mem mem' before => ?_⟩
    · rw [behind mem, List.idxOf_cons_self]
      exact Nat.succ_pos _
    · rw [behind mem, behind mem']
      exact Nat.succ_lt_succ before

/-- Of distinct keys, those within the limit are all that is needed to move one to the front. -/
theorem take_filter_take {ks : List κ} (nodup : ks.Nodup) (k : κ) (n : Nat) :
    ((ks.take (n + 1)).filter (· ≠ k)).take n = (ks.filter (· ≠ k)).take n := by
  induction ks generalizing n with
  | nil => simp
  | cons k' ks ih =>
    obtain ⟨single, nodup⟩ := List.nodup_cons.1 nodup
    by_cases same : k' = k
    · subst same
      have all (ks' : List κ) (sub : ks' ⊆ ks) : ks'.filter (· ≠ k') = ks' :=
        List.filter_eq_self.2 fun k mem => by simpa using fun same : k = k' => single (same ▸ sub mem)
      rw [List.take_succ_cons, List.filter_cons_of_neg (by simp), List.filter_cons_of_neg (by simp),
        all _ (List.take_subset n ks), all _ (List.Subset.refl ks), List.take_take, Nat.min_self]
    · rw [List.take_succ_cons, List.filter_cons_of_pos (by simpa using same),
        List.filter_cons_of_pos (by simpa using same)]
      cases n with
      | zero => rfl
      | succ n => rw [List.take_succ_cons, List.take_succ_cons, ih nodup n]

theorem take_cons_filter_take {ks : List κ} (nodup : ks.Nodup) (k : κ) (n : Nat) :
    (k :: (ks.take n).filter (· ≠ k)).take n = (k :: ks.filter (· ≠ k)).take n := by
  cases n with
  | zero => rfl
  | succ n => rw [List.take_succ_cons, List.take_succ_cons, take_filter_take nodup]

/-! ### What a run leaves -/

theorem recent_concat (op : Op κ α) (ops : List (Op κ α)) : c.recent (ops ++ [op]) =
    ((c.after ops).used op).elim (c.recent ops) fun k => k :: (c.recent ops).filter (· ≠ k) := by
  rw [recent, uses_concat]
  cases (c.after ops).used op with
  | none => rfl
  | some k => exact eraseDups_cons_eq k _

theorem lastPut?_get (ops : List (Op κ α)) (k k' : κ) : lastPut? (ops ++ [.get k]) k' = lastPut? ops k' := by
  simp [lastPut?]

theorem lastPut?_put (ops : List (Op κ α)) (k k' : κ) (a : α) :
    lastPut? (ops ++ [.put k a]) k' = if k = k' then some a else lastPut? ops k' := by
  by_cases same : k = k' <;> simp [lastPut?, same]

theorem keys_filter (c : Cache κ α) (k : κ) :
    (c.entries.filter (·.1 ≠ k)).map (·.1) = c.keys.filter (· ≠ k) := by
  rw [keys_eq_map_entries, List.filter_map, Function.comp_def]

/-- A key that is used comes to the front, and the others stay in order, as many as the limit allows. -/
theorem keys_step (h : c.Bounded) (op : Op κ α) : (c.step op).keys =
    (c.used op).elim c.keys fun k => (k :: c.keys.filter (· ≠ k)).take c.limit.toNat := by
  cases op with
  | get k =>
    have entries := entries_get h.toLinked k
    cases found : (c.get k).1 with
    | none =>
      rw [found] at entries
      simp [step, used, found, keys_eq_map_entries, entries]
    | some a =>
      rw [found] at entries
      have keys : (c.get k).2.keys = k :: c.keys.filter (· ≠ k) := by
        rw [keys_eq_map_entries, entries, Option.elim_some, List.map_cons, keys_filter]
      have size : (c.get k).2.keys.length = c.size := by
        simpa [Cache.size, Cache.keys] using size_get h.toLinked k
      simp only [step, used, found, Option.isSome_some, if_true, Option.elim_some, ← keys]
      rw [List.take_of_length_le (size ▸ h.fits)]
  | put k a =>
    rw [step, used, Option.elim_some, keys_eq_map_entries, entries_put h, List.map_take, List.map_cons, keys_filter]

theorem Bounded.step (h : c.Bounded) (op : Op κ α) : (c.step op).Bounded := by
  cases op with
  | get k => exact h.get k
  | put k a => exact h.put k a

theorem limit_step (c : Cache κ α) (op : Op κ α) : (c.step op).limit = c.limit := by
  cases op with
  | get k => exact limit_get c k
  | put k a => exact limit_put c k a

/-- What a run of operations leaves of a new cache: the keys used last, with the values put last. -/
structure Holds (bound : Int) (ops : List (Op κ α)) (c : Cache κ α) : Prop extends c.Bounded where
  limit : c.limit = bound
  recent : c.keys = ((new bound : Cache κ α).recent ops).take bound.toNat
  values : ∀ p ∈ c.entries, lastPut? ops p.1 = some p.2

namespace Holds

variable {bound : Int} {ops : List (Op κ α)}

theorem new (bound : Int) : (Cache.new bound : Cache κ α).Holds bound [] where
  toBounded := .new bound
  limit := rfl
  recent := by simp [Cache.keys, Cache.new, Cache.recent, uses]
  values := nofun

/-- A value in order is the one put last, also behind an operation. -/
theorem values_step (h : c.Holds bound ops) (op : Op κ α) :
    ∀ p ∈ (c.step op).entries, lastPut? (ops ++ [op]) p.1 = some p.2 := by
  intro p mem
  cases op with
  | get k =>
    rw [lastPut?_get]
    rw [step, entries_get h.toLinked k] at mem
    cases found : (c.get k).1 with
    | none =>
      rw [found] at mem
      exact h.values p mem
    | some a => exact h.values p ((mem_of_get h.toLinked (Prod.ext found rfl)).2 p (by rwa [entries_get h.toLinked]))
  | put k a =>
    rw [lastPut?_put]
    rcases eq_or_mem_of_mem_put h.toBounded mem with rfl | ⟨mem, apart⟩
    · exact if_pos rfl
    · rw [if_neg (Ne.symm apart)]
      exact h.values p mem

/-- One more operation uses what it puts or finds. -/
theorem concat (h : ((Cache.new bound).after ops).Holds bound ops) (op : Op κ α) :
    ((Cache.new bound).after (ops ++ [op])).Holds bound (ops ++ [op]) := by
  rw [after_concat]
  refine ⟨h.toBounded.step op, (limit_step _ op).trans h.limit, ?_, h.values_step op⟩
  rw [keys_step h.toBounded, recent_concat, h.recent, h.limit]
  cases ((Cache.new bound).after ops).used op with
  | none => rfl
  | some k => exact take_cons_filter_take (nodup_eraseDups _) k _

theorem after (bound : Int) (ops : List (Op κ α)) : ((Cache.new bound).after ops).Holds bound ops := by
  induction ops using List.reverseRecOn with
  | nil => exact .new bound
  | append_singleton ops op ih => exact ih.concat op

end Holds

/-- After any operations on a new cache: the index and the order have the same keys, each once, and no more than the
limit allows; they are the distinct keys used last, the latest use first; a key is found exactly when it is one of
them, with the value that was put last for it. -/
theorem after_holds (limit : Int) (ops : List (Op κ α)) (k : κ) :
    let c := (new limit).after ops
    let kept := ((new limit).recent ops).take (max limit 0).toNat
    (c.index.map (·.1)).Perm c.keys ∧ c.keys.Nodup ∧ (c.size : Int) ≤ max limit 0 ∧
    c.keys = kept ∧ (c.keys.Pairwise fun k k' => ((new limit).uses ops).idxOf k < ((new limit).uses ops).idxOf k') ∧
    ((c.get k).1.isSome ↔ k ∈ kept) ∧ (c.get k).1 = if k ∈ kept then lastPut? ops k else none := by
  intro c kept
  have h : c.Holds limit ops := .after limit ops
  have keys : c.keys = kept := by
    rw [h.recent]
    congr 1
    omega
  have size : c.size ≤ limit.toNat := h.limit ▸ h.fits
  have found : (c.get k).1.isSome ↔ k ∈ kept := keys ▸ isSome_get_iff h.toLinked
  refine ⟨h.perm_keys, h.keys, by omega, keys, ?_, found, ?_⟩
  · rw [keys]
    exact (pairwise_idxOf_eraseDups _).sublist (List.take_sublist _ _)
  · cases value : (c.get k).1 with
    | none => rw [if_neg fun mem => by simpa [value] using found.2 mem]
    | some a =>
      rw [if_pos (found.1 (by simp [value]))]
      exact (h.values _ ((get_eq_some_iff h.toLinked).1 value)).symm

/-- Finding the older of two keys makes the other one go. -/
example : ((new 2).after [.put 1 'a', .put 2 'b', .get 1, .put 3 'c']).entries = [(3, 'c'), (1, 'a')] := by cbv

end SignalLang.Cache
