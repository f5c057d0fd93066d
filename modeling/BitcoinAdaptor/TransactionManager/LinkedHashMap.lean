import Mathlib.Data.List.Nodup

/-!
# A linked hash map

The transaction cache is a `hashlink::LinkedHashMap`: a hash map that also keeps its entries in
a linked list, new entries at the back. It is modelled as that list, front first, with the
invariant that no key occurs twice carried as a field, so that no map with a repeated key can be
built. The operations are those the transaction manager calls: `len`, `get`, `pop_front`,
`entry(k).or_insert_with(f)`, `retain`, `clear`, and `iter_mut` with the state the loop body
carries from one entry to the next.

One of them moves an entry. hashlink's `Entry::or_insert_with` calls `to_back` on an occupied
entry: a key that is present moves, with its value, to the back, behind every other entry; a new
key is put at the back with the value `f` makes (`LinkedHashMap.entryOrInsert_eq_putBack`). `get`
does not reorder, and `retain` and `pop_front` keep the order of what they leave.

## Main definitions

* `LinkedHashMap`, `LinkedHashMap.keys`, and the operations above.
* `LinkedHashMap.putBack`: the entry of a key taken out and put at the back.

## Main results

* `LinkedHashMap.get_eq_some_iff`: a key's value is the one its entry holds.
* One lemma per operation for its keys and its values.

## References

`src/src/transaction_manager.rs`, lines 10, 60–61, 87–120 and 130 (the calls).
-/

namespace BitcoinAdaptor

/-- `hashlink::LinkedHashMap`: the entries, front first, each key once. -/
structure LinkedHashMap (K V : Type) where
  entries : List (K × V)
  nodup : (entries.map Prod.fst).Nodup

namespace LinkedHashMap

variable {K V σ : Type}

/-- The keys, front first. -/
def keys (m : LinkedHashMap K V) : List K :=
  m.entries.map Prod.fst

/-- `LinkedHashMap::new`. -/
def new : LinkedHashMap K V :=
  ⟨[], List.nodup_nil⟩

/-- `LinkedHashMap::len`. -/
def len (m : LinkedHashMap K V) : Nat :=
  m.entries.length

/-- `LinkedHashMap::pop_front`, whose result the caller drops: remove the front entry. -/
def popFront (m : LinkedHashMap K V) : LinkedHashMap K V :=
  ⟨m.entries.tail, by rw [List.map_tail]; exact m.nodup.sublist (List.tail_sublist _)⟩

/-- `LinkedHashMap::retain`: keep, in order, the entries `f` accepts. -/
def retain (m : LinkedHashMap K V) (f : K → V → Bool) : LinkedHashMap K V :=
  ⟨m.entries.filter (fun e => f e.1 e.2), m.nodup.sublist ((List.filter_sublist _).map _)⟩

section DecidableEq

variable [DecidableEq K]

/-- `LinkedHashMap::get`. -/
def get (m : LinkedHashMap K V) (k : K) : Option V :=
  m.entries.lookup k

/-- `LinkedHashMap::contains_key`. -/
def containsKey (m : LinkedHashMap K V) (k : K) : Bool :=
  (m.get k).isSome

/-- The entry `(k, v)` at the back, behind the entries of the other keys in their order. -/
def putBack (m : LinkedHashMap K V) (k : K) (v : V) : LinkedHashMap K V :=
  ⟨m.entries.filter (fun e => e.1 != k) ++ [(k, v)], by
    rw [List.map_append, List.nodup_append]
    refine ⟨m.nodup.sublist ((List.filter_sublist _).map _), List.nodup_singleton _, ?_⟩
    simp [List.disjoint_singleton]⟩

/-- `entry(k).or_insert_with(|| v)`. An occupied entry is moved to the back with its value
(`OccupiedEntry::to_back`); a vacant one is inserted at the back with the value `v`. -/
def entryOrInsert (m : LinkedHashMap K V) (k : K) (v : V) : LinkedHashMap K V :=
  match m.get k with
  | some v₀ => m.putBack k v₀
  | none => m.putBack k v

end DecidableEq

/-- `LinkedHashMap::clear`. -/
def clear (_ : LinkedHashMap K V) : LinkedHashMap K V :=
  new

/-- The loop `for (k, v) in iter_mut()` over a list of entries, whose body replaces the value
and updates the state `s` it carries. -/
def mapAccum (f : σ → K → V → V × σ) : List (K × V) → σ → List (K × V) × σ
  | [], s => ([], s)
  | (k, v) :: es, s =>
    let r := f s k v
    let rest := mapAccum f es r.2
    ((k, r.1) :: rest.1, rest.2)

theorem map_fst_mapAccum (f : σ → K → V → V × σ) (es : List (K × V)) (s : σ) :
    (mapAccum f es s).1.map Prod.fst = es.map Prod.fst := by
  induction es generalizing s with
  | nil => rfl
  | cons e es ih => simp [mapAccum, ih]

/-- `for (k, v) in m.iter_mut()`: the map with the values the body wrote, and the final state. -/
def iterMut (m : LinkedHashMap K V) (f : σ → K → V → V × σ) (s : σ) : LinkedHashMap K V × σ :=
  let r := mapAccum f m.entries s
  (⟨r.1, (map_fst_mapAccum f m.entries s).symm ▸ m.nodup⟩, r.2)

/-! ### Keys and values -/

@[ext]
theorem ext {m m' : LinkedHashMap K V} (h : m.entries = m'.entries) : m = m' := by
  cases m
  cases m'
  cases h
  rfl

theorem length_keys (m : LinkedHashMap K V) : m.keys.length = m.len :=
  List.length_map _ _

theorem nodup_keys (m : LinkedHashMap K V) : m.keys.Nodup :=
  m.nodup

section DecidableEq

variable [DecidableEq K]

/-- In a list whose keys are distinct, a key's value is the one its entry holds. -/
theorem lookup_eq_some_iff {es : List (K × V)} (h : (es.map Prod.fst).Nodup) {k : K} {v : V} :
    es.lookup k = some v ↔ (k, v) ∈ es := by
  induction es with
  | nil => simp
  | cons e es ih =>
    obtain ⟨k', v'⟩ := e
    rw [List.map_cons, List.nodup_cons] at h
    by_cases hk : k = k'
    · subst hk
      have : (k, v) ∉ es := fun hm => h.1 (List.mem_map.2 ⟨_, hm, rfl⟩)
      simp [List.lookup_cons, this, eq_comm]
    · have hb : (k == k') = false := by simpa using hk
      simp [List.lookup_cons, hb, hk, ih h.2]

theorem get_eq_some_iff (m : LinkedHashMap K V) {k : K} {v : V} :
    m.get k = some v ↔ (k, v) ∈ m.entries :=
  lookup_eq_some_iff m.nodup

theorem containsKey_iff (m : LinkedHashMap K V) (k : K) : m.containsKey k ↔ k ∈ m.keys := by
  rw [containsKey, Option.isSome_iff_exists]
  simp only [get_eq_some_iff, keys, List.mem_map, Prod.exists, exists_and_right, exists_eq_right]

theorem get_eq_none_iff (m : LinkedHashMap K V) (k : K) : m.get k = none ↔ k ∉ m.keys := by
  rw [← containsKey_iff, containsKey, Option.not_isSome_iff_eq_none]

end DecidableEq

@[simp]
theorem entries_new : (new : LinkedHashMap K V).entries = [] :=
  rfl

@[simp]
theorem entries_clear (m : LinkedHashMap K V) : m.clear.entries = [] :=
  rfl

@[simp]
theorem entries_popFront (m : LinkedHashMap K V) : m.popFront.entries = m.entries.tail :=
  rfl

@[simp]
theorem entries_retain (m : LinkedHashMap K V) (f : K → V → Bool) :
    (m.retain f).entries = m.entries.filter (fun e => f e.1 e.2) :=
  rfl

@[simp]
theorem entries_iterMut (m : LinkedHashMap K V) (f : σ → K → V → V × σ) (s : σ) :
    (m.iterMut f s).1.entries = (mapAccum f m.entries s).1 :=
  rfl

theorem keys_iterMut (m : LinkedHashMap K V) (f : σ → K → V → V × σ) (s : σ) :
    (m.iterMut f s).1.keys = m.keys :=
  map_fst_mapAccum f m.entries s

/-! ### Moving an entry to the back -/

section PutBack

variable [DecidableEq K]

@[simp]
theorem entries_putBack (m : LinkedHashMap K V) (k : K) (v : V) :
    (m.putBack k v).entries = m.entries.filter (fun e => e.1 != k) ++ [(k, v)] :=
  rfl

theorem mem_putBack {m : LinkedHashMap K V} {k : K} {v : V} {e : K × V} :
    e ∈ (m.putBack k v).entries ↔ e ∈ m.entries ∧ e.1 ≠ k ∨ e = (k, v) := by
  simp [List.mem_filter]

/-- Putting back a key that is not in the map appends its entry. -/
theorem entries_putBack_of_not_mem {m : LinkedHashMap K V} {k : K} (h : k ∉ m.keys) (v : V) :
    (m.putBack k v).entries = m.entries ++ [(k, v)] := by
  rw [entries_putBack, List.filter_eq_self.2]
  exact fun e he => bne_iff_ne.2 fun hk => h (hk ▸ List.mem_map_of_mem Prod.fst he)

theorem get_putBack (m : LinkedHashMap K V) (k : K) (v : V) (k' : K) :
    (m.putBack k v).get k' = if k' = k then some v else m.get k' := by
  refine Option.ext fun w => ?_
  rw [Option.mem_def, Option.mem_def, get_eq_some_iff, mem_putBack]
  split_ifs with h
  · simp [h, eq_comm]
  · simp [h, get_eq_some_iff]

theorem len_putBack (m : LinkedHashMap K V) (k : K) (v : V) :
    (m.putBack k v).len = if k ∈ m.keys then m.len else m.len + 1 := by
  have hkeys : (m.entries.filter fun e => e.1 != k).map Prod.fst = m.keys.erase k := by
    rw [m.nodup_keys.erase_eq_filter, keys, List.filter_map]
    rfl
  rw [len, entries_putBack, List.length_append, ← List.length_map _ Prod.fst, hkeys,
    List.length_erase, length_keys, List.length_singleton]
  split_ifs with h
  · have := List.length_pos_of_mem h
    rw [length_keys] at this
    omega
  · rfl

/-- `or_insert_with` puts the key's entry at the back, with the value it had, or with `v` if it
had none. -/
theorem entryOrInsert_eq_putBack (m : LinkedHashMap K V) (k : K) (v : V) :
    m.entryOrInsert k v = m.putBack k ((m.get k).getD v) := by
  unfold entryOrInsert
  cases m.get k <;> rfl

/-- A new key's entry is appended. -/
theorem entries_entryOrInsert_of_not_mem {m : LinkedHashMap K V} {k : K} (h : k ∉ m.keys)
    (v : V) : (m.entryOrInsert k v).entries = m.entries ++ [(k, v)] := by
  rw [entryOrInsert_eq_putBack, (get_eq_none_iff m k).2 h, Option.getD_none,
    entries_putBack_of_not_mem h]

/-- The entries after `or_insert_with` are those before and the new one. -/
theorem mem_entryOrInsert {m : LinkedHashMap K V} {k : K} {v : V} {e : K × V}
    (he : e ∈ (m.entryOrInsert k v).entries) : e ∈ m.entries ∨ e = (k, v) := by
  rw [entryOrInsert_eq_putBack, mem_putBack] at he
  rcases he with he | rfl
  · exact .inl he.1
  · cases h : m.get k with
    | none => exact .inr rfl
    | some v₀ => exact .inl ((get_eq_some_iff m).1 h)

end PutBack

end LinkedHashMap

end BitcoinAdaptor
