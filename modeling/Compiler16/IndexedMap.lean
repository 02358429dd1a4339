import Compiler16.OrderedMap

/-!
# Maps with an index

A finite map as the list of its entries, in the order in which the keys came in,
with an index that knows the place of every key.  A key is looked up in the
index, and its value is found at its place; a map carries the proof that the
index and the entries fit together.

## Main results

* `IndexedMap.get?_insert`: an insertion changes the value of its key and of no
  other.
* `IndexedMap.keys_insert`: a new key comes last, an old one keeps its place.
* `IndexedMap.mem_entries_iff`: the entries are the keys with their values.
-/

namespace Compiler16

/-- A finite map with the order of insertion of its keys and their places. -/
structure IndexedMap (κ α : Type) [DecidableEq κ] where
  /-- The entries, the key that came in first being the first. -/
  entries : List (κ × α)
  /-- The place of a key among the entries. -/
  index : OrderedMap κ Nat
  /-- The index has the places of all keys and no others. -/
  indexed : ∀ k i, index.get? k = some i ↔ (entries.map Prod.fst)[i]? = some k

namespace IndexedMap

variable {κ α : Type} [DecidableEq κ]

/-- No entry. -/
def empty : IndexedMap κ α where
  entries := []
  index := {}
  indexed _ _ := ⟨nofun, nofun⟩

/-- The keys in order. -/
def keys (m : IndexedMap κ α) : List κ := m.entries.map Prod.fst

/-- The number of entries. -/
def size (m : IndexedMap κ α) : Nat := m.entries.length

/-- The value of a key. -/
def get? (m : IndexedMap κ α) (k : κ) : Option α :=
  (m.index.get? k).bind fun i => m.entries[i]?.map Prod.snd

omit [DecidableEq κ] in
private theorem map_fst_modify (es : List (κ × α)) (i : Nat) (f : α → α) :
    (es.modify i fun e => (e.1, f e.2)).map Prod.fst = es.map Prod.fst := by
  apply List.ext_getElem?
  intro j
  rw [List.getElem?_map, List.getElem?_map, List.getElem?_modify]
  split
  · cases es[j]? <;> rfl
  · simp

/-- Applies a function to the value of a key. -/
def modify (m : IndexedMap κ α) (k : κ) (f : α → α) : IndexedMap κ α where
  entries :=
    match m.index.get? k with
    | some i => m.entries.modify i fun e => (e.1, f e.2)
    | none => m.entries
  index := m.index
  indexed l j := by
    rw [m.indexed]
    split
    · rw [map_fst_modify]
    · rfl

private theorem indexed_append {index : OrderedMap κ Nat} {ks : List κ} {k : κ}
    (h : ∀ k i, index.get? k = some i ↔ ks[i]? = some k) (hk : index.get? k = none) (l : κ)
    (j : Nat) : (index.insert k ks.length).get? l = some j ↔ (ks ++ [k])[j]? = some l := by
  have hold := h l j
  rw [OrderedMap.get?_insert, List.getElem?_append]
  rcases Nat.lt_trichotomy j ks.length with hj | rfl | hj
  · -- a place that was there before has a key that was there before
    by_cases hl : k = l
    · subst hl
      rw [if_pos rfl, if_pos hj, ← hold, hk]
      simp [Nat.ne_of_gt hj]
    · simp [hj, hl, hold]
  · have hout : index.get? l ≠ some ks.length := by simp [hold]
    by_cases hl : k = l <;> simp [hl, hout]
  · have hout : index.get? l ≠ some j := by simp [hold, Nat.le_of_lt hj]
    have hplace : j - ks.length ≠ 0 := Nat.sub_ne_zero_of_lt hj
    by_cases hl : k = l <;>
      simp [hl, hout, Nat.not_lt.mpr (Nat.le_of_lt hj), Nat.ne_of_lt hj, hplace]

/-- Gives a key a value: an old key keeps its place, a new one comes last. -/
def insert (m : IndexedMap κ α) (k : κ) (v : α) : IndexedMap κ α where
  entries :=
    match m.index.get? k with
    | some i => m.entries.modify i fun e => (e.1, v)
    | none => m.entries ++ [(k, v)]
  index :=
    match m.index.get? k with
    | some _ => m.index
    | none => m.index.insert k m.entries.length
  indexed l j := by
    cases hk : m.index.get? k with
    | some i => simp only [map_fst_modify m.entries i fun _ => v, m.indexed]
    | none =>
      rw [List.map_append, ← List.length_map (f := Prod.fst)]
      exact indexed_append m.indexed hk l j

@[simp] theorem keys_empty : (empty : IndexedMap κ α).keys = [] := rfl

@[simp] theorem get?_empty (k : κ) : (empty : IndexedMap κ α).get? k = none := rfl

@[simp] theorem length_keys (m : IndexedMap κ α) : m.keys.length = m.size := List.length_map _

/-- No key is there twice. -/
theorem nodup_keys (m : IndexedMap κ α) : m.keys.Nodup := by
  rw [List.Nodup, List.pairwise_iff_getElem]
  intro i j hi hj hij heq
  -- the index has one place for both
  have hplace := (m.indexed _ i).mpr (List.getElem?_eq_getElem hi)
  have hplace' := (m.indexed _ j).mpr (List.getElem?_eq_getElem hj)
  rw [heq, hplace'] at hplace
  exact Nat.ne_of_gt hij (Option.some.inj hplace)

theorem mem_keys_iff (m : IndexedMap κ α) (k : κ) : k ∈ m.keys ↔ ∃ i, m.index.get? k = some i := by
  simp only [keys, List.mem_iff_getElem?, m.indexed]

theorem notMem_keys_iff (m : IndexedMap κ α) (k : κ) : k ∉ m.keys ↔ m.index.get? k = none := by
  rw [mem_keys_iff, Option.eq_none_iff_forall_ne_some, not_exists]

/-- The entries are the keys with their values. -/
theorem mem_entries_iff (m : IndexedMap κ α) (k : κ) (v : α) :
    (k, v) ∈ m.entries ↔ m.get? k = some v := by
  simp only [get?, Option.bind_eq_some_iff, Option.map_eq_some_iff, m.indexed,
    List.getElem?_map, List.mem_iff_getElem?]
  constructor
  · rintro ⟨i, hi⟩
    exact ⟨i, ⟨_, hi, rfl⟩, _, hi, rfl⟩
  · rintro ⟨i, ⟨e, he, rfl⟩, e', he', rfl⟩
    cases he.symm.trans he'
    exact ⟨i, he⟩

theorem get?_eq_none_iff (m : IndexedMap κ α) (k : κ) : m.get? k = none ↔ k ∉ m.keys := by
  simp only [Option.eq_none_iff_forall_ne_some, Ne, ← mem_entries_iff, keys, List.mem_map,
    Prod.exists, exists_and_right, exists_eq_right, not_exists]

@[simp] theorem keys_modify (m : IndexedMap κ α) (k : κ) (f : α → α) :
    (m.modify k f).keys = m.keys := by
  cases hk : m.index.get? k with
  | none => simp only [keys, modify, hk]
  | some i => simp only [keys, modify, hk, map_fst_modify]

theorem get?_modify (m : IndexedMap κ α) (k l : κ) (f : α → α) :
    (m.modify k f).get? l = if k = l then (m.get? l).map f else m.get? l := by
  cases hl : m.index.get? l with
  | none => simp [get?, modify, hl]
  | some j =>
    cases hk : m.index.get? k with
    | none =>
      have hne : k ≠ l := by
        rintro rfl
        exact nomatch hk.symm.trans hl
      simp only [get?, modify, hk, hne, if_false]
    | some i =>
      -- different keys have different places
      have hplace : i = j ↔ k = l := by
        constructor
        · rintro rfl
          exact Option.some.inj (((m.indexed k i).mp hk).symm.trans ((m.indexed l i).mp hl))
        · rintro rfl
          exact Option.some.inj (hk.symm.trans hl)
      simp only [get?, modify, hk, hl, Option.bind_some, List.getElem?_modify, hplace]
      by_cases h : k = l <;> simp [h, Function.comp_def]

theorem insert_of_mem {m : IndexedMap κ α} {k : κ} (hk : k ∈ m.keys) (v : α) :
    m.insert k v = m.modify k fun _ => v := by
  obtain ⟨i, hi⟩ := (m.mem_keys_iff k).mp hk
  simp only [insert, modify, hi]

theorem keys_insert (m : IndexedMap κ α) (k : κ) (v : α) :
    (m.insert k v).keys = if k ∈ m.keys then m.keys else m.keys ++ [k] := by
  split
  · next hk => rw [insert_of_mem hk, keys_modify]
  · next hk => simp [keys, insert, (m.notMem_keys_iff k).mp hk]

theorem get?_insert (m : IndexedMap κ α) (k l : κ) (v : α) :
    (m.insert k v).get? l = if k = l then some v else m.get? l := by
  by_cases hk : k ∈ m.keys
  · rw [insert_of_mem hk, get?_modify]
    split
    · next hl =>
      subst hl
      obtain ⟨w, hw⟩ := Option.ne_none_iff_exists'.mp fun hnone =>
        (m.get?_eq_none_iff k).mp hnone hk
      rw [hw, Option.map_some]
    · rfl
  · rw [notMem_keys_iff] at hk
    simp only [get?, insert, hk, OrderedMap.get?_insert]
    split
    · simp
    · -- the places of old keys are old places
      cases hl : m.index.get? l with
      | none => rfl
      | some j =>
        obtain ⟨hj, _⟩ := List.getElem?_eq_some_iff.mp ((m.indexed l j).mp hl)
        rw [List.length_map] at hj
        simp only [Option.bind_some, List.getElem?_append_left hj]

end IndexedMap

end Compiler16
