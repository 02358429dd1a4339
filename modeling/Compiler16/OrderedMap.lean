/-!
# Maps that remember the order of insertion

A finite map as the list of its entries, in the order in which the keys came in.
Inserting under a key that is there changes the value in place.

## Main results

* `OrderedMap.get?_insert`: an insertion changes the value of its key and of no
  other.
* `OrderedMap.keys_insert`: a new key comes last, an old one keeps its place.
-/

namespace Compiler16

/-- A finite map with the order of insertion of its keys. -/
structure OrderedMap (κ α : Type) where
  /-- The entries, the key that came in first being the first. -/
  entries : List (κ × α) := []
  deriving DecidableEq, Repr

namespace OrderedMap

variable {κ α : Type} [DecidableEq κ]

/-- No entry. -/
def empty : OrderedMap κ α := {}

/-- The keys in order. -/
def keys (m : OrderedMap κ α) : List κ := m.entries.map Prod.fst

/-- The number of entries. -/
def size (m : OrderedMap κ α) : Nat := m.entries.length

/-- The value of a key. -/
def get? (m : OrderedMap κ α) (k : κ) : Option α := m.entries.lookup k

/-- Gives a key a value: an old key keeps its place, a new one comes last. -/
def insert (m : OrderedMap κ α) (k : κ) (v : α) : OrderedMap κ α :=
  if k ∈ m.keys then ⟨m.entries.map fun e => if e.1 = k then (e.1, v) else e⟩
  else ⟨m.entries ++ [(k, v)]⟩

/-- Removes a key. -/
def erase (m : OrderedMap κ α) (k : κ) : OrderedMap κ α :=
  ⟨m.entries.filter fun e => e.1 ≠ k⟩

/-- Applies a function to all values. -/
def mapValues {β : Type} (m : OrderedMap κ α) (f : α → β) : OrderedMap κ β :=
  ⟨m.entries.map fun e => (e.1, f e.2)⟩

/-- Applies a function to the value of a key. -/
def modify (m : OrderedMap κ α) (k : κ) (f : α → α) : OrderedMap κ α :=
  ⟨m.entries.map fun e => if e.1 = k then (e.1, f e.2) else e⟩

omit [DecidableEq κ] in
@[simp] theorem keys_empty : (empty : OrderedMap κ α).keys = [] := rfl

@[simp] theorem get?_empty (k : κ) : (empty : OrderedMap κ α).get? k = none := rfl

omit [DecidableEq κ] in
@[simp] theorem length_keys (m : OrderedMap κ α) : m.keys.length = m.size := by
  simp [keys, size]

theorem get?_eq_none_iff (m : OrderedMap κ α) (k : κ) :
    m.get? k = none ↔ k ∉ m.keys := by
  simp only [get?, keys, List.lookup_eq_none_iff, List.mem_map, bne_iff_ne]
  constructor
  · rintro h ⟨e, he, rfl⟩
    exact h e he rfl
  · intro h e he hk
    exact h ⟨e, he, hk.symm⟩

private theorem lookup_map_value (es : List (κ × α)) (f : κ → α → α) (k : κ) :
    (es.map fun e => (e.1, f e.1 e.2)).lookup k = (es.lookup k).map (f k) := by
  induction es with
  | nil => rfl
  | cons e es ih =>
    obtain ⟨x, v⟩ := e
    by_cases h : k = x
    · subst h; simp
    · have hx : (k == x) = false := by simpa using h
      simp [List.lookup_cons, hx, ih]

private theorem map_ite_pair (es : List (κ × α)) (k : κ) (f : α → α) :
    (es.map fun e => if e.1 = k then (e.1, f e.2) else e) =
      es.map fun e => (e.1, if e.1 = k then f e.2 else e.2) := by
  apply List.map_congr_left
  intro e _
  split <;> rfl

theorem get?_modify (m : OrderedMap κ α) (k l : κ) (f : α → α) :
    (m.modify k f).get? l = if k = l then (m.get? l).map f else m.get? l := by
  have h := lookup_map_value m.entries (fun x v => if x = k then f v else v) l
  simp only [modify, get?, map_ite_pair, h]
  by_cases hk : k = l
  · simp [hk]
  · simp [hk, Ne.symm hk]

theorem get?_insert (m : OrderedMap κ α) (k l : κ) (v : α) :
    (m.insert k v).get? l = if k = l then some v else m.get? l := by
  by_cases hk : k ∈ m.keys
  · have h := m.get?_modify k l (fun _ => v)
    simp only [modify, get?] at h
    simp only [insert, hk, if_true, get?, h]
    by_cases hl : k = l
    · subst hl
      cases hg : m.entries.lookup k with
      | none => exact absurd hk ((m.get?_eq_none_iff k).mp hg)
      | some _ => simp
    · simp [hl]
  · have hn := (m.get?_eq_none_iff k).mpr hk
    simp only [get?] at hn
    simp only [insert, hk, if_false, get?, List.lookup_append]
    by_cases hl : k = l
    · subst hl; simp [hn]
    · have : (l == k) = false := by simpa using Ne.symm hl
      simp [hl, List.lookup_cons, this]

theorem get?_erase (m : OrderedMap κ α) (k l : κ) :
    (m.erase k).get? l = if k = l then none else m.get? l := by
  obtain ⟨es⟩ := m
  simp only [erase, get?]
  induction es with
  | nil => simp
  | cons e es ih =>
    obtain ⟨x, v⟩ := e
    by_cases hx : x = k
    · subst hx
      by_cases hl : x = l
      · subst hl; simpa using ih
      · have : (l == x) = false := by simpa using Ne.symm hl
        simpa [hl, List.lookup_cons, this] using ih
    · by_cases hl : l = x
      · subst hl; simp [hx, Ne.symm hx]
      · have : (l == x) = false := by simpa using hl
        simpa [hx, List.lookup_cons, this] using ih

theorem get?_mapValues {β : Type} (m : OrderedMap κ α) (f : α → β) (k : κ) :
    (m.mapValues f).get? k = (m.get? k).map f := by
  obtain ⟨es⟩ := m
  simp only [mapValues, get?]
  induction es with
  | nil => rfl
  | cons e es ih =>
    obtain ⟨x, v⟩ := e
    by_cases h : k = x
    · subst h; simp
    · have hx : (k == x) = false := by simpa using h
      simp [List.lookup_cons, hx, ih]

@[simp] theorem keys_modify (m : OrderedMap κ α) (k : κ) (f : α → α) :
    (m.modify k f).keys = m.keys := by
  simp only [keys, modify, List.map_map]
  apply List.map_congr_left
  intro e _
  simp only [Function.comp]
  split <;> rfl

theorem keys_insert (m : OrderedMap κ α) (k : κ) (v : α) :
    (m.insert k v).keys = if k ∈ m.keys then m.keys else m.keys ++ [k] := by
  by_cases h : k ∈ m.keys
  · have := m.keys_modify k (fun _ => v)
    simpa [insert, h, modify] using this
  · rw [insert, if_neg h, if_neg h]
    simp [keys]

/-- Insertions keep the keys distinct. -/
theorem nodup_keys_insert {m : OrderedMap κ α} (h : m.keys.Nodup) (k : κ) (v : α) :
    (m.insert k v).keys.Nodup := by
  rw [keys_insert]
  split
  · exact h
  · next hk =>
    rw [List.nodup_append]
    refine ⟨h, by simp, ?_⟩
    intro a ha b hb hab
    simp only [List.mem_singleton] at hb
    exact hk (hb ▸ hab ▸ ha)

end OrderedMap

end Compiler16
