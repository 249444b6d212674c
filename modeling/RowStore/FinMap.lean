namespace RowStore

/-! Finite maps as lists of bindings with distinct keys.

The meaning of a map is its lookup `get?`; each operation below is described by
what it does to that lookup. The order of the bindings carries no meaning.
-/

structure FinMap (κ : Type) (α : Type) where
  entries : List (κ × α)
  distinct : (entries.map Prod.fst).Nodup

namespace FinMap

variable {κ α : Type}

def empty : FinMap κ α := ⟨[], List.nodup_nil⟩

instance : Inhabited (FinMap κ α) := ⟨empty⟩

def keys (map : FinMap κ α) : List κ := map.entries.map Prod.fst

def values (map : FinMap κ α) : List α := map.entries.map Prod.snd

def size (map : FinMap κ α) : Nat := map.entries.length

theorem distinct_filter (map : FinMap κ α) (keep : κ × α → Bool) :
    ((map.entries.filter keep).map Prod.fst).Nodup :=
  List.Nodup.sublist (List.filter_sublist.map Prod.fst) map.distinct

def filter (map : FinMap κ α) (keep : κ → α → Bool) : FinMap κ α where
  entries := map.entries.filter fun entry => keep entry.1 entry.2
  distinct := map.distinct_filter _

/-- Rewrites every value in place. -/
def mapValues (map : FinMap κ α) (change : κ → α → α) : FinMap κ α where
  entries := map.entries.map fun entry => (entry.1, change entry.1 entry.2)
  distinct := by
    rw [List.map_map]
    exact map.distinct

variable [DecidableEq κ]

def get? (map : FinMap κ α) (key : κ) : Option α := map.entries.lookup key

def contains (map : FinMap κ α) (key : κ) : Bool := (map.get? key).isSome

def erase (map : FinMap κ α) (key : κ) : FinMap κ α where
  entries := map.entries.filter fun entry => entry.1 ≠ key
  distinct := map.distinct_filter _

def insert (map : FinMap κ α) (key : κ) (value : α) : FinMap κ α where
  entries := (key, value) :: (map.erase key).entries
  distinct := by
    refine List.nodup_cons.mpr ⟨?_, (map.erase key).distinct⟩
    simp [erase]

/-- Binds a key that is not bound yet; an existing binding stays. -/
def insertIfNew (map : FinMap κ α) (key : κ) (value : α) : FinMap κ α :=
  if map.contains key then map else map.insert key value

@[simp] theorem get?_empty (key : κ) : (empty : FinMap κ α).get? key = none := rfl

theorem lookup_filter_key (entries : List (κ × α)) (keep : κ → Bool) (key : κ) :
    (entries.filter fun entry => keep entry.1).lookup key =
      if keep key then entries.lookup key else none := by
  induction entries with
  | nil => simp
  | cons entry rest ih =>
      obtain ⟨bound, value⟩ := entry
      by_cases same : key = bound
      · subst same
        by_cases kept : keep key <;> simp [kept, ih]
      · have differs : (key == bound) = false := by simp [same]
        by_cases kept : keep bound <;> simp [List.lookup_cons, kept, ih, differs]

@[simp] theorem get?_erase_self (map : FinMap κ α) (key : κ) : (map.erase key).get? key = none := by
  simp only [get?, erase]
  rw [lookup_filter_key map.entries (fun bound => decide (bound ≠ key))]
  simp

theorem get?_erase_of_ne (map : FinMap κ α) {key other : κ} (differs : other ≠ key) :
    (map.erase key).get? other = map.get? other := by
  simp only [get?, erase]
  rw [lookup_filter_key map.entries (fun bound => decide (bound ≠ key))]
  simp [differs]

@[simp] theorem get?_insert_self (map : FinMap κ α) (key : κ) (value : α) :
    (map.insert key value).get? key = some value := by
  simp [get?, insert]

theorem get?_insert_of_ne (map : FinMap κ α) {key other : κ} (value : α) (differs : other ≠ key) :
    (map.insert key value).get? other = map.get? other := by
  have apart : (other == key) = false := by simp [differs]
  rw [← map.get?_erase_of_ne differs]
  simp [get?, insert, List.lookup_cons, apart]

theorem get?_eq_none {map : FinMap κ α} {key : κ} (absent : key ∉ map.keys) :
    map.get? key = none := by
  unfold get? keys at *
  generalize map.entries = entries at absent
  induction entries with
  | nil => rfl
  | cons entry rest ih =>
      simp only [List.map_cons, List.mem_cons, not_or] at absent
      have apart : (key == entry.1) = false := by simp [absent.1]
      rw [List.lookup_cons, apart]
      exact ih absent.2

theorem get?_insert (map : FinMap κ α) (key other : κ) (value : α) :
    (map.insert key value).get? other = if other = key then some value else map.get? other := by
  by_cases same : other = key
  · subst same
    simp
  · simp [map.get?_insert_of_ne value same, same]

theorem get?_erase (map : FinMap κ α) (key other : κ) :
    (map.erase key).get? other = if other = key then none else map.get? other := by
  by_cases same : other = key
  · subst same
    simp
  · simp [map.get?_erase_of_ne same, same]

theorem get?_insertIfNew (map : FinMap κ α) (key other : κ) (value : α) :
    (map.insertIfNew key value).get? other =
      if other = key then some ((map.get? key).getD value) else map.get? other := by
  unfold insertIfNew contains
  by_cases same : other = key
  · subst same
    cases found : map.get? other <;> simp [found]
  · rw [if_neg same]
    split
    · rfl
    · exact map.get?_insert_of_ne value same

theorem insert_insert (map : FinMap κ α) (key : κ) (first second : α) :
    (map.insert key first).insert key second = map.insert key second := by
  simp [insert, erase]

theorem get?_eq_some_iff {map : FinMap κ α} {key : κ} {value : α} :
    map.get? key = some value ↔ (key, value) ∈ map.entries := by
  have distinct := map.distinct
  unfold get?
  generalize map.entries = entries at distinct
  induction entries with
  | nil => simp
  | cons entry rest ih =>
      obtain ⟨bound, held⟩ := entry
      simp only [List.map_cons, List.nodup_cons] at distinct
      by_cases same : key = bound
      · subst same
        have absent : (key, value) ∉ rest := fun listed =>
          distinct.1 (List.mem_map_of_mem (f := Prod.fst) listed)
        simp [absent, eq_comm]
      · have apart : (key == bound) = false := by simp [same]
        rw [List.lookup_cons, apart]
        simp [ih distinct.2, same]

theorem mem_values_iff {map : FinMap κ α} {value : α} :
    value ∈ map.values ↔ ∃ key, map.get? key = some value := by
  simp only [values, List.mem_map, Prod.exists, exists_eq_right, get?_eq_some_iff]

theorem get?_filter (map : FinMap κ α) (keep : κ → α → Bool) (key : κ) :
    (map.filter keep).get? key = (map.get? key).filter (keep key) := by
  apply Option.ext
  intro value
  simp [get?_eq_some_iff, filter]

theorem get?_mapValues (map : FinMap κ α) (change : κ → α → α) (key : κ) :
    (map.mapValues change).get? key = (map.get? key).map (change key) := by
  apply Option.ext
  intro value
  simp only [get?_eq_some_iff, mapValues, List.mem_map, Prod.exists, Prod.mk.injEq,
    Option.map_eq_some_iff]
  constructor
  · rintro ⟨_, held, listed, rfl, changed⟩
    exact ⟨held, listed, changed⟩
  · rintro ⟨held, listed, changed⟩
    exact ⟨key, held, listed, rfl, changed⟩

theorem mem_keys_iff {map : FinMap κ α} {key : κ} : key ∈ map.keys ↔ map.contains key = true := by
  simp only [keys, List.mem_map, Prod.exists, exists_and_right, exists_eq_right, contains,
    Option.isSome_iff_exists, get?_eq_some_iff]

end FinMap

end RowStore
