/-!
# Insertion-ordered maps

A finite map that remembers the order in which its keys first arrived. Writing to a key that is
already present keeps its place.
-/

namespace Scriptlet

/-- Entries in the order of their arrival, one for each key. -/
structure OrderedMap (κ α : Type) where
  entries : List (κ × α)
  distinct : (entries.map (·.1)).Nodup

namespace OrderedMap

variable {κ α : Type}

@[ext] theorem ext {m m' : OrderedMap κ α} (h : m.entries = m'.entries) : m = m' := by
  cases m
  cases h
  rfl

def empty : OrderedMap κ α := ⟨[], .nil⟩

def singleton (key : κ) (value : α) : OrderedMap κ α :=
  ⟨[(key, value)], List.pairwise_singleton _ _⟩

@[simp] theorem entries_singleton (key : κ) (value : α) :
    (singleton key value).entries = [(key, value)] := rfl

def keys (m : OrderedMap κ α) : List κ := m.entries.map (·.1)

theorem nodup_keys (m : OrderedMap κ α) : m.keys.Nodup := m.distinct

def size (m : OrderedMap κ α) : Nat := m.entries.length

def last? (m : OrderedMap κ α) : Option (κ × α) := m.entries.getLast?

def mapValues {β : Type} (f : α → β) (m : OrderedMap κ α) : OrderedMap κ β :=
  ⟨m.entries.map fun entry => (entry.1, f entry.2), by
    rw [List.map_map]
    exact m.distinct⟩

variable [DecidableEq κ]

/-! ## Lists of entries -/

/-- The value of the first entry for `key`. -/
def valueAmong? (key : κ) : List (κ × α) → Option α
  | [] => none
  | (k, a) :: rest => if k = key then some a else valueAmong? key rest

/-- Overwrite the first entry for `key`, or add one at the end. -/
def setEntry (key : κ) (value : α) : List (κ × α) → List (κ × α)
  | [] => [(key, value)]
  | (k, a) :: rest =>
      if k = key then (key, value) :: rest else (k, a) :: setEntry key value rest

section

variable {key : κ} {entries : List (κ × α)}

theorem keys_setEntry_of_mem (value : α) (h : key ∈ entries.map (·.1)) :
    (setEntry key value entries).map (·.1) = entries.map (·.1) := by
  induction entries with
  | nil => cases h
  | cons entry rest ih =>
      obtain ⟨k, a⟩ := entry
      by_cases hk : k = key
      · simp [setEntry, hk]
      · have hrest : key ∈ rest.map (·.1) :=
          (List.mem_cons.mp h).resolve_left fun e => hk e.symm
        simp [setEntry, hk, ih hrest]

theorem setEntry_of_not_mem (value : α) (h : key ∉ entries.map (·.1)) :
    setEntry key value entries = entries ++ [(key, value)] := by
  induction entries with
  | nil => rfl
  | cons entry rest ih =>
      obtain ⟨k, a⟩ := entry
      simp only [List.map_cons, List.mem_cons, not_or] at h
      rw [setEntry, if_neg fun e => h.1 e.symm, ih h.2, List.cons_append]

theorem nodup_setEntry (h : (entries.map (·.1)).Nodup) (key : κ) (value : α) :
    ((setEntry key value entries).map (·.1)).Nodup := by
  by_cases known : key ∈ entries.map (·.1)
  · rwa [keys_setEntry_of_mem value known]
  · rw [setEntry_of_not_mem value known, List.map_append, List.nodup_append]
    refine ⟨h, List.pairwise_singleton _ _, ?_⟩
    rintro k hk k' hk' rfl
    have new : k = key := List.mem_singleton.mp hk'
    exact known (new ▸ hk)

end

/-! ## Maps -/

def get? (m : OrderedMap κ α) (key : κ) : Option α := valueAmong? key m.entries

def contains (m : OrderedMap κ α) (key : κ) : Bool := (m.get? key).isSome

def set (m : OrderedMap κ α) (key : κ) (value : α) : OrderedMap κ α :=
  ⟨setEntry key value m.entries, nodup_setEntry m.distinct key value⟩

def erase (m : OrderedMap κ α) (key : κ) : OrderedMap κ α :=
  ⟨m.entries.filter fun entry => entry.1 ≠ key, (List.filter_sublist.map _).nodup m.distinct⟩

def ofList (entries : List (κ × α)) : OrderedMap κ α :=
  entries.foldl (fun m entry => m.set entry.1 entry.2) empty

@[simp] theorem get?_empty (key : κ) : (empty : OrderedMap κ α).get? key = none := rfl

@[simp] theorem get?_singleton (key other : κ) (value : α) :
    (singleton key value).get? other = if key = other then some value else none := rfl

@[simp] theorem set_empty (key : κ) (value : α) : empty.set key value = singleton key value := rfl

@[simp] theorem set_singleton (key : κ) (value value' : α) :
    (singleton key value).set key value' = singleton key value' := by
  ext1
  exact if_pos rfl

@[simp] theorem erase_singleton (key : κ) (value : α) :
    (singleton key value).erase key = empty := by
  ext1
  simp [erase, singleton, empty]

theorem get?_set_self (m : OrderedMap κ α) (key : κ) (value : α) :
    (m.set key value).get? key = some value := by
  simp only [set, get?]
  induction m.entries with
  | nil => simp [setEntry, valueAmong?]
  | cons entry rest ih =>
      obtain ⟨k, a⟩ := entry
      by_cases h : k = key <;> simp [setEntry, valueAmong?, h, ih]

theorem get?_set_of_ne (m : OrderedMap κ α) {key other : κ} (value : α) (h : other ≠ key) :
    (m.set key value).get? other = m.get? other := by
  simp only [set, get?]
  induction m.entries with
  | nil => simp [setEntry, valueAmong?, h.symm]
  | cons entry rest ih =>
      obtain ⟨k, a⟩ := entry
      by_cases hk : k = key
      · subst hk
        simp [setEntry, valueAmong?, h.symm]
      · simp only [setEntry, if_neg hk, valueAmong?, ih]

/-- A known key keeps its place. -/
theorem keys_set_of_mem (m : OrderedMap κ α) {key : κ} (value : α) (h : key ∈ m.keys) :
    (m.set key value).keys = m.keys :=
  keys_setEntry_of_mem value h

/-- A new key goes to the end. -/
theorem entries_set_of_not_mem (m : OrderedMap κ α) {key : κ} (value : α) (h : key ∉ m.keys) :
    (m.set key value).entries = m.entries ++ [(key, value)] :=
  setEntry_of_not_mem value h

theorem keys_set_of_not_mem (m : OrderedMap κ α) {key : κ} (value : α) (h : key ∉ m.keys) :
    (m.set key value).keys = m.keys ++ [key] := by
  rw [keys, m.entries_set_of_not_mem value h, List.map_append]
  rfl

theorem get?_erase_self (m : OrderedMap κ α) (key : κ) : (m.erase key).get? key = none := by
  simp only [erase, get?]
  induction m.entries with
  | nil => simp [valueAmong?]
  | cons entry rest ih =>
      obtain ⟨k, a⟩ := entry
      by_cases h : k = key <;> simp [valueAmong?, h] <;> simpa using ih

theorem get?_erase_of_ne (m : OrderedMap κ α) {key other : κ} (h : other ≠ key) :
    (m.erase key).get? other = m.get? other := by
  simp only [erase, get?]
  induction m.entries with
  | nil => simp [valueAmong?]
  | cons entry rest ih =>
      obtain ⟨k, a⟩ := entry
      by_cases hk : k = key
      · have hne : k ≠ other := fun e => h (e.symm.trans hk)
        simp only [List.filter_cons, hk, ne_eq, not_true_eq_false, decide_false,
          Bool.false_eq_true, if_false, ih]
        simp [valueAmong?, ← hk, hne]
      · simp only [List.filter_cons, ne_eq, hk, not_false_eq_true, decide_true, if_true,
          valueAmong?, ih]

theorem entries_erase_of_cons {m : OrderedMap κ α} {key : κ} {value : α} {rest : List (κ × α)}
    (h : m.entries = (key, value) :: rest) : (m.erase key).entries = rest := by
  have distinct := m.distinct
  rw [h, List.map_cons, List.nodup_cons] at distinct
  have erased : (m.erase key).entries =
      ((key, value) :: rest).filter fun entry => entry.1 ≠ key := by
    rw [← h]
    rfl
  rw [erased, List.filter_cons_of_neg (by simp)]
  refine List.filter_eq_self.mpr fun other hother => ?_
  simp only [ne_eq, decide_not, Bool.not_eq_true', decide_eq_false_iff_not]
  intro same
  exact distinct.1 (List.mem_map.mpr ⟨other, hother, same⟩)

end OrderedMap

end Scriptlet
