/-!
# Entries in order

A dictionary with text keys that keeps the order in which keys were first written. Writing under
a key that is already there leaves the entry in its place (`keys_put_of_mem`); a new key goes last
(`keys_put_of_not_mem`). So a dictionary built by `put` holds each key once
(`nodup_keys_ofPairs`), at the place of its first mention.
-/

namespace DocQuery

/-- Values under text keys, in the order the keys were first written. -/
abbrev Entries (α : Type) := List (String × α)

namespace Entries

variable {α : Type}

def keys (entries : Entries α) : List String :=
  entries.map Prod.fst

/-- An entry under `key` keeps its place and takes the new value; a new key goes last. -/
def put (entries : Entries α) (key : String) (value : α) : Entries α :=
  match entries with
  | [] => [(key, value)]
  | (k, v) :: rest => if k = key then (k, value) :: rest else (k, v) :: put rest key value

/-- The dictionary written by going through `pairs` from the left. -/
def ofPairs (pairs : List (String × α)) : Entries α :=
  pairs.foldl (fun entries pair => entries.put pair.1 pair.2) []

theorem lookup_eq_none_iff {entries : Entries α} {key : String} :
    entries.lookup key = none ↔ key ∉ entries.keys := by
  rw [List.lookup_eq_none_iff, keys, List.mem_map]
  constructor
  · rintro others ⟨entry, mem, rfl⟩
    simpa using others entry mem
  · intro absent entry mem
    have other : key ≠ entry.1 := fun same => absent ⟨entry, mem, same.symm⟩
    simpa using other

/-- A lookup finds the first entry under the key. -/
theorem lookup_eq_some_iff {entries : Entries α} {key : String} {value : α} :
    entries.lookup key = some value ↔
      ∃ before after, entries = before ++ (key, value) :: after ∧ key ∉ keys before := by
  rw [List.lookup_eq_some_iff]
  constructor
  · rintro ⟨before, after, split, others⟩
    exact ⟨before, after, split, lookup_eq_none_iff.1 (List.lookup_eq_none_iff.2 others)⟩
  · rintro ⟨before, after, split, first⟩
    exact ⟨before, after, split, List.lookup_eq_none_iff.1 (lookup_eq_none_iff.2 first)⟩

theorem put_of_not_mem {entries : Entries α} {key : String} (absent : key ∉ entries.keys)
    (value : α) : entries.put key value = entries ++ [(key, value)] := by
  induction entries with
  | nil => rfl
  | cons entry rest ih =>
    have hk : entry.1 ≠ key := fun e => absent (by simp [keys, e])
    have later : key ∉ keys rest := fun m => absent (.tail _ m)
    simp [put, hk, ih later]

/-- The first entry under a key takes the new value where it stands. -/
theorem put_append_cons {before : Entries α} {key : String} (first : key ∉ before.keys)
    (after : Entries α) (old value : α) :
    put (before ++ (key, old) :: after) key value = before ++ (key, value) :: after := by
  induction before with
  | nil => simp [put]
  | cons entry before ih =>
    have hk : entry.1 ≠ key := fun e => first (by simp [keys, e])
    have later : key ∉ keys before := fun m => first (.tail _ m)
    simp [put, hk, ih later]

theorem exists_first_of_mem {entries : Entries α} {key : String} (mem : key ∈ entries.keys) :
    ∃ before value after, entries = before ++ (key, value) :: after ∧ key ∉ keys before := by
  cases found : entries.lookup key with
  | none => exact absurd mem (lookup_eq_none_iff.1 found)
  | some value =>
    obtain ⟨before, after, split, first⟩ := lookup_eq_some_iff.1 found
    exact ⟨before, value, after, split, first⟩

theorem keys_put_of_mem {entries : Entries α} {key : String} (h : key ∈ entries.keys)
    (value : α) : (entries.put key value).keys = entries.keys := by
  obtain ⟨before, old, after, rfl, first⟩ := exists_first_of_mem h
  rw [put_append_cons first]
  simp [keys]

theorem keys_put_of_not_mem {entries : Entries α} {key : String} (h : key ∉ entries.keys)
    (value : α) : (entries.put key value).keys = entries.keys ++ [key] := by
  rw [put_of_not_mem h]
  simp [keys]

/-- The later of two values under one key is kept. -/
theorem put_put (entries : Entries α) (key : String) (first second : α) :
    (entries.put key first).put key second = entries.put key second := by
  by_cases h : key ∈ entries.keys
  · obtain ⟨before, old, after, rfl, alone⟩ := exists_first_of_mem h
    simp only [put_append_cons alone]
  · rw [put_of_not_mem h, put_of_not_mem h, put_append_cons h]

theorem lookup_put_of_ne {key asked : String} (other : asked ≠ key) (entries : Entries α)
    (value : α) : (entries.put key value).lookup asked = entries.lookup asked := by
  have differs : (asked == key) = false := by simpa using other
  induction entries with
  | nil => simp [put, List.lookup_cons, differs]
  | cons entry rest ih =>
    obtain ⟨k, v⟩ := entry
    by_cases hk : k = key
    · subst hk
      simp [put, List.lookup_cons, differs]
    · simp [put, hk, List.lookup_cons, ih]

/-- Only the order of new keys depends on the order of writing. -/
theorem put_comm {key key' : String} (other : key ≠ key') (entries : Entries α)
    (value value' : α) : ((entries.put key value).put key' value').Perm
      ((entries.put key' value').put key value) := by
  induction entries with
  | nil => simpa [put, other, Ne.symm other] using List.Perm.swap _ _ _
  | cons entry rest ih =>
    obtain ⟨k, v⟩ := entry
    by_cases hk : k = key
    · subst hk
      simp [put, other]
    · by_cases hk' : k = key'
      · subst hk'
        simp [put, hk]
      · simpa [put, hk, hk'] using ih

theorem nodup_keys_put {entries : Entries α} (h : entries.keys.Nodup) (key : String) (value : α) :
    (entries.put key value).keys.Nodup := by
  by_cases hk : key ∈ entries.keys
  · rwa [keys_put_of_mem hk]
  · rw [keys_put_of_not_mem hk, List.nodup_append]
    refine ⟨h, by simp, fun a ha b hb e => hk ?_⟩
    rwa [← List.mem_singleton.1 hb, ← e]

theorem nodup_keys_ofPairs (pairs : List (String × α)) : (ofPairs pairs).keys.Nodup := by
  have grows (pairs : List (String × α)) (entries : Entries α) (h : entries.keys.Nodup) :
      (pairs.foldl (fun entries pair => entries.put pair.1 pair.2) entries).keys.Nodup := by
    induction pairs generalizing entries with
    | nil => exact h
    | cons pair rest ih => exact ih _ (nodup_keys_put h _ _)
  exact grows pairs [] List.nodup_nil

end Entries

end DocQuery
