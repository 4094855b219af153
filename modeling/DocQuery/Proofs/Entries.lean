import DocQuery.Entries
import DocQuery.Proofs.KeySet

/-!
# What a dictionary keeps of a list of pairs

A dictionary is written pair after pair. What it holds in the end can be read off the pairs.

* `keys_ofPairs`: it has the keys of the pairs in the order of first mention;
* `lookup_ofPairs`: under each key it has the last value;
* `merges_ofPairs`: this says all there is to say of it;
* `ofPairs_of_nodup`: pairs that do not repeat a key are such a dictionary already.
-/

namespace DocQuery.Entries

variable {α : Type} {pairs : List (String × α)} {key : String} {value : α}

theorem ofPairs_concat (pairs : List (String × α)) (pair : String × α) :
    ofPairs (pairs ++ [pair]) = (ofPairs pairs).put pair.1 pair.2 := by
  rw [ofPairs, List.foldl_concat, ofPairs]

theorem keys_concat (pairs : List (String × α)) (pair : String × α) :
    keys (pairs ++ [pair]) = keys pairs ++ [pair.1] :=
  List.map_append

theorem keys_put (entries : Entries α) (key : String) (value : α) :
    (entries.put key value).keys =
      if key ∈ entries.keys then entries.keys else entries.keys ++ [key] := by
  split
  next known => exact keys_put_of_mem known value
  next new => exact keys_put_of_not_mem new value

theorem keys_ofPairs (pairs : List (String × α)) :
    (ofPairs pairs).keys = (KeySet.ofList (keys pairs)).keys := by
  induction pairs using List.reverseRecOn with
  | nil => rfl
  | append_singleton pairs pair ih =>
    rw [ofPairs_concat, keys_put, keys_concat, KeySet.ofList_concat, KeySet.keys_insert, ih]

theorem lookup_put (entries : Entries α) (key : String) (value : α) :
    (entries.put key value).lookup key = some value := by
  by_cases known : key ∈ entries.keys
  · obtain ⟨before, old, after, rfl, first⟩ := exists_first_of_mem known
    rw [put_append_cons first]
    exact lookup_eq_some_iff.2 ⟨before, after, rfl, first⟩
  · rw [put_of_not_mem known]
    exact lookup_eq_some_iff.2 ⟨entries, [], rfl, known⟩

theorem lookup_ofPairs (pairs : List (String × α)) (key : String) :
    (ofPairs pairs).lookup key = pairs.reverse.lookup key := by
  induction pairs using List.reverseRecOn with
  | nil => rfl
  | append_singleton pairs pair ih =>
    obtain ⟨k, v⟩ := pair
    rw [ofPairs_concat, List.reverse_concat, List.lookup_cons]
    by_cases last : key = k
    · subst last
      rw [lookup_put, beq_self_eq_true]
    · rw [lookup_put_of_ne last, ih, beq_false_of_ne last]

/-- What is found is the value of the last pair under the key. -/
theorem lookup_ofPairs_eq_some_iff : (ofPairs pairs).lookup key = some value ↔
    ∃ before after, pairs = before ++ (key, value) :: after ∧ key ∉ keys after := by
  rw [lookup_ofPairs, lookup_eq_some_iff]
  constructor
  · rintro ⟨after, before, split, last⟩
    refine ⟨before.reverse, after.reverse, ?_, by simpa [keys] using last⟩
    simpa using congrArg List.reverse split
  · rintro ⟨before, after, rfl, last⟩
    exact ⟨after.reverse, before.reverse, by simp, by simpa [keys] using last⟩

/-- `entries` is what `pairs` come to when keys that are equal are one key. It has the place of the
first of them and the value of the last. -/
structure Merges (pairs : List (String × α)) (entries : Entries α) : Prop where
  nodup_keys : entries.keys.Nodup
  mem_keys_iff : ∀ key, key ∈ entries.keys ↔ key ∈ keys pairs
  ordered : entries.keys.Pairwise fun a b => (keys pairs).idxOf a < (keys pairs).idxOf b
  lookup_eq_some_iff : ∀ key value, entries.lookup key = some value ↔
    ∃ before after, pairs = before ++ (key, value) :: after ∧ key ∉ keys after

theorem merges_ofPairs (pairs : List (String × α)) : Merges pairs (ofPairs pairs) where
  nodup_keys := nodup_keys_ofPairs pairs
  mem_keys_iff key := by rw [keys_ofPairs, KeySet.mem_ofList]
  ordered := by
    rw [keys_ofPairs]
    exact KeySet.pairwise_idxOf_ofList _
  lookup_eq_some_iff _ _ := lookup_ofPairs_eq_some_iff

theorem ofPairs_of_nodup (unique : (keys pairs).Nodup) : ofPairs pairs = pairs := by
  induction pairs using List.reverseRecOn with
  | nil => rfl
  | append_singleton pairs pair ih =>
    rw [keys_concat, List.nodup_append] at unique
    obtain ⟨earlier, -, apart⟩ := unique
    have new : pair.1 ∉ keys pairs := fun known => apart _ known _ (.head _) rfl
    rw [ofPairs_concat, ih earlier, put_of_not_mem new]

/-! ## Other values under the same keys -/

section Map

variable {β : Type} (f : α → β)

theorem put_map (entries : Entries α) (key : String) (value : α) :
    put (entries.map (Prod.map id f)) key (f value) =
      (entries.put key value).map (Prod.map id f) := by
  induction entries with
  | nil => rfl
  | cons entry entries ih =>
    obtain ⟨k, v⟩ := entry
    by_cases same : k = key
    · simp [put, same]
    · simp [put, same, ih]

theorem ofPairs_map (pairs : List (String × α)) :
    ofPairs (pairs.map (Prod.map id f)) = (ofPairs pairs).map (Prod.map id f) := by
  induction pairs using List.reverseRecOn with
  | nil => rfl
  | append_singleton pairs pair ih =>
    rw [List.map_append, List.map_singleton, ofPairs_concat, ofPairs_concat, ih]
    exact put_map f _ pair.1 pair.2

theorem lookup_map (entries : Entries α) (key : String) :
    (entries.map (Prod.map id f)).lookup key = (entries.lookup key).map f := by
  induction entries with
  | nil => rfl
  | cons entry entries ih =>
    obtain ⟨k, v⟩ := entry
    simp only [List.map_cons, Prod.map_apply, id, List.lookup_cons, ih]
    cases key == k <;> rfl

end Map

end DocQuery.Entries
