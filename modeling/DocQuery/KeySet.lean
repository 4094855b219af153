/-!
# Ordered key sets

A list of keys without repetition, in the order in which they were first added.
-/

namespace DocQuery

structure KeySet where
  keys : List String
  nodup : keys.Nodup

namespace KeySet

def empty : KeySet :=
  ⟨[], List.nodup_nil⟩

def contains (s : KeySet) (key : String) : Bool :=
  s.keys.contains key

/-- A key that is new goes last. -/
def insert (s : KeySet) (key : String) : KeySet :=
  if h : key ∈ s.keys then s
  else ⟨s.keys ++ [key], by
    rw [List.nodup_append]
    refine ⟨s.nodup, by simp, fun a ha b hb e => h ?_⟩
    rwa [← List.mem_singleton.1 hb, ← e]⟩

def ofList (keys : List String) : KeySet :=
  keys.foldl insert empty

/-- The keys of `s` that are not in `other`, in the order of `s`. -/
def diff (s other : KeySet) : KeySet :=
  ⟨s.keys.filter (!other.contains ·), s.nodup.filter _⟩

/-- Whether two sets have the same keys, in whatever order. -/
def same (s other : KeySet) : Bool :=
  s.keys.length == other.keys.length && s.keys.all other.contains

theorem mem_insert {s : KeySet} {key k : String} :
    k ∈ (s.insert key).keys ↔ k ∈ s.keys ∨ k = key := by
  unfold insert
  split
  next h => exact ⟨.inl, fun hk => hk.elim id (· ▸ h)⟩
  next => simp

theorem mem_ofList {keys : List String} {k : String} : k ∈ (ofList keys).keys ↔ k ∈ keys := by
  have fold (keys : List String) (s : KeySet) :
      k ∈ (keys.foldl insert s).keys ↔ k ∈ s.keys ∨ k ∈ keys := by
    induction keys generalizing s with
    | nil => simp
    | cons key keys ih => rw [List.foldl_cons, ih, mem_insert, List.mem_cons, or_assoc]
  simpa [ofList, empty] using fold keys empty

theorem mem_diff {s other : KeySet} {k : String} :
    k ∈ (s.diff other).keys ↔ k ∈ s.keys ∧ k ∉ other.keys := by
  simp [diff, contains]

end KeySet

end DocQuery
