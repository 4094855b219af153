import DocQuery.Entries
import DocQuery.Tree.Index
import DocQuery.Tree.Number

/-!
# Trees

A document is a tree: objects with ordered text keys, arrays, and leaves. All access goes through
two views that agree with each other, `children` (with its keys) and `child?`; the items of an
array have the keys of `Index`, so that a place in a document is always a list of texts.

A tree is `WellKeyed` when no object in it repeats a key. Readers and edits only make such trees.
-/

namespace DocQuery

inductive Tree where
  | null
  | bool (value : Bool)
  | number (value : Number)
  | string (text : String)
  | array (items : List Tree)
  | object (entries : List (String × Tree))

namespace Tree

/-- The empty object stands for a document with nothing in it yet. -/
instance : Inhabited Tree :=
  ⟨.object []⟩

def isObject : Tree → Bool
  | .object _ => true
  | _ => false

def isArray : Tree → Bool
  | .array _ => true
  | _ => false

/-- Whether the node can have children. -/
def isContainer (t : Tree) : Bool :=
  t.isObject || t.isArray

/-- Texts, numbers and truth values. Null counts with the containers. -/
def isPrimitive : Tree → Bool
  | .bool _ | .number _ | .string _ => true
  | _ => false

def string? : Tree → Option String
  | .string text => some text
  | _ => none

/-- The items of an array under their keys, counting from `start`. -/
def numbered (start : Nat) : List Tree → List (String × Tree)
  | [] => []
  | item :: items => (Index.key start, item) :: numbered (start + 1) items

/-- The direct children in order, each with its key. -/
def children : Tree → List (String × Tree)
  | .array items => numbered 0 items
  | .object entries => entries
  | _ => []

def keys (t : Tree) : List String :=
  t.children.map Prod.fst

/-- How many children the node has. -/
def length : Tree → Nat
  | .array items => items.length
  | .object entries => entries.length
  | _ => 0

/-- The child under `key`. -/
def child? (t : Tree) (key : String) : Option Tree :=
  match t with
  | .array items => (Index.ofKey? key).bind (items[·]?)
  | .object entries => entries.lookup key
  | _ => none

def hasChild (t : Tree) (key : String) : Bool :=
  (t.child? key).isSome

/-- The tree with `value` in place of its child under `key`. -/
def replace? (t : Tree) (key : String) (value : Tree) : Option Tree :=
  match t with
  | .array items =>
    match Index.ofKey? key with
    | some i => if i < items.length then some (.array (items.set i value)) else none
    | none => none
  | .object entries =>
    if (entries.lookup key).isSome then some (.object (Entries.put entries key value)) else none
  | _ => none

mutual

/-- No object repeats a key. -/
def WellKeyed : Tree → Prop
  | .array items => WellKeyedItems items
  | .object entries => (entries.map Prod.fst).Nodup ∧ WellKeyedEntries entries
  | _ => True

def WellKeyedItems : List Tree → Prop
  | [] => True
  | item :: items => WellKeyed item ∧ WellKeyedItems items

def WellKeyedEntries : List (String × Tree) → Prop
  | [] => True
  | (_, child) :: entries => WellKeyed child ∧ WellKeyedEntries entries

end

theorem sizeOf_lt_of_lookup {entries : List (String × Tree)} {key : String} {child : Tree}
    (h : entries.lookup key = some child) : sizeOf child < sizeOf entries := by
  induction entries with
  | nil => simp at h
  | cons entry rest ih =>
    obtain ⟨k, v⟩ := entry
    rw [List.lookup_cons] at h
    split at h
    next =>
      cases h
      simp only [List.cons.sizeOf_spec, Prod.mk.sizeOf_spec]
      omega
    next =>
      have := ih h
      simp only [List.cons.sizeOf_spec]
      omega

theorem sizeOf_child_lt {t child : Tree} {key : String} (h : t.child? key = some child) :
    sizeOf child < sizeOf t := by
  cases t with
  | array items =>
    obtain ⟨i, -, hi⟩ := Option.bind_eq_some_iff.1 h
    have := List.sizeOf_lt_of_mem (List.mem_of_getElem? hi)
    simp only [array.sizeOf_spec]
    omega
  | object entries =>
    have := sizeOf_lt_of_lookup h
    simp only [object.sizeOf_spec]
    omega
  | _ => simp [child?] at h

theorem wellKeyedItems_iff {items : List Tree} :
    WellKeyedItems items ↔ ∀ item ∈ items, item.WellKeyed := by
  induction items with
  | nil => simp [WellKeyedItems]
  | cons item items ih => simp [WellKeyedItems, ih]

theorem wellKeyedEntries_iff {entries : List (String × Tree)} :
    WellKeyedEntries entries ↔ ∀ entry ∈ entries, entry.2.WellKeyed := by
  induction entries with
  | nil => simp [WellKeyedEntries]
  | cons entry entries ih => simp only [WellKeyedEntries, ih, List.forall_mem_cons]

theorem WellKeyed.child? {t child : Tree} {key : String} (unique : t.WellKeyed)
    (h : t.child? key = some child) : child.WellKeyed := by
  cases t with
  | array items =>
    obtain ⟨i, -, hi⟩ := Option.bind_eq_some_iff.1 h
    rw [WellKeyed, wellKeyedItems_iff] at unique
    exact unique child (List.mem_of_getElem? hi)
  | object entries =>
    obtain ⟨before, after, rfl, -⟩ := List.lookup_eq_some_iff.1 h
    rw [WellKeyed, wellKeyedEntries_iff] at unique
    exact unique.2 (key, child) (by simp)
  | _ => cases h

theorem keys_numbered (start : Nat) (items : List Tree) :
    (numbered start items).map Prod.fst = (List.range' start items.length).map Index.key := by
  induction items generalizing start with
  | nil => rfl
  | cons item items ih => simp [numbered, List.range'_succ, ih]

/-- The keys of a node are told apart. -/
theorem WellKeyed.nodup_keys {t : Tree} (unique : t.WellKeyed) : t.keys.Nodup := by
  cases t with
  | array items =>
    rw [keys, children, keys_numbered]
    exact List.Pairwise.map _ (fun _ _ ne same => ne (Index.key_injective same))
      (List.nodup_range' 1)
  | object entries =>
    rw [WellKeyed] at unique
    exact unique.1
  | _ => simp [keys, children]

theorem length_numbered (start : Nat) (items : List Tree) :
    (numbered start items).length = items.length := by
  induction items generalizing start with
  | nil => rfl
  | cons item items ih => simp [numbered, ih]

theorem length_keys (t : Tree) : t.keys.length = t.length := by
  cases t <;> simp [keys, children, length, length_numbered]

end Tree

end DocQuery
