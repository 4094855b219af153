import DocQuery.Proofs.Tree.Reordered
import DocQuery.Tree.Build

/-!
# One step of a build

Below a node a build goes on at the slot of the next key: the child under it, or in an object that
has none a fresh object. It goes down by `slot?` and comes back up by `fill` (`descend_of_slot`).
The two obey the laws of reading and writing one place:

* `child?_fill`, `fill_of_child?`, `fill_fill`: what was filled in is found, filling in what is
  there changes nothing, and the later of two fillings counts;
* `child?_fill_of_ne`, `fill_comm`: other keys do not notice, and two keys are filled in either
  order, up to the order of entries;
* `replaced_fill`: the children around a slot stay where they are.
-/

namespace DocQuery.Tree

variable {t t' a b child : Tree} {key key' asked : String} {entries : List (String × Tree)}
  {change : Tree → Tree} {keys : List String}

/-! ## Slots -/

/-- What a build goes on with under `key`. -/
def slot? (t : Tree) (key : String) : Option Tree :=
  (t.child? key).or (if t.isObject then some default else none)

/-- The tree with `child` in the slot of `key`. -/
def fill (t : Tree) (key : String) (child : Tree) : Tree :=
  match t with
  | .object entries => .object (Entries.put entries key child)
  | .array items =>
    match Index.ofKey? key with
    | some i => .array (items.set i child)
    | none => .array items
  | leaf => leaf

/-- Why a build cannot go on below a node that has no slot. -/
def obstacle (t : Tree) : BuildObstacle :=
  if t.isArray then .noSuchItem else .leaf

theorem slot?_of_child? (h : t.child? key = some child) : t.slot? key = some child := by
  rw [slot?, h, Option.some_or]

theorem slot?_of_absent (h : entries.lookup key = none) :
    (object entries).slot? key = some default := by
  have absent : (object entries).child? key = none := h
  rw [slot?, absent, Option.none_or]
  rfl

theorem slot?_object (entries : List (String × Tree)) (key : String) :
    (object entries).slot? key = some ((entries.lookup key).getD default) := by
  cases h : entries.lookup key with
  | none => exact slot?_of_absent h
  | some child => exact slot?_of_child? h

theorem slot?_array (items : List Tree) (key : String) :
    (array items).slot? key = (array items).child? key := by
  simp [slot?, isObject]

theorem slot?_eq_none_iff : t.slot? key = none ↔ t.isObject = false ∧ t.child? key = none := by
  rw [slot?, Option.or_eq_none_iff, and_comm]
  cases t.isObject <;> simp

/-- A slot holds the child under its key or a fresh object. -/
theorem child?_of_slot? (h : t.slot? key = some child) :
    t.child? key = some child ∨ t.child? key = none ∧ child = default := by
  cases hc : t.child? key with
  | some c =>
    rw [slot?_of_child? hc] at h
    exact .inl h
  | none =>
    rw [slot?, hc, Option.none_or] at h
    split at h
    · exact .inr ⟨rfl, (Option.some.inj h).symm⟩
    · cases h

theorem getD_child?_of_slot? (h : t.slot? key = some child) :
    (t.child? key).getD default = child := by
  obtain found | ⟨absent, rfl⟩ := child?_of_slot? h
  · rw [found, Option.getD_some]
  · rw [absent, Option.getD_none]

/-- A path that goes on below a slot leads nowhere below a fresh object. -/
theorem resolve?_of_slot? {path : Path} (h : t.slot? key = some child) (deeper : path ≠ []) :
    Path.resolve? (key :: path) t = path.resolve? child := by
  rw [Path.resolve?_cons]
  obtain found | ⟨absent, rfl⟩ := child?_of_slot? h
  · rw [found, Option.bind_some]
  · obtain ⟨next, path, rfl⟩ := List.exists_cons_of_ne_nil deeper
    rw [absent]
    rfl

/-- Down to a slot and back up. -/
theorem descend_of_slot (h : t.slot? key = some child) :
    descend change (key :: keys) t =
      (t.fill key (descend change keys child).1, (descend change keys child).2) := by
  cases t with
  | object entries =>
    obtain rfl := Option.some.inj ((slot?_object entries key).symm.trans h)
    rfl
  | array items =>
    rw [slot?_array] at h
    obtain ⟨i, hi, hc⟩ := Option.bind_eq_some_iff.1 h
    simp only [descend, fill, hi, hc]
  | _ => cases h

theorem descend_of_no_slot (h : t.slot? key = none) :
    descend change (key :: keys) t = (t, some (t.obstacle, key)) := by
  obtain ⟨other, missing⟩ := slot?_eq_none_iff.1 h
  cases t with
  | object => cases other
  | array items =>
    cases hi : Index.ofKey? key with
    | none => simp [descend, hi, obstacle, isArray]
    | some i =>
      have outside : items[i]? = none := by simpa [child?, hi] using missing
      simp only [descend, hi, outside]
      rfl
  | _ => rfl

/-! ## Replacing a child -/

/-- The second tree has `b` where the first has the child `a` under `key`, and everything around it
in the same place. -/
inductive Replaced (key : String) (a b : Tree) : Tree → Tree → Prop
  | entry (before after : List (String × Tree)) (first : key ∉ Entries.keys before) :
      Replaced key a b (.object (before ++ (key, a) :: after))
        (.object (before ++ (key, b) :: after))
  | item (before after : List Tree) (place : key = Index.key before.length) :
      Replaced key a b (.array (before ++ a :: after)) (.array (before ++ b :: after))

namespace Replaced

theorem symm (h : Replaced key a b t t') : Replaced key b a t' t := by
  cases h with
  | entry before after first => exact .entry before after first
  | item before after place => exact .item before after place

theorem child?_eq (h : Replaced key a b t t') : t.child? key = some a := by
  cases h with
  | entry before after first => exact Entries.lookup_eq_some_iff.2 ⟨before, after, rfl, first⟩
  | item before after place => simp [child?, place, Index.ofKey?_key]

theorem reordered (h : Replaced key a b t t') (below : a.Reordered b) : t.Reordered t' := by
  cases h with
  | entry before after => exact .value before key after below
  | item before after => exact .item before after below

/-- Nothing is replaced by itself. -/
theorem eq_of_self (h : Replaced key a a t t') : t' = t := by
  cases h <;> rfl

end Replaced

/-- However a slot is filled, the same stands around it. -/
theorem replaced_fill (slot : (t.slot? key).isSome) (a b : Tree) :
    Replaced key a b (t.fill key a) (t.fill key b) := by
  cases t with
  | object entries =>
    cases hc : entries.lookup key with
    | none =>
      have absent := Entries.lookup_eq_none_iff.1 hc
      simp only [fill, Entries.put_of_not_mem absent]
      exact .entry entries [] absent
    | some child =>
      obtain ⟨before, after, rfl, first⟩ := Entries.lookup_eq_some_iff.1 hc
      simp only [fill, Entries.put_append_cons first]
      exact .entry before after first
  | array items =>
    rw [slot?_array] at slot
    obtain ⟨child, found⟩ := Option.isSome_iff_exists.1 slot
    obtain ⟨i, hi, hc⟩ := Option.bind_eq_some_iff.1 found
    obtain ⟨inside, -⟩ := List.getElem?_eq_some_iff.1 hc
    have place : key = Index.key (items.take i).length := by
      rw [List.length_take, Nat.min_eq_left (Nat.le_of_lt inside), Index.ofKey?_eq_some_iff.1 hi]
    simp only [fill, hi, List.set_eq_take_append_cons_drop, if_pos inside]
    exact .item (items.take i) (items.drop (i + 1)) place
  | _ => cases slot

/-! ## Laws -/

theorem child?_fill (slot : (t.slot? key).isSome) (child : Tree) :
    (t.fill key child).child? key = some child :=
  (replaced_fill slot child child).child?_eq

theorem slot?_fill (slot : (t.slot? key).isSome) (child : Tree) :
    (t.fill key child).slot? key = some child :=
  slot?_of_child? (child?_fill slot child)

/-- Filling in the child that is there changes nothing. -/
theorem fill_of_child? (h : t.child? key = some child) : t.fill key child = t := by
  cases t with
  | object entries =>
    obtain ⟨before, after, rfl, first⟩ := Entries.lookup_eq_some_iff.1 h
    rw [fill, Entries.put_append_cons first]
  | array items =>
    obtain ⟨i, hi, hc⟩ := Option.bind_eq_some_iff.1 h
    obtain ⟨inside, rfl⟩ := List.getElem?_eq_some_iff.1 hc
    simp only [fill, hi, List.set_getElem_self]
  | _ => cases h

theorem replaced_fill_of_child? (h : t.child? key = some a) (b : Tree) :
    Replaced key a b t (t.fill key b) := by
  have around := replaced_fill (Option.isSome_of_mem (slot?_of_child? h)) a b
  rwa [fill_of_child? h] at around

theorem fill_fill (t : Tree) (key : String) (a b : Tree) :
    (t.fill key a).fill key b = t.fill key b := by
  cases t with
  | object entries => simp only [fill, Entries.put_put]
  | array items => cases hi : Index.ofKey? key <;> simp [fill, hi]
  | _ => rfl

theorem child?_fill_of_ne (other : asked ≠ key) (t child : Tree) :
    (t.fill key child).child? asked = t.child? asked := by
  cases t with
  | object entries => exact Entries.lookup_put_of_ne other entries child
  | array items =>
    cases hi : Index.ofKey? key with
    | none => simp only [fill, hi]
    | some i =>
      simp only [fill, hi, child?]
      cases hj : Index.ofKey? asked with
      | none => rfl
      | some j =>
        have elsewhere : i ≠ j := by
          rintro rfl
          exact other (Index.eq_of_ofKey? hj hi)
        exact List.getElem?_set_ne elsewhere
  | _ => rfl

theorem isObject_fill (t : Tree) (key : String) (child : Tree) :
    (t.fill key child).isObject = t.isObject := by
  cases t with
  | array => cases hi : Index.ofKey? key <;> simp [fill, hi, isObject]
  | _ => rfl

theorem obstacle_fill (t : Tree) (key : String) (child : Tree) :
    (t.fill key child).obstacle = t.obstacle := by
  cases t with
  | array => cases hi : Index.ofKey? key <;> simp [fill, hi, obstacle, isArray]
  | _ => rfl

theorem slot?_fill_of_ne (other : asked ≠ key) (t child : Tree) :
    (t.fill key child).slot? asked = t.slot? asked := by
  rw [slot?, slot?, child?_fill_of_ne other, isObject_fill]

/-- Two slots are filled in either order. Only where new entries come to stand depends on it. -/
theorem fill_comm (other : key ≠ key') (t a b : Tree) :
    ((t.fill key a).fill key' b).Reordered ((t.fill key' b).fill key a) := by
  cases t with
  | object entries => exact .entries (Entries.put_comm other entries a b)
  | array items =>
    cases hi : Index.ofKey? key with
    | none =>
      cases hj : Index.ofKey? key' <;> simpa only [fill, hi, hj] using .refl _
    | some i =>
      cases hj : Index.ofKey? key' with
      | none => simpa only [fill, hi, hj] using .refl _
      | some j =>
        have elsewhere : i ≠ j := by
          rintro rfl
          exact other (Index.eq_of_ofKey? hi hj)
        simp only [fill, hi, hj, List.set_comm _ _ elsewhere]
        exact .refl _
  | _ => exact .refl _

end DocQuery.Tree
