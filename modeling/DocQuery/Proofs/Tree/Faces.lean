import DocQuery.Proofs.Tree.Reordered
import DocQuery.Tree.Equality
import Mathlib.Data.List.Forall2
import Mathlib.Data.List.Perm.Subperm

/-!
# Faces

The face of a node is what can be seen of it without going down: its kind, the content of a leaf and
the number of children. Trees are equal if they show the same faces at the same places.

* `same_iff_children`: one level of an equality, for all kinds of nodes at once;
* `same_iff_faces`: from there on down, equality by what every path leads to.

An item and an entry are compared in the same way here, since both are the child under a key.
-/

namespace DocQuery

/-- What a node shows of itself. -/
inductive Face where
  | null
  | bool (value : Bool)
  | number (value : Number)
  | string (text : String)
  | array (length : Nat)
  | object (length : Nat)
  deriving DecidableEq

/-- Numbers agree by their values, and all else by being the same. -/
def Face.Agree : Face → Face → Prop
  | .number a, .number b => a.same b = true
  | a, b => a = b

namespace Tree

variable {a b : Tree} {as bs : List (String × Tree)} {R S : Tree → Tree → Prop}
  {x? y? : Option Tree}

def face : Tree → Face
  | .null => .null
  | .bool value => .bool value
  | .number value => .number value
  | .string text => .string text
  | .array items => .array items.length
  | .object entries => .object entries.length

theorem face_eq_number_iff {t : Tree} {n : Number} : t.face = .number n ↔ t = .number n := by
  cases t <;> simp [face]

/-! ## Nodes that may be missing -/

theorem rel_imp (h : Option.Rel R x? y?)
    (imp : ∀ x y, x? = some x → y? = some y → R x y → S x y) : Option.Rel S x? y? := by
  cases h with
  | none => exact .none
  | some h => exact .some (imp _ _ rfl rfl h)

theorem rel_congr (same : ∀ x y, x? = some x → y? = some y → (R x y ↔ S x y)) :
    Option.Rel R x? y? ↔ Option.Rel S x? y? :=
  ⟨fun h => rel_imp h fun x y hx hy => (same x y hx hy).1,
    fun h => rel_imp h fun x y hx hy => (same x y hx hy).2⟩

theorem rel_face_iff : Option.Rel (fun x y => x.face = y.face) x? y? ↔
    x?.map face = y?.map face := by
  cases x? <;> cases y? <;> simp

/-! ## Items -/

theorem sameItems_iff {as bs : List Tree} :
    sameItems as bs = true ↔ List.Forall₂ (fun a b => a.same b = true) as bs := by
  induction as generalizing bs with
  | nil => cases bs <;> simp [sameItems]
  | cons a as ih => cases bs <;> simp [sameItems, ih]

/-- Items agree in order if they agree at every position. -/
theorem forall₂_iff_getElem? {as bs : List Tree} :
    List.Forall₂ R as bs ↔ ∀ i : Nat, Option.Rel R as[i]? bs[i]? := by
  constructor
  · intro h
    induction h with
    | nil => exact fun i => .none
    | cons first _ ih =>
      rintro (_ | i)
      · exact .some first
      · exact ih i
  · intro h
    induction as generalizing bs with
    | nil =>
      cases bs with
      | nil => exact .nil
      | cons b bs => cases h 0
    | cons a as ih =>
      cases bs with
      | nil => cases h 0
      | cons b bs =>
        have first : R a b := Option.rel_some_some.1 (h 0)
        exact .cons first (ih fun i => h (i + 1))

theorem forall₂_iff_child? {as bs : List Tree} :
    List.Forall₂ R as bs ↔ ∀ key, Option.Rel R ((array as).child? key) ((array bs).child? key) := by
  rw [forall₂_iff_getElem?]
  constructor
  · intro h key
    simp only [child?]
    cases Index.ofKey? key with
    | none => exact .none
    | some i => exact h i
  · intro h i
    simpa only [child?, Index.ofKey?_key, Option.bind_some] using h (Index.key i)

/-! ## Entries -/

theorem sameEntries_iff : sameEntries as bs = true ↔
    ∀ key a, (key, a) ∈ as → ∃ b, bs.lookup key = some b ∧ a.same b = true := by
  induction as with
  | nil => simp [sameEntries]
  | cons entry as ih =>
    obtain ⟨k, v⟩ := entry
    rw [sameEntries_cons, Bool.and_eq_true, Option.any_eq_true, ih]
    constructor
    · rintro ⟨first, others⟩ key a mem
      obtain ⟨⟩ | ⟨-, later⟩ := mem
      · exact first
      · exact others key a later
    · exact fun h => ⟨h k v (.head _), fun key a later => h key a (.tail _ later)⟩

/-- Two dictionaries of one size have the same keys if the second has those of the first. -/
theorem keys_perm_of_subset (unique : (Entries.keys as).Nodup) (size : as.length = bs.length)
    (subset : Entries.keys as ⊆ Entries.keys bs) : (Entries.keys as).Perm (Entries.keys bs) :=
  (List.subperm_of_subset unique subset).perm_of_length_le (by simp [Entries.keys, size])

theorem same_object_iff (unique : (Entries.keys as).Nodup) :
    (object as).same (object bs) = true ↔ as.length = bs.length ∧
      ∀ key, Option.Rel (fun a b => a.same b = true) (as.lookup key) (bs.lookup key) := by
  rw [same, Bool.and_eq_true, beq_iff_eq, sameEntries_iff]
  simp only [← Entries.lookup_eq_some_iff_mem unique]
  refine and_congr_right fun size => ⟨fun h key => ?_, fun h key a ha => ?_⟩
  · have subset : Entries.keys as ⊆ Entries.keys bs := by
      intro key
      rw [← not_imp_not, ← Entries.lookup_eq_none_iff, ← Entries.lookup_eq_none_iff]
      refine fun absent => Option.eq_none_iff_forall_ne_some.2 fun a ha => ?_
      obtain ⟨b, hb, -⟩ := h key a ha
      cases absent.symm.trans hb
    cases ha : as.lookup key with
    | some a =>
      obtain ⟨b, hb, same⟩ := h key a ha
      rw [hb]
      exact .some same
    | none =>
      -- As many keys as in the second object leave none over for it alone.
      have keys := (keys_perm_of_subset unique size subset).mem_iff (a := key)
      rw [Entries.lookup_eq_none_iff.2 (mt keys.2 (Entries.lookup_eq_none_iff.1 ha))]
      exact .none
  · have here := h key
    rw [ha] at here
    cases hb : bs.lookup key with
    | none =>
      rw [hb] at here
      cases here
    | some b =>
      rw [hb, Option.rel_some_some] at here
      exact ⟨b, rfl, here⟩

/-! ## All nodes -/

/-- Nodes are equal if their faces agree and their children under every key are equal. -/
theorem same_iff_children (unique : a.keys.Nodup) : a.same b = true ↔ a.face.Agree b.face ∧
    ∀ key, Option.Rel (fun x y => x.same y = true) (a.child? key) (b.child? key) := by
  cases a with
  | array as =>
    cases b with
    | array bs =>
      rw [same, sameItems_iff, ← forall₂_iff_child?]
      exact ⟨fun h => ⟨congrArg Face.array h.length_eq, h⟩, And.right⟩
    | _ => simp [same, face, Face.Agree]
  | object as =>
    cases b with
    | object bs =>
      have unique : (Entries.keys as).Nodup := unique
      have size : (object as).face.Agree (object bs).face ↔ as.length = bs.length := by
        simp [face, Face.Agree]
      rw [same_object_iff unique, size]
      rfl
    | _ => simp [same, face, Face.Agree]
  | _ => cases b <;> simp [same, face, Face.Agree, child?]

/-- What is related wherever a path leads is related here, and again below every key. -/
theorem forall_path_iff :
    (∀ path : Path, Option.Rel R (path.resolve? a) (path.resolve? b)) ↔ R a b ∧
      ∀ key, Option.Rel (fun x y => ∀ path : Path, Option.Rel R (path.resolve? x) (path.resolve? y))
        (a.child? key) (b.child? key) := by
  have below (x? y? : Option Tree) :
      (∀ path : Path, Option.Rel R (x?.bind path.resolve?) (y?.bind path.resolve?)) ↔
        Option.Rel (fun x y => ∀ path : Path, Option.Rel R (path.resolve? x) (path.resolve? y))
          x? y? := by
    cases x? with
    | none =>
      cases y? with
      | none => simp
      | some y => exact iff_of_false (fun h => nomatch h []) nofun
    | some x =>
      cases y? with
      | none => exact iff_of_false (fun h => nomatch h []) nofun
      | some y => simp
  constructor
  · intro h
    have here : Option.Rel R (some a) (some b) := h []
    refine ⟨Option.rel_some_some.1 here, fun key => (below _ _).1 fun path => ?_⟩
    simpa only [Path.resolve?_cons] using h (key :: path)
  · rintro ⟨here, children⟩ (_ | ⟨key, path⟩)
    · exact .some here
    · rw [Path.resolve?_cons, Path.resolve?_cons]
      exact (below _ _).2 (children key) path

/-- Equal trees show faces that agree wherever a path leads, and no path leads somewhere in one of
them alone. -/
theorem same_iff_faces (unique : a.WellKeyed) : a.same b = true ↔
    ∀ path : Path,
      Option.Rel (fun x y => x.face.Agree y.face) (path.resolve? a) (path.resolve? b) := by
  induction a using induction_child generalizing b with
  | step a ih =>
    rw [same_iff_children unique.nodup_keys, forall_path_iff]
    refine and_congr_right fun _ => forall_congr' fun key => ?_
    exact rel_congr fun x y hx _ => ih key x hx (unique.child? hx)

end Tree

end DocQuery
