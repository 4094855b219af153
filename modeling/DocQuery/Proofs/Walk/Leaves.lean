import DocQuery.Proofs.Selection
import DocQuery.Proofs.Walk.Preorder
import Mathlib.Data.List.Nodup

/-!
# The leaves of a tree

The query `Query.leaves` passes over containers until it comes to a primitive value. It reports the
leaves of a node before it goes down into the containers there, while the full walk takes the children
in their order. Both find the same leaves (`leaves_perm_descendants`), since either finds each place
once and the places are the same (`mem_select_leaves_iff`).
-/

namespace DocQuery

variable {root node : Tree} {key : String} {path : Path}

theorem Element.takes_primitive_iff : (Element.pattern .primitive).Takes node key ↔
    ∃ child, node.child? key = some child ∧ child.isPrimitive = true := by
  constructor
  · rintro ⟨child, hc, -, primitive⟩
    exact ⟨child, hc, primitive⟩
  · rintro ⟨child, hc, primitive⟩
    exact ⟨child, hc, rfl, primitive⟩

/-- There is nothing below a primitive value. -/
theorem eq_nil_of_isPrimitive {last : Tree} (primitive : node.isPrimitive = true)
    (h : path.resolve? node = some last) : path = [] := by
  cases path with
  | nil => rfl
  | cons key path =>
    have container := Tree.isContainer_of_resolve? h
    rw [Tree.isContainer_eq_false_of_isPrimitive primitive] at container
    cases container

/-- After a skip all keys are passed over up to the one that leads to a primitive value. -/
theorem splits_primitive_iff : Splits (inTree root) [⟨.pattern .primitive, true⟩] path ↔
    path ≠ [] ∧ ∃ last, path.resolve? root = some last ∧ last.isPrimitive = true := by
  induction path generalizing root with
  | nil => simp [not_splits_cons_nil]
  | cons key path ih =>
    cases hc : root.child? key with
    | none =>
      have missing : Path.resolve? (key :: path) root = none := by
        rw [Path.resolve?_cons, hc, Option.bind_none]
      constructor
      · rintro ⟨shares, split⟩
        obtain ⟨last, hl⟩ := split.resolves
        rw [missing] at hl
        cases hl
      · rintro ⟨-, last, hl, -⟩
        rw [missing] at hl
        cases hl
    | some child =>
      have below : Path.resolve? (key :: path) root = Path.resolve? path child := by
        rw [Path.resolve?_cons, hc, Option.bind_some]
      have takes : inTree root (.pattern .primitive) [] key ↔ child.isPrimitive = true := by
        rw [inTree_nil, Element.takes_primitive_iff, hc]
        simp
      rw [splits_cons_cons, inTree_after hc, splits_nil, ih, takes, below]
      constructor
      -- The path ends with this key, or the skip passes over it.
      · rintro (⟨primitive, rfl⟩ | ⟨-, -, -, last, hl, primitive⟩)
        · exact ⟨List.cons_ne_nil _ _, child, rfl, primitive⟩
        · exact ⟨List.cons_ne_nil _ _, last, hl, primitive⟩
      · rintro ⟨-, last, hl, primitive⟩
        by_cases leaf : child.isPrimitive = true
        · exact .inl ⟨leaf, eq_nil_of_isPrimitive leaf hl⟩
        · refine .inr ⟨rfl, leaf, ?_, last, hl, primitive⟩
          rintro rfl
          obtain rfl := Option.some.inj hl
          exact leaf primitive

theorem mem_select_leaves_iff : ⟨path, node⟩ ∈ root.select .leaves ↔
    path ≠ [] ∧ path.resolve? root = some node ∧ node.isPrimitive = true := by
  have unmarked : ∀ e ∈ Query.leaves, e.returns = false := by decide
  have steps : Query.leaves.steps false = [⟨.pattern .primitive, true⟩] := rfl
  rw [mem_select_of_unmarked unmarked, steps, splits_primitive_iff]
  constructor
  · rintro ⟨resolved, some, last, hl, primitive⟩
    rw [resolved] at hl
    obtain rfl := Option.some.inj hl
    exact ⟨some, resolved, primitive⟩
  · rintro ⟨some, resolved, primitive⟩
    exact ⟨resolved, some, node, resolved, primitive⟩

theorem mem_primitive_descendants_iff :
    ⟨path, node⟩ ∈ root.descendants.filter (·.node.isPrimitive) ↔
      path ≠ [] ∧ path.resolve? root = some node ∧ node.isPrimitive = true := by
  rw [Tree.descendants_eq_preorder, List.mem_filter, Tree.mem_preorder_iff, and_assoc]

/-- **The query for leaves and the full walk find the same leaves.** What the query selects is, in
another order, what the full walk visits and is primitive: every primitive leaf below the root, each
once. In a root that is a leaf neither finds anything. -/
theorem leaves_perm_descendants (root : Tree) (unique : root.WellKeyed) :
    (root.select .leaves).Perm (root.descendants.filter (·.node.isPrimitive)) ∧
    (∀ (path : Path) node, path ≠ [] → path.resolve? root = some node → node.isPrimitive = true →
      ⟨path, node⟩ ∈ root.select .leaves ∧
        ((root.select .leaves).map Match.path).count path = 1) ∧
    (root.isContainer = false → root.select .leaves = [] ∧ root.descendants = []) := by
  have once := nodup_paths_select root .leaves
  have same : (root.select .leaves).Perm (root.descendants.filter (·.node.isPrimitive)) := by
    apply (List.perm_ext_iff_of_nodup (List.Nodup.of_map Match.path once)
      ((Tree.nodup_descendants unique).filter _)).2
    intro m
    exact mem_select_leaves_iff.trans mem_primitive_descendants_iff.symm
  refine ⟨same, ?_, ?_⟩
  · intro path node some resolved primitive
    have selected := mem_select_leaves_iff.2 ⟨some, resolved, primitive⟩
    have listed : path ∈ (root.select .leaves).map Match.path := List.mem_map.2 ⟨_, selected, rfl⟩
    exact ⟨selected, List.count_eq_one_of_mem once listed⟩
  · intro leaf
    have none : root.descendants = [] := by
      rw [Tree.descendants_eq_preorder, Tree.preorder_of_not_isContainer leaf]
    rw [none] at same
    exact ⟨List.perm_nil.1 same, none⟩

theorem leaves_perm_descendants_mixed :
    (Tree.object [("a", .array [.null, .bool true]), ("b", .string "")]).WellKeyed ∧
      ((Tree.object [("a", .array [.null, .bool true]), ("b", .string "")]).select .leaves).Perm
        ((Tree.object [("a", .array [.null, .bool true]), ("b", .string "")]).descendants.filter
          (·.node.isPrimitive)) ∧
      ⟨["a", "1"], .bool true⟩ ∈
        (Tree.object [("a", .array [.null, .bool true]), ("b", .string "")]).select .leaves := by
  have unique : (Tree.object [("a", .array [.null, .bool true]), ("b", .string "")]).WellKeyed := by
    simp [Tree.WellKeyed, Tree.WellKeyedEntries, Tree.WellKeyedItems]
  obtain ⟨same, each, -⟩ := leaves_perm_descendants _ unique
  have resolved : Path.resolve? ["a", "1"]
      (.object [("a", .array [.null, .bool true]), ("b", .string "")]) = some (.bool true) := by
    rfl
  exact ⟨unique, same, (each _ _ (List.cons_ne_nil _ _) resolved rfl).1⟩

end DocQuery
