import DocQuery.Proofs.Selection
import DocQuery.Proofs.Tree.Reordered

/-!
# Selections do not depend on the order of entries

What an element takes at a place is said by keys and by comparisons, and neither shows the order of
entries. So a query is split by the same paths in reordered trees (`Reordered.inTree_eq`), and selects
the same places there, up to reordering and with the marked ones among them (`select_reordered`).
-/

namespace DocQuery

variable {a b node : Tree} {e : Element} {q : Query} {key : String} {path place : Path}

theorem Element.matchesValue_reordered (e : Element) (h : a.Reordered b) (unique : a.WellKeyed) :
    e.matchesValue a = e.matchesValue b := by
  cases e with
  | key => rfl
  | pattern p =>
    cases p with
    | literal | skip => rfl
    | test keys value marker =>
      cases keys with
      | primitive => exact h.isPrimitive_eq
      | _ =>
        cases value with
        | none => rfl
        | some asked => exact h.same_eq unique asked

theorem Element.Takes.reordered (takes : e.Takes a key) (h : a.Reordered b) (unique : a.WellKeyed) :
    e.Takes b key := by
  obtain ⟨child, hc, accepts, valued⟩ := takes
  obtain ⟨child', hc', below⟩ := h.child? unique hc
  refine ⟨child', hc', accepts, ?_⟩
  rw [← e.matchesValue_reordered below (unique.child? hc)]
  exact valued

namespace Tree.Reordered

theorem inTree_of_inTree (h : a.Reordered b) (unique : a.WellKeyed) (taken : inTree a e path key) :
    inTree b e path key := by
  obtain ⟨node, resolved, takes⟩ := taken
  obtain ⟨node', resolved', below⟩ := h.resolve? unique resolved
  exact ⟨node', resolved', takes.reordered below (unique.resolve? resolved)⟩

/-- Elements take the same keys at the same places. -/
theorem inTree_eq (h : a.Reordered b) (unique : a.WellKeyed) : inTree a = inTree b := by
  funext e before key
  apply propext
  constructor
  · exact h.inTree_of_inTree unique
  · exact h.symm.inTree_of_inTree (h.wellKeyed unique)

theorem marks_iff (h : a.Reordered b) (unique : a.WellKeyed) :
    q.Marks a path place ↔ q.Marks b path place := by
  rw [Query.Marks, Query.Marks, h.inTree_eq unique]

/-- What is selected in one of the trees is selected in the other, reordered. -/
theorem exists_mem_select (h : a.Reordered b) (unique : a.WellKeyed)
    (selected : ⟨path, node⟩ ∈ a.select q) :
    ∃ node', ⟨path, node'⟩ ∈ b.select q ∧ node.Reordered node' := by
  obtain ⟨resolved, reported⟩ := mem_select_iff.1 selected
  obtain ⟨node', resolved', below⟩ := h.resolve? unique resolved
  refine ⟨node', mem_select_iff.2 ⟨resolved', ?_⟩, below⟩
  simpa only [h.inTree_eq unique, h.marks_iff unique] using reported

theorem mem_paths_of_mem (h : a.Reordered b) (unique : a.WellKeyed)
    (selected : path ∈ (a.select q).map Match.path) : path ∈ (b.select q).map Match.path := by
  obtain ⟨⟨path, node⟩, hm, rfl⟩ := List.mem_map.1 selected
  obtain ⟨node', hm', -⟩ := h.exists_mem_select unique hm
  exact List.mem_map.2 ⟨_, hm', rfl⟩

end Tree.Reordered

/-- **The order of entries does not change what is selected.** In trees that differ in nothing else,
a query selects the same paths, each once, in some order; and what it selects under one path differs
in the order of entries at most. The elements, the values that they ask for and the markers are
arbitrary. -/
theorem select_reordered (a b : Tree) (q : Query) (h : a.Reordered b) (unique : a.WellKeyed) :
    ((a.select q).map Match.path).Perm ((b.select q).map Match.path) ∧
    ∀ path node node', ⟨path, node⟩ ∈ a.select q → ⟨path, node'⟩ ∈ b.select q →
      node.Reordered node' := by
  constructor
  · apply (List.perm_ext_iff_of_nodup (nodup_paths_select a q) (nodup_paths_select b q)).2
    intro path
    constructor
    · exact h.mem_paths_of_mem unique
    · exact h.symm.mem_paths_of_mem (h.wellKeyed unique)
  · intro path node node' selected selected'
    obtain ⟨other, found, below⟩ := h.exists_mem_select unique selected
    have resolved := (mem_select_iff.1 found).1
    rw [(mem_select_iff.1 selected').1] at resolved
    obtain rfl := Option.some.inj resolved
    exact below

/-- The query asks for a value whose entries stand in yet another order. -/
theorem select_reordered_valued :
    (Tree.object [("x", .object [("p", .null), ("q", .null)]), ("y", .null)]).Reordered
        (.object [("y", .null), ("x", .object [("q", .null), ("p", .null)])]) ∧
      (Tree.object [("x", .object [("p", .null), ("q", .null)]), ("y", .null)]).WellKeyed ∧
      (((Tree.object [("x", .object [("p", .null), ("q", .null)]), ("y", .null)]).select
        [.pattern (.test .wildcard (some (.object [("p", .null), ("q", .null)])) none)]).map
          Match.path).Perm
        (((Tree.object [("y", .null), ("x", .object [("q", .null), ("p", .null)])]).select
          [.pattern (.test .wildcard (some (.object [("p", .null), ("q", .null)])) none)]).map
            Match.path) := by
  have below : (Tree.object [("p", .null), ("q", .null)]).Reordered
      (.object [("q", .null), ("p", .null)]) := .entries (.swap _ _ _)
  have reordered := (Tree.Reordered.value [] "x" [("y", .null)] below).trans
    (.entries (.swap ("y", Tree.null) _ _))
  have unique :
      (Tree.object [("x", .object [("p", .null), ("q", .null)]), ("y", .null)]).WellKeyed := by
    simp [Tree.WellKeyed, Tree.WellKeyedEntries]
  exact ⟨reordered, unique, (select_reordered _ _ _ reordered unique).1⟩

end DocQuery
