import DocQuery.Proofs.Building

/-!
# Writes at places apart

Two paths of which neither goes on from the other part at some node (`Tree.Apart`). Up to there a
build makes the same, whichever comes first, and from there the two fill different slots. So neither
can be in the way of the other (`failure_descend_descend`), and both orders end in the same tree, up
to the order of entries (`reordered_descend`).

* `independent_assigns_commute`: both, for two values that are put at the ends of such paths.
-/

namespace DocQuery

namespace Tree

variable {p r : Path}

/-- A build fails in the same way after a change at a place apart. -/
theorem failure_descend_descend (apart : Apart p r) (f g : Tree → Tree) (t : Tree) :
    (descend f p (descend g r t).1).2 = (descend f p t).2 := by
  induction apart generalizing t with
  | @here key key' differ p r =>
    cases hs' : t.slot? key' with
    | none => rw [descend_of_no_slot hs']
    | some child' =>
      rw [descend_of_slot hs']
      have kept := slot?_fill_of_ne differ t (descend g r child').1
      cases hs : t.slot? key with
      | none =>
        rw [hs] at kept
        rw [descend_of_no_slot kept, descend_of_no_slot hs, obstacle_fill]
      | some child =>
        rw [hs] at kept
        rw [descend_of_slot kept, descend_of_slot hs]
  | within key _ ih =>
    cases hs : t.slot? key with
    | none => rw [descend_of_no_slot hs]
    | some child =>
      have slot := Option.isSome_of_mem hs
      rw [descend_of_slot hs, descend_of_slot (slot?_fill slot _), descend_of_slot hs, ih]

/-- Where the paths part two slots are filled, and above that node both change the same child. -/
theorem reordered_descend (apart : Apart p r) (f g : Tree → Tree) (t : Tree) :
    (descend g r (descend f p t).1).1.Reordered (descend f p (descend g r t).1).1 := by
  induction apart generalizing t with
  | @here key key' differ p r =>
    have kept (child : Tree) := slot?_fill_of_ne differ t child
    have kept' (child : Tree) := slot?_fill_of_ne (Ne.symm differ) t child
    cases hs : t.slot? key with
    | none =>
      cases hs' : t.slot? key' with
      | none =>
        simp only [descend_of_no_slot hs, descend_of_no_slot hs']
        exact .refl t
      | some child' =>
        simp only [descend_of_no_slot hs, descend_of_slot hs',
          descend_of_no_slot ((kept _).trans hs)]
        exact .refl _
    | some child =>
      cases hs' : t.slot? key' with
      | none =>
        simp only [descend_of_no_slot hs', descend_of_slot hs,
          descend_of_no_slot ((kept' _).trans hs')]
        exact .refl _
      | some child' =>
        simp only [descend_of_slot hs, descend_of_slot hs',
          descend_of_slot ((kept _).trans hs), descend_of_slot ((kept' _).trans hs')]
        exact fill_comm differ t _ _
  | within key _ ih =>
    cases hs : t.slot? key with
    | none =>
      simp only [descend_of_no_slot hs]
      exact .refl t
    | some child =>
      have slot := Option.isSome_of_mem hs
      rw [descend_of_slot hs, descend_of_slot hs, descend_of_slot (slot?_fill slot _),
        descend_of_slot (slot?_fill slot _)]
      simp only [fill_fill]
      exact (replaced_fill slot _ _).reordered (ih child)

end Tree

/-- **Writes at places apart commute.** Take two paths of which neither is a prefix of the other,
and put one value at the end of each. Either write fails or succeeds in the same way whether it
comes first or second, and both orders end in the same tree, up to the order of entries. A write
that fails leaves the tree to the other as it was. -/
theorem independent_assigns_commute (root : Tree) (p r : Path) (apart : ¬ p <+: r)
    (apart' : ¬ r <+: p) (v w : Tree) :
    ((root.assign r w).1.assign p v).2 = (root.assign p v).2 ∧
    ((root.assign p v).1.assign r w).2 = (root.assign r w).2 ∧
    ((root.assign p v).1.assign r w).1.Reordered ((root.assign r w).1.assign p v).1 := by
  have parted := Tree.Apart.of_not_isPrefix apart apart'
  refine ⟨?_, ?_, Tree.reordered_descend parted _ _ root⟩
  · simp only [Tree.assign, Tree.alter, Tree.failure_descend_descend parted]
  · simp only [Tree.assign, Tree.alter, Tree.failure_descend_descend parted.symm]

/-- What the two paths share is not there yet, so it is built by the write that comes first. -/
theorem independent_assigns_commute_in_fresh_object :
    ¬ ["a", "b"] <+: ["a", "c"] ∧ ¬ ["a", "c"] <+: ["a", "b"] ∧
      ((default : Tree).assign ["a", "b"] .null).1.assign ["a", "c"] (.bool true) =
        (.object [("a", .object [("b", .null), ("c", .bool true)])], none) ∧
      ((default : Tree).assign ["a", "c"] (.bool true)).1.assign ["a", "b"] .null =
        (.object [("a", .object [("c", .bool true), ("b", .null)])], none) ∧
      (((default : Tree).assign ["a", "b"] .null).1.assign ["a", "c"] (.bool true)).1.Reordered
        (((default : Tree).assign ["a", "c"] (.bool true)).1.assign ["a", "b"] .null).1 := by
  have apart : ¬ ["a", "b"] <+: ["a", "c"] := by decide
  have apart' : ¬ ["a", "c"] <+: ["a", "b"] := by decide
  obtain ⟨-, -, same⟩ :=
    independent_assigns_commute default ["a", "b"] ["a", "c"] apart apart' .null (.bool true)
  exact ⟨apart, apart', rfl, rfl, same⟩

end DocQuery
