import DocQuery.Proofs.Walk.Lookup
import DocQuery.Proofs.Walk.Stopping
import Mathlib.Data.List.Flatten
import Mathlib.Data.List.Nodup

/-!
# The order of matches

The full walk goes in preorder. A guided walk comes to the places that it reports in an order of its
own: options are tried in the order in which they are named, after a skip the containers that the
next element did not take come last, and a return-marked node is reported after what lies below it.
Where a query has none of the three, its walk goes in preorder too.

* `Element.keysAt_sublist_keys`: the keys that are taken at a node stand in the order of the node;
* `Walk.reports_sublist_preorder`: so the reports of the guided walk stand in preorder;
* `select_sublist_descendants`: the matches come in the order of the full walk, and the first of
  them is the one that the full walk meets first.
-/

namespace DocQuery

/-! ## Elements that keep the order -/

namespace Element

/-- The element names the keys that it chooses from. -/
def isOptions : Element → Bool
  | .pattern (.test (.options _) _ _) => true
  | _ => false

/-- The element takes keys in the order in which the node has them, all at once, and no node that it
takes is reported after what lies below. -/
structure InOrder (e : Element) : Prop where
  notSkip : e.isSkip = false
  notOptions : e.isOptions = false
  unmarked : e.returns = false

variable {e : Element}

/-- An element without options tries a single key, or all keys of the node. -/
theorem candidates_of_not_isOptions (notOptions : e.isOptions = false) (node : Tree) :
    (e.candidates node).length ≤ 1 ∨ e.candidates node = node.keys := by
  cases e with
  | key => exact .inl (Nat.le_refl 1)
  | pattern p =>
    cases p with
    | literal => exact .inl (Nat.le_refl 1)
    | skip => exact .inl (Nat.zero_le 1)
    | test keys =>
      cases keys with
      | key => exact .inl (Nat.le_refl 1)
      | options => cases notOptions
      | wildcard | primitive => exact .inr rfl

theorem keysAt_sublist_keys (notOptions : e.isOptions = false) (node : Tree) :
    (e.keysAt node).keys.Sublist node.keys := by
  have tried := e.keysAt_sublist node
  obtain single | all := candidates_of_not_isOptions notOptions node
  · -- A single key is one of the node, or it is not taken.
    have known : (e.keysAt node).keys ⊆ node.keys := by
      intro key taken
      obtain ⟨child, found, -⟩ := mem_keysAt_iff.1 taken
      exact Tree.mem_keys_of_child? found
    cases taken : (e.keysAt node).keys with
    | nil => exact List.nil_sublist _
    | cons key more =>
      rw [taken] at known tried
      have short : (key :: more).length ≤ 1 := tried.length_le.trans single
      obtain rfl : more = [] := by simpa using short
      exact List.singleton_sublist.2 (known (.head _))
  · rwa [all] at tried

end Element

/-! ## Reports in preorder -/

namespace Walk

variable {e : Element} {q : Query} {rest : List Step} {node : Tree}

theorem flatMap_enter {α : Type} (f : Move → List α) (keys : List String) (marked : Bool) :
    (enter node keys rest marked).flatMap f = keys.flatMap fun key =>
      (node.child? key).elim [] fun child => f ⟨key, child, rest, marked⟩ := by
  induction keys with
  | nil => rfl
  | cons key keys ih =>
    rw [List.flatMap_cons, ← ih]
    cases found : node.child? key with
    | none => rw [enter_cons_of_none found, Option.elim_none, List.nil_append]
    | some child => rw [enter_cons_of_some found, Option.elim_some, List.flatMap_cons]

/-- Without a skip the walk goes to the children that the element takes and to no others. -/
theorem reports_cons_of_unmarked (unmarked : e.returns = false) :
    reports (⟨e, false⟩ :: rest) false false node =
      (e.keysAt node).keys.flatMap fun key => (node.child? key).elim [] fun child =>
        (reports rest false false child).map (Match.under key) := by
  simp [reports_cons, moves, unmarked, flatMap_enter]

/-- If the walk goes in preorder below each child, it does so below the node. -/
theorem reports_cons_sublist (inOrder : e.InOrder)
    (below : ∀ child, (reports rest false false child).Sublist (⟨[], child⟩ :: child.preorder)) :
    (reports (⟨e, false⟩ :: rest) false false node).Sublist node.preorder := by
  rw [reports_cons_of_unmarked inOrder.unmarked, Tree.preorder_eq]
  refine (List.Sublist.flatMap_right _ ?_).trans
    ((e.keysAt_sublist_keys inOrder.notOptions node).flatMap node.branch)
  intro key _
  cases found : node.child? key with
  | none => exact List.nil_sublist _
  | some child =>
    rw [Tree.branch_of_some found]
    exact (below child).map (Match.under key)

theorem steps_cons_of_inOrder (inOrder : e.InOrder) :
    Query.steps (e :: q) false = ⟨e, false⟩ :: q.steps false := by
  simp [Query.steps, inOrder.notSkip]

/-- The node itself is reported if the query is empty. -/
theorem reports_sublist (inOrder : ∀ e ∈ q, e.InOrder) (node : Tree) :
    (reports (q.steps false) false false node).Sublist (⟨[], node⟩ :: node.preorder) := by
  induction q generalizing node with
  | nil =>
    rw [Query.steps, reports_nil]
    exact List.singleton_sublist.2 (.head _)
  | cons e q ih =>
    obtain ⟨first, later⟩ := List.forall_mem_cons.1 inOrder
    rw [steps_cons_of_inOrder first]
    exact .cons _ (reports_cons_sublist first (ih later))

theorem reports_sublist_preorder (nonempty : q ≠ []) (inOrder : ∀ e ∈ q, e.InOrder) (node : Tree) :
    (reports (q.steps false) false false node).Sublist node.preorder := by
  cases q with
  | nil => exact absurd rfl nonempty
  | cons e q =>
    obtain ⟨first, later⟩ := List.forall_mem_cons.1 inOrder
    rw [steps_cons_of_inOrder first]
    exact reports_cons_sublist first (reports_sublist later)

end Walk

/-! ## The first match -/

/-- A part of a list without repetition is what is left when the other elements are taken out. -/
theorem eq_filter_of_sublist {α : Type} [DecidableEq α] {part whole : List α}
    (sub : part.Sublist whole) (unique : whole.Nodup) : part = whole.filter (· ∈ part) := by
  have kept : part.Sublist (whole.filter (· ∈ part)) := by
    have := sub.filter (· ∈ part)
    rwa [List.filter_eq_self.2 (by simp)] at this
  have same : part.Perm (whole.filter (· ∈ part)) := by
    apply (List.perm_ext_iff_of_nodup (sub.nodup unique) (unique.filter _)).2
    intro x
    simpa using fun h => sub.subset h
  exact kept.eq_of_length same.length_eq

/-- The head of such a part is the element of it that the whole list has first. -/
theorem head?_eq_some_iff_of_sublist {α : Type} {part whole : List α} (sub : part.Sublist whole)
    (unique : whole.Nodup) {x : α} : part.head? = some x ↔
      x ∈ part ∧ ∃ before after, whole = before ++ x :: after ∧ ∀ y ∈ before, y ∉ part := by
  classical
  conv_lhs => rw [eq_filter_of_sublist sub unique]
  simp [List.head?_filter, List.find?_eq_some_iff_append]

/-- **Without skips, options and return marks, matches come in document order.** If a query has at
least one element and none of these three, what it selects is met in this order by the full walk. So
the first match is the one that the full walk meets first, and there is none only if the walk meets
none. -/
theorem select_sublist_descendants (root : Tree) (q : Query) (unique : root.WellKeyed)
    (nonempty : q ≠ []) (inOrder : ∀ e ∈ q, e.InOrder) :
    (root.select q).Sublist root.descendants ∧
    (∀ m, root.selectFirst? q = some m ↔ m ∈ root.select q ∧
      ∃ before after, root.descendants = before ++ m :: after ∧
        ∀ earlier ∈ before, earlier ∉ root.select q) ∧
    (root.selectFirst? q = none ↔ ∀ m ∈ root.descendants, m ∉ root.select q) := by
  have sub : (root.select q).Sublist root.descendants := by
    rw [Tree.select_eq_reports, Tree.descendants_eq_preorder]
    exact Walk.reports_sublist_preorder nonempty inOrder root
  have once : root.descendants.Nodup := Tree.nodup_descendants unique
  rw [Tree.selectFirst?_eq_head?, List.head?_eq_none_iff, List.eq_nil_iff_forall_not_mem]
  refine ⟨sub, fun m => head?_eq_some_iff_of_sublist sub once, fun h m _ => h m, fun h m hm => ?_⟩
  exact h m (sub.subset hm) hm

/-- The full walk comes to the array and to the null in it before it comes to the only match. -/
theorem select_sublist_descendants_behind_null :
    (Tree.object [("a", .array [.null, .bool true])]).WellKeyed ∧
      ([.pattern .wildcard, .pattern .primitive] : Query) ≠ [] ∧
      (∀ e ∈ ([.pattern .wildcard, .pattern .primitive] : Query), e.InOrder) ∧
      ((Tree.object [("a", .array [.null, .bool true])]).select
        [.pattern .wildcard, .pattern .primitive]).Sublist
        (Tree.object [("a", .array [.null, .bool true])]).descendants ∧
      ∃ before after, (Tree.object [("a", .array [.null, .bool true])]).descendants =
        before ++ ⟨["a", "1"], .bool true⟩ :: after := by
  have unique : (Tree.object [("a", .array [.null, .bool true])]).WellKeyed := by
    simp [Tree.WellKeyed, Tree.WellKeyedEntries, Tree.WellKeyedItems]
  have nonempty : ([.pattern .wildcard, .pattern .primitive] : Query) ≠ [] := List.cons_ne_nil _ _
  have inOrder : ∀ e ∈ ([.pattern .wildcard, .pattern .primitive] : Query), e.InOrder :=
    List.forall_mem_cons.2 ⟨⟨rfl, rfl, rfl⟩, List.forall_mem_singleton.2 ⟨rfl, rfl, rfl⟩⟩
  have outer : ((Element.pattern .wildcard).keysAt
      (.object [("a", .array [.null, .bool true])])).keys = ["a"] := by decide
  have inner : ((Element.pattern .primitive).keysAt
      (.array [.null, .bool true])).keys = ["1"] := by decide
  have below : Walk.reports (Query.steps [.pattern .primitive] false) false false
      (.array [.null, .bool true]) = [⟨["1"], .bool true⟩] := by
    rw [Walk.steps_cons_of_inOrder ⟨rfl, rfl, rfl⟩, Walk.reports_cons_of_unmarked rfl, inner,
      Query.steps]
    simp only [Walk.reports_nil]
    rfl
  have first : (Tree.object [("a", .array [.null, .bool true])]).selectFirst?
      [.pattern .wildcard, .pattern .primitive] = some ⟨["a", "1"], .bool true⟩ := by
    rw [Tree.selectFirst?_eq_head?, Tree.select_eq_reports,
      Walk.steps_cons_of_inOrder ⟨rfl, rfl, rfl⟩, Walk.reports_cons_of_unmarked rfl, outer,
      List.flatMap_singleton]
    exact congrArg (fun found => (found.map (Match.under "a")).head?) below
  obtain ⟨sub, met, -⟩ := select_sublist_descendants _ _ unique nonempty inOrder
  obtain ⟨-, before, after, split, -⟩ := (met _).1 first
  exact ⟨unique, nonempty, inOrder, sub, before, after, split⟩

end DocQuery
