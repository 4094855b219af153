import DocQuery.Proofs.Walk.Replay
import DocQuery.Proofs.Walk.StandIns

/-!
# What a query selects

* `selected_iff_split`: a query without return marks selects the paths that its elements split;
* `marked_selection`: with return marks the selection differs in one thing, that a marked place
  replaces what is matched below it.

Both are read off `mem_select_iff`, which holds for every query.
-/

namespace DocQuery

/-! ## Markers left out -/

/-- The same pattern with no marker. -/
def Pattern.unmarked : Pattern → Pattern
  | .test keys value _ => .test keys value none
  | p => p

def Element.unmarked : Element → Element
  | .key name => .key name
  | .pattern p => .pattern p.unmarked

namespace Element

theorem returns_unmarked (e : Element) : e.unmarked.returns = false := by
  cases e with
  | key => rfl
  | pattern p => cases p <;> rfl

theorem unmarked_unmarked (e : Element) : e.unmarked.unmarked = e.unmarked := by
  cases e with
  | key => rfl
  | pattern p => cases p <;> rfl

theorem isSkip_unmarked (e : Element) : e.unmarked.isSkip = e.isSkip := by
  cases e with
  | key => rfl
  | pattern p => cases p <;> rfl

theorem keysAt_unmarked (e : Element) (node : Tree) : e.unmarked.keysAt node = e.keysAt node := by
  cases e with
  | key => rfl
  | pattern p =>
    cases p with
    | test keys => cases keys <;> rfl
    | _ => rfl

end Element

namespace Query

/-- The query with all markers removed. -/
def unmarked (q : Query) : Query :=
  q.map Element.unmarked

/-- The return marks of the elements that take keys. -/
def returns (q : Query) : List Bool :=
  (q.steps false).map (·.element.returns)

/-- The elements cut `path` into shares, and a return-marked one takes the key that `place` ends
with, above the end of `path`. -/
def Marks (q : Query) (root : Tree) (path place : Path) : Prop :=
  ∃ shares, Split (inTree root) (q.steps false) path shares ∧ Share.Marked shares place

variable {q q' : Query}

theorem not_returns_of_mem_unmarked : ∀ e ∈ q.unmarked, e.returns = false := by
  intro e he
  obtain ⟨e, -, rfl⟩ := List.mem_map.1 he
  exact e.returns_unmarked

theorem alike_steps (h : q'.unmarked = q.unmarked) (skipping : Bool) :
    List.Forall₂ Step.Alike (q'.steps skipping) (q.steps skipping) := by
  have each : List.Forall₂ (fun e' e => e'.unmarked = e.unmarked) q' q := by
    rw [← List.forall₂_map_right_iff, ← List.forall₂_map_left_iff, List.forall₂_eq_eq_eq]
    exact h
  have skips (e' e : Element) (he : e'.unmarked = e.unmarked) : e'.isSkip = e.isSkip := by
    rw [← e'.isSkip_unmarked, he, e.isSkip_unmarked]
  refine (forall₂_steps skips each skipping).imp fun s t same => ⟨same.1, fun node => ?_⟩
  rw [← s.element.keysAt_unmarked, same.2, t.element.keysAt_unmarked]

end Query

variable {q : Query} {root last : Tree} {path : Path}

theorem splits_alike {ss ts : List Step} (h : List.Forall₂ Step.Alike ss ts) :
    Splits (inTree root) ss path ↔ Splits (inTree root) ts path := by
  refine splits_congr (h.imp fun s t alike => ⟨alike.afterSkip, fun before key _ => ?_⟩)
  simp only [inTree, ← Element.mem_keysAt_iff, alike.keysAt]

/-! ## Selections -/

theorem mem_select_iff : ⟨path, last⟩ ∈ root.select q ↔ path.resolve? root = some last ∧
    (Splits (inTree root) (q.steps false) path ∧ (∀ place, ¬ q.Marks root path place) ∨
      ∃ below, q.Marks root below path) := by
  rw [Tree.select_eq_reports, Walk.mem_reports_iff]
  refine and_congr_right fun _ => or_congr ?_ ?_
  · constructor
    · rintro ⟨-, shares, h, none⟩
      refine ⟨⟨shares, h⟩, ?_⟩
      rintro place ⟨shares', h', marked⟩
      obtain rfl := h'.unique h
      have stands : place ∈ Share.standIns false shares' := Share.mem_standIns_iff.2 (.inr marked)
      rw [none] at stands
      cases stands
    · rintro ⟨⟨shares, h⟩, none⟩
      refine ⟨rfl, shares, h, List.eq_nil_iff_forall_not_mem.2 fun place stands => ?_⟩
      obtain ⟨no, -⟩ | marked := Share.mem_standIns_iff.1 stands
      · cases no
      · exact none place ⟨shares, h, marked⟩
  · constructor
    · rintro ⟨below, _, ⟨shares, h, rfl⟩, stands⟩
      obtain ⟨no, -⟩ | marked := Share.mem_standIns_iff.1 stands
      · cases no
      · exact ⟨below, shares, h, marked⟩
    · rintro ⟨below, shares, h, marked⟩
      exact ⟨below, _, ⟨shares, h, rfl⟩, Share.mem_standIns_iff.2 (.inr marked)⟩

theorem not_marks_of_unmarked (unmarked : ∀ e ∈ q, e.returns = false) {place : Path} :
    ¬ q.Marks root path place := by
  rintro ⟨_, h, before, s, after, rfl, -, marked, -⟩
  have taking : s.toStep ∈ q.steps false := by simp [← h.steps_eq]
  rw [unmarked _ (Query.mem_of_mem_steps taking)] at marked
  cases marked

theorem mem_select_of_unmarked (unmarked : ∀ e ∈ q, e.returns = false) :
    ⟨path, last⟩ ∈ root.select q ↔
      path.resolve? root = some last ∧ Splits (inTree root) (q.steps false) path := by
  simp only [mem_select_iff, not_marks_of_unmarked unmarked, not_false_eq_true, implies_true,
    and_true, exists_false, or_false]

theorem mem_paths_of_unmarked (unmarked : ∀ e ∈ q, e.returns = false) :
    path ∈ (root.select q).map Match.path ↔ Splits (inTree root) (q.steps false) path := by
  constructor
  · intro h
    obtain ⟨m, hm, rfl⟩ := List.mem_map.1 h
    exact ((mem_select_of_unmarked unmarked).1 hm).2
  · rintro ⟨shares, split⟩
    obtain ⟨last, hl⟩ := split.resolves
    exact List.mem_map.2 ⟨_, (mem_select_of_unmarked unmarked).2 ⟨hl, shares, split⟩, rfl⟩

theorem nodup_paths_select (root : Tree) (q : Query) : ((root.select q).map Match.path).Nodup := by
  rw [Tree.select_eq_reports]
  exact Walk.nodup_paths_reports _ _ _ _

/-- **Selection is exact.** Without return marks a query selects, each once, the paths that its
elements split, with the nodes they lead to. Skips at the end add nothing, and a query of nothing
but skips selects the root. -/
theorem selected_iff_split (root : Tree) (q : Query) (unmarked : ∀ e ∈ q, e.returns = false) :
    (∀ path last, ⟨path, last⟩ ∈ root.select q ↔ path.resolve? root = some last ∧
      ∃ shares, Split (inTree root) (q.steps false) path shares) ∧
    ((root.select q).map Match.path).Nodup ∧
    (∀ skips : Query, (∀ e ∈ skips, e.isSkip = true) → root.select (q ++ skips) = root.select q) ∧
    ((∀ e ∈ q, e.isSkip = true) → root.select q = [⟨[], root⟩]) := by
  refine ⟨fun path last => mem_select_of_unmarked unmarked, nodup_paths_select root q, ?_, ?_⟩
  · intro skips h
    rw [Tree.select_eq_reports, Tree.select_eq_reports, Query.steps_append_skips h]
  · intro h
    rw [Tree.select_eq_reports, Query.steps_eq_nil (List.dropWhile_eq_nil_iff.2 h),
      Walk.reports_nil]
    rfl

theorem selected_below_skip :
    (∀ e ∈ ([.skip, .key "b"] : Query), e.returns = false) ∧
      ⟨["a", "b"], .bool true⟩ ∈ (Tree.object [("a", .object [("b", .bool true)])]).select
        [.skip, .key "b"] := by
  have unmarked : ∀ e ∈ ([.skip, .key "b"] : Query), e.returns = false := by decide
  refine ⟨unmarked, ((selected_iff_split _ _ unmarked).1 _ _).2 ⟨rfl, ?_⟩⟩
  refine splits_cons_cons.2 (.inr ⟨rfl, ?_, splits_cons_cons.2 (.inl ⟨?_, splits_nil.2 rfl⟩)⟩)
  · rintro ⟨_, _, _, _, key, _⟩
    exact absurd key (by decide)
  · exact ⟨.object [("b", .bool true)], rfl, .bool true, rfl, rfl, rfl⟩

/-- **A marked place replaces what is matched below it, and nothing else changes.** The matches are
those of the query without its markers. One is selected if no place above it is marked, and a place
is selected if it is marked above some match. What is selected comes after everything selected below
it. Brackets and a mark on the last element do not count. -/
theorem marked_selection (root : Tree) (q : Query) :
    (∀ path last, ⟨path, last⟩ ∈ root.select q ↔ path.resolve? root = some last ∧
      (path ∈ (root.select q.unmarked).map Match.path ∧ (∀ place, ¬ q.Marks root path place) ∨
        ∃ below ∈ (root.select q.unmarked).map Match.path, q.Marks root below path)) ∧
    ((root.select q).map Match.path).Nodup ∧
    (root.select q).Pairwise (fun a b => ¬ a.path <+: b.path) ∧
    ∀ q' : Query, q'.unmarked = q.unmarked → q'.returns.dropLast = q.returns.dropLast →
      root.select q' = root.select q := by
  have matched (path : Path) : path ∈ (root.select q.unmarked).map Match.path ↔
      Splits (inTree root) (q.steps false) path := by
    rw [mem_paths_of_unmarked Query.not_returns_of_mem_unmarked]
    refine splits_alike (Query.alike_steps ?_ false)
    simp [Query.unmarked, Element.unmarked_unmarked]
  refine ⟨fun path last => ?_, nodup_paths_select root q, ?_, fun q' alike marks => ?_⟩
  · simp only [mem_select_iff, matched]
    refine and_congr_right fun _ => or_congr_right (exists_congr fun below => ?_)
    exact (and_iff_right_of_imp fun ⟨shares, split, _⟩ => ⟨shares, split⟩).symm
  · rw [Tree.select_eq_reports]
    exact Walk.pairwise_reports _ _ _ _
  · rw [Tree.select_eq_reports, Tree.select_eq_reports]
    exact Walk.reports_congr (Query.alike_steps alike false) marks

/-- Of the query `{user}>|` the user is selected, and of `[user]>|` what stands below. -/
example :
    let root : Tree := .object [("user", .object [("name", .string "ann"), ("age", .null)])]
    let marked (marker : Marker) : Query :=
      [.pattern (.test (.key "user") none (some marker)), .pattern .wildcard]
    (root.select (marked .curly)).map Match.path = [["user"]] ∧
      (root.select (marked .bracket)).map Match.path = [["user", "name"], ["user", "age"]] := by
  cbv

end DocQuery
