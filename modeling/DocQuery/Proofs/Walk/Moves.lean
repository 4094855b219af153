import DocQuery.Proofs.Query.Split
import DocQuery.Walk.Match

/-!
# Where a walk goes

From a node the guided walk moves to the children whose keys the next element takes, and after a skip
to the other containers. `moves` lists these children in order.

* `mem_keysAt_iff`: the keys that an element has at a node are those that it takes there;
* `mem_moves_iff`: which children a walk moves to, and what is still to be taken below each;
* `nodup_keys_moves`: no child is entered twice.
-/

namespace DocQuery

namespace Tree

theorem mem_keys_of_child? {t child : Tree} {key : String} (h : t.child? key = some child) :
    key ∈ t.keys := by
  cases t with
  | array items =>
    obtain ⟨i, hi, hc⟩ := Option.bind_eq_some_iff.1 h
    obtain ⟨lt, -⟩ := List.getElem?_eq_some_iff.1 hc
    rw [Index.ofKey?_eq_some_iff.1 hi, keys, children, keys_numbered]
    exact List.mem_map_of_mem (by simpa using lt)
  | object entries =>
    obtain ⟨before, after, rfl, -⟩ := List.lookup_eq_some_iff.1 h
    simp [keys, children]
  | _ => simp [child?] at h

theorem mem_keys_iff {t : Tree} {key : String} :
    key ∈ t.keys ↔ ∃ child, t.child? key = some child := by
  refine ⟨fun h => ?_, fun ⟨_, h⟩ => mem_keys_of_child? h⟩
  cases t with
  | array items =>
    rw [keys, children, keys_numbered, List.mem_map] at h
    obtain ⟨i, hi, rfl⟩ := h
    have lt : i < items.length := by simpa using hi
    exact ⟨items[i], by rw [child?, Index.ofKey?_key, Option.bind_some, List.getElem?_eq_getElem lt]⟩
  | object entries =>
    rw [← Option.ne_none_iff_exists', child?, ne_eq, Entries.lookup_eq_none_iff]
    exact not_not_intro h
  | _ => simp [keys, children] at h

theorem isContainer_of_child? {t child : Tree} {key : String} (h : t.child? key = some child) :
    t.isContainer = true := by
  cases t with
  | array | object => rfl
  | _ => cases h

/-- A path that leads down from a node begins in a container. -/
theorem isContainer_of_resolve? {t node : Tree} {key : String} {path : Path}
    (h : Path.resolve? (key :: path) t = some node) : t.isContainer = true := by
  rw [Path.resolve?_cons, Option.bind_eq_some_iff] at h
  obtain ⟨child, hc, -⟩ := h
  exact isContainer_of_child? hc

theorem isContainer_eq_false_of_isPrimitive {t : Tree} (h : t.isPrimitive = true) :
    t.isContainer = false := by
  cases t <;> first | rfl | cases h

/-- What holds of a node when it holds of its children holds of every node. -/
theorem induction_child {motive : Tree → Prop}
    (step : ∀ t, (∀ key child, t.child? key = some child → motive child) → motive t) (t : Tree) :
    motive t :=
  step t fun _ child _ => induction_child step child
  termination_by sizeOf t
  decreasing_by exact sizeOf_child_lt ‹_›

end Tree

namespace Element

theorem mem_candidates_iff {e : Element} {node child : Tree} {key : String}
    (h : node.child? key = some child) : key ∈ e.candidates node ↔ e.matchesKey key = true := by
  have known := Tree.mem_keys_of_child? h
  have one (name : String) : key ∈ [name] ↔ (name == key) = true := by
    rw [List.mem_singleton, beq_iff_eq, eq_comm]
  cases e with
  | key name => exact one name
  | pattern p =>
    cases p with
    | literal name => exact one name
    | skip => simp [candidates, matchesKey, Pattern.candidates, Pattern.matchesKey]
    | test keys value marker =>
      cases keys with
      | key name => exact one name
      | options names => simp [candidates, matchesKey, Pattern.candidates, Pattern.matchesKey]
      | wildcard | primitive =>
        simp [candidates, matchesKey, Pattern.candidates, Pattern.matchesKey, known]

theorem mem_keysAt_iff {e : Element} {node : Tree} {key : String} :
    key ∈ (e.keysAt node).keys ↔ e.Takes node key := by
  simp only [keysAt, KeySet.mem_ofList, List.mem_filter, Option.any_eq_true, Takes]
  constructor
  · rintro ⟨hk, child, hc, hv⟩
    exact ⟨child, hc, (mem_candidates_iff hc).1 hk, hv⟩
  · rintro ⟨child, hc, hk, hv⟩
    exact ⟨(mem_candidates_iff hc).2 hk, child, hc, hv⟩

end Element

namespace Walk

theorem mem_passedKeys_iff {node : Tree} {taken : KeySet} {key : String} :
    key ∈ (passedKeys node taken).keys ↔
      (∃ child, node.child? key = some child ∧ child.isContainer = true) ∧ key ∉ taken.keys := by
  simp only [passedKeys, KeySet.mem_diff, KeySet.mem_ofList, List.mem_filter, Option.any_eq_true]
  constructor
  · rintro ⟨⟨-, h⟩, hn⟩
    exact ⟨h, hn⟩
  · rintro ⟨⟨child, hc, h⟩, hn⟩
    exact ⟨⟨Tree.mem_keys_of_child? hc, child, hc, h⟩, hn⟩

/-! ## Moves -/

/-- One step of a walk, to the child under `key`. -/
structure Move where
  key : String
  child : Tree
  /-- What still has to take a key below the child. -/
  steps : List Step
  /-- A return-marked element took the child. -/
  marked : Bool

/-- The moves to the children of `node` under `keys`. -/
def enter (node : Tree) (keys : List String) (steps : List Step) (marked : Bool) : List Move :=
  keys.filterMap fun key => (node.child? key).map fun child => ⟨key, child, steps, marked⟩

/-- First to what the next element takes. After a skip also to the other containers, where the same
element comes next. -/
def moves (step : Step) (rest : List Step) (node : Tree) : List Move :=
  let taken := step.element.keysAt node
  enter node taken.keys rest step.element.returns ++
    if step.afterSkip then enter node (passedKeys node taken).keys (step :: rest) false else []

variable {node : Tree} {key : String} {keys : List String} {step : Step} {steps rest : List Step}
  {marked : Bool} {m : Move}

theorem enter_cons_of_none (h : node.child? key = none) :
    enter node (key :: keys) steps marked = enter node keys steps marked := by
  simp [enter, h]

theorem enter_cons_of_some {child : Tree} (h : node.child? key = some child) :
    enter node (key :: keys) steps marked =
      ⟨key, child, steps, marked⟩ :: enter node keys steps marked := by
  simp [enter, h]

theorem mem_enter_iff : m ∈ enter node keys steps marked ↔
    m.key ∈ keys ∧ node.child? m.key = some m.child ∧ m.steps = steps ∧ m.marked = marked := by
  simp only [enter, List.mem_filterMap, Option.map_eq_some_iff]
  constructor
  · rintro ⟨key, hk, child, hc, rfl⟩
    exact ⟨hk, hc, rfl, rfl⟩
  · rintro ⟨hk, hc, rfl, rfl⟩
    exact ⟨m.key, hk, m.child, hc, rfl⟩

theorem mem_moves_iff : m ∈ moves step rest node ↔ node.child? m.key = some m.child ∧
    (step.element.Takes node m.key ∧ m.steps = rest ∧ m.marked = step.element.returns ∨
      step.afterSkip = true ∧ ¬ step.element.Takes node m.key ∧ m.child.isContainer = true ∧
        m.steps = step :: rest ∧ m.marked = false) := by
  simp only [moves, List.mem_append, List.mem_ite_nil_right, mem_enter_iff, mem_passedKeys_iff,
    Element.mem_keysAt_iff]
  constructor
  · rintro (⟨ht, hc, hs, hm⟩ | ⟨skip, ⟨⟨child, hc', hb⟩, hn⟩, hc, hs, hm⟩)
    · exact ⟨hc, .inl ⟨ht, hs, hm⟩⟩
    · obtain rfl := Option.some.inj (hc.symm.trans hc')
      exact ⟨hc, .inr ⟨skip, hn, hb, hs, hm⟩⟩
  · rintro ⟨hc, ⟨ht, hs, hm⟩ | ⟨skip, hn, hb, hs, hm⟩⟩
    · exact .inl ⟨ht, hc, hs, hm⟩
    · exact .inr ⟨skip, ⟨⟨m.child, hc, hb⟩, hn⟩, hc, hs, hm⟩

theorem keys_enter_sublist : ((enter node keys steps marked).map Move.key).Sublist keys := by
  induction keys with
  | nil => exact .slnil
  | cons key keys ih =>
    cases hc : node.child? key with
    | none =>
      rw [enter_cons_of_none hc]
      exact .cons _ ih
    | some child =>
      rw [enter_cons_of_some hc]
      exact .cons_cons _ ih

theorem nodup_keys_moves : ((moves step rest node).map Move.key).Nodup := by
  rw [moves, List.map_append, List.nodup_append]
  refine ⟨keys_enter_sublist.nodup (KeySet.nodup _), ?_, ?_⟩
  · split
    · exact keys_enter_sublist.nodup (KeySet.nodup _)
    · exact List.nodup_nil
  · intro a ha b hb
    rintro rfl
    split at hb
    · exact (mem_passedKeys_iff.1 (keys_enter_sublist.subset hb)).2 (keys_enter_sublist.subset ha)
    · cases hb

theorem sizeOf_child_of_mem_moves (h : m ∈ moves step rest node) : sizeOf m.child < sizeOf node :=
  Tree.sizeOf_child_lt (mem_moves_iff.1 h).1

end Walk

end DocQuery
