import DocQuery.Proofs.Walk.Replay
import Mathlib.Data.List.Nodup

/-!
# The full walk goes in preorder

`Tree.preorder` lists what is below a node: its children in order, and after each child what is
below that. The full walk keeps no such list, but at every turn its levels and its path determine
what is still to come (`Tour.pending`). A turn makes the first visit of that list, or none and
leaves the list as it is (`Turn.replays`), so whatever the handler does, the walk replays the
preorder (`full_eq_replay`).

* `Tree.mem_preorder_iff`: the places below the root, each with its node;
* `Tree.pairwise_preorder`: nothing comes before a place above it, so no place comes twice;
* `full_walk_preorder`: the calls of a full walk that is never stopped.
-/

namespace DocQuery

namespace Tree

variable {root child : Tree} {key : String} {path : Path} {m : Match}

/-- All nodes below the root, each before what it holds. -/
def preorder (root : Tree) : List Match :=
  root.keys.flatMap fun key =>
    match _h : root.child? key with
    | none => []
    | some child => ⟨[key], child⟩ :: child.preorder.map (Match.under key)
  termination_by sizeOf root
  decreasing_by exact sizeOf_child_lt ‹_›

/-- The child under `key` with all that is below it. -/
def branch (root : Tree) (key : String) : List Match :=
  match root.child? key with
  | none => []
  | some child => ⟨[key], child⟩ :: child.preorder.map (Match.under key)

theorem preorder_eq (root : Tree) : root.preorder = root.keys.flatMap root.branch := by
  rw [preorder]
  congr 1
  funext key
  rw [branch]
  split <;> simp [*]

theorem branch_of_none (missing : root.child? key = none) : root.branch key = [] := by
  rw [branch, missing]

theorem branch_of_some (found : root.child? key = some child) :
    root.branch key = ⟨[key], child⟩ :: child.preorder.map (Match.under key) := by
  rw [branch, found]

theorem mem_branch_iff : m ∈ root.branch key ↔ ∃ child, root.child? key = some child ∧
    (m = ⟨[key], child⟩ ∨ ∃ below ∈ child.preorder, m = below.under key) := by
  cases found : root.child? key with
  | none => simp [branch_of_none found]
  | some child => simp [branch_of_some found, eq_comm]

theorem preorder_of_not_isContainer (leaf : root.isContainer = false) : root.preorder = [] := by
  rw [preorder_eq]
  cases root with
  | array | object => cases leaf
  | _ => rfl

theorem mem_preorder_cons {node : Tree} : ⟨key :: path, node⟩ ∈ root.preorder ↔
    ∃ child, root.child? key = some child ∧
      (path = [] ∧ node = child ∨ ⟨path, node⟩ ∈ child.preorder) := by
  rw [preorder_eq, List.mem_flatMap]
  constructor
  · rintro ⟨k, -, h⟩
    obtain ⟨child, found, e | ⟨below, hb, e⟩⟩ := mem_branch_iff.1 h
    · cases e
      exact ⟨_, found, .inl ⟨rfl, rfl⟩⟩
    · cases e
      exact ⟨child, found, .inr hb⟩
  · rintro ⟨child, found, ⟨rfl, rfl⟩ | h⟩
    · exact ⟨key, mem_keys_of_child? found, mem_branch_iff.2 ⟨_, found, .inl rfl⟩⟩
    · exact ⟨key, mem_keys_of_child? found, mem_branch_iff.2 ⟨child, found, .inr ⟨_, h, rfl⟩⟩⟩

theorem path_of_mem_branch (h : m ∈ root.branch key) : ∃ rest, m.path = key :: rest := by
  obtain ⟨child, -, rfl | ⟨below, -, rfl⟩⟩ := mem_branch_iff.1 h
  · exact ⟨[], rfl⟩
  · exact ⟨below.path, rfl⟩

theorem path_ne_nil_of_mem_preorder (h : m ∈ root.preorder) : m.path ≠ [] := by
  rw [preorder_eq] at h
  obtain ⟨key, -, h⟩ := List.mem_flatMap.1 h
  obtain ⟨rest, first⟩ := path_of_mem_branch h
  rw [first]
  exact List.cons_ne_nil key rest

/-- What is below the root is every place but the root itself. -/
theorem mem_preorder_iff {node : Tree} :
    ⟨path, node⟩ ∈ root.preorder ↔ path ≠ [] ∧ path.resolve? root = some node := by
  induction path generalizing root with
  | nil =>
    constructor
    · intro h
      exact absurd rfl (path_ne_nil_of_mem_preorder h)
    · rintro ⟨h, -⟩
      exact absurd rfl h
  | cons key path ih =>
    rw [mem_preorder_cons, Path.resolve?_cons, Option.bind_eq_some_iff]
    simp only [ne_eq, reduceCtorEq, not_false_eq_true, true_and]
    refine exists_congr fun child => and_congr_right fun _ => ?_
    rw [ih]
    cases path with
    | nil => simp [Path.resolve?_nil, eq_comm]
    | cons k path => simp

/-- What stands above a place is a container. -/
theorem container_above {above rest : Path} {node : Tree}
    (h : ⟨above ++ key :: rest, node⟩ ∈ root.preorder) :
    ∃ parent, above.resolve? root = some parent ∧ parent.isContainer = true := by
  have resolved := (mem_preorder_iff.1 h).2
  rw [Path.resolve?_append, Option.bind_eq_some_iff] at resolved
  obtain ⟨parent, found, below⟩ := resolved
  exact ⟨parent, found, isContainer_of_resolve? below⟩

/-- Nothing comes before a place above it. -/
theorem pairwise_preorder (unique : root.WellKeyed) :
    root.preorder.Pairwise fun earlier later => ¬ later.path <+: earlier.path := by
  induction root using Tree.induction_child with
  | step root ih =>
    rw [preorder_eq, List.pairwise_flatMap]
    constructor
    · intro key _
      cases found : root.child? key with
      | none => simp [branch_of_none found]
      | some child =>
        rw [branch_of_some found, List.pairwise_cons, List.pairwise_map]
        constructor
        · intro m hm le
          obtain ⟨below, hb, rfl⟩ := List.mem_map.1 hm
          have empty : below.path = [] := List.prefix_nil.1 (List.cons_prefix_cons.1 le).2
          exact path_ne_nil_of_mem_preorder hb empty
        · refine (ih key child found (unique.child? found)).imp fun h le => h ?_
          exact (List.cons_prefix_cons.1 le).2
    · -- What is below different keys differs in the first key of its path.
      refine unique.nodup_keys.imp fun ne a ha b hb le => ne ?_
      obtain ⟨rest, firstA⟩ := path_of_mem_branch ha
      obtain ⟨rest', firstB⟩ := path_of_mem_branch hb
      rw [firstA, firstB] at le
      exact (List.cons_prefix_cons.1 le).1.symm

theorem nodup_paths_preorder (unique : root.WellKeyed) :
    (root.preorder.map Match.path).Nodup := by
  refine List.pairwise_map.2 ((pairwise_preorder unique).imp ?_)
  intro earlier later h same
  exact h (same ▸ List.prefix_rfl)

end Tree

namespace Walk

variable {σ : Type} {handler : Handler σ} {tour tour' : Tour σ} {path path' : Path}
  {outer levels : List Level} {node child : Tree} {key : String} {ahead : List String}

theorem length_pathTo (inside : outer.length ≤ path.length) :
    (pathTo path outer key).length = outer.length + 1 := by
  rw [pathTo, List.length_append, List.length_take_of_le inside, List.length_singleton]

theorem take_pathTo (inside : outer.length ≤ path.length) :
    (pathTo path outer key).take outer.length = path.take outer.length :=
  List.take_left' (List.length_take_of_le inside)

theorem below_under (path : Path) (key : String) :
    Match.below path ∘ Match.under key = Match.below (path ++ [key]) := by
  funext m
  simp [Match.below, Match.under]

/-- The visits to come on the levels. The path of the walk leads to all of them but the innermost.
-/
def pending (path : Path) : List Level → List Match
  | [] => []
  | level :: outer =>
    (level.ahead.flatMap level.node.branch).map (Match.below (path.take outer.length)) ++
      pending path outer

/-- Only the part of the path matters that leads to the innermost level. -/
theorem pending_congr {depth : Nat} (short : levels.length ≤ depth + 1)
    (same : path.take depth = path'.take depth) : pending path levels = pending path' levels := by
  induction levels with
  | nil => rfl
  | cons level outer ih =>
    have inside : outer.length ≤ depth := Nat.le_of_succ_le_succ short
    have part : path.take outer.length = path'.take outer.length := by
      have cut := congrArg (List.take outer.length) same
      rwa [List.take_take, List.take_take, Nat.min_eq_left inside] at cut
    rw [pending, pending, part, ih (Nat.le_succ_of_le inside)]

theorem pending_enter (arrived : path.length = levels.length) :
    pending path (.enter node :: levels) =
      node.preorder.map (Match.below path) ++ pending path levels := by
  rw [pending, List.take_of_length_le arrived.le, Tree.preorder_eq]
  rfl

theorem pending_skip (missing : node.child? key = none) :
    pending path (⟨node, key :: ahead⟩ :: outer) = pending path (⟨node, ahead⟩ :: outer) := by
  simp [pending, Tree.branch_of_none missing]

/-- What is to come begins with the child under the next key, and what is below that. -/
theorem pending_visit (inside : outer.length ≤ path.length)
    (found : node.child? key = some child) : pending path (⟨node, key :: ahead⟩ :: outer) =
      ⟨pathTo path outer key, child⟩ ::
        (child.preorder.map (Match.below (pathTo path outer key)) ++
          pending (pathTo path outer key) (⟨node, ahead⟩ :: outer)) := by
  have level : (pathTo path outer key).take outer.length = path.take outer.length :=
    take_pathTo inside
  have rest : pending path outer = pending (pathTo path outer key) outer :=
    pending_congr (Nat.le_succ _) level.symm
  simp only [pending, level, ← rest, List.flatMap_cons, Tree.branch_of_some found,
    List.map_append, List.map_cons, List.map_map, below_under, List.append_assoc,
    List.cons_append]
  rfl

namespace Tour

/-- The visits to come. -/
def pending (tour : Tour σ) : List Match :=
  Walk.pending tour.path tour.levels

/-- The path leads at least to the innermost level. -/
def Fits (tour : Tour σ) : Prop :=
  tour.levels.length ≤ tour.path.length + 1

theorem Turn.fits (turn : Turn handler tour tour') (fits : tour.Fits) : tour'.Fits := by
  cases turn with
  | leave =>
    rw [Fits, List.length_cons] at fits
    exact Nat.le_of_succ_le fits
  | skip => exact fits
  | visit =>
    have inside := Nat.le_of_succ_le_succ fits
    rw [Fits, length_pathTo inside, List.length_cons]
    exact Nat.le_succ _
  | enter =>
    have inside := Nat.le_of_succ_le_succ fits
    rw [Fits, length_pathTo inside]
    exact Nat.le_refl _

/-- A turn makes the first of the visits to come, or none. -/
theorem Turn.replays (turn : Turn handler tour tour') (fits : tour.Fits) :
    replay handler [] tour.pending tour.run = replay handler [] tour'.pending tour'.run := by
  cases turn with
  | leave => rfl
  | skip live missing => rw [pending, pending, pending_skip missing]
  | @visit node key ahead outer path run child live found last =>
    have inside : outer.length ≤ path.length := Nat.le_of_succ_le_succ fits
    rw [pending, pending, pending_visit inside found, replay_cons_of_live live, replay_append,
      List.nil_append]
    cases kind : child.isContainer with
    | false => rw [Tree.preorder_of_not_isContainer kind]; rfl
    | true =>
      have stopped := last kind
      rw [replay_of_terminated stopped, replay_of_terminated stopped]
  | @enter node key ahead outer path run child live found =>
    have inside : outer.length ≤ path.length := Nat.le_of_succ_le_succ fits
    rw [pending, pending, pending_visit inside found, replay_cons_of_live live, List.nil_append,
      pending_enter (length_pathTo inside)]

theorem finish_replays (handler : Handler σ) (tour : Tour σ) (fits : tour.Fits) :
    (tour.finish handler).run = replay handler [] tour.pending tour.run := by
  fun_induction tour.finish handler with
  | case1 tour ended =>
    obtain stopped | empty := next?_eq_none ended
    · rw [replay_of_terminated stopped]
    · rw [pending, empty]
      rfl
  | case2 tour next turn ih =>
    have turn := turn_of_next? turn
    rw [ih (turn.fits fits), turn.replays fits]

/-- A walk ends stopped or with nothing left to visit. -/
theorem finish_over (handler : Handler σ) (tour : Tour σ) :
    (tour.finish handler).run.state.terminated = true ∨ (tour.finish handler).levels = [] := by
  fun_induction tour.finish handler with
  | case1 tour ended => exact next?_eq_none ended
  | case2 tour next turn ih => exact ih

theorem finish_start (handler : Handler σ) (root : Tree) (memory : σ) :
    ((start root memory).finish handler).run = replay handler [] root.preorder ⟨.idle, memory⟩ := by
  have whole : (start root memory).pending = root.preorder := by
    have same : Match.below [] = id := rfl
    rw [pending, start, pending_enter rfl, same, List.map_id]
    exact List.append_nil _
  have fits : (start root memory).Fits := Nat.le_refl 1
  rw [finish_replays handler _ fits, whole]
  rfl

end Tour

theorem GoesOn.levels_finish (goesOn : GoesOn handler) (root : Tree) (memory : σ) :
    ((Tour.start root memory).finish handler).levels = [] := by
  have live : (replay handler [] root.preorder ⟨.idle, memory⟩).state.terminated = false :=
    goesOn.replay_live rfl
  obtain stopped | empty := Tour.finish_over handler (.start root memory)
  · rw [Tour.finish_start, live] at stopped
    cases stopped
  · exact empty

/-- Whatever the handler does, the full walk replays the preorder. -/
theorem full_eq_replay (handler : Handler σ) (root : Tree) (memory : σ) :
    full handler root memory = (replay handler [] root.preorder ⟨.idle, memory⟩).memory := by
  rw [full, Tour.finish_start]

end Walk

/-- The descendants are gathered in preorder. -/
theorem Tree.descendants_eq_preorder (root : Tree) : root.descendants = root.preorder := by
  rw [descendants, Walk.full_eq_replay, Walk.memory_replay_collector rfl]
  simp

theorem Tree.nodup_descendants {root : Tree} (unique : root.WellKeyed) :
    root.descendants.Nodup := by
  rw [descendants_eq_preorder]
  exact List.Nodup.of_map Match.path (nodup_paths_preorder unique)

/-- **The full walk goes in preorder.** If the handler never stops it, the walk ends with nothing
left to visit, and it has called the handler on exactly the nodes below the root, in preorder, each
with the state of a walk that has come to its path. So each place below the root is visited once and
after the containers above it; the root is not visited, and there is nothing to visit inside of a
leaf. -/
theorem full_walk_preorder (root : Tree) :
    (∀ (σ : Type) (handler : Walk.Handler σ) (memory : σ), Walk.GoesOn handler →
      ((Walk.Tour.start root memory).finish handler).levels = [] ∧
      (Walk.full (Walk.noting handler) root (memory, [])).2.reverse =
        root.preorder.map Walk.Call.arrival ∧
      Walk.full handler root memory = (root.preorder.foldl
        (fun run m => Walk.deliver handler m.path m.node run) ⟨.idle, memory⟩).memory) ∧
    (∀ (path : Path) node, ⟨path, node⟩ ∈ root.preorder ↔
      path ≠ [] ∧ path.resolve? root = some node) ∧
    (∀ (above : Path) key rest node, ⟨above ++ key :: rest, node⟩ ∈ root.preorder →
      ∃ parent, above.resolve? root = some parent ∧ parent.isContainer = true) ∧
    (root.WellKeyed → (root.preorder.map Match.path).Nodup ∧
      root.preorder.Pairwise fun earlier later => ¬ later.path <+: earlier.path) := by
  refine ⟨fun σ handler memory goesOn => ⟨goesOn.levels_finish root memory, ?_, ?_⟩,
    fun path node => Tree.mem_preorder_iff, fun above key rest node h => Tree.container_above h,
    fun unique => ⟨root.nodup_paths_preorder unique, root.pairwise_preorder unique⟩⟩
  · rw [Walk.full_eq_replay, goesOn.replay_noting rfl]
    simp
  · rw [Walk.full_eq_replay, goesOn.replay_eq_foldl rfl]
    rfl

theorem full_walk_preorder_nested :
    Walk.GoesOn (Match.collector none) ∧
      (Tree.object [("a", .array [.object []]), ("b", .null)]).WellKeyed ∧
      Walk.Call.arrival ⟨["a", "0"], .object []⟩ ∈ (Walk.full (Walk.noting (Match.collector none))
        (.object [("a", .array [.object []]), ("b", .null)]) ([], [])).2 ∧
      ((Tree.object [("a", .array [.object []]), ("b", .null)]).preorder.map Match.path).Nodup := by
  obtain ⟨visits, places, -, unique⟩ := full_walk_preorder
    (.object [("a", .array [.object []]), ("b", .null)])
  have wellKeyed : (Tree.object [("a", .array [.object []]), ("b", .null)]).WellKeyed := by
    simp [Tree.WellKeyed, Tree.WellKeyedEntries, Tree.WellKeyedItems]
  obtain ⟨-, calls, -⟩ := visits _ _ [] Walk.goesOn_collector
  have visited := (places ["a", "0"] (.object [])).2 ⟨List.cons_ne_nil _ _, rfl⟩
  refine ⟨Walk.goesOn_collector, wellKeyed, ?_, (unique wellKeyed).1⟩
  rw [← List.mem_reverse, calls]
  exact List.mem_map_of_mem visited

end DocQuery
