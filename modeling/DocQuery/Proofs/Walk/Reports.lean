import DocQuery.Proofs.Walk.Moves
import Mathlib.Data.List.Forall2

/-!
# What a walk reports

`reports` is all that a guided walk hands to its handler when nobody stops it, in order, each place
with its keys below the node that the walk starts from. It is a function of the elements that still
have to take a key and of two marks: whether the node is below one that a return-marked element took,
and whether such an element took the node itself.

* `mem_reports_cons_cons`: what lies below the node is reported by one of the moves;
* `pairwise_reports`: nothing is reported before a place below it, so no place is reported twice;
* `reports_congr`: what a walk reports depends on its elements only through the keys that they take
  and through the return marks of all but the last.
-/

namespace DocQuery

/-- Two steps move alike. They may still differ in their return marks. -/
structure Step.Alike (s t : Step) : Prop where
  afterSkip : s.afterSkip = t.afterSkip
  keysAt : ∀ node, s.element.keysAt node = t.element.keysAt node

/-- The match as it is seen from the parent, where it lies under `key`. -/
def Match.under (key : String) (m : Match) : Match :=
  ⟨key :: m.path, m.node⟩

/-- The match as it is seen from the root, if it was found from the node at the end of `path`. -/
def Match.below (path : Path) (m : Match) : Match :=
  ⟨path ++ m.path, m.node⟩

namespace Walk

/-- Whether the elements can all take a key at `node` or below it. -/
def found : List Step → Tree → Bool
  | [], _ => true
  | step :: rest, node => (moves step rest node).attach.any fun m => found m.1.steps m.1.child
  termination_by _ node => sizeOf node
  decreasing_by exact sizeOf_child_of_mem_moves m.2

/-- The reports from `node` on. A node that a return-marked element took stands in for what matches
below it. -/
def reports (steps : List Step) (underMarked marked : Bool) (node : Tree) : List Match :=
  match steps with
  | [] => if underMarked then [] else [⟨[], node⟩]
  | step :: rest =>
    ((moves step rest node).attach.flatMap fun m =>
      (reports m.1.steps (underMarked || marked) m.1.marked m.1.child).map (Match.under m.1.key)) ++
    if marked && found (step :: rest) node then [⟨[], node⟩] else []
  termination_by sizeOf node
  decreasing_by exact sizeOf_child_of_mem_moves m.2

variable {step : Step} {steps rest : List Step} {underMarked marked : Bool} {node : Tree}
  {m : Match}

theorem found_nil : found [] node = true := by
  rw [found]

theorem found_cons : found (step :: rest) node =
    (moves step rest node).any fun m => found m.steps m.child := by
  rw [found]
  simp

theorem reports_nil :
    reports [] underMarked marked node = if underMarked then [] else [⟨[], node⟩] := by
  rw [reports]

theorem reports_cons : reports (step :: rest) underMarked marked node =
    ((moves step rest node).flatMap fun m =>
      (reports m.steps (underMarked || marked) m.marked m.child).map (Match.under m.key)) ++
    if marked && found (step :: rest) node then [⟨[], node⟩] else [] := by
  rw [reports]
  simp

theorem mem_reports_nil : m ∈ reports [] underMarked marked node ↔
    underMarked = false ∧ m = ⟨[], node⟩ := by
  cases underMarked <;> simp [reports_nil]

theorem mem_reports_cons_nil {last : Tree} :
    ⟨[], last⟩ ∈ reports (step :: rest) underMarked marked node ↔
      marked = true ∧ found (step :: rest) node = true ∧ last = node := by
  simp [reports_cons, Match.under, and_assoc]

/-- What lies below the node is reported by one of the moves. -/
theorem mem_reports_cons_cons {key : String} {path : Path} {last : Tree} :
    ⟨key :: path, last⟩ ∈ reports (step :: rest) underMarked marked node ↔
      ∃ v ∈ moves step rest node, v.key = key ∧
        ⟨path, last⟩ ∈ reports v.steps (underMarked || marked) v.marked v.child := by
  simp only [reports_cons, List.mem_append, List.mem_flatMap, List.mem_map]
  constructor
  · rintro (⟨v, hv, below, hb, e⟩ | h)
    · cases e
      exact ⟨v, hv, rfl, hb⟩
    · simp at h
  · rintro ⟨v, hv, rfl, hb⟩
    exact .inl ⟨v, hv, _, hb, rfl⟩

/-- Nothing is reported before a place that lies below it. -/
theorem pairwise_reports (steps : List Step) (underMarked marked : Bool) (node : Tree) :
    (reports steps underMarked marked node).Pairwise fun a b => ¬ a.path <+: b.path := by
  induction node using Tree.induction_child generalizing steps underMarked marked with
  | step node ih =>
    cases steps with
    | nil => cases underMarked <;> simp [reports_nil]
    | cons step rest =>
      rw [reports_cons, List.pairwise_append, List.pairwise_flatMap]
      refine ⟨⟨fun v hv => ?_, ?_⟩, ?_, fun a ha b hb => ?_⟩
      · refine List.pairwise_map.2 ((ih v.key v.child (mem_moves_iff.1 hv).1 _ _ _).imp ?_)
        intro a b h le
        exact h (List.cons_prefix_cons.1 le).2
      · -- Two moves go to different keys.
        refine (List.pairwise_map.1 nodup_keys_moves).imp ?_
        intro v w ne a ha b hb le
        obtain ⟨a, -, rfl⟩ := List.mem_map.1 ha
        obtain ⟨b, -, rfl⟩ := List.mem_map.1 hb
        exact ne (List.cons_prefix_cons.1 le).1
      · split <;> simp
      · -- The node itself comes last.
        obtain ⟨v, -, ha⟩ := List.mem_flatMap.1 ha
        obtain ⟨a, -, rfl⟩ := List.mem_map.1 ha
        obtain ⟨-, hb⟩ := List.mem_ite_nil_right.1 hb
        simp [Match.under, List.mem_singleton.1 hb]

theorem nodup_paths_reports (steps : List Step) (underMarked marked : Bool) (node : Tree) :
    ((reports steps underMarked marked node).map Match.path).Nodup := by
  refine List.pairwise_map.2 ((pairwise_reports steps underMarked marked node).imp ?_)
  rintro a b h e
  exact h (e ▸ List.prefix_refl _)

/-! ## What the reports depend on -/

theorem map_enter_congr {α : Type} {f : Move → α} {keys : List String} {ss ts : List Step}
    {k l : Bool}
    (h : ∀ key child, node.child? key = some child →
      f ⟨key, child, ss, k⟩ = f ⟨key, child, ts, l⟩) :
    (enter node keys ss k).map f = (enter node keys ts l).map f := by
  induction keys with
  | nil => rfl
  | cons key keys ih =>
    cases hc : node.child? key with
    | none => simp only [enter_cons_of_none hc, ih]
    | some child => simp only [enter_cons_of_some hc, List.map_cons, h key child hc, ih]

theorem map_moves_congr {α : Type} (f : Move → α) {s t : Step} {ss ts : List Step}
    (alike : s.Alike t)
    (taken : ∀ key child, node.child? key = some child →
      f ⟨key, child, ss, s.element.returns⟩ = f ⟨key, child, ts, t.element.returns⟩)
    (passed : ∀ key child, node.child? key = some child →
      f ⟨key, child, s :: ss, false⟩ = f ⟨key, child, t :: ts, false⟩) :
    (moves s ss node).map f = (moves t ts node).map f := by
  simp only [moves, alike.keysAt, alike.afterSkip, List.map_append]
  congr 1
  · exact map_enter_congr taken
  · split
    · exact map_enter_congr passed
    · rfl

theorem found_congr {ss ts : List Step} (alike : List.Forall₂ Step.Alike ss ts) :
    found ss node = found ts node := by
  induction node using Tree.induction_child generalizing ss ts with
  | step node ih =>
    cases alike with
    | nil => rfl
    | @cons s t ss ts hst hss =>
      have same := map_moves_congr (fun m => found m.steps m.child) hst
        (fun key child hc => ih key child hc hss)
        (fun key child hc => ih key child hc (.cons hst hss))
      simpa only [found_cons, List.any_map, Function.id_comp] using congrArg (List.any · id) same

/-- The mark of the last element does not count: what it takes has nothing below it to stand in
for. -/
theorem reports_congr {ss ts : List Step} (alike : List.Forall₂ Step.Alike ss ts)
    (marks : (ss.map (·.element.returns)).dropLast = (ts.map (·.element.returns)).dropLast) :
    reports ss underMarked marked node = reports ts underMarked marked node := by
  induction node using Tree.induction_child generalizing ss ts underMarked marked with
  | step node ih =>
    cases alike with
    | nil => rfl
    | @cons s t ss ts hst hss =>
      have same : (moves s ss node).map _ = (moves t ts node).map _ := map_moves_congr
        (fun m => (reports m.steps (underMarked || marked) m.marked m.child).map (Match.under m.key))
        hst ?taken ?passed
      case taken =>
        intro key child hc
        cases hss with
        | nil => simp only [reports_nil]
        | cons h hss =>
          obtain ⟨hm, marks⟩ := List.cons.inj marks
          simp only [hm, ih key child hc (.cons h hss) marks]
      case passed =>
        intro key child hc
        simp only [ih key child hc (.cons hst hss) marks]
      rw [reports_cons, reports_cons, List.flatMap_def, List.flatMap_def, same,
        found_congr (.cons hst hss)]

end Walk

end DocQuery
