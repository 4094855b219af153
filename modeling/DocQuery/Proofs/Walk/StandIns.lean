import DocQuery.Proofs.Walk.Replay

/-!
# Reports and splits

The reports of a guided walk, said by splits of paths in the tree (`mem_reports_iff`): a path is
reported if the elements split it and nothing stands in for its end, or if it stands in for the end
of some path that they split.
-/

namespace DocQuery

namespace Share

/-- `place` ends with the key that a return-marked element takes, and more keys follow. -/
def Marked (shares : List Share) (place : Path) : Prop :=
  ∃ before s after, shares = before ++ s :: after ∧ after ≠ [] ∧ s.element.returns = true ∧
    place = keys (before ++ [s])

/-- The places that are returned in place of the end of the shares. With `marked` the place where
they begin was taken by a return-marked element. -/
def standIns (marked : Bool) : List Share → List Path
  | [] => []
  | s :: shares =>
    (if marked then [[]] else []) ++ (standIns s.element.returns shares).map (s.path ++ ·)

variable {s : Share} {shares : List Share} {place : Path} {marked : Bool}

theorem marked_cons : Marked (s :: shares) place ↔
    (s.element.returns = true ∧ shares ≠ [] ∧ place = s.path) ∨
      ∃ rest, Marked shares rest ∧ s.path ++ rest = place := by
  constructor
  · rintro ⟨before, t, after, hs, more, ht, rfl⟩
    cases before with
    | nil =>
      obtain ⟨rfl, rfl⟩ := List.cons.inj hs
      exact .inl ⟨ht, more, by simp⟩
    | cons s' before =>
      obtain ⟨rfl, rfl⟩ := List.cons.inj hs
      exact .inr ⟨_, ⟨before, t, after, rfl, more, ht, rfl⟩, by simp⟩
  · rintro (⟨ht, more, rfl⟩ | ⟨_, ⟨before, t, after, rfl, more, ht, rfl⟩, rfl⟩)
    · exact ⟨[], s, shares, rfl, more, ht, by simp⟩
    · exact ⟨s :: before, t, after, rfl, more, ht, by simp⟩

theorem mem_standIns_iff : place ∈ standIns marked shares ↔
    (marked = true ∧ shares ≠ [] ∧ place = []) ∨ Marked shares place := by
  induction shares generalizing marked place with
  | nil => simp [standIns, Marked]
  | cons s shares ih =>
    simp only [standIns, List.mem_append, List.mem_ite_nil_right, List.mem_singleton, List.mem_map,
      ih, marked_cons]
    constructor
    · rintro (⟨hm, rfl⟩ | ⟨rest, ⟨ht, more, rfl⟩ | hr, rfl⟩)
      · exact .inl ⟨hm, by simp, rfl⟩
      · exact .inr (.inl ⟨ht, more, by simp⟩)
      · exact .inr (.inr ⟨rest, hr, rfl⟩)
    · rintro (⟨hm, -, rfl⟩ | ⟨ht, more, rfl⟩ | ⟨rest, hr, rfl⟩)
      · exact .inl ⟨hm, rfl⟩
      · exact .inr ⟨[], .inl ⟨ht, more, rfl⟩, by simp⟩
      · exact .inr ⟨rest, .inr hr, rfl⟩

end Share

namespace Walk

variable {step : Step} {steps rest : List Step} {underMarked marked : Bool} {node : Tree}
  {key : String} {path : Path} {places : List Path}

/-- The steps split `path` below `node`, and `places` stand in for its end. -/
def Reaches (steps : List Step) (marked : Bool) (node : Tree) (path : Path) (places : List Path) :
    Prop :=
  ∃ shares, Split (inTree node) steps path shares ∧ Share.standIns marked shares = places

theorem reaches_nil : Reaches [] marked node path places ↔ path = [] ∧ places = [] := by
  simp only [Reaches, split_nil]
  constructor
  · rintro ⟨shares, ⟨rfl, rfl⟩, rfl⟩
    exact ⟨rfl, rfl⟩
  · rintro ⟨rfl, rfl⟩
    exact ⟨[], ⟨rfl, rfl⟩, rfl⟩

theorem not_reaches_cons_nil : ¬ Reaches (step :: rest) marked node [] places :=
  fun ⟨_, h, _⟩ => not_split_cons_nil h

theorem Reaches.isContainer (h : Reaches (step :: rest) marked node path places) :
    node.isContainer = true := by
  obtain ⟨shares, h, -⟩ := h
  obtain ⟨last, hl⟩ := h.resolves
  cases path with
  | nil => exact absurd h not_split_cons_nil
  | cons key path => exact Tree.isContainer_of_resolve? hl

/-- A path is reached by way of the move to its first key. -/
theorem reaches_cons_cons : Reaches (step :: rest) marked node (key :: path) places ↔
    ∃ m ∈ moves step rest node, m.key = key ∧ ∃ below, Reaches m.steps m.marked m.child path below ∧
      places = (if marked then [[]] else []) ++ below.map (key :: ·) := by
  constructor
  · rintro ⟨shares, h, rfl⟩
    obtain ⟨last, hl⟩ := h.resolves
    obtain ⟨child, hc, -⟩ := Option.bind_eq_some_iff.1 (Path.resolve?_cons ▸ hl)
    obtain ⟨ht, shares, rfl, hs⟩ | ⟨skip, hn, s, shares, rfl, hs⟩ := split_cons_cons.1 h <;>
      rw [inTree_after hc] at hs
    · refine ⟨⟨key, child, rest, step.element.returns⟩, ?_, rfl, _, ⟨shares, hs, rfl⟩, rfl⟩
      exact mem_moves_iff.2 ⟨hc, .inl ⟨inTree_nil.1 ht, rfl, rfl⟩⟩
    · have reaches : Reaches (step :: rest) false child path _ := ⟨_, hs, rfl⟩
      refine ⟨⟨key, child, step :: rest, false⟩, ?_, rfl, _, reaches, ?_⟩
      · exact mem_moves_iff.2
          ⟨hc, .inr ⟨skip, mt inTree_nil.2 hn, reaches.isContainer, rfl, rfl⟩⟩
      · simp [Share.standIns, Share.pass, Share.path]
  · rintro ⟨⟨key, child, steps, mark⟩, hm, rfl, below, ⟨shares, h, rfl⟩, rfl⟩
    obtain ⟨hc, ⟨ht, rfl, rfl⟩ | ⟨skip, hn, -, rfl, rfl⟩⟩ := mem_moves_iff.1 hm <;>
      rw [← inTree_after hc] at h
    · refine ⟨_, split_cons_cons.2 (.inl ⟨inTree_nil.2 ht, shares, rfl, h⟩), rfl⟩
    · obtain ⟨s, shares, rfl, -, -⟩ := List.map_eq_cons_iff.1 h.steps_eq
      refine ⟨_, split_cons_cons.2 (.inr ⟨skip, mt inTree_nil.1 hn, s, shares, rfl, h⟩), ?_⟩
      simp [Share.standIns, Share.pass, Share.path]

theorem found_iff (marked : Bool) :
    found steps node = true ↔ ∃ path places, Reaches steps marked node path places := by
  induction node using Tree.induction_child generalizing steps marked with
  | step node ih =>
    cases steps with
    | nil => simp [found_nil, reaches_nil]
    | cons step rest =>
      rw [found_cons, List.any_eq_true]
      constructor
      · rintro ⟨m, hm, hf⟩
        obtain ⟨path, below, h⟩ := (ih m.key m.child (mem_moves_iff.1 hm).1 m.marked).1 hf
        exact ⟨m.key :: path, _, reaches_cons_cons.2 ⟨m, hm, rfl, below, h, rfl⟩⟩
      · rintro ⟨path, places, h⟩
        cases path with
        | nil => exact absurd h not_reaches_cons_nil
        | cons key path =>
          obtain ⟨m, hm, -, below, h, -⟩ := reaches_cons_cons.1 h
          exact ⟨m, hm, (ih m.key m.child (mem_moves_iff.1 hm).1 m.marked).2 ⟨path, below, h⟩⟩

/-- `place` stands in for the end of some path that is reached. -/
def StandsIn (steps : List Step) (marked : Bool) (node : Tree) (place : Path) : Prop :=
  ∃ path places, Reaches steps marked node path places ∧ place ∈ places

theorem not_standsIn_nil : ¬ StandsIn [] marked node path := by
  rintro ⟨below, places, h, hp⟩
  obtain ⟨-, rfl⟩ := reaches_nil.1 h
  cases hp

theorem standsIn_cons_nil : StandsIn (step :: rest) marked node [] ↔
    marked = true ∧ found (step :: rest) node = true := by
  rw [found_iff marked]
  constructor
  · rintro ⟨path, places, h, hp⟩
    refine ⟨?_, path, places, h⟩
    cases path with
    | nil => exact absurd h not_reaches_cons_nil
    | cons key path =>
      obtain ⟨m, -, -, below, -, rfl⟩ := reaches_cons_cons.1 h
      simpa using hp
  · rintro ⟨rfl, path, places, h⟩
    refine ⟨path, places, h, ?_⟩
    cases path with
    | nil => exact absurd h not_reaches_cons_nil
    | cons key path =>
      obtain ⟨m, -, -, below, -, rfl⟩ := reaches_cons_cons.1 h
      exact .head _

theorem standsIn_cons_cons : StandsIn (step :: rest) marked node (key :: path) ↔
    ∃ m ∈ moves step rest node, m.key = key ∧ StandsIn m.steps m.marked m.child path := by
  constructor
  · rintro ⟨below, places, h, hp⟩
    cases below with
    | nil => exact absurd h not_reaches_cons_nil
    | cons key' below =>
      obtain ⟨m, hm, rfl, places, h', rfl⟩ := reaches_cons_cons.1 h
      obtain ⟨hp', rfl⟩ : path ∈ places ∧ m.key = key := by
        cases marked <;> simpa [and_comm] using hp
      exact ⟨m, hm, rfl, below, places, h', hp'⟩
  · rintro ⟨m, hm, rfl, below, places, h, hp⟩
    exact ⟨_, _, reaches_cons_cons.2 ⟨m, hm, rfl, places, h, rfl⟩,
      List.mem_append_right _ (List.mem_map_of_mem hp)⟩

/-- Nothing stands in for the end of a path if the node is not marked and nothing does below. -/
theorem reaches_cons_cons_nil : Reaches (step :: rest) marked node (key :: path) [] ↔
    marked = false ∧ ∃ m ∈ moves step rest node, m.key = key ∧
      Reaches m.steps m.marked m.child path [] := by
  rw [reaches_cons_cons]
  constructor
  · rintro ⟨m, hm, rfl, below, h, e⟩
    obtain ⟨hk, he⟩ := List.append_eq_nil_iff.1 e.symm
    obtain rfl := List.map_eq_nil_iff.1 he
    exact ⟨by simpa using hk, m, hm, rfl, h⟩
  · rintro ⟨rfl, m, hm, rfl, h⟩
    exact ⟨m, hm, rfl, [], h, rfl⟩

/-- A path is reported if it is reached and nothing stands in for its end, or if it stands in for
the end of a path that is reached. -/
theorem mem_reports_iff {last : Tree} : ⟨path, last⟩ ∈ reports steps underMarked marked node ↔
    path.resolve? node = some last ∧
      (underMarked = false ∧ Reaches steps marked node path [] ∨
        StandsIn steps marked node path) := by
  induction node using Tree.induction_child generalizing steps underMarked marked path with
  | step node ih =>
    cases steps with
    | nil =>
      simp only [mem_reports_nil, reaches_nil, not_standsIn_nil, Match.mk.injEq, or_false, and_true]
      constructor
      · rintro ⟨hu, rfl, rfl⟩
        exact ⟨rfl, hu, rfl⟩
      · rintro ⟨hl, hu, rfl⟩
        exact ⟨hu, rfl, (Option.some.inj hl).symm⟩
    | cons step rest =>
      cases path with
      | nil =>
        simp only [mem_reports_cons_nil, not_reaches_cons_nil, standsIn_cons_nil, Path.resolve?_nil,
          Option.some.injEq, and_false, false_or]
        constructor
        · rintro ⟨hk, hf, rfl⟩
          exact ⟨rfl, hk, hf⟩
        · rintro ⟨rfl, hk, hf⟩
          exact ⟨hk, hf, rfl⟩
      | cons key path =>
        rw [mem_reports_cons_cons, reaches_cons_cons_nil, standsIn_cons_cons, Path.resolve?_cons]
        constructor
        · rintro ⟨m, hm, rfl, h⟩
          have hc := (mem_moves_iff.1 hm).1
          obtain ⟨hl, h⟩ := (ih m.key m.child hc).1 h
          refine ⟨by rwa [hc], h.imp ?_ fun h => ⟨m, hm, rfl, h⟩⟩
          rintro ⟨hu, h⟩
          obtain ⟨hu, hk⟩ := Bool.or_eq_false_iff.1 hu
          exact ⟨hu, hk, m, hm, rfl, h⟩
        · rintro ⟨hl, ⟨hu, hk, m, hm, rfl, h⟩ | ⟨m, hm, rfl, h⟩⟩ <;>
            have hc := (mem_moves_iff.1 hm).1 <;> rw [hc] at hl
          · exact ⟨m, hm, rfl, (ih m.key m.child hc).2 ⟨hl, .inl ⟨by simp [hu, hk], h⟩⟩⟩
          · exact ⟨m, hm, rfl, (ih m.key m.child hc).2 ⟨hl, .inr h⟩⟩

end Walk

end DocQuery
