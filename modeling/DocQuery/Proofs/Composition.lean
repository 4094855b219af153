import DocQuery.Proofs.Query.Matching
import DocQuery.Proofs.Selection

/-!
# One query after another

Where a query ends with a key that is taken, what follows it starts afresh: with no skip before it,
and if the query has no return marks, below no mark either. So a query may be cut there, and its
second part asked at the places that the first part selects (`selection_composes`).
-/

namespace DocQuery

namespace Query

variable {q q' : Query} {skipping : Bool}

theorem endsInSkip_append :
    (q ++ q').endsInSkip skipping = q'.endsInSkip (q.endsInSkip skipping) := by
  induction q generalizing skipping with
  | nil => rfl
  | cons e q ih => exact ih

theorem steps_append :
    (q ++ q').steps skipping = q.steps skipping ++ q'.steps (q.endsInSkip skipping) := by
  induction q generalizing skipping with
  | nil => rfl
  | cons e q ih =>
    rw [List.cons_append, steps, steps, endsInSkip]
    cases e.isSkip with
    | true => simpa using ih
    | false => simpa using ih

theorem endsInSkip_eq_false (closed : ∀ e ∈ q.getLast?, e.isSkip = false) :
    q.endsInSkip false = false :=
  endsInSkip_eq_any.trans ((Option.any_eq_false _ _).2 closed)

/-- The keys that the first part of a query takes can be told from those that the second part does.
-/
theorem matchesPath_append (closed : q.endsInSkip false = false) {path : Path} :
    (q ++ q').matchesPath path = true ↔ ∃ start rest, path = start ++ rest ∧
      q.matchesPath start = true ∧ q'.matchesPath rest = true := by
  simp only [matchesPath_iff, steps_append, endsInSkip_append, closed, splitsStart_append,
    splitsStart_false]
  exact Iff.rfl

end Query

namespace Walk

variable {step : Step} {steps rest steps' : List Step} {node : Tree} {marked : Bool} {m : Move}

theorem enter_append {keys : List String} : enter node keys (steps ++ steps') marked =
    (enter node keys steps marked).map fun m => { m with steps := m.steps ++ steps' } := by
  simp [enter, List.map_filterMap, Function.comp_def]

theorem moves_append : moves step (rest ++ steps') node =
    (moves step rest node).map fun m => { m with steps := m.steps ++ steps' } := by
  rw [moves, moves, List.map_append, enter_append]
  congr 1
  split
  · rw [← List.cons_append, enter_append]
  · rfl

/-- Where nothing is marked, the later steps are walked from each place that the earlier ones lead
to. -/
theorem reports_append (unmarked : ∀ s ∈ steps, s.element.returns = false) :
    reports (steps ++ steps') false false node =
      (reports steps false false node).flatMap fun m =>
        (reports steps' false false m.node).map (Match.below m.path) := by
  induction node using Tree.induction_child generalizing steps with
  | step node ih =>
    cases steps with
    | nil =>
      have same : Match.below [] = id := rfl
      simp [reports_nil, same]
    | cons step rest =>
      rw [List.cons_append, reports_cons, reports_cons, moves_append]
      simp only [Bool.or_self, Bool.false_and, Bool.false_eq_true, if_false, List.append_nil,
        List.flatMap_map, List.flatMap_assoc]
      refine List.flatMap_congr fun m hm => ?_
      obtain ⟨hc, goes⟩ := mem_moves_iff.1 hm
      obtain ⟨mark, left⟩ : m.marked = false ∧ ∀ s ∈ m.steps, s.element.returns = false := by
        obtain ⟨-, hs, hk⟩ | ⟨-, -, -, hs, hk⟩ := goes
        · exact ⟨hk.trans (unmarked step (.head _)), fun s h => unmarked s (.tail _ (hs ▸ h))⟩
        · exact ⟨hk, fun s h => unmarked s (hs ▸ h)⟩
      rw [mark, ih m.key m.child hc left, List.map_flatMap]
      simp only [List.map_map]
      rfl

/-- A plain key has one move at most. -/
theorem moves_key {key : String} : moves ⟨.key key, false⟩ rest node =
    ((node.child? key).map fun child => ⟨key, child, rest, false⟩).toList := by
  cases hc : node.child? key with
  | none =>
    have none : (Element.key key).keysAt node = .empty := by
      simp [Element.keysAt, Element.candidates, hc, KeySet.ofList]
    simp [moves, none, KeySet.empty, enter]
  | some child =>
    have one : ((Element.key key).keysAt node).keys = [key] := by
      simp [Element.keysAt, Element.candidates, Element.matchesValue, hc, KeySet.ofList,
        KeySet.insert, KeySet.empty]
    simp [moves, one, enter, hc, Element.returns]

theorem reports_ofPath {path : Path} : reports ((Query.ofPath path).steps false) false false node =
    (path.resolve? node).toList.map (⟨path, ·⟩) := by
  induction path generalizing node with
  | nil => simp [Query.ofPath, Query.steps, reports_nil, Path.resolve?_nil]
  | cons key path ih =>
    have first : (Query.ofPath (key :: path)).steps false =
        ⟨.key key, false⟩ :: (Query.ofPath path).steps false := rfl
    rw [first, reports_cons, moves_key, Path.resolve?_cons]
    cases node.child? key with
    | none => simp
    | some child => simp [ih, Match.under]

end Walk

namespace Query

variable {q q' : Query}

theorem select_append (closed : q.endsInSkip false = false) (unmarked : ∀ e ∈ q, e.returns = false)
    (root : Tree) : root.select (q ++ q') =
      (root.select q).flatMap fun m => (m.node.select q').map (Match.below m.path) := by
  have marks : ∀ s ∈ q.steps false, s.element.returns = false := fun s hs =>
    unmarked _ (mem_of_mem_steps hs)
  simp only [Tree.select_eq_reports, steps_append, closed, Walk.reports_append marks]

theorem select_ofPath (path : Path) (root : Tree) :
    root.select (ofPath path) = (path.resolve? root).toList.map (⟨path, ·⟩) := by
  rw [Tree.select_eq_reports, Walk.reports_ofPath]

theorem endsInSkip_ofPath (path : Path) : (ofPath path).endsInSkip false = false := by
  induction path with
  | nil => rfl
  | cons key path ih => exact ih

theorem ofPath_stem_append_drop (q : Query) : ofPath q.stem ++ q.drop q.stem.length = q := by
  induction q with
  | nil => rfl
  | cons e q ih =>
    cases e with
    | key name =>
      have stem_cons : stem (.key name :: q) = name :: stem q := rfl
      rw [stem_cons]
      exact congrArg (Element.key name :: ·) ih
    | pattern => rfl

/-- The stem of a query leads to the one place where the rest of it is asked. -/
theorem select_eq_stem (q : Query) (root : Tree) : root.select q =
    (q.stem.resolve? root).toList.flatMap fun node =>
      (node.select (q.drop q.stem.length)).map (Match.below q.stem) := by
  have plain : ∀ e ∈ ofPath q.stem, e.returns = false := by
    intro e he
    obtain ⟨key, -, rfl⟩ := List.mem_map.1 he
    rfl
  conv_lhs => rw [← q.ofPath_stem_append_drop]
  rw [select_append (endsInSkip_ofPath _) plain, select_ofPath, List.flatMap_map]

end Query

/-- **Queries compose.** -/
theorem selection_composes (q₁ q₂ : Query) (closed : ∀ last ∈ q₁.getLast?, last.isSkip = false) :
    (∀ path, (q₁ ++ q₂).matchesPath path = true ↔ ∃ p₁ p₂, path = p₁ ++ p₂ ∧
      q₁.matchesPath p₁ = true ∧ q₂.matchesPath p₂ = true) ∧
    ((∀ e ∈ q₁, e.returns = false) → ∀ root : Tree, root.select (q₁ ++ q₂) =
      (root.select q₁).flatMap fun m => (m.node.select q₂).map (Match.below m.path)) ∧
    ∀ root : Tree, root.select q₂ = (q₂.stem.resolve? root).toList.flatMap fun node =>
      (node.select (q₂.drop q₂.stem.length)).map (Match.below q₂.stem) := by
  have closed := Query.endsInSkip_eq_false closed
  exact ⟨fun _ => Query.matchesPath_append closed, Query.select_append closed, q₂.select_eq_stem⟩

theorem selection_composes_below_key :
    (∀ last ∈ ([.key "a"] : Query).getLast?, last.isSkip = false) ∧
      (∀ e ∈ ([.key "a"] : Query), e.returns = false) ∧
      Query.matchesPath [.key "a", .skip, .key "c"] ["a", "b", "c"] = true ∧
      (Tree.object [("a", .object [("c", .null)])]).select [.key "a", .skip, .key "c"] =
        ((Tree.object [("a", .object [("c", .null)])]).select [.key "a"]).flatMap fun m =>
          (m.node.select [.skip, .key "c"]).map (Match.below m.path) := by
  have closed : ∀ last ∈ ([.key "a"] : Query).getLast?, last.isSkip = false := by decide
  have unmarked : ∀ e ∈ ([.key "a"] : Query), e.returns = false := by decide
  obtain ⟨matches_iff, select_eq, -⟩ := selection_composes [.key "a"] [.skip, .key "c"] closed
  have matched := (matches_iff ["a", "b", "c"]).2 ⟨["a"], ["b", "c"], rfl, rfl, by decide⟩
  exact ⟨closed, unmarked, matched, select_eq unmarked _⟩

end DocQuery
