import DocQuery.Proofs.Acceptance
import Mathlib.Data.List.Destutter

/-!
# Skips in a row

A query acts through its steps, and a step only says whether a skip stands before its element. How
many stand there does not show (`steps_mergeSkips`), nor do skips at the end, which stand before no
element. The matcher looks at one thing more, whether the query ends in a skip
(`endsInSkip_mergeSkips`).

* `skips_in_a_row`: one skip does the work of several, for the walk and for the matcher.
-/

namespace DocQuery

/-- At most one of two neighbours is a skip. -/
def Element.Parted (e e' : Element) : Prop :=
  ¬ (e.isSkip = true ∧ e'.isSkip = true)

instance : DecidableRel Element.Parted :=
  fun e e' => inferInstanceAs (Decidable (¬ (e.isSkip = true ∧ e'.isSkip = true)))

namespace Query

variable {q q' : Query} {e : Element} {skipping : Bool}

/-- The query with one skip in place of each run of adjacent skips. -/
def mergeSkips (q : Query) : Query :=
  q.destutter Element.Parted

theorem steps_destutter' :
    steps (q.destutter' Element.Parted e) skipping = steps (e :: q) skipping := by
  induction q generalizing e skipping with
  | nil => rfl
  | cons e' q ih =>
    by_cases parted : e.Parted e'
    · simp only [List.destutter'_cons_pos _ parted, steps, ih]
    · obtain ⟨skip, skip'⟩ := not_not.1 parted
      rw [List.destutter'_cons_neg _ parted, ih]
      simp only [steps, skip, skip', if_true]

theorem endsInSkip_destutter' :
    endsInSkip (q.destutter' Element.Parted e) skipping = endsInSkip (e :: q) skipping := by
  induction q generalizing e skipping with
  | nil => rfl
  | cons e' q ih =>
    by_cases parted : e.Parted e'
    · simp only [List.destutter'_cons_pos _ parted, endsInSkip, ih]
    · obtain ⟨skip, skip'⟩ := not_not.1 parted
      rw [List.destutter'_cons_neg _ parted, ih]
      simp only [endsInSkip, skip, skip']

theorem steps_mergeSkips : q.mergeSkips.steps skipping = q.steps skipping := by
  cases q with
  | nil => rfl
  | cons e q => exact steps_destutter'

theorem endsInSkip_mergeSkips : q.mergeSkips.endsInSkip skipping = q.endsInSkip skipping := by
  cases q with
  | nil => rfl
  | cons e q => exact endsInSkip_destutter'

theorem matchesPath_congr (steps : q.steps false = q'.steps false)
    (ends : q.endsInSkip false = q'.endsInSkip false) (path : Path) :
    q.matchesPath path = q'.matchesPath path := by
  rw [Bool.eq_iff_iff, matchesPath_iff, matchesPath_iff, steps, ends]

theorem isRootOf_congr (steps : q.steps false = q'.steps false) (path : Path) :
    q.isRootOf path = q'.isRootOf path := by
  rw [Bool.eq_iff_iff, isRootOf_iff_splitsStart, isRootOf_iff_splitsStart, steps]

end Query

/-- What a walk does for its handler depends on the steps of its query alone. -/
theorem Walk.guided_congr {σ : Type} {q q' : Query} (steps : q.steps false = q'.steps false)
    (handler : Handler σ) (root : Tree) (memory : σ) :
    guided handler q root memory = guided handler q' root memory := by
  rw [guided_eq_replay, guided_eq_replay, steps]

/-- **One skip does the work of several, and skips at the end select nothing more.** With one skip
in place of each run of them a query accepts the same paths, itself and with what is below, and no
handler can tell the walk that it guides from the one before; so the same is selected, in the same
order. The walk does not notice skips at the end either, whatever is marked. -/
theorem skips_in_a_row (q : Query) :
    q.mergeSkips.IsChain Element.Parted ∧
    (∀ path, q.mergeSkips.matchesPath path = q.matchesPath path) ∧
    (∀ path, q.mergeSkips.isRootOf path = q.isRootOf path) ∧
    (∀ root : Tree, root.select q.mergeSkips = root.select q) ∧
    (∀ (count : Nat) (root : Tree),
      root.select (q ++ List.replicate count .skip) = root.select q) ∧
    ∀ (count : Nat) (σ : Type) (handler : Walk.Handler σ) (root : Tree) (memory : σ),
      Walk.guided handler q.mergeSkips root memory = Walk.guided handler q root memory ∧
      Walk.guided handler (q ++ List.replicate count .skip) root memory =
        Walk.guided handler q root memory := by
  have merged : q.mergeSkips.steps false = q.steps false := Query.steps_mergeSkips
  have trailing (count : Nat) :
      Query.steps (q ++ List.replicate count .skip) false = q.steps false := by
    apply Query.steps_append_skips
    intro e he
    rw [List.eq_of_mem_replicate he]
    rfl
  refine ⟨List.isChain_destutter _ _, Query.matchesPath_congr merged Query.endsInSkip_mergeSkips,
    Query.isRootOf_congr merged, fun root => ?_, fun count root => ?_, ?_⟩
  · rw [Tree.select, Walk.guided_congr merged, Tree.select]
  · rw [Tree.select, Walk.guided_congr (trailing count), Tree.select]
  · intro count σ handler root memory
    exact ⟨Walk.guided_congr merged _ _ _, Walk.guided_congr (trailing count) _ _ _⟩

/-- A key between two runs of skips. -/
example : Query.mergeSkips [.skip, .skip, .key "a", .skip, .skip, .skip] =
    [.skip, .key "a", .skip] := by
  rfl

end DocQuery
