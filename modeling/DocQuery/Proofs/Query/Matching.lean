import DocQuery.Proofs.Query.Split
import Mathlib.Data.List.DropRight

/-!
# The matcher of paths

The matcher reads the keys of a path from left to right and never comes back to one. It accepts the
paths that the elements of a query split by their keys alone, and if the query ends in a skip all
paths below these (`matchesPath_iff`).
-/

namespace DocQuery

/-! ## Shares judged by the key alone -/

namespace Share

variable {s : Share} {shares : List Share}

theorem fits_byKey_iff : s.Fits byKey ↔ (s.passed ≠ [] → s.afterSkip = true) ∧
    (∀ key ∈ s.passed, s.element.matchesKey key = false) ∧ s.element.matchesKey s.key = true := by
  constructor
  · intro h
    refine ⟨h.afterSkip_eq_true, fun key mem => ?_, h.taken⟩
    obtain ⟨before, after, hp⟩ := List.append_of_mem mem
    have refused := h.refused before key after hp
    simpa [byKey] using refused
  · rintro ⟨skip, refused, taken⟩
    refine ⟨fun no => ?_, fun before key after hp => ?_, taken⟩
    · by_contra some
      rw [skip some] at no
      cases no
    · have mem : key ∈ s.passed := by simp [hp]
      simp [byKey, refused key mem]

theorem fit_byKey_iff : Fit byKey shares ↔ ∀ s ∈ shares, s.Fits byKey := by
  induction shares with
  | nil => simp [Fit]
  | cons s shares ih =>
    rw [List.forall_mem_cons, ← ih]
    exact Iff.rfl

end Share

/-! ## A path and what may follow -/

/-- The elements split `path` or, if `more` keys may follow, a path above it. -/
def SplitsStart (takes : Taking) (steps : List Step) (more : Bool) (path : Path) : Prop :=
  ∃ start, start <+: path ∧ Splits takes steps start ∧ (start = path ∨ more = true)

variable {takes : Taking} {step : Step} {steps : List Step} {more : Bool} {key : String}
  {path start : Path}

theorem splitsStart_nil : SplitsStart takes [] more path ↔ path = [] ∨ more = true := by
  constructor
  · rintro ⟨start, -, h, rest⟩
    obtain rfl := splits_nil.1 h
    exact rest.imp_left Eq.symm
  · intro rest
    exact ⟨[], List.nil_prefix, splits_nil.2 rfl, rest.imp_left Eq.symm⟩

theorem splitsStart_false : SplitsStart takes steps false path ↔ Splits takes steps path := by
  constructor
  · rintro ⟨start, -, h, rest⟩
    obtain rfl := rest.resolve_right Bool.false_ne_true
    exact h
  · intro h
    exact ⟨path, List.prefix_refl _, h, .inl rfl⟩

theorem not_splitsStart_cons_nil : ¬ SplitsStart takes (step :: steps) more [] := by
  rintro ⟨start, le, h, -⟩
  obtain rfl := List.prefix_nil.1 le
  exact not_splits_cons_nil h

theorem splitsStart_cons_cons : SplitsStart takes (step :: steps) more (key :: path) ↔
    (takes step.element [] key ∧ SplitsStart (takes.after [key]) steps more path) ∨
    (step.afterSkip = true ∧ ¬ takes step.element [] key ∧
      SplitsStart (takes.after [key]) (step :: steps) more path) := by
  constructor
  · rintro ⟨start, le, h, rest⟩
    cases start with
    | nil => exact absurd h not_splits_cons_nil
    | cons k start =>
      obtain ⟨rfl, below⟩ := List.cons_prefix_cons.1 le
      have rest' : start = path ∨ more = true := rest.imp_left List.tail_eq_of_cons_eq
      obtain ⟨taken, h⟩ | ⟨skip, refused, h⟩ := splits_cons_cons.1 h
      · exact .inl ⟨taken, start, below, h, rest'⟩
      · exact .inr ⟨skip, refused, start, below, h, rest'⟩
  · rintro (⟨taken, start, le, h, rest⟩ | ⟨skip, refused, start, le, h, rest⟩)
    · exact ⟨key :: start, List.cons_prefix_cons.2 ⟨rfl, le⟩, splits_cons_cons.2 (.inl ⟨taken, h⟩),
        rest.imp_left (congrArg _)⟩
    · exact ⟨key :: start, List.cons_prefix_cons.2 ⟨rfl, le⟩,
        splits_cons_cons.2 (.inr ⟨skip, refused, h⟩), rest.imp_left (congrArg _)⟩

theorem SplitsStart.of_isPrefix (h : SplitsStart takes steps more start) (le : start <+: path) :
    SplitsStart takes steps true path := by
  obtain ⟨above, below, splits, -⟩ := h
  exact ⟨above, below.trans le, splits, .inr rfl⟩

theorem splitsStart_append {steps' : List Step} :
    SplitsStart takes (steps ++ steps') more path ↔ ∃ start rest, path = start ++ rest ∧
      Splits takes steps start ∧ SplitsStart (takes.after start) steps' more rest := by
  constructor
  · rintro ⟨_, ⟨below, rfl⟩, h, done⟩
    obtain ⟨start, rest, rfl, first, later⟩ := splits_append.1 h
    refine ⟨start, rest ++ below, List.append_assoc _ _ _, first, rest, ⟨below, rfl⟩, later, ?_⟩
    exact done.imp_left fun same => by simpa using same
  · rintro ⟨start, _, rfl, first, rest, ⟨below, rfl⟩, later, done⟩
    refine ⟨start ++ rest, ⟨below, List.append_assoc _ _ _⟩,
      splits_append.2 ⟨_, _, rfl, first, later⟩, ?_⟩
    exact done.imp_left fun same => by simpa using same

/-! ## The matcher -/

namespace Query

variable {q rest : Query} {e : Element} {skipping : Bool} {keys : List String}

/-- Whether a skip is the last of the query. With `skipping` one stands before the query. -/
def endsInSkip : Query → (skipping : Bool) → Bool
  | [], skipping => skipping
  | e :: rest, _ => endsInSkip rest e.isSkip

def withoutTrailingSkips (q : Query) : Query :=
  q.rdropWhile Element.isSkip

theorem endsInSkip_concat : (q ++ [e]).endsInSkip skipping = e.isSkip := by
  induction q generalizing skipping with
  | nil => rfl
  | cons e' q ih => exact ih

theorem endsInSkip_eq_any : q.endsInSkip false = q.getLast?.any Element.isSkip := by
  induction q using List.reverseRecOn with
  | nil => rfl
  | append_singleton q e => rw [endsInSkip_concat, List.getLast?_concat, Option.any_some]

theorem endsInSkip_withoutTrailingSkips : q.withoutTrailingSkips.endsInSkip false = false := by
  induction q using List.reverseRecOn with
  | nil => rfl
  | append_singleton q e ih =>
    rw [withoutTrailingSkips, List.rdropWhile_concat]
    cases he : e.isSkip with
    | true => exact ih
    | false =>
      rw [if_neg Bool.false_ne_true, endsInSkip_concat]
      exact he

theorem steps_withoutTrailingSkips : q.withoutTrailingSkips.steps skipping = q.steps skipping := by
  have skips : ∀ e ∈ q.rtakeWhile Element.isSkip, e.isSkip = true :=
    fun e he => List.mem_rtakeWhile_imp he
  rw [← steps_append_skips (q := q.withoutTrailingSkips) skips, withoutTrailingSkips,
    List.rdropWhile_append_rtakeWhile]

theorem matchesKeys_cons_nil (h : e.isSkip = false) :
    matchesKeys (e :: rest) skipping [] = false := by
  rw [matchesKeys]
  cases skipping <;> simp [h]

/-- The first key is taken by the first element or passed over. -/
theorem matchesKeys_cons_cons (h : e.isSkip = false) :
    matchesKeys (e :: rest) skipping (key :: keys) = true ↔
      (e.matchesKey key = true ∧ matchesKeys rest false keys = true) ∨
      (skipping = true ∧ ¬ e.matchesKey key = true ∧
        matchesKeys (e :: rest) skipping keys = true) := by
  by_cases hk : e.matchesKey key = true
  · cases skipping <;> simp [matchesKeys, h, hk]
  · cases skipping <;> simp [matchesKeys, h, hk]

theorem matchesKeys_iff : q.matchesKeys skipping keys = true ↔
    SplitsStart byKey (q.steps skipping) (q.endsInSkip skipping) keys := by
  induction q generalizing skipping keys with
  | nil => simp [matchesKeys, steps, endsInSkip, splitsStart_nil, or_comm]
  | cons e rest ih =>
    cases he : e.isSkip with
    | true => simp only [matchesKeys, steps, endsInSkip, he, if_true, ih]
    | false =>
      have first : steps (e :: rest) skipping = ⟨e, skipping⟩ :: steps rest false := by
        simp [steps, he]
      rw [first, endsInSkip, he]
      induction keys with
      | nil => simp [matchesKeys_cons_nil he, not_splitsStart_cons_nil]
      | cons key keys each =>
        rw [matchesKeys_cons_cons he, splitsStart_cons_cons, ih]
        exact or_congr_right (and_congr_right fun _ => and_congr_right fun _ => each)

/-- The matcher accepts the paths that the elements split by their keys alone, and if the query ends
in a skip the paths below them. -/
theorem matchesPath_iff : q.matchesPath path = true ↔
    SplitsStart byKey (q.steps false) (q.endsInSkip false) path :=
  matchesKeys_iff

theorem matchesPath_iff_of_isPrefix (h : Splits byKey (q.steps false) start) (le : start <+: path) :
    q.matchesPath path = true ↔ start = path ∨ q.endsInSkip false = true := by
  rw [matchesPath_iff]
  constructor
  · rintro ⟨start', le', h', rest⟩
    obtain rfl := h'.eq_of_above h le' le
    exact rest
  · intro rest
    exact ⟨start, le, h, rest⟩

end Query

end DocQuery
