import DocQuery.Query.Basic
import Mathlib.Data.List.Forall2
import Mathlib.Data.List.TakeWhile

/-!
# Splits of a path

What a query asks of a path, said without a walk. The path is cut into shares, one for each element
that takes a key; a share ends with the key that its element takes, and after a skip it may begin
with keys that the element does not take.

* `split_cons_cons`: the first key of a path is taken by the first element or passed over by it, and
  the rest of the path is split in turn;
* `Split.eq_of_isPrefix`: of a path and the paths above it at most one is split, and in one way.

What it means that an element takes a key is left open (`Taking`). It may look at the key alone
(`byKey`), or at the node that the key leads to in a tree (`inTree`).
-/

namespace DocQuery

/-- An element that takes a key, and whether a skip stands between it and the one before. -/
structure Step where
  element : Element
  afterSkip : Bool

/-- The elements of a query that take keys. With `skipping` a skip stands before the query. -/
def Query.steps : Query → (skipping : Bool) → List Step
  | [], _ => []
  | e :: rest, skipping =>
    if e.isSkip then steps rest true else ⟨e, skipping⟩ :: steps rest false

/-- Whether an element takes a key, given the keys that lead to it. -/
abbrev Taking := Element → Path → String → Prop

namespace Taking

/-- What is taken below the end of `path`. -/
def after (takes : Taking) (path : Path) : Taking :=
  fun e before key => takes e (path ++ before) key

end Taking

/-- Judging by the key alone. -/
def byKey : Taking :=
  fun e _ key => e.matchesKey key = true

/-- There is a child under `key` that the element accepts, key and value. -/
def Element.Takes (e : Element) (node : Tree) (key : String) : Prop :=
  ∃ child, node.child? key = some child ∧ e.matchesKey key = true ∧ e.matchesValue child = true

/-- Judging by the node that the key stands at, below `root`. -/
def inTree (root : Tree) : Taking :=
  fun e before key => ∃ node, before.resolve? root = some node ∧ e.Takes node key

/-- What one element has of a path: keys passed over, and then the key that it takes. -/
structure Share extends Step where
  passed : Path
  key : String

namespace Share

def path (s : Share) : Path :=
  s.passed ++ [s.key]

/-- The path that is cut into `shares`. -/
def keys (shares : List Share) : Path :=
  shares.flatMap path

/-- Keys are passed over after a skip only, and none of them is one that the element takes. -/
structure Fits (takes : Taking) (s : Share) : Prop where
  passed_eq_nil : s.afterSkip = false → s.passed = []
  refused : ∀ before key after, s.passed = before ++ key :: after → ¬ takes s.element before key
  taken : takes s.element s.passed s.key

/-- Each share fits where the ones before it end. -/
def Fit (takes : Taking) : List Share → Prop
  | [] => True
  | s :: shares => s.Fits takes ∧ Fit (takes.after s.path) shares

/-- The share with one more key passed over, ahead of the others. -/
def pass (key : String) (s : Share) : Share :=
  { s with passed := key :: s.passed }

end Share

/-- `path` is cut into `shares`, one for each of `steps`. -/
structure Split (takes : Taking) (steps : List Step) (path : Path) (shares : List Share) : Prop where
  steps_eq : shares.map Share.toStep = steps
  keys_eq : Share.keys shares = path
  fit : Share.Fit takes shares

def Splits (takes : Taking) (steps : List Step) (path : Path) : Prop :=
  ∃ shares, Split takes steps path shares

variable {takes takes' : Taking} {e : Element} {step : Step} {steps : List Step} {key : String}
  {path path' : Path} {s : Share} {shares shares' : List Share}

theorem Taking.after_nil : takes.after [] = takes := rfl

theorem Taking.after_after : (takes.after path).after path' = takes.after (path ++ path') := by
  funext e before key
  simp only [after, List.append_assoc]

/-! ## The steps of a query -/

namespace Query

variable {q skips : Query} {skipping : Bool}

theorem steps_eq_nil (h : q.dropWhile Element.isSkip = []) : q.steps skipping = [] := by
  induction q generalizing skipping with
  | nil => rfl
  | cons e q ih =>
    cases he : e.isSkip with
    | true =>
      rw [List.dropWhile_cons_of_pos he] at h
      simp [steps, he, ih h]
    | false => simp [he] at h

theorem steps_eq_cons {rest : Query} (h : q.dropWhile Element.isSkip = e :: rest) :
    q.steps skipping = ⟨e, skipping || q.head?.any Element.isSkip⟩ :: rest.steps false := by
  induction q generalizing skipping with
  | nil => cases h
  | cons e' q ih =>
    cases he : e'.isSkip with
    | true =>
      rw [List.dropWhile_cons_of_pos he] at h
      simp [steps, he, ih h]
    | false =>
      obtain ⟨rfl, rfl⟩ := List.cons.inj ((List.dropWhile_cons_of_neg (by simp [he])).symm.trans h)
      simp [steps, he]

theorem mem_of_mem_steps (h : step ∈ q.steps skipping) : step.element ∈ q := by
  induction q generalizing skipping with
  | nil => cases h
  | cons e q ih =>
    rw [steps] at h
    split at h
    · exact .tail _ (ih h)
    · cases h with
      | head => exact .head _
      | tail _ h => exact .tail _ (ih h)

/-- Skips at the end of a query have no element to stand before. -/
theorem steps_append_skips (h : ∀ e ∈ skips, e.isSkip = true) :
    (q ++ skips).steps skipping = q.steps skipping := by
  induction q generalizing skipping with
  | nil => exact steps_eq_nil (List.dropWhile_eq_nil_iff.2 h)
  | cons e q ih => simp only [List.cons_append, steps, ih]

/-- Queries that correspond element by element have steps that do. -/
theorem forall₂_steps {related : Element → Element → Prop} {q' : Query}
    (skips : ∀ e e', related e e' → e.isSkip = e'.isSkip) (h : List.Forall₂ related q q')
    (skipping : Bool) :
    List.Forall₂ (fun s t => s.afterSkip = t.afterSkip ∧ related s.element t.element)
      (q.steps skipping) (q'.steps skipping) := by
  induction h generalizing skipping with
  | nil => exact .nil
  | cons first _ ih =>
    simp only [steps, skips _ _ first]
    split
    · exact ih true
    · exact .cons ⟨rfl, first⟩ (ih false)

end Query

namespace Share

@[simp]
theorem keys_nil : keys [] = [] := rfl

@[simp]
theorem keys_cons : keys (s :: shares) = s.path ++ keys shares := by
  simp [keys]

@[simp]
theorem keys_append : keys (shares ++ shares') = keys shares ++ keys shares' := by
  simp [keys]

theorem path_ne_nil (s : Share) : s.path ≠ [] := by
  simp [path]

theorem fit_append : Fit takes (shares ++ shares') ↔
    Fit takes shares ∧ Fit (takes.after (keys shares)) shares' := by
  induction shares generalizing takes with
  | nil => simp [Fit, Taking.after_nil]
  | cons s shares ih =>
    simp only [List.cons_append, Fit, ih, keys_cons, Taking.after_after, and_assoc]

theorem Fit.fits {before after : List Share} (h : Fit takes (before ++ s :: after)) :
    s.Fits (takes.after (keys before)) :=
  (fit_append.1 h).2.1

theorem Fits.afterSkip_eq_true (h : s.Fits takes) (some : s.passed ≠ []) : s.afterSkip = true := by
  by_contra no
  exact some (h.passed_eq_nil (by simpa using no))

theorem fits_take : Fits takes ⟨step, [], key⟩ ↔ takes step.element [] key := by
  constructor
  · exact fun h => h.taken
  · exact fun h => ⟨fun _ => rfl, fun _ _ _ e => by simp at e, h⟩

theorem fits_pass : (s.pass key).Fits takes ↔
    s.afterSkip = true ∧ ¬ takes s.element [] key ∧ s.Fits (takes.after [key]) := by
  constructor
  · intro h
    have skip : s.afterSkip = true := h.afterSkip_eq_true (List.cons_ne_nil _ _)
    refine ⟨skip, h.refused [] key s.passed rfl, by simp [skip], ?_, h.taken⟩
    intro before k after hp
    exact h.refused (key :: before) k after (by simp [pass, hp])
  · rintro ⟨skip, first, h⟩
    refine ⟨fun no => ?_, fun before k after hp => ?_, h.taken⟩
    · exact absurd skip (by simpa [pass] using no)
    · cases before with
      | nil =>
        obtain ⟨rfl, -⟩ := List.cons.inj hp
        exact first
      | cons k' before =>
        obtain ⟨rfl, tail⟩ := List.cons.inj hp
        exact h.refused before k after tail

end Share

/-! ## Key by key -/

theorem split_nil : Split takes [] path shares ↔ path = [] ∧ shares = [] := by
  constructor
  · rintro ⟨hs, rfl, -⟩
    obtain rfl := List.map_eq_nil_iff.1 hs
    exact ⟨rfl, rfl⟩
  · rintro ⟨rfl, rfl⟩
    exact ⟨rfl, rfl, trivial⟩

theorem not_split_cons_nil : ¬ Split takes (step :: steps) [] shares := by
  rintro ⟨hs, hk, -⟩
  obtain ⟨s, rest, rfl, -, -⟩ := List.map_eq_cons_iff.1 hs
  simp [s.path_ne_nil] at hk

theorem split_cons_cons : Split takes (step :: steps) (key :: path) shares ↔
    (takes step.element [] key ∧ ∃ rest, shares = ⟨step, [], key⟩ :: rest ∧
      Split (takes.after [key]) steps path rest) ∨
    (step.afterSkip = true ∧ ¬ takes step.element [] key ∧ ∃ s rest, shares = s.pass key :: rest ∧
      Split (takes.after [key]) (step :: steps) path (s :: rest)) := by
  constructor
  · rintro ⟨hs, hk, hf⟩
    obtain ⟨⟨step, passed, last⟩, rest, rfl, rfl, rfl⟩ := List.map_eq_cons_iff.1 hs
    cases passed with
    | nil =>
      obtain ⟨rfl, rfl⟩ := List.cons.inj hk
      exact .inl ⟨Share.fits_take.1 hf.1, rest, rfl, rfl, rfl, hf.2⟩
    | cons k passed =>
      obtain ⟨rfl, rfl⟩ := List.cons.inj hk
      obtain ⟨skip, first, h⟩ := Share.fits_pass (s := ⟨step, passed, last⟩).1 hf.1
      exact .inr ⟨skip, first, ⟨step, passed, last⟩, rest, rfl, rfl, rfl, h, hf.2⟩
  · rintro (⟨ht, rest, rfl, rfl, rfl, hf⟩ | ⟨skip, first, s, rest, rfl, hs, rfl, hf⟩)
    · exact ⟨rfl, rfl, Share.fits_take.2 ht, hf⟩
    · obtain ⟨rfl, rfl⟩ := List.cons.inj hs
      exact ⟨rfl, rfl, Share.fits_pass.2 ⟨skip, first, hf.1⟩, hf.2⟩

theorem splits_nil : Splits takes [] path ↔ path = [] := by
  simp [Splits, split_nil]

theorem not_splits_cons_nil : ¬ Splits takes (step :: steps) [] :=
  fun ⟨_, h⟩ => not_split_cons_nil h

theorem splits_cons_cons : Splits takes (step :: steps) (key :: path) ↔
    (takes step.element [] key ∧ Splits (takes.after [key]) steps path) ∨
    (step.afterSkip = true ∧ ¬ takes step.element [] key ∧
      Splits (takes.after [key]) (step :: steps) path) := by
  constructor
  · rintro ⟨shares, h⟩
    obtain ⟨ht, rest, -, h⟩ | ⟨skip, first, s, rest, -, h⟩ := split_cons_cons.1 h
    · exact .inl ⟨ht, rest, h⟩
    · exact .inr ⟨skip, first, s :: rest, h⟩
  · rintro (⟨ht, rest, h⟩ | ⟨skip, first, shares, h⟩)
    · exact ⟨_, split_cons_cons.2 (.inl ⟨ht, rest, rfl, h⟩)⟩
    · obtain ⟨s, rest, rfl, -, -⟩ := List.map_eq_cons_iff.1 h.steps_eq
      exact ⟨_, split_cons_cons.2 (.inr ⟨skip, first, s, rest, rfl, h⟩)⟩

/-- Of a path and the paths above it at most one is split, and in one way. -/
theorem Split.eq_of_isPrefix (h : Split takes steps path shares)
    (h' : Split takes steps path' shares') (le : path <+: path') :
    path = path' ∧ shares = shares' := by
  induction path generalizing takes steps path' shares shares' with
  | nil =>
    cases steps with
    | nil => exact ⟨(split_nil.1 h').1.symm, (split_nil.1 h).2.trans (split_nil.1 h').2.symm⟩
    | cons step steps => exact absurd h not_split_cons_nil
  | cons key path ih =>
    obtain ⟨path', rfl, le'⟩ := List.cons_prefix_iff.1 le
    cases steps with
    | nil => cases (split_nil.1 h).1
    | cons step steps =>
      -- The first key decides for both alike whether it is taken.
      obtain ⟨ht, rest, rfl, hr⟩ | ⟨-, hn, s, rest, rfl, hr⟩ := split_cons_cons.1 h <;>
        obtain ⟨ht', rest', rfl, hr'⟩ | ⟨-, hn', s', rest', rfl, hr'⟩ := split_cons_cons.1 h'
      · obtain ⟨hp, rfl⟩ := ih hr hr' le'
        exact ⟨congrArg (key :: ·) hp, rfl⟩
      · exact absurd ht hn'
      · exact absurd ht' hn
      · obtain ⟨hp, hs⟩ := ih hr hr' le'
        obtain ⟨rfl, rfl⟩ := List.cons.inj hs
        exact ⟨congrArg (key :: ·) hp, rfl⟩

/-- Two split paths above one path are the same, and are split alike. -/
theorem Split.eq_of_above {start start' : Path} (h : Split takes steps start shares)
    (h' : Split takes steps start' shares') (le : start <+: path) (le' : start' <+: path) :
    start = start' ∧ shares = shares' := by
  obtain below | below := List.prefix_or_prefix_of_prefix le le'
  · exact h.eq_of_isPrefix h' below
  · obtain ⟨hp, hs⟩ := h'.eq_of_isPrefix h below
    exact ⟨hp.symm, hs.symm⟩

theorem Split.unique (h : Split takes steps path shares) (h' : Split takes steps path shares') :
    shares = shares' :=
  (h.eq_of_isPrefix h' (List.prefix_refl _)).2

theorem Splits.eq_of_isPrefix (h : Splits takes steps path) (h' : Splits takes steps path')
    (le : path <+: path') : path = path' := by
  obtain ⟨shares, h⟩ := h
  obtain ⟨shares', h'⟩ := h'
  exact (h.eq_of_isPrefix h' le).1

theorem Splits.eq_of_above {start start' : Path} (h : Splits takes steps start)
    (h' : Splits takes steps start') (le : start <+: path) (le' : start' <+: path) :
    start = start' := by
  obtain ⟨shares, h⟩ := h
  obtain ⟨shares', h'⟩ := h'
  exact (h.eq_of_above h' le le').1

/-- Of steps one after another, the later ones split what is left. -/
theorem splits_append {steps' : List Step} : Splits takes (steps ++ steps') path ↔
    ∃ start rest, path = start ++ rest ∧ Splits takes steps start ∧
      Splits (takes.after start) steps' rest := by
  constructor
  · rintro ⟨shares, hs, rfl, hf⟩
    obtain ⟨first, later, rfl, rfl, rfl⟩ := List.map_eq_append_iff.1 hs
    obtain ⟨fit, fit'⟩ := Share.fit_append.1 hf
    exact ⟨_, _, Share.keys_append, ⟨first, rfl, rfl, fit⟩, later, rfl, rfl, fit'⟩
  · rintro ⟨start, rest, rfl, ⟨first, rfl, rfl, fit⟩, later, rfl, rfl, fit'⟩
    exact ⟨first ++ later, List.map_append, Share.keys_append, Share.fit_append.2 ⟨fit, fit'⟩⟩

/-- Only what is taken on the path counts. -/
theorem splits_congr {ss ts : List Step}
    (h : List.Forall₂ (fun s t => s.afterSkip = t.afterSkip ∧
      ∀ before key, before ++ [key] <+: path →
        (takes s.element before key ↔ takes' t.element before key)) ss ts) :
    Splits takes ss path ↔ Splits takes' ts path := by
  induction path generalizing takes takes' ss ts with
  | nil =>
    cases h with
    | nil => simp only [splits_nil]
    | cons => simp only [not_splits_cons_nil]
  | cons key path ih =>
    have below {s t : Step} (h : ∀ before k, before ++ [k] <+: key :: path →
        (takes s.element before k ↔ takes' t.element before k)) (before : Path) (k : String)
        (le : before ++ [k] <+: path) :
        takes.after [key] s.element before k ↔ takes'.after [key] t.element before k :=
      h (key :: before) k (List.cons_prefix_cons.2 ⟨rfl, le⟩)
    cases h with
    | nil => simp only [splits_nil]
    | cons first rest =>
      have rest' := rest.imp fun {s t} h => And.intro h.1 (below h.2)
      rw [splits_cons_cons, splits_cons_cons, first.1, first.2 [] key ⟨path, rfl⟩, ih rest',
        ih (.cons ⟨first.1, below first.2⟩ rest')]

/-! ## In a tree -/

theorem Path.resolve?_nil {root : Tree} : Path.resolve? [] root = some root := rfl

theorem Path.resolve?_cons {root : Tree} :
    Path.resolve? (key :: path) root = (root.child? key).bind path.resolve? :=
  List.foldlM_cons

theorem Path.resolve?_singleton {root : Tree} : Path.resolve? [key] root = root.child? key := by
  simp [resolve?]

theorem Path.resolve?_append {root : Tree} :
    Path.resolve? (path ++ path') root = (path.resolve? root).bind path'.resolve? :=
  List.foldlM_append

theorem isSome_resolve?_of_isPrefix {root : Tree} {before : Path}
    (h : (path.resolve? root).isSome = true) (le : before <+: path) :
    (before.resolve? root).isSome = true := by
  obtain ⟨after, rfl⟩ := le
  rw [Path.resolve?_append] at h
  exact Option.isSome_of_isSome_bind h

theorem inTree_nil {root : Tree} : inTree root e [] key ↔ e.Takes root key := by
  simp [inTree, Path.resolve?_nil]

theorem inTree_after {root child : Tree} (h : root.child? key = some child) :
    (inTree root).after [key] = inTree child := by
  funext e before k
  simp [inTree, Taking.after, Path.resolve?_cons, h]

/-- A split path leads somewhere, since its last key is taken where it stands. -/
theorem Split.resolves {root : Tree} (h : Split (inTree root) steps path shares) :
    ∃ node, path.resolve? root = some node := by
  obtain rfl | ⟨before, s, rfl⟩ := List.eq_nil_or_concat shares
  · exact ⟨root, by simp [← h.keys_eq, Path.resolve?_nil]⟩
  · obtain ⟨parent, hp, child, hc, -⟩ := (List.concat_eq_append ▸ h.fit).fits.taken
    refine ⟨child, ?_⟩
    rw [← h.keys_eq, List.concat_eq_append, Share.keys_append, Share.keys_cons, Share.path,
      List.append_assoc, ← List.append_assoc, Path.resolve?_append, hp]
    simp [Path.resolve?_cons, Path.resolve?_nil, hc]

end DocQuery
