import DocQuery.Proofs.Composition

/-!
# What the matcher of paths accepts

* `matchesPath_iff_cut`: a query accepts the paths whose keys fall to its elements one after another.
  The matcher never comes back to a key and need not, since there is one way to cut a path at most;
* `isRootOf_iff_prefix`: a path lies below a query if a path above it, or the path itself, is
  accepted. The query of a path accepts that path alone.
-/

namespace DocQuery

namespace Query

variable {q : Query} {path a : Path} {shares : List Share} {rest : Path}

/-! ## The keys of a path and the elements of a query -/

/-- How the keys of a path fall to a query: a share to each element that takes a key, and `rest` to
the skip that the query may end in. -/
structure Cut (q : Query) (path : Path) (shares : List Share) (rest : Path) : Prop where
  /-- The elements that are no skips, in order, each with whether a skip stands before it. -/
  steps_eq : shares.map Share.toStep = q.steps false
  keys_eq : Share.keys shares ++ rest = path
  afterSkip : ∀ s ∈ shares, s.passed ≠ [] → s.afterSkip = true
  refused : ∀ s ∈ shares, ∀ key ∈ s.passed, s.element.matchesKey key = false
  taken : ∀ s ∈ shares, s.element.matchesKey s.key = true
  endsInSkip : rest ≠ [] → q.getLast?.any Element.isSkip = true

theorem cut_iff : q.Cut path shares rest ↔
    Split byKey (q.steps false) (Share.keys shares) shares ∧ Share.keys shares ++ rest = path ∧
      (rest = [] ∨ q.endsInSkip false = true) := by
  constructor
  · intro h
    have fit : Share.Fit byKey shares := Share.fit_byKey_iff.2 fun s hs =>
      Share.fits_byKey_iff.2 ⟨h.afterSkip s hs, h.refused s hs, h.taken s hs⟩
    refine ⟨⟨h.steps_eq, rfl, fit⟩, h.keys_eq, ?_⟩
    by_cases none : rest = []
    · exact .inl none
    · exact .inr (endsInSkip_eq_any.trans (h.endsInSkip none))
  · rintro ⟨split, keys, done⟩
    have fits := fun s hs => Share.fits_byKey_iff.1 (Share.fit_byKey_iff.1 split.fit s hs)
    refine ⟨split.steps_eq, keys, fun s hs => (fits s hs).1, fun s hs => (fits s hs).2.1,
      fun s hs => (fits s hs).2.2, fun some => ?_⟩
    exact endsInSkip_eq_any.symm.trans (done.resolve_left some)

theorem matchesPath_iff_exists_cut :
    q.matchesPath path = true ↔ ∃ shares rest, q.Cut path shares rest := by
  rw [matchesPath_iff]
  constructor
  · rintro ⟨start, ⟨rest, rfl⟩, ⟨shares, split⟩, done⟩
    obtain rfl := split.keys_eq
    refine ⟨shares, rest, cut_iff.2 ⟨split, rfl, done.imp_left fun whole => ?_⟩⟩
    simpa using whole
  · rintro ⟨shares, rest, cut⟩
    obtain ⟨split, rfl, done⟩ := cut_iff.1 cut
    refine ⟨Share.keys shares, ⟨rest, rfl⟩, ⟨shares, split⟩, done.imp_left ?_⟩
    rintro rfl
    exact (List.append_nil _).symm

theorem Cut.unique {shares' : List Share} {rest' : Path} (h : q.Cut path shares rest)
    (h' : q.Cut path shares' rest') : shares = shares' ∧ rest = rest' := by
  obtain ⟨split, keys, -⟩ := cut_iff.1 h
  obtain ⟨split', keys', -⟩ := cut_iff.1 h'
  have le : Share.keys shares <+: path := ⟨rest, keys⟩
  have le' : Share.keys shares' <+: path := ⟨rest', keys'⟩
  obtain ⟨-, rfl⟩ := split.eq_of_above split' le le'
  exact ⟨rfl, List.append_cancel_left (keys.trans keys'.symm)⟩

/-! ## Paths below -/

/-- The skip that is added has no element to stand before. It lets any keys follow. -/
theorem isRootOf_iff_splitsStart :
    q.isRootOf path = true ↔ SplitsStart byKey (q.steps false) true path := by
  have skips : ∀ e ∈ [Element.skip], e.isSkip = true := by decide
  rw [isRootOf, matchesPath_iff, steps_append_skips skips, endsInSkip_concat]
  rfl

theorem isRootOf_iff_exists_prefix :
    q.isRootOf path = true ↔ ∃ above, above <+: path ∧ q.matchesPath above = true := by
  rw [isRootOf_iff_splitsStart]
  constructor
  · rintro ⟨start, le, splits, -⟩
    have whole : SplitsStart byKey (q.steps false) (q.endsInSkip false) start :=
      ⟨start, List.prefix_refl _, splits, .inl rfl⟩
    exact ⟨start, le, matchesPath_iff.2 whole⟩
  · rintro ⟨above, le, accepted⟩
    exact (matchesPath_iff.1 accepted).of_isPrefix le

/-! ## Queries of paths -/

theorem splits_ofPath : Splits byKey ((ofPath a).steps false) path ↔ a = path := by
  induction a generalizing path with
  | nil => exact splits_nil.trans eq_comm
  | cons key a ih =>
    have first : (ofPath (key :: a)).steps false = ⟨.key key, false⟩ :: (ofPath a).steps false :=
      rfl
    rw [first]
    cases path with
    | nil => exact iff_of_false not_splits_cons_nil (List.cons_ne_nil _ _)
    | cons k path =>
      have taken : byKey (.key key) [] k ↔ key = k := beq_iff_eq
      have below : byKey.after [k] = byKey := rfl
      simp only [splits_cons_cons, taken, below, ih, Bool.false_eq_true, false_and, or_false,
        List.cons.injEq]

theorem matchesPath_ofPath : (ofPath a).matchesPath path = true ↔ a = path := by
  rw [matchesPath_iff, endsInSkip_ofPath, splitsStart_false, splits_ofPath]

theorem isRootOf_ofPath : (ofPath a).isRootOf path = path.isRelativeTo a := by
  rw [Bool.eq_iff_iff, isRootOf_iff_exists_prefix, Path.isRelativeTo, List.isPrefixOf_iff_prefix]
  simp only [matchesPath_ofPath, exists_eq_right']

end Query

/-- **The matcher decides whether a path can be cut among the elements of a query.** Each element
that is no skip takes one key. Before it other keys may stand if a skip does, none of which it would
take, and after the last key others may stand if the query ends in a skip. There is one such cut at
most. -/
theorem matchesPath_iff_cut (q : Query) (path : Path) :
    (q.matchesPath path = true ↔ ∃ shares rest, q.Cut path shares rest) ∧
    ∀ shares rest shares' rest', q.Cut path shares rest → q.Cut path shares' rest' →
      shares = shares' ∧ rest = rest' :=
  ⟨Query.matchesPath_iff_exists_cut, fun _ _ _ _ h h' => h.unique h'⟩

theorem matchesPath_iff_cut_around_key :
    Query.Cut [.skip, .key "b", .skip] ["a", "b", "c"] [⟨⟨.key "b", true⟩, ["a"], "b"⟩] ["c"] ∧
      Query.matchesPath [.skip, .key "b", .skip] ["a", "b", "c"] = true ∧
      ∀ shares rest, Query.Cut [.skip, .key "b", .skip] ["a", "b", "c"] shares rest →
        shares = [⟨⟨.key "b", true⟩, ["a"], "b"⟩] ∧ rest = ["c"] := by
  have cut : Query.Cut [.skip, .key "b", .skip] ["a", "b", "c"] [⟨⟨.key "b", true⟩, ["a"], "b"⟩]
      ["c"] := by
    refine ⟨rfl, rfl, ?_, ?_, ?_, fun _ => rfl⟩ <;> simp [Element.matchesKey]
  obtain ⟨accepts, unique⟩ := matchesPath_iff_cut [.skip, .key "b", .skip] ["a", "b", "c"]
  exact ⟨cut, accepts.2 ⟨_, _, cut⟩, fun shares rest other => unique _ _ _ _ other cut⟩

/-- **A path lies below a query if the query accepts it or a path above it.** So do all paths below
it. The query of a path accepts that path, and the paths below are those relative to it. -/
theorem isRootOf_iff_prefix :
    (∀ (q : Query) (path : Path), q.isRootOf path = true ↔
      ∃ above, above <+: path ∧ q.matchesPath above = true) ∧
    (∀ (q : Query) (path below : Path), path <+: below → q.isRootOf path = true →
      q.isRootOf below = true) ∧
    ∀ a b : Path, ((Query.ofPath a).matchesPath b = true ↔ a = b) ∧
      (Query.ofPath a).isRootOf b = b.isRelativeTo a ∧
      (Query.ofPath a).isRootOf b = a.isRootOf b := by
  refine ⟨fun _ _ => Query.isRootOf_iff_exists_prefix, fun q path below le h => ?_, fun a b => ?_⟩
  · have splits := Query.isRootOf_iff_splitsStart.1 h
    exact Query.isRootOf_iff_splitsStart.2 (splits.of_isPrefix le)
  · exact ⟨Query.matchesPath_ofPath, Query.isRootOf_ofPath, Query.isRootOf_ofPath⟩

theorem isRootOf_iff_prefix_below_skip :
    Query.matchesPath [.key "a", .skip, .key "c"] ["a", "b", "c"] = true ∧
      ["a", "b", "c"] <+: ["a", "b", "c", "d"] ∧
      Query.isRootOf [.key "a", .skip, .key "c"] ["a", "b", "c", "d"] = true := by
  have accepted : Query.matchesPath [.key "a", .skip, .key "c"] ["a", "b", "c"] = true := by decide
  have le : ["a", "b", "c"] <+: ["a", "b", "c", "d"] := ⟨["d"], rfl⟩
  obtain ⟨root_iff, closed, -⟩ := isRootOf_iff_prefix
  have root := (root_iff _ ["a", "b", "c"]).2 ⟨_, List.prefix_refl _, accepted⟩
  exact ⟨accepted, le, closed _ _ _ le root⟩

end DocQuery
