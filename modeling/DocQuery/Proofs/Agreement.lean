import DocQuery.Proofs.InTurn
import DocQuery.Proofs.Query.Matching
import DocQuery.Proofs.Selection
import DocQuery.Query.Parser

/-!
# Walks and the matcher of paths

A walk looks at keys and values, the matcher at the keys of a path alone.

* `select_agrees`: where no element looks at a value, the walk selects the paths of the tree that
  the matcher accepts;
* `Query.asksForLeaves_of_parse`: what a query read from text asks of a value is a text;
* `matchesPath_of_selected`: where an element looks at values, the matcher may take a key that the
  walk has passed over for its value. It then accepts the path only if the query ends in a skip.
-/

namespace DocQuery

theorem Tree.isContainer_of_same {a b : Tree} (h : a.same b = true)
    (container : b.isContainer = true) : a.isContainer = true := by
  cases b with
  | array | object => cases a <;> first | rfl | simp [same] at h
  | _ => cases container

/-- Whether the value under a key matters. -/
def Pattern.readsValue : Pattern → Bool
  | .test .primitive _ _ => true
  | p => p.value?.isSome

namespace Element

def readsValue : Element → Bool
  | .key _ => false
  | .pattern p => p.readsValue

def value? : Element → Option Tree
  | .key _ => none
  | .pattern p => p.value?

theorem matchesValue_of_not_readsValue {e : Element} (h : e.readsValue = false) (value : Tree) :
    e.matchesValue value = true := by
  cases e with
  | key => rfl
  | pattern p =>
    cases p with
    | test keys asked marker =>
      cases keys with
      | primitive => cases h
      | _ =>
        obtain rfl := Option.isNone_iff_eq_none.1 (Option.isSome_eq_false_iff.1 h)
        rfl
    | _ => rfl

/-- An element that asks for leaves accepts no container. -/
theorem not_readsValue_of_isContainer {e : Element} {value : Tree}
    (leaves : ∀ asked, e.value? = some asked → asked.isContainer = false)
    (accepts : e.matchesValue value = true) (container : value.isContainer = true) :
    e.readsValue = false := by
  cases e with
  | key => rfl
  | pattern p =>
    cases p with
    | literal | skip => rfl
    | test keys asked marker =>
      cases keys with
      | primitive =>
        rw [Tree.isContainer_eq_false_of_isPrimitive accepts] at container
        cases container
      | _ =>
        cases asked with
        | none => rfl
        | some asked =>
          have same : asked.same value = true := accepts
          have leaf := leaves asked rfl
          rw [Tree.isContainer_of_same same container] at leaf
          cases leaf

end Element

variable {root : Tree} {e : Element} {path before : Path} {key : String} {steps : List Step}
  {takes : Taking}

theorem isContainer_of_isSome_resolve? {node : Tree} {after : Path}
    (h : before.resolve? root = some node)
    (below : ((before ++ after).resolve? root).isSome = true) (more : after ≠ []) :
    node.isContainer = true := by
  rw [Path.resolve?_append, h, Option.bind_some] at below
  cases after with
  | nil => exact absurd rfl more
  | cons key after =>
    obtain ⟨last, hl⟩ := Option.isSome_iff_exists.1 below
    exact Tree.isContainer_of_resolve? hl

/-- What an element takes that reads no value shows in the key. -/
theorem inTree_iff_matchesKey (blind : e.readsValue = false)
    (h : ((before ++ [key]).resolve? root).isSome = true) :
    inTree root e before key ↔ e.matchesKey key = true := by
  rw [Path.resolve?_append] at h
  obtain ⟨child, hc⟩ := Option.isSome_iff_exists.1 h
  obtain ⟨node, hn, hc⟩ := Option.bind_eq_some_iff.1 hc
  constructor
  · rintro ⟨_, -, _, -, hk, -⟩
    exact hk
  · intro hk
    rw [Path.resolve?_singleton] at hc
    exact ⟨node, hn, child, hc, hk, Element.matchesValue_of_not_readsValue blind child⟩

/-! ## Elements that look at keys alone -/

theorem splits_inTree_iff (blind : ∀ step ∈ steps, step.element.readsValue = false)
    (h : (path.resolve? root).isSome = true) :
    Splits (inTree root) steps path ↔ Splits byKey steps path := by
  refine splits_congr (List.forall₂_same.2 fun step hs => ⟨rfl, fun before key le => ?_⟩)
  exact inTree_iff_matchesKey (blind step hs) (isSome_resolve?_of_isPrefix h le)

theorem mem_paths_of_keysOnly {q : Query}
    (keysOnly : ∀ e ∈ q, e.returns = false ∧ e.readsValue = false) :
    path ∈ (root.select q).map Match.path ↔
      (path.resolve? root).isSome = true ∧ Splits byKey (q.steps false) path := by
  have blind : ∀ step ∈ q.steps false, step.element.readsValue = false :=
    fun step hs => (keysOnly _ (Query.mem_of_mem_steps hs)).2
  rw [mem_paths_of_unmarked fun e he => (keysOnly e he).1]
  constructor
  · intro h
    have resolves : (path.resolve? root).isSome = true := by
      obtain ⟨shares, split⟩ := h
      exact Option.isSome_iff_exists.2 split.resolves
    exact ⟨resolves, (splits_inTree_iff blind resolves).1 h⟩
  · rintro ⟨resolves, h⟩
    exact (splits_inTree_iff blind resolves).2 h

/-- **The walk and the matcher agree on keys.** Where no element looks at a value, a query without
return marks selects, each once, the paths of the tree that it matches, its skips at the end aside.
With them, each path of the tree that it matches lies at or below one that is selected. -/
theorem select_agrees (root : Tree) (q : Query)
    (keysOnly : ∀ e ∈ q, e.returns = false ∧ e.readsValue = false) :
    (∀ path, path ∈ (root.select q).map Match.path ↔
      (path.resolve? root).isSome = true ∧ q.withoutTrailingSkips.matchesPath path = true) ∧
    ((root.select q).map Match.path).Nodup ∧
    ∀ path, (path.resolve? root).isSome = true → q.matchesPath path = true →
      ∃! above, above ∈ (root.select q).map Match.path ∧ path.isRelativeTo above = true := by
  have selected (path : Path) : path ∈ (root.select q).map Match.path ↔
      (path.resolve? root).isSome = true ∧ Splits byKey (q.steps false) path :=
    mem_paths_of_keysOnly keysOnly
  refine ⟨fun path => ?_, nodup_paths_select root q, fun path resolves matched => ?_⟩
  · rw [selected, Query.matchesPath_iff, Query.steps_withoutTrailingSkips,
      Query.endsInSkip_withoutTrailingSkips, splitsStart_false]
  · obtain ⟨start, le, h, -⟩ := Query.matchesPath_iff.1 matched
    refine ⟨start, ⟨(selected start).2 ⟨isSome_resolve?_of_isPrefix resolves le, h⟩,
      List.isPrefixOf_iff_prefix.2 le⟩, ?_⟩
    rintro above ⟨ha, relative⟩
    have le' : above <+: path := List.isPrefixOf_iff_prefix.1 relative
    obtain below | below := List.prefix_or_prefix_of_prefix le' le
    · exact ((selected above).1 ha).2.eq_of_isPrefix h below
    · exact (h.eq_of_isPrefix ((selected above).1 ha).2 below).symm

theorem select_agrees_below_key :
    (∀ e ∈ ([.key "a", .skip] : Query), e.returns = false ∧ e.readsValue = false) ∧
      ∃! above, above ∈ ((Tree.object [("a", .object [("b", .null)])]).select
        [.key "a", .skip]).map Match.path ∧ Path.isRelativeTo ["a", "b"] above = true := by
  have keysOnly : ∀ e ∈ ([.key "a", .skip] : Query), e.returns = false ∧ e.readsValue = false := by
    decide
  exact ⟨keysOnly, (select_agrees _ _ keysOnly).2.2 ["a", "b"] rfl (by decide)⟩

/-! ## Queries read from text -/

/-- No value that is asked for has children. -/
def Query.AsksForLeaves (q : Query) : Prop :=
  ∀ e ∈ q, ∀ asked, e.value? = some asked → asked.isContainer = false

section

variable {segment : List Char} {asked : Tree}

theorem Pattern.exists_of_parseValue {given : Option (List Char)}
    (read : parseValue given = .ok (some asked)) : ∃ content, asked = .string content := by
  cases given with
  | none => cases read
  | some text =>
    obtain ⟨content, -, same⟩ := map_eq_ok_iff.1 read
    exact ⟨content, (Option.some.inj same).symm⟩

theorem Pattern.exists_of_parseChars {p : Pattern} (read : parseChars segment = .ok p)
    (asks : p.value? = some asked) : ∃ content, asked = .string content := by
  simp only [parseChars] at read
  split at read
  · cases read
    cases asks
  · obtain ⟨value, given, tested⟩ := bind_eq_ok_iff.1 read
    obtain ⟨keys, -, built⟩ := bind_eq_ok_iff.1 tested
    -- A name with neither value nor marker is a plain key, and asks for nothing.
    split at built
    · cases built
      cases asks
    · cases built
      exact exists_of_parseValue (given.trans (congrArg Except.ok asks))

theorem Element.exists_of_parse (read : parse segment = .ok e) (asks : e.value? = some asked) :
    ∃ content, asked = .string content := by
  rw [parse] at read
  split at read
  · cases read
    cases asks
  · split at read
    · obtain ⟨p, pattern, rfl⟩ := map_eq_ok_iff.1 read
      exact Pattern.exists_of_parseChars pattern asks
    · obtain ⟨name, -, rfl⟩ := map_eq_ok_iff.1 read
      cases asks

end

theorem Query.asksForLeaves_of_parse {text : String} {q : Query} (read : parse text = .ok q) :
    q.AsksForLeaves := by
  intro e mem asked asks
  obtain ⟨segment, -, element⟩ := exists_of_mem_mapM read mem
  obtain ⟨content, rfl⟩ := Element.exists_of_parse element asks
  rfl

/-! ## Elements that look at values -/

namespace Share

variable {s : Share} {shares : List Share} {place : Path}

/-- A share of the walk is one of the matcher too if the keys passed over are refused as keys. -/
theorem Fits.byKey (h : s.Fits ((inTree root).after place))
    (refused : ∀ key ∈ s.passed, s.element.matchesKey key = false) : s.Fits byKey := by
  obtain ⟨_, -, _, -, key, -⟩ := h.taken
  exact fits_byKey_iff.2 ⟨h.afterSkip_eq_true, refused, key⟩

theorem Fits.refused_of_not_readsValue (h : s.Fits ((inTree root).after place))
    (blind : s.element.readsValue = false)
    (resolves : ((place ++ s.path).resolve? root).isSome = true) :
    ∀ key ∈ s.passed, s.element.matchesKey key = false := by
  intro key mem
  obtain ⟨before, after, hp⟩ := List.append_of_mem mem
  have le : place ++ before ++ [key] <+: place ++ s.path := by
    refine ⟨after ++ [s.key], ?_⟩
    simp [path, hp]
  have at_key := isSome_resolve?_of_isPrefix resolves le
  have untaken := h.refused before key after hp
  rw [Taking.after, inTree_iff_matchesKey blind at_key] at untaken
  exact Bool.not_eq_true _ ▸ untaken

/-- The matcher ends its share with the first key passed over that the element accepts as a key. -/
theorem Fits.exists_byKey (h : s.Fits takes)
    (accepted : ∃ key ∈ s.passed, s.element.matchesKey key = true) :
    ∃ t : Share, t.toStep = s.toStep ∧ t.Fits DocQuery.byKey ∧
      ∃ more, more ≠ [] ∧ t.path ++ more = s.path := by
  obtain ⟨key, first⟩ := Option.isSome_iff_exists.1 (List.find?_isSome.2 accepted)
  obtain ⟨taken, before, after, hp, refused⟩ := List.find?_eq_some_iff_append.1 first
  refine ⟨⟨s.toStep, before, key⟩, rfl, fits_byKey_iff.2 ⟨fun _ => ?_, fun k mem => ?_, taken⟩,
    after ++ [s.key], by simp, by simp [path, hp]⟩
  · exact h.afterSkip_eq_true (by simp [hp])
  · simpa using refused k mem

end Share

namespace Split

variable {s : Share} {shares init : List Share}

theorem fits_byKey (h : Split (inTree root) steps path shares) (hs : s ∈ shares)
    (refused : ∀ key ∈ s.passed, s.element.matchesKey key = false) : s.Fits byKey := by
  obtain ⟨before, after, rfl⟩ := List.append_of_mem hs
  exact h.fit.fits.byKey refused

theorem splits_byKey (h : Split (inTree root) steps path shares)
    (refused : ∀ s ∈ shares, ∀ key ∈ s.passed, s.element.matchesKey key = false) :
    Splits byKey steps path :=
  ⟨shares, h.steps_eq, h.keys_eq, Share.fit_byKey_iff.2 fun s hs => h.fits_byKey hs (refused s hs)⟩

/-- Where elements ask for leaves at most, only the last passes over keys for their values. What any
other takes has children. -/
theorem refused_of_leaves (h : Split (inTree root) steps path (init ++ [s]))
    (leaves : ∀ step ∈ steps, ∀ asked, step.element.value? = some asked →
      asked.isContainer = false) :
    ∀ t ∈ init, ∀ key ∈ t.passed, t.element.matchesKey key = false := by
  intro t ht
  have resolves : (path.resolve? root).isSome = true := Option.isSome_iff_exists.2 h.resolves
  obtain ⟨before, after, rfl⟩ := List.append_of_mem ht
  have cut : path = (Share.keys before ++ t.path) ++ Share.keys (after ++ [s]) := by
    simp [← h.keys_eq]
  have fits : t.Fits ((inTree root).after (Share.keys before)) := by
    have fit := h.fit
    rw [List.append_assoc, List.cons_append] at fit
    exact fit.fits
  obtain ⟨node, hn, child, hc, -, accepts⟩ := fits.taken
  have at_child : (Share.keys before ++ t.path).resolve? root = some child := by
    rw [Share.path, ← List.append_assoc, Path.resolve?_append, hn]
    exact Path.resolve?_singleton.trans hc
  have container : child.isContainer = true :=
    isContainer_of_isSome_resolve? at_child (cut ▸ resolves) (by simp [s.path_ne_nil])
  have asked := leaves t.toStep (by simp [← h.steps_eq])
  refine fits.refused_of_not_readsValue
    (Element.not_readsValue_of_isContainer asked accepts container) ?_
  exact isSome_resolve?_of_isPrefix resolves ⟨_, cut.symm⟩

/-- If the last element accepts one of the keys that it passed over, the keys alone split a path
above. -/
theorem exists_start (h : Split (inTree root) steps path (init ++ [s]))
    (early : ∀ t ∈ init, ∀ key ∈ t.passed, t.element.matchesKey key = false)
    (accepted : ∃ key ∈ s.passed, s.element.matchesKey key = true) :
    ∃ start, start <+: path ∧ start ≠ path ∧ Splits byKey steps start := by
  obtain ⟨t, ht, fits, more, rest, cut⟩ := h.fit.fits.exists_byKey accepted
  have longer : Share.keys (init ++ [t]) ++ more = path := by
    simp [← h.keys_eq, ← cut]
  refine ⟨Share.keys (init ++ [t]), ⟨more, longer⟩, ?_, init ++ [t], ?_, rfl, ?_⟩
  · intro same
    exact rest (List.append_right_eq_self.1 (longer.trans same.symm))
  · simp [← h.steps_eq, ht]
  · refine Share.fit_byKey_iff.2 fun t' ht' => ?_
    obtain ht' | ht' := List.mem_append.1 ht'
    · exact h.fits_byKey (List.mem_append_left _ ht') (early t' ht')
    · exact List.mem_singleton.1 ht' ▸ fits

end Split

/-- **The matcher follows the walk as long as it need not look at values.** What a query without
return marks selects is accepted if the keys passed over are all refused as keys. Where values are
leaves, as they are in a query read from text, this decides: the matcher accepts a selected path if
the last element refuses the keys that it passed over, or if the query ends in a skip. -/
theorem matchesPath_of_selected (root : Tree) (q : Query) (path : Path) (last : Tree)
    (unmarked : ∀ e ∈ q, e.returns = false) (selected : ⟨path, last⟩ ∈ root.select q) :
    (∃ shares, Split (inTree root) (q.steps false) path shares ∧
      ((∀ s ∈ shares, ∀ key ∈ s.passed, s.element.matchesKey key = false) →
        q.matchesPath path = true) ∧
      (q.AsksForLeaves →
        ∀ init s, shares = init ++ [s] → (q.matchesPath path = true ↔
          q.endsInSkip false = true ∨ ∀ key ∈ s.passed, s.element.matchesKey key = false))) ∧
    ∀ text, Query.parse text = .ok q → q.AsksForLeaves := by
  obtain ⟨-, shares, split⟩ := (mem_select_of_unmarked unmarked).1 selected
  have accepted (refused : ∀ s ∈ shares, ∀ key ∈ s.passed, s.element.matchesKey key = false) :
      q.matchesPath path = true := by
    have splits := split.splits_byKey refused
    exact (Query.matchesPath_iff_of_isPrefix splits (List.prefix_refl _)).2 (.inl rfl)
  refine ⟨⟨shares, split, accepted, ?_⟩, fun _ => Query.asksForLeaves_of_parse⟩
  rintro leaves init s rfl
  have early := split.refused_of_leaves fun step hs => leaves _ (Query.mem_of_mem_steps hs)
  by_cases late : ∀ key ∈ s.passed, s.element.matchesKey key = false
  · refine iff_of_true (accepted fun t ht => ?_) (.inr late)
    obtain ht | ht := List.mem_append.1 ht
    · exact early t ht
    · exact List.mem_singleton.1 ht ▸ late
  · obtain ⟨start, le, above, splits⟩ := split.exists_start early (by simpa using late)
    rw [Query.matchesPath_iff_of_isPrefix splits le]
    constructor
    · intro h
      exact .inl (h.resolve_left above)
    · intro h
      exact .inr (h.resolve_right late)

/-- Of the leaf below `a` and `b` the matcher thinks that `a` is the leaf. -/
theorem not_matchesPath_of_selected :
    ¬ ∀ (root : Tree) (q : Query), (∀ e ∈ q, e.returns = false) → (∃ e ∈ q, e.readsValue = true) →
      ∀ path last, ⟨path, last⟩ ∈ root.select q → q.matchesPath path = true := by
  intro h
  have unmarked : ∀ e ∈ Query.leaves, e.returns = false := by decide
  have selected : ⟨["a", "b"], .bool true⟩ ∈
      (Tree.object [("a", .object [("b", .bool true)])]).select .leaves := by
    refine (mem_select_of_unmarked unmarked).2 ⟨rfl, splits_cons_cons.2 (.inr ⟨rfl, ?_, ?_⟩)⟩
    · rintro ⟨_, hn, _, hc, -, primitive⟩
      cases hn
      cases hc
      cases primitive
    · refine splits_cons_cons.2 (.inl ⟨?_, splits_nil.2 rfl⟩)
      exact ⟨.object [("b", .bool true)], rfl, .bool true, rfl, rfl, rfl⟩
  have accepted := h _ .leaves unmarked ⟨.pattern .primitive, .tail _ (.head _), rfl⟩ _ _ selected
  exact absurd accepted (by decide)

/-- The walk passes over `a` and over the `b` with children. The matcher refuses the one as a key
and takes the other. -/
theorem matchesPath_of_selected_below_skip : ∃ (root : Tree) (q : Query),
    root = .object [("a", .object [("b", .string "x")]), ("b", .object [("b", .string "x")])] ∧
      Query.parse "\\>b^x" = .ok q ∧ (∀ e ∈ q, e.returns = false) ∧
      ⟨["a", "b"], .string "x"⟩ ∈ root.select q ∧ q.matchesPath ["a", "b"] = true ∧
      ⟨["b", "b"], .string "x"⟩ ∈ root.select q ∧ q.matchesPath ["b", "b"] = false := by
  let inner : Tree := .object [("b", .string "x")]
  let root : Tree := .object [("a", inner), ("b", inner)]
  let asks : Element := .pattern (.test (.key "b") (some (.string "x")) none)
  have unmarked : ∀ e ∈ [Element.skip, asks], e.returns = false := by decide
  have parsed : Query.parse "\\>b^x" = .ok [.skip, asks] := rfl
  have noSkip : ¬ Query.endsInSkip [.skip, asks] false = true := by decide
  -- The leaf stands below both keys, so the last key is taken if the walk gets past the first.
  have below (key : String) (found : root.child? key = some inner)
      (passed : ¬ inTree root asks [] key) :
      ⟨[key, "b"], .string "x"⟩ ∈ root.select [.skip, asks] ∧
        (Query.matchesPath [.skip, asks] [key, "b"] = true ↔ asks.matchesKey key = false) := by
    have resolved : Path.resolve? [key, "b"] root = some (.string "x") := by
      rw [Path.resolve?_cons, found]
      rfl
    have taken : inTree root asks [key] "b" :=
      ⟨inner, Path.resolve?_singleton.trans found, .string "x", rfl, rfl, rfl⟩
    have split : Split (inTree root) (Query.steps [.skip, asks] false) [key, "b"]
        [⟨⟨asks, true⟩, [key], "b"⟩] :=
      split_cons_cons.2 (.inr ⟨rfl, passed, ⟨⟨asks, true⟩, [], "b"⟩, [], rfl,
        split_cons_cons.2 (.inl ⟨taken, [], rfl, split_nil.2 ⟨rfl, rfl⟩⟩)⟩)
    have selected := (mem_select_of_unmarked unmarked).2 ⟨resolved, _, split⟩
    obtain ⟨⟨shares, split', -, decides⟩, leaves⟩ :=
      matchesPath_of_selected root [.skip, asks] [key, "b"] (.string "x") unmarked selected
    obtain rfl := split'.unique split
    have decided := decides (leaves _ parsed) [] _ rfl
    rw [or_iff_right noSkip, List.forall_mem_singleton] at decided
    exact ⟨selected, decided⟩
  have other : ¬ inTree root asks [] "a" := by
    rintro ⟨_, -, _, -, key, -⟩
    exact absurd key (by decide)
  have noLeaf : ¬ inTree root asks [] "b" := by
    rintro ⟨_, ⟨⟩, _, ⟨⟩, -, value⟩
    cases value
  obtain ⟨selected, accepted⟩ := below "a" rfl other
  obtain ⟨selected', refused⟩ := below "b" rfl noLeaf
  refine ⟨root, _, rfl, parsed, unmarked, selected, accepted.2 (by decide), selected', ?_⟩
  exact Bool.not_eq_true _ ▸ mt refused.1 (by decide)

end DocQuery
