import DocQuery.Proofs.Tree.Slot

/-!
# What a build does

A path leads to its end, or it comes to an object that lacks the next key, or to a node that is no
object and lacks it (`reach`). A build follows it so far (`descend_append`). Then it is at its end,
or makes all that is missing at once, or stops before it has made anything.

* `build_fails_iff_blocked`: which builds fail, with which error, and that they change nothing;
* `build_adds_one_entry`: what a build that succeeds makes, and what stays as it was when a value
  is put at its end.
-/

namespace DocQuery

namespace Tree

variable {root t t' a b node : Tree} {key : String} {keys : List String} {path before other : Path}
  {entries : List (String × Tree)} {change : Tree → Tree}

/-! ## Edited places -/

/-- The trees have the nodes `a` and `b` at the end of the path and are the same everywhere else. -/
inductive Edited (a b : Tree) : Path → Tree → Tree → Prop
  | here : Edited a b [] a b
  | within {key : String} {path : Path} {t t' child child' : Tree}
      (step : Replaced key child child' t t') (rest : Edited a b path child child') :
      Edited a b (key :: path) t t'

/-- Objects of one entry inside each other, with `node` innermost. -/
def chain : Path → Tree → Tree
  | [], node => node
  | key :: path, node => .object [(key, chain path node)]

namespace Edited

theorem symm (h : Edited a b path t t') : Edited b a path t' t := by
  induction h with
  | here => exact .here
  | within step _ ih => exact .within step.symm ih

theorem resolves (h : Edited a b path t t') : path.resolve? t = some a := by
  induction h with
  | here => rfl
  | within step _ ih => rw [Path.resolve?_cons, step.child?_eq, Option.bind_some, ih]

theorem eq_of_self (h : Edited a a path t t') : t' = t := by
  induction h with
  | here => rfl
  | within step _ ih =>
    subst ih
    exact step.eq_of_self

end Edited

/-! ## Following a path -/

/-- As far as the path leads, the tree is changed below the node that it leads to and nowhere
else. -/
theorem descend_append (change : Tree → Tree) (keys : List String)
    (h : before.resolve? t = some node) :
    Edited node (descend change keys node).1 before t (descend change (before ++ keys) t).1 ∧
      (descend change (before ++ keys) t).2 = (descend change keys node).2 := by
  induction before generalizing t with
  | nil =>
    obtain rfl := Option.some.inj h
    exact ⟨.here, rfl⟩
  | cons key before ih =>
    rw [Path.resolve?_cons, Option.bind_eq_some_iff] at h
    obtain ⟨child, hc, below⟩ := h
    obtain ⟨edited, failure⟩ := ih below
    rw [List.cons_append, descend_of_slot (slot?_of_child? hc)]
    exact ⟨.within (replaced_fill_of_child? hc _) edited, failure⟩

/-- Below a fresh object nothing is in the way. -/
theorem descend_default (change : Tree → Tree) (path : Path) :
    descend change path default = (chain path (change default), none) := by
  induction path with
  | nil => rfl
  | cons key path ih =>
    have fresh : slot? default key = some default := slot?_of_absent rfl
    rw [descend_of_slot fresh, ih]
    rfl

theorem descend_of_absent (h : entries.lookup key = none) :
    descend change (key :: keys) (.object entries) =
      (.object (entries ++ [(key, chain keys (change default))]), none) := by
  rw [descend_of_slot (slot?_of_absent h), descend_default, fill,
    Entries.put_of_not_mem (Entries.lookup_eq_none_iff.1 h)]

/-- Whether a build succeeds does not depend on what it is for. -/
theorem failure_descend (change : Tree → Tree) (path : Path) (t : Tree) :
    (descend change path t).2 = (descend id path t).2 := by
  induction path generalizing t with
  | nil => rfl
  | cons key path ih =>
    cases hs : t.slot? key with
    | none => rw [descend_of_no_slot hs, descend_of_no_slot hs]
    | some child => rw [descend_of_slot hs, descend_of_slot hs, ih]

/-- What is done at the end of a path is done to the node there, once it is built. -/
theorem edited_descend (change : Tree → Tree) (built : (descend id path t).2 = none) :
    Edited ((path.resolve? t).getD default) (change ((path.resolve? t).getD default)) path
      (descend id path t).1 (descend change path t).1 := by
  induction path generalizing t with
  | nil => exact .here
  | cons key path ih =>
    cases hs : t.slot? key with
    | none =>
      rw [descend_of_no_slot hs] at built
      cases built
    | some child =>
      have same : (Path.resolve? (key :: path) t).getD default =
          (Path.resolve? path child).getD default := by
        cases path with
        | nil => rw [Path.resolve?_singleton, getD_child?_of_slot? hs, Path.resolve?_nil,
            Option.getD_some]
        | cons next path => rw [resolve?_of_slot? hs (List.cons_ne_nil next path)]
      rw [descend_of_slot hs] at built
      rw [same, descend_of_slot hs, descend_of_slot hs]
      exact .within (replaced_fill (Option.isSome_of_mem hs) _ _) (ih built)

/-! ## Places apart -/

/-- The paths part at some node: neither goes on from the other. -/
inductive Apart : Path → Path → Prop
  | here {key key' : String} (differ : key ≠ key') (p r : Path) : Apart (key :: p) (key' :: r)
  | within {p r : Path} (key : String) (rest : Apart p r) : Apart (key :: p) (key :: r)

namespace Apart

variable {p r : Path}

theorem symm (h : Apart p r) : Apart r p := by
  induction h with
  | here differ p r => exact .here (Ne.symm differ) r p
  | within key _ ih => exact .within key ih

theorem ne_nil (h : Apart p r) : r ≠ [] := by
  cases h <;> exact List.cons_ne_nil _ _

theorem of_not_isPrefix (h : ¬ p <+: r) (h' : ¬ r <+: p) : Apart p r := by
  induction p generalizing r with
  | nil => exact absurd List.nil_prefix h
  | cons key p ih =>
    cases r with
    | nil => exact absurd List.nil_prefix h'
    | cons key' r =>
      by_cases same : key = key'
      · subst same
        rw [List.cons_prefix_cons] at h h'
        exact .within key (ih (fun le => h ⟨rfl, le⟩) fun le => h' ⟨rfl, le⟩)
      · exact .here same p r

end Apart

/-- A place off the path does not notice. -/
theorem resolve?_descend (apart : Apart path other) :
    other.resolve? (descend change path t).1 = other.resolve? t := by
  induction apart generalizing t with
  | @here key asked differ path other =>
    cases hs : t.slot? key with
    | none => rw [descend_of_no_slot hs]
    | some child =>
      rw [descend_of_slot hs, Path.resolve?_cons, Path.resolve?_cons,
        child?_fill_of_ne (Ne.symm differ)]
  | within key rest ih =>
    cases hs : t.slot? key with
    | none => rw [descend_of_no_slot hs]
    | some child =>
      rw [descend_of_slot hs, Path.resolve?_cons, child?_fill (Option.isSome_of_mem hs),
        Option.bind_some, ih, resolve?_of_slot? hs rest.ne_nil]

/-! ## How far a path leads -/

/-- How far a path leads into a tree. -/
inductive Reach (t : Tree) : Path → Prop
  | whole {path : Path} {node : Tree} (resolved : path.resolve? t = some node) : Reach t path
  /-- Up to an object that lacks the next key. -/
  | absent {before : Path} {entries : List (String × Tree)} (key : String) (keys : List String)
      (resolved : before.resolve? t = some (.object entries)) (lacks : entries.lookup key = none) :
      Reach t (before ++ key :: keys)
  /-- Up to any other node that lacks it. -/
  | blocked {before : Path} {node : Tree} (key : String) (keys : List String)
      (resolved : before.resolve? t = some node) (closed : node.slot? key = none) :
      Reach t (before ++ key :: keys)

theorem reach (t : Tree) (path : Path) : Reach t path := by
  induction path generalizing t with
  | nil => exact .whole rfl
  | cons key path ih =>
    cases hc : t.child? key with
    | none =>
      cases hs : t.slot? key with
      | none => exact .blocked key path Path.resolve?_nil hs
      | some child =>
        cases t with
        | object entries => exact .absent key path Path.resolve?_nil hc
        | array items => cases (hc.symm.trans ((slot?_array items key).symm.trans hs))
        | _ => cases hs
    | some child =>
      have onward {before : Path} {node : Tree} (h : before.resolve? child = some node) :
          Path.resolve? (key :: before) t = some node := by
        rw [Path.resolve?_cons, hc, Option.bind_some, h]
      cases ih child with
      | whole resolved => exact .whole (onward resolved)
      | absent key keys resolved lacks => exact .absent key keys (onward resolved) lacks
      | blocked key keys resolved closed => exact .blocked key keys (onward resolved) closed

theorem descend_of_resolves (change : Tree → Tree) (h : path.resolve? t = some node) :
    Edited node (change node) path t (descend change path t).1 ∧
      (descend change path t).2 = none := by
  simpa only [List.append_nil, descend] using descend_append change [] h

theorem descend_of_lacks (change : Tree → Tree) (keys : List String)
    (h : before.resolve? t = some (.object entries)) (lacks : entries.lookup key = none) :
    Edited (.object entries) (.object (entries ++ [(key, chain keys (change default))])) before t
        (descend change (before ++ key :: keys) t).1 ∧
      (descend change (before ++ key :: keys) t).2 = none := by
  simpa only [descend_of_absent lacks] using descend_append change (key :: keys) h

/-- A build that stops has changed nothing, for every node above the one in its way was there
before. -/
theorem descend_of_closed (change : Tree → Tree) (keys : List String)
    (h : before.resolve? t = some node) (closed : node.slot? key = none) :
    descend change (before ++ key :: keys) t = (t, some (node.obstacle, key)) := by
  have below := descend_append change (key :: keys) h
  rw [descend_of_no_slot closed] at below
  exact Prod.ext below.1.eq_of_self below.2

end Tree

/-! ## Builds that fail -/

section

variable {root : Tree} {path : Path} {key : String} {obstacle : BuildObstacle}

/-- What is in the way of a build, and the key that it stands at. -/
inductive Blocked (root : Tree) : Path → BuildObstacle → String → Prop
  | leaf {before : Path} {node : Tree} (key : String) (rest : List String)
      (resolved : before.resolve? root = some node) (leaf : node.isContainer = false) :
      Blocked root (before ++ key :: rest) .leaf key
  | array {before : Path} {items : List Tree} (key : String) (rest : List String)
      (resolved : before.resolve? root = some (.array items))
      (outside : ∀ i < items.length, key ≠ Index.key i) :
      Blocked root (before ++ key :: rest) .noSuchItem key

theorem Tree.closed_of_leaf {t : Tree} (key : String) (leaf : t.isContainer = false) :
    (t.isObject = false ∧ t.child? key = none) ∧ t.obstacle = .leaf := by
  cases t with
  | array | object => cases leaf
  | _ => exact ⟨⟨rfl, rfl⟩, rfl⟩

theorem Tree.child?_array_eq_none_iff {items : List Tree} :
    (array items).child? key = none ↔ ∀ i < items.length, key ≠ Index.key i := by
  simp only [child?, Option.bind_eq_none_iff, Index.ofKey?_eq_some_iff, List.getElem?_eq_none_iff]
  constructor
  · intro h i inside at_key
    exact absurd inside (Nat.not_lt.2 (h i at_key))
  · intro h i at_key
    by_contra inside
    exact h i (Nat.lt_of_not_le inside) at_key

/-- One condition for both kinds of obstacle. -/
theorem blocked_iff : Blocked root path obstacle key ↔
    ∃ before rest node, path = before ++ key :: rest ∧ before.resolve? root = some node ∧
      (node.isObject = false ∧ node.child? key = none) ∧ obstacle = node.obstacle := by
  constructor
  · intro blocked
    cases blocked with
    | leaf _ rest resolved leaf =>
      have closed := Tree.closed_of_leaf key leaf
      exact ⟨_, rest, _, rfl, resolved, closed.1, closed.2.symm⟩
    | array _ rest resolved outside =>
      exact ⟨_, rest, _, rfl, resolved, ⟨rfl, Tree.child?_array_eq_none_iff.2 outside⟩, rfl⟩
  · rintro ⟨before, rest, node, rfl, resolved, ⟨other, lacks⟩, rfl⟩
    cases node with
    | object => cases other
    | array => exact .array key rest resolved (Tree.child?_array_eq_none_iff.1 lacks)
    | _ => exact .leaf key rest resolved rfl

theorem failure_alter_iff {change : Tree → Tree} {failure : BuildError} :
    (root.alter path change).2 = some failure ↔
      failure.path = path ∧ Blocked root path failure.obstacle failure.key := by
  obtain ⟨stopped, at_key, asked⟩ := failure
  simp only [blocked_iff, ← Tree.slot?_eq_none_iff]
  constructor
  · intro failed
    obtain ⟨⟨o, k⟩, met, same⟩ := Option.map_eq_some_iff.1 failed
    cases same
    cases Tree.reach root path with
    | whole resolved => cases met.symm.trans (Tree.descend_of_resolves change resolved).2
    | absent key keys resolved lacks =>
      cases met.symm.trans (Tree.descend_of_lacks change keys resolved lacks).2
    | blocked key keys resolved closed =>
      rw [Tree.descend_of_closed change keys resolved closed] at met
      cases met
      exact ⟨rfl, _, keys, _, rfl, resolved, closed, rfl⟩
  · rintro ⟨rfl, before, rest, node, rfl, resolved, closed, rfl⟩
    rw [Tree.alter, Tree.descend_of_closed change rest resolved closed]
    rfl

/-- **A failed build changes nothing, and only an obstacle makes it fail.** A build fails just if
the path goes on from a node that is no object and has no child under the next key. That is a leaf,
or an array of which the key addresses no item; the error tells which and names the key, and so
does its text. Whatever was to be done at the end of the path, the tree is then as it was. -/
theorem build_fails_iff_blocked (root : Tree) (path : Path) (change : Tree → Tree) :
    ((root.alter path change).2 ≠ none ↔ ∃ (before : Path) (key : String) (rest : Path)
      (node : Tree), path = before ++ key :: rest ∧ before.resolve? root = some node ∧
        node.isObject = false ∧ node.child? key = none) ∧
    (∀ failure, (root.alter path change).2 = some failure ↔
      failure.path = path ∧ Blocked root path failure.obstacle failure.key) ∧
    (∀ key, Blocked root path .leaf key →
      (root.alter path change).2.map BuildError.message = some ("Invalid argument: " ++
        ("Cannot build path '" ++ path.text ++ "' through a leaf at key '" ++ key ++ "'"))) ∧
    (∀ key, Blocked root path .noSuchItem key →
      (root.alter path change).2.map BuildError.message = some ("Invalid argument: " ++
        ("Key '" ++ key ++ "' is not an index of the array on path '" ++ path.text ++ "'"))) ∧
    ∀ failure, (root.alter path change).2 = some failure → (root.alter path change).1 = root := by
  refine ⟨?_, fun _ => failure_alter_iff, fun key blocked => ?_, fun key blocked => ?_, ?_⟩
  · rw [Option.ne_none_iff_exists']
    constructor
    · rintro ⟨failure, failed⟩
      obtain ⟨before, rest, node, split, resolved, closed, -⟩ :=
        blocked_iff.1 (failure_alter_iff.1 failed).2
      exact ⟨before, failure.key, rest, node, split, resolved, closed⟩
    · rintro ⟨before, key, rest, node, split, resolved, closed⟩
      have blocked := blocked_iff.2 ⟨before, rest, node, split, resolved, closed, rfl⟩
      exact ⟨⟨_, key, path⟩, failure_alter_iff.2 ⟨rfl, blocked⟩⟩
  · have failed : (root.alter path change).2 = some ⟨.leaf, key, path⟩ :=
      failure_alter_iff.2 ⟨rfl, blocked⟩
    rw [failed]
    rfl
  · have failed : (root.alter path change).2 = some ⟨.noSuchItem, key, path⟩ :=
      failure_alter_iff.2 ⟨rfl, blocked⟩
    rw [failed]
    rfl
  · intro failure failed
    obtain ⟨-, blocked⟩ := failure_alter_iff.1 failed
    obtain ⟨before, rest, node, rfl, resolved, closed, -⟩ := blocked_iff.1 blocked
    rw [Tree.alter, Tree.descend_of_closed change rest resolved (Tree.slot?_eq_none_iff.2 closed)]

/-- The path leads through an item of an array and stops at a leaf below it. -/
theorem build_fails_in_item :
    Blocked (.array [.object [("a", .null)]]) ["0", "a", "b", "c"] .leaf "b" ∧
      ((Tree.array [.object [("a", .null)]]).build ["0", "a", "b", "c"]).2 =
        some ⟨.leaf, "b", ["0", "a", "b", "c"]⟩ ∧
      ((Tree.array [.object [("a", .null)]]).build ["0", "a", "b", "c"]).1 =
        .array [.object [("a", .null)]] := by
  have leads : Path.resolve? ["0", "a"] (.array [.object [("a", .null)]]) = some .null := rfl
  have blocked : Blocked (.array [.object [("a", .null)]]) (["0", "a"] ++ "b" :: ["c"]) .leaf "b" :=
    .leaf "b" ["c"] leads rfl
  obtain ⟨-, fails, -, -, unchanged⟩ :=
    build_fails_iff_blocked (.array [.object [("a", .null)]]) ["0", "a", "b", "c"] id
  have failed := (fails ⟨.leaf, "b", ["0", "a", "b", "c"]⟩).2 ⟨rfl, blocked⟩
  exact ⟨blocked, failed, unchanged _ failed⟩

/-! ## Builds that succeed -/

theorem failure_alter (change : Tree → Tree) (root : Tree) (path : Path) :
    (root.alter path change).2 = (root.build path).2 := by
  simp only [Tree.build, Tree.alter, Tree.failure_descend change]

/-- Of the prefixes of a path just those lead somewhere that end where it leaves the tree or
before. -/
theorem isSome_resolve?_iff_isPrefix {before other : Path} {rest : List String}
    {entries : List (String × Tree)} (resolved : before.resolve? root = some (.object entries))
    (lacks : entries.lookup key = none) (le : other <+: before ++ key :: rest) :
    (other.resolve? root).isSome ↔ other <+: before := by
  have nowhere : (Path.resolve? (before ++ [key]) root).isSome = false := by
    have none : (Tree.object entries).child? key = Option.none := lacks
    rw [Path.resolve?_append, resolved, Option.bind_some, Path.resolve?_singleton, none]
    rfl
  constructor
  · intro leads
    have onward : before ++ [key] <+: before ++ key :: rest := ⟨rest, by simp⟩
    obtain within | beyond := List.prefix_or_prefix_of_prefix le onward
    · obtain rfl | within := List.prefix_concat_iff.1 within
      · rw [nowhere] at leads
        cases leads
      · exact within
    · rw [isSome_resolve?_of_isPrefix leads beyond] at nowhere
      cases nowhere
  · intro within
    exact isSome_resolve?_of_isPrefix (Option.isSome_of_mem resolved) within

/-- **A build that succeeds adds one entry at most.** If the path led to a node, the tree stays as
it is and that node is reached. If not, the object at the end of the longest prefix that led
somewhere gains a last entry with a chain of objects below it, and the innermost of these, which is
empty, is reached. Whatever is done then is done to the node that is reached. A value put there is
found at the end of the path; every path that is no prefix of this path and no extension of it
leads where it led before. -/
theorem build_adds_one_entry (root : Tree) (path : Path) (built : (root.build path).2 = none) :
    (∀ node, path.resolve? root = some node → (root.build path).1 = root ∧
      ∀ change, Tree.Edited node (change node) path root (root.alter path change).1) ∧
    (path.resolve? root = none →
      (∃ (before : Path) (key : String) (rest : Path) (entries : List (String × Tree)),
        path = before ++ key :: rest ∧
        (∀ other : Path, other <+: path → ((other.resolve? root).isSome ↔ other <+: before)) ∧
        key ∉ Entries.keys entries ∧
        Tree.Edited (.object entries) (.object (entries ++ [(key, Tree.chain rest (.object []))]))
          before root (root.build path).1) ∧
      ∀ change, Tree.Edited (.object []) (change (.object [])) path
        (root.build path).1 (root.alter path change).1) ∧
    ∀ value, (root.assign path value).2 = none ∧
      path.resolve? (root.assign path value).1 = some value ∧
      ∀ other : Path, ¬ other <+: path → ¬ path <+: other →
        other.resolve? (root.assign path value).1 = other.resolve? root := by
  have followed : (Tree.descend id path root).2 = none := Option.map_eq_none_iff.1 built
  refine ⟨fun node resolved => ?_, fun missing => ⟨?_, fun change => ?_⟩, fun value => ?_⟩
  · have same := (Tree.descend_of_resolves id resolved).1.eq_of_self
    exact ⟨same, fun change => (Tree.descend_of_resolves change resolved).1⟩
  · cases Tree.reach root path with
    | whole resolved => cases missing.symm.trans resolved
    | absent key rest resolved lacks =>
      refine ⟨_, key, rest, _, rfl, fun other le => isSome_resolve?_iff_isPrefix resolved lacks le,
        Entries.lookup_eq_none_iff.1 lacks, (Tree.descend_of_lacks id rest resolved lacks).1⟩
    | blocked key rest resolved closed =>
      rw [Tree.descend_of_closed id rest resolved closed] at followed
      cases followed
  · have edited := Tree.edited_descend change followed
    rwa [missing] at edited
  · have edited := Tree.edited_descend (fun _ => value) followed
    refine ⟨(failure_alter _ root path).trans built, edited.symm.resolves, ?_⟩
    intro other apart apart'
    exact Tree.resolve?_descend (.of_not_isPrefix apart' apart)

/-- The path leaves the tree at an object that holds other things, and another path branches off
from what is built. -/
theorem build_adds_one_entry_nested :
    ((Tree.object [("a", .object [("x", .null)])]).build ["a", "b", "c"]).2 = none ∧
      Path.resolve? ["a", "b", "c"]
        ((Tree.object [("a", .object [("x", .null)])]).assign ["a", "b", "c"] (.bool true)).1 =
          some (.bool true) ∧
      Path.resolve? ["a", "b", "d"]
        ((Tree.object [("a", .object [("x", .null)])]).assign ["a", "b", "c"] (.bool true)).1 =
          Path.resolve? ["a", "b", "d"] (.object [("a", .object [("x", .null)])]) := by
  have built : ((Tree.object [("a", .object [("x", .null)])]).build ["a", "b", "c"]).2 = none := rfl
  obtain ⟨-, -, assigned⟩ := build_adds_one_entry _ _ built
  obtain ⟨-, found, frame⟩ := assigned (.bool true)
  exact ⟨built, found, frame _ (by decide) (by decide)⟩

end

end DocQuery
