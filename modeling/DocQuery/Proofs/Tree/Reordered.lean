import DocQuery.Proofs.Walk.Moves

/-!
# The order of entries

Two trees are `Reordered` if one is made from the other by permuting the entries of objects, at any
depth. Where no object repeats a key, such trees have the same places, up to the same relation
(`Reordered.resolve?`), and they cannot be told apart by comparing them with a value
(`Reordered.same_eq`).
-/

namespace DocQuery

/-- If no key is repeated, an entry is found under its key wherever it stands. -/
theorem Entries.lookup_eq_some_iff_mem {α : Type} {entries : Entries α} {key : String} {value : α}
    (unique : entries.keys.Nodup) : entries.lookup key = some value ↔ (key, value) ∈ entries := by
  rw [List.lookup_eq_some_iff]
  constructor
  · rintro ⟨before, after, rfl, -⟩
    simp
  · intro h
    obtain ⟨before, after, rfl⟩ := List.append_of_mem h
    refine ⟨before, after, rfl, ?_⟩
    rintro ⟨k, v⟩ hp
    have other : k ≠ key := by
      rintro rfl
      rw [keys, List.map_append, List.nodup_append] at unique
      exact unique.2.2 k (List.mem_map_of_mem hp) k (.head _) rfl
    simpa using other.symm

theorem Entries.lookup_perm {α : Type} {as bs : Entries α} (perm : as.Perm bs)
    (unique : as.keys.Nodup) (key : String) : as.lookup key = bs.lookup key := by
  have unique' : bs.keys.Nodup := (perm.map Prod.fst).nodup_iff.1 unique
  apply Option.ext
  intro value
  rw [lookup_eq_some_iff_mem unique, lookup_eq_some_iff_mem unique', perm.mem_iff]

namespace Tree

/-- The trees differ in the order of the entries of objects, at any depth, and in nothing else. -/
inductive Reordered : Tree → Tree → Prop where
  | refl (t : Tree) : Reordered t t
  | trans {a b c : Tree} (first : Reordered a b) (second : Reordered b c) : Reordered a c
  /-- The entries of one object are permuted. -/
  | entries {as bs : List (String × Tree)} (perm : as.Perm bs) : Reordered (.object as) (.object bs)
  /-- Below one entry of an object, entries are permuted. -/
  | value (before : List (String × Tree)) (key : String) (after : List (String × Tree)) {a b : Tree}
      (below : Reordered a b) :
      Reordered (.object (before ++ (key, a) :: after)) (.object (before ++ (key, b) :: after))
  /-- Below one item of an array, entries are permuted. -/
  | item (before after : List Tree) {a b : Tree} (below : Reordered a b) :
      Reordered (.array (before ++ a :: after)) (.array (before ++ b :: after))

/-- What passes from a node to its children passes down every path. -/
theorem of_resolve? {P : Tree → Prop} {a node : Tree} {path : Path}
    (pass : ∀ {t child : Tree} {key : String}, P t → t.child? key = some child → P child) (h : P a)
    (resolved : path.resolve? a = some node) : P node := by
  induction path generalizing a with
  | nil =>
    obtain rfl := Option.some.inj resolved
    exact h
  | cons key path ih =>
    rw [Path.resolve?_cons, Option.bind_eq_some_iff] at resolved
    obtain ⟨child, hc, rest⟩ := resolved
    exact ih (pass h hc) rest

theorem WellKeyed.resolve? {a node : Tree} {path : Path} (unique : a.WellKeyed)
    (resolved : path.resolve? a = some node) : node.WellKeyed :=
  of_resolve? WellKeyed.child? unique resolved

/-! ## One child in place of another -/

/-- A lookup finds what was replaced, or does not notice. -/
theorem child?_value (before : List (String × Tree)) (key : String)
    (after : List (String × Tree)) (a b : Tree) (asked : String) :
    (object (before ++ (key, a) :: after)).child? asked =
        (object (before ++ (key, b) :: after)).child? asked ∨
      (object (before ++ (key, a) :: after)).child? asked = some a ∧
        (object (before ++ (key, b) :: after)).child? asked = some b := by
  simp only [child?, List.lookup_append]
  cases before.lookup asked with
  | some found => exact .inl rfl
  | none =>
    by_cases here : asked = key
    · exact .inr (by simp [here])
    · have other : (asked == key) = false := by simpa using here
      exact .inl (by simp [List.lookup_cons, other])

theorem child?_item (before after : List Tree) (a b : Tree) (asked : String) :
    (array (before ++ a :: after)).child? asked = (array (before ++ b :: after)).child? asked ∨
      (array (before ++ a :: after)).child? asked = some a ∧
        (array (before ++ b :: after)).child? asked = some b := by
  simp only [child?]
  cases Index.ofKey? asked with
  | none => exact .inl rfl
  | some i =>
    simp only [Option.bind_some, List.getElem?_append]
    by_cases early : i < before.length
    · exact .inl (by simp [early])
    · by_cases here : i - before.length = 0
      · exact .inr (by simp [early, here])
      · exact .inl (by simp [early, List.getElem?_cons, here])

/-- A comparison looks at the entries of the second object by key alone. -/
theorem sameEntries_cons {key : String} {v : Tree} {vs entries : List (String × Tree)} :
    sameEntries ((key, v) :: vs) entries =
      ((entries.lookup key).any v.same && sameEntries vs entries) := by
  rw [sameEntries]
  cases entries.lookup key <;> rfl

theorem sameEntries_congr {vs as bs : List (String × Tree)}
    (h : ∀ key (v : Tree), (as.lookup key).any v.same = (bs.lookup key).any v.same) :
    sameEntries vs as = sameEntries vs bs := by
  induction vs with
  | nil => rfl
  | cons entry vs ih =>
    obtain ⟨key, v⟩ := entry
    rw [sameEntries_cons, sameEntries_cons, h, ih]

theorem sameItems_congr {a b : Tree} {before after vs : List Tree}
    (h : ∀ v : Tree, v.same a = v.same b) :
    sameItems vs (before ++ a :: after) = sameItems vs (before ++ b :: after) := by
  induction before generalizing vs with
  | nil =>
    cases vs with
    | nil => rfl
    | cons v vs => simp only [List.nil_append, sameItems, h]
  | cons item before ih =>
    cases vs with
    | nil => rfl
    | cons v vs => simp only [List.cons_append, sameItems, ih]

namespace Reordered

variable {a b child node : Tree} {key : String} {path : Path}

theorem symm (h : a.Reordered b) : b.Reordered a := by
  induction h with
  | refl t => exact .refl t
  | trans _ _ ih ih' => exact ih'.trans ih
  | entries perm => exact .entries perm.symm
  | value before key after _ ih => exact .value before key after ih
  | item before after _ ih => exact .item before after ih

theorem wellKeyed (h : a.Reordered b) (unique : a.WellKeyed) : b.WellKeyed := by
  induction h with
  | refl => exact unique
  | trans _ _ ih ih' => exact ih' (ih unique)
  | entries perm =>
    rw [WellKeyed, wellKeyedEntries_iff] at *
    constructor
    · exact (perm.map Prod.fst).nodup_iff.1 unique.1
    · intro entry h
      exact unique.2 entry (perm.mem_iff.2 h)
  | value before key after _ ih =>
    simp only [WellKeyed, wellKeyedEntries_iff, List.map_append, List.map_cons,
      List.forall_mem_append, List.forall_mem_cons] at unique ⊢
    obtain ⟨keys, first, value, last⟩ := unique
    exact ⟨keys, first, ih value, last⟩
  | item before after _ ih =>
    simp only [WellKeyed, wellKeyedItems_iff, List.forall_mem_append, List.forall_mem_cons]
      at unique ⊢
    obtain ⟨first, item, last⟩ := unique
    exact ⟨first, ih item, last⟩

theorem child? (h : a.Reordered b) (unique : a.WellKeyed) (hc : a.child? key = some child) :
    ∃ child', b.child? key = some child' ∧ child.Reordered child' := by
  induction h generalizing child with
  | refl => exact ⟨child, hc, .refl child⟩
  -- In the tree between the two no object repeats a key either.
  | trans first _ ih ih' =>
    obtain ⟨middle, hm, below⟩ := ih unique hc
    obtain ⟨last, hl, below'⟩ := ih' (first.wellKeyed unique) hm
    exact ⟨last, hl, below.trans below'⟩
  | entries perm =>
    rw [WellKeyed] at unique
    have same := Entries.lookup_perm perm unique.1 key
    exact ⟨child, same.symm.trans hc, .refl child⟩
  | @value before k after a b below _ =>
    obtain same | ⟨ha, hb⟩ := child?_value before k after a b key
    · exact ⟨child, same.symm.trans hc, .refl child⟩
    · obtain rfl := Option.some.inj (ha.symm.trans hc)
      exact ⟨b, hb, below⟩
  | @item before after a b below _ =>
    obtain same | ⟨ha, hb⟩ := child?_item before after a b key
    · exact ⟨child, same.symm.trans hc, .refl child⟩
    · obtain rfl := Option.some.inj (ha.symm.trans hc)
      exact ⟨b, hb, below⟩

theorem resolve? (h : a.Reordered b) (unique : a.WellKeyed)
    (resolved : path.resolve? a = some node) :
    ∃ node', path.resolve? b = some node' ∧ node.Reordered node' := by
  induction path generalizing a b with
  | nil =>
    obtain rfl := Option.some.inj resolved
    exact ⟨b, rfl, h⟩
  | cons key path ih =>
    rw [Path.resolve?_cons, Option.bind_eq_some_iff] at resolved
    obtain ⟨child, hc, rest⟩ := resolved
    obtain ⟨child', hc', below⟩ := h.child? unique hc
    obtain ⟨node', hn, last⟩ := ih below (unique.child? hc) rest
    refine ⟨node', ?_, last⟩
    rw [Path.resolve?_cons, hc', Option.bind_some, hn]

theorem isPrimitive_eq (h : a.Reordered b) : a.isPrimitive = b.isPrimitive := by
  induction h with
  | trans _ _ ih ih' => exact ih.trans ih'
  | _ => rfl

/-- No comparison with a value tells the two apart. -/
theorem same_eq (h : a.Reordered b) (unique : a.WellKeyed) (v : Tree) : v.same a = v.same b := by
  induction h generalizing v with
  | refl => rfl
  | trans first _ ih ih' => exact (ih unique v).trans (ih' (first.wellKeyed unique) v)
  -- Only a value of the same kind looks into an object or an array. Any other differs from both.
  | @entries as bs perm =>
    cases v with
    | object vs =>
      rw [WellKeyed] at unique
      have entries : sameEntries vs as = sameEntries vs bs := by
        apply sameEntries_congr
        intro key v
        rw [Entries.lookup_perm perm unique.1]
      rw [same, same, perm.length_eq, entries]
    | _ => rfl
  | @value before k after a b below ih =>
    cases v with
    | object vs =>
      have valued : a.WellKeyed := by
        rw [WellKeyed, wellKeyedEntries_iff] at unique
        exact unique.2 (k, a) (by simp)
      have entries : sameEntries vs (before ++ (k, a) :: after) =
          sameEntries vs (before ++ (k, b) :: after) := by
        apply sameEntries_congr
        intro key v
        obtain unnoticed | ⟨ha, hb⟩ := child?_value before k after a b key
        · exact congrArg (Option.any v.same) unnoticed
        · have found : (before ++ (k, a) :: after).lookup key = some a := ha
          have found' : (before ++ (k, b) :: after).lookup key = some b := hb
          rw [found, found', Option.any_some, Option.any_some, ih valued]
      simp [same, entries]
    | _ => rfl
  | @item before after a b below ih =>
    cases v with
    | array vs =>
      have valued : a.WellKeyed := by
        rw [WellKeyed, wellKeyedItems_iff] at unique
        exact unique a (by simp)
      rw [same, same, sameItems_congr (ih valued)]
    | _ => rfl

end Reordered

end Tree

end DocQuery
