import DocQuery.Proofs.Tree.Slot

/-!
# Keys and children

A node lists its keys and hands out the child under a key. On an array the keys are the numerals of
the positions, and a text is a key if it is such a numeral and nothing else.

* `Index.ofWord?_eq_some_iff`: a machine that reads the text as a whole number, and then asks how
  this number is written, comes to the same, as long as its words hold the position;
* `replaced_of_replace?`: a child is replaced where there is one, and everything around it stays;
* `keys_agree_with_children`: what the keys, the children and replacing a child have to do with each
  other.
-/

namespace DocQuery

/-! ## Positions as machine words -/

namespace Index

variable {limit i : Nat} {text : String}

/-- The whole number that a text of digits spells, perhaps with a plus sign before them. -/
def spelled? (text : String) : Option Nat :=
  let digits :=
    match text.toList with
    | '+' :: digits => digits
    | digits => digits
  if digits.isEmpty ∨ !digits.all Char.isDigit then none else some (Nat.ofDigitChars 10 digits 0)

/-- The number, if it is below `limit` and so fits into a machine word. -/
def word? (limit : Nat) (text : String) : Option Nat :=
  (spelled? text).filter (· < limit)

/-- The position that a machine finds for a text: the number that it reads, provided that this is
written as the text is. -/
def ofWord? (limit : Nat) (text : String) : Option Nat :=
  (word? limit text).filter (key · = text)

theorem spelled?_key (i : Nat) : spelled? (key i) = some i := by
  have written : (key i).toList = Nat.toDigits 10 i := by simp [key]
  have digits : ∀ c ∈ Nat.toDigits 10 i, c.isDigit = true := fun c hc =>
    Nat.isDigit_of_mem_toDigits (by decide) (by decide) hc
  rw [spelled?, written]
  split
  next rest signed =>
    have plus : '+'.isDigit = true := digits '+' (signed ▸ .head rest)
    exact absurd plus (by decide)
  next =>
    have numeral : ¬ ((Nat.toDigits 10 i).isEmpty ∨ !(Nat.toDigits 10 i).all Char.isDigit) := by
      simpa [Nat.toDigits_ne_nil] using digits
    simp only [if_neg numeral, Nat.ofDigitChars_ten_toDigits]

/-- A sign or a leading zero is read and then refused, as is a number that no word holds. -/
theorem ofWord?_eq_some_iff : ofWord? limit text = some i ↔ i < limit ∧ text = key i := by
  simp only [ofWord?, word?, Option.filter_eq_some_iff, decide_eq_true_eq]
  constructor
  · rintro ⟨⟨-, inside⟩, written⟩
    exact ⟨inside, written.symm⟩
  · rintro ⟨inside, rfl⟩
    exact ⟨⟨spelled?_key i, inside⟩, rfl⟩

example : word? 256 "+07" = some 7 ∧ ofWord? 256 "+07" = none ∧ ofWord? 256 "7" = some 7 ∧
    word? 256 "256" = none := by
  decide

end Index

namespace Tree

variable {t after child value : Tree} {key asked : String} {items : List Tree}

/-! ## Items under their keys -/

theorem keys_array (items : List Tree) :
    (array items).keys = (List.range items.length).map Index.key := by
  rw [keys, children, keys_numbered, List.range_eq_range']

theorem child?_array_eq_some_iff :
    (array items).child? key = some child ↔ ∃ i, key = Index.key i ∧ items[i]? = some child := by
  simp only [child?, Option.bind_eq_some_iff, Index.ofKey?_eq_some_iff]

/-- The child under the key at some place is the item at this place. -/
theorem bind_keys_child? (i : Nat) :
    ((array items).keys[i]?).bind (array items).child? = items[i]? := by
  rw [keys_array, List.getElem?_map]
  by_cases inside : i < items.length
  · rw [List.getElem?_range inside, Option.map_some, Option.bind_some, child?, Index.ofKey?_key,
      Option.bind_some]
  · have outside := Nat.le_of_not_lt inside
    rw [List.getElem?_eq_none (by simpa using outside), List.getElem?_eq_none outside]
    rfl

/-- Words that hold all positions are enough. -/
theorem child?_array_eq_word {limit : Nat} (fits : items.length ≤ limit) (key : String) :
    (array items).child? key = (Index.ofWord? limit key).bind (items[·]?) := by
  apply Option.ext
  intro child
  simp only [child?_array_eq_some_iff, Option.bind_eq_some_iff, Index.ofWord?_eq_some_iff]
  refine exists_congr fun i => and_congr_left fun found => ?_
  obtain ⟨inside, -⟩ := List.getElem?_eq_some_iff.1 found
  exact (and_iff_right (Nat.lt_of_lt_of_le inside fits)).symm

/-! ## Replacing a child -/

theorem replace?_eq_fill (t : Tree) (key : String) (value : Tree) :
    t.replace? key value = (t.child? key).map fun _ => t.fill key value := by
  cases t with
  | array items =>
    cases hi : Index.ofKey? key with
    | none => simp [replace?, child?, hi]
    | some i =>
      by_cases inside : i < items.length
      · simp [replace?, child?, fill, hi, inside]
      · simp [replace?, child?, hi, inside]
  | object entries =>
    cases found : entries.lookup key <;> simp [replace?, child?, fill, found]
  | _ => rfl

theorem replaced_of_replace? (h : t.replace? key value = some after) :
    ∃ old, Replaced key old value t after := by
  rw [replace?_eq_fill, Option.map_eq_some_iff] at h
  obtain ⟨old, found, rfl⟩ := h
  exact ⟨old, replaced_fill_of_child? found value⟩

theorem Replaced.keys_eq {a b : Tree} (h : Replaced key a b t after) : after.keys = t.keys := by
  cases h with
  | entry => simp [keys, children]
  | item => simp [keys_array]

theorem child?_of_replace? (h : t.replace? key value = some after) (other : asked ≠ key) :
    after.child? asked = t.child? asked := by
  rw [replace?_eq_fill, Option.map_eq_some_iff] at h
  obtain ⟨-, -, rfl⟩ := h
  exact child?_fill_of_ne other t value

end Tree

/-- **Keys and children agree on every node.** There is a child under a text, and one that can be
replaced, just if the text is a key. No key comes twice, and there are as many as children. The
items of an array are the children under its keys, place by place, and nothing is found under a text
that is not the numeral of a position; a machine whose words hold the length of the array finds the
same. A value that replaces a child is found in its place, and neither the keys with their order nor
any other child change. -/
theorem keys_agree_with_children (t : Tree) (unique : t.WellKeyed) :
    (∀ key, (t.child? key).isSome = true ↔ key ∈ t.keys) ∧
    (∀ key value, (t.replace? key value).isSome = true ↔ key ∈ t.keys) ∧
    t.keys.Nodup ∧ t.keys.length = t.length ∧
    (∀ items, t = .array items →
      (∀ i : Nat, (t.keys[i]?).bind t.child? = items[i]?) ∧
      (∀ key child, t.child? key = some child → ∃ i < items.length, key = toString i) ∧
      ∀ limit, items.length ≤ limit →
        ∀ key, t.child? key = (Index.ofWord? limit key).bind (items[·]?)) ∧
    ∀ key value after, t.replace? key value = some after →
      after.child? key = some value ∧ after.keys = t.keys ∧
      ∀ other, other ≠ key → after.child? other = t.child? other := by
  have present (key : String) : (t.child? key).isSome = true ↔ key ∈ t.keys := by
    rw [Tree.mem_keys_iff, Option.isSome_iff_exists]
  refine ⟨present, fun key value => ?_, unique.nodup_keys, t.length_keys, ?_, ?_⟩
  · rw [Tree.replace?_eq_fill, Option.isSome_map, present]
  · rintro items rfl
    refine ⟨Tree.bind_keys_child?, fun key child found => ?_, fun limit fits => ?_⟩
    · obtain ⟨i, written, item⟩ := Tree.child?_array_eq_some_iff.1 found
      obtain ⟨inside, -⟩ := List.getElem?_eq_some_iff.1 item
      exact ⟨i, inside, written⟩
    · exact Tree.child?_array_eq_word fits
  · intro key value after replaced
    obtain ⟨old, around⟩ := Tree.replaced_of_replace? replaced
    exact ⟨around.symm.child?_eq, around.keys_eq, fun other differs =>
      Tree.child?_of_replace? replaced differs⟩

/-- The second of three items, and its position with a zero too many. -/
theorem keys_agree_with_children_of_item :
    (Tree.array [.null, .bool true, .null]).WellKeyed ∧
      (Tree.array [.null, .bool true, .null]).child? "1" =
        (Index.ofWord? 3 "1").bind ([Tree.null, .bool true, .null][·]?) ∧
      (Tree.array [.null, .bool true, .null]).child? "01" =
        (Index.ofWord? 3 "01").bind ([Tree.null, .bool true, .null][·]?) ∧
      ∃ after, (Tree.array [.null, .bool true, .null]).replace? "1" (.string "x") = some after ∧
        after.child? "1" = some (.string "x") ∧ after.keys = ["0", "1", "2"] := by
  have unique : (Tree.array [.null, .bool true, .null]).WellKeyed := by
    simp [Tree.WellKeyed, Tree.WellKeyedItems]
  obtain ⟨-, -, -, -, items, replaced⟩ := keys_agree_with_children _ unique
  have words := (items _ rfl).2.2 3 (Nat.le_refl 3)
  obtain ⟨found, keys, -⟩ := replaced "1" (.string "x") _ rfl
  exact ⟨unique, words "1", words "01", _, rfl, found, keys⟩

end DocQuery
