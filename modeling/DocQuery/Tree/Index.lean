/-!
# Keys of array items

The item at position `i` of an array is addressed by the decimal numeral of `i` and by no other
text (`ofKey?_eq_some_iff`): signs, leading zeros and the empty text address nothing.
-/

namespace DocQuery.Index

/-- The key of the item at position `i`. -/
def key (i : Nat) : String :=
  toString i

/-- The position that `text` addresses. -/
def ofKey? (text : String) : Option Nat :=
  let i := Nat.ofDigitChars 10 text.toList 0
  if key i = text then some i else none

theorem ofKey?_key (i : Nat) : ofKey? (key i) = some i := by
  have h : Nat.ofDigitChars 10 (key i).toList 0 = i := by
    simp [key]
  simp [ofKey?, h]

theorem key_injective : Function.Injective key := by
  intro i j h
  have same : ofKey? (key i) = ofKey? (key j) := by rw [h]
  rwa [ofKey?_key, ofKey?_key, Option.some.injEq] at same

theorem ofKey?_eq_some_iff {text : String} {i : Nat} : ofKey? text = some i ↔ text = key i := by
  constructor
  · intro h
    simp only [ofKey?] at h
    split at h
    next e => rw [← Option.some.inj h, e]
    next => cases h
  · rintro rfl
    exact ofKey?_key i

/-- No two texts address one position. -/
theorem eq_of_ofKey? {text text' : String} {i : Nat} (h : ofKey? text = some i)
    (h' : ofKey? text' = some i) : text = text' :=
  (ofKey?_eq_some_iff.1 h).trans (ofKey?_eq_some_iff.1 h').symm

end DocQuery.Index
