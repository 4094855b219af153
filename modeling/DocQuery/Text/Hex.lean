/-!
# Hexadecimal digits
-/

namespace DocQuery.Hex

/-- The value of a digit of either case. -/
def value? (c : Char) : Option Nat :=
  if '0' ≤ c ∧ c ≤ '9' then some (c.toNat - '0'.toNat)
  else if 'A' ≤ c ∧ c ≤ 'F' then some (c.toNat - 'A'.toNat + 10)
  else if 'a' ≤ c ∧ c ≤ 'f' then some (c.toNat - 'a'.toNat + 10)
  else none

/-- The value of a numeral of which every character is a digit. -/
def number? (digits : List Char) : Option Nat :=
  digits.foldl (fun n? c => n?.bind fun n => (value? c).map (16 * n + ·)) (some 0)

def lower (n : Nat) : Char :=
  Nat.digitChar n

def upper (n : Nat) : Char :=
  (Nat.digitChar n).toUpper

/-- The last `width` digits of `n`, written with `digit`. -/
def padded (digit : Nat → Char) (width n : Nat) : List Char :=
  (List.range width).reverse.map fun place => digit (n / Nat.pow 16 place % 16)

theorem value?_upper {n : Nat} (h : n < 16) : value? (upper n) = some n := by
  have all : ∀ n, n < 16 → value? (upper n) = some n := by decide
  exact all n h

/-- A hexadecimal digit of either case. -/
def IsDigit (c : Char) : Prop :=
  '0' ≤ c ∧ c ≤ '9' ∨ 'A' ≤ c ∧ c ≤ 'F' ∨ 'a' ≤ c ∧ c ≤ 'f'

instance (c : Char) : Decidable (IsDigit c) :=
  inferInstanceAs (Decidable (_ ∨ _))

theorem isDigit_iff {c : Char} : IsDigit c ↔ ∃ n, value? c = some n := by
  rw [← Option.isSome_iff_exists]
  simp only [IsDigit, value?]
  by_cases decimal : '0' ≤ c ∧ c ≤ '9'
  · simp [decimal]
  · by_cases upper : 'A' ≤ c ∧ c ≤ 'F'
    · simp [decimal, upper]
    · by_cases lower : 'a' ≤ c ∧ c ≤ 'f' <;> simp [decimal, upper, lower]

end DocQuery.Hex
