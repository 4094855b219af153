import DocQuery.Json.Reader
import DocQuery.Json.Writer
import Mathlib.Data.List.Basic

/-!
# Written tokens

What the writer puts down for a text or a whole number is read as one token, up to its last
character and no further, and the token holds what was written.

* `quoted?_escaped`: every character of a quoted text is read back, escaped or not;
* `next?_quote`, `next?_numeral`: texts and whole numbers of 64 bits are read back;
* `readFrom_of_next?`: one turn of the reader.
-/

namespace DocQuery

/-- Four digits are enough for the characters that have no escape of one letter. -/
theorem Hex.number?_padded {n : Nat} (control : n < 32) :
    number? (padded lower 4 n) = some n := by
  have all : ∀ n < 32, number? (padded lower 4 n) = some n := by decide
  exact all n control

namespace Json

variable {c : Char} {text rest : List Char} {n : Nat}

/-! ## Quoted texts -/

theorem quoted?_escapeChar (c : Char) (read rest : List Char) :
    quoted? read (escapeChar c ++ rest) = quoted? (c :: read) rest := by
  unfold escapeChar
  split
  case h_8 =>
    split
    next control =>
      -- A control character is below the surrogates.
      have small : c.toNat < 32 := control
      have high : isHighSurrogate c.toNat = false := by simp [isHighSurrogate]; omega
      have low : isLowSurrogate c.toNat = false := by simp [isLowSurrogate]; omega
      have number : Hex.number? [_, _, _, _] = some c.toNat := Hex.number?_padded small
      show quoted? read ('\\' :: 'u' :: _ :: _ :: _ :: _ :: rest) = _
      rw [quoted?, number]
      simp [high, low]
    next plain =>
      rw [List.singleton_append, quoted?, if_neg plain] <;> simp_all
  all_goals simp [quoted?, shortEscape?]

theorem quoted?_escaped (content read rest : List Char) :
    quoted? read (content.flatMap escapeChar ++ '"' :: rest) =
      some (String.ofList (read.reverse ++ content), rest) := by
  induction content generalizing read with
  | nil => simp [quoted?]
  | cons c content ih =>
    rw [List.flatMap_cons, List.append_assoc, quoted?_escapeChar, ih]
    simp

theorem next?_quote (content : String) (rest : List Char) :
    Token.next? (quote content ++ rest) = some (.quoted content, rest) := by
  have read := quoted?_escaped content.toList [] rest
  simp [quote, Token.next?, read]

/-! ## Numerals -/

/-- The first character of a numeral above zero is not the digit zero. -/
theorem head?_toDigits (pos : 0 < n) : (Nat.toDigits 10 n).head? ≠ some '0' := by
  induction n using Nat.strongRecOn with
  | ind n ih =>
    by_cases one : n < 10
    · have digit : ∀ d < 10, 0 < d → d.digitChar ≠ '0' := by decide
      rw [Nat.toDigits_of_lt_base one]
      simpa using digit n one pos
    · rw [Nat.toDigits_of_base_le (by decide) (Nat.le_of_not_lt one),
        List.head?_append_of_ne_nil _ Nat.toDigits_ne_nil]
      exact ih (n / 10) (by omega) (by omega)

theorem isDigit_of_mem_toDigits (h : c ∈ Nat.toDigits 10 n) : c.isDigit = true :=
  Nat.isDigit_of_mem_toDigits (by decide) (by decide) h

/-- What may follow an item or an entry of a container. -/
def Delimited (rest : List Char) : Prop :=
  ∀ c ∈ rest.head?, c = ',' ∨ c = ']' ∨ c = '}'

theorem digits_toDigits (n : Nat) (ends : Delimited rest) :
    digits (Nat.toDigits 10 n ++ rest) = (Nat.toDigits 10 n, rest) := by
  have inside : ∀ c ∈ Nat.toDigits 10 n, c.isDigit = true := fun _ => isDigit_of_mem_toDigits
  have boundary : rest.takeWhile Char.isDigit = [] ∧ rest.dropWhile Char.isDigit = rest := by
    cases rest with
    | nil => exact ⟨rfl, rfl⟩
    | cons c rest =>
      obtain rfl | rfl | rfl := ends c rfl <;> exact ⟨rfl, rfl⟩
  rw [digits, List.takeWhile_append_of_pos inside, List.dropWhile_append_of_pos inside,
    boundary.1, boundary.2, List.append_nil]

theorem number?_toDigits (n : Nat) (rest : List Char) :
    number? (Nat.toDigits 10 n ++ rest) = unsigned? false (Nat.toDigits 10 n ++ rest) := by
  obtain ⟨c, more, first⟩ := List.exists_cons_of_ne_nil (Nat.toDigits_ne_nil (n := n) (b := 10))
  have mem : c ∈ Nat.toDigits 10 n := by simp [first]
  rw [first, List.cons_append, number?]
  intro _ signed
  obtain ⟨rfl, -⟩ := List.cons.inj signed
  cases isDigit_of_mem_toDigits mem

/-- A numeral ends where its digits end if a delimiter follows. -/
theorem unsigned?_toDigits (negative : Bool) (n : Nat) (ends : Delimited rest) :
    unsigned? negative (Nat.toDigits 10 n ++ rest) =
      (numberValue? negative (Nat.toDigits 10 n) [] none).map (·, rest) := by
  have whole : fraction? rest = some ([], rest) ∧ exponent? rest = some (none, rest) := by
    cases rest with
    | nil => exact ⟨rfl, rfl⟩
    | cons c rest =>
      obtain rfl | rfl | rfl := ends c rfl <;> exact ⟨rfl, rfl⟩
  rw [unsigned?, digits_toDigits n ends]
  split
  next none => exact absurd (Prod.mk.inj none).1 Nat.toDigits_ne_nil
  next second more _ zero =>
    -- Only the numeral of zero starts with a zero, and it has no second digit.
    have first : (Nat.toDigits 10 n).head? = some '0' := by rw [(Prod.mk.inj zero).1]; rfl
    obtain rfl : n = 0 := Nat.eq_zero_of_not_pos fun pos => head?_toDigits pos first
    cases (Prod.mk.inj zero).1
  next digits after _ _ split =>
    obtain ⟨rfl, rfl⟩ := Prod.mk.inj split
    rw [whole.1]
    simp only [whole.2]

theorem numeral_of_nonneg {i : Int64} (whole : i.toInt = n) :
    numeral (.integer i) = Nat.toDigits 10 n := by
  rw [numeral, whole, Int.toString_eq_repr, Int.repr_eq_if, if_pos (Int.natCast_nonneg n),
    Int.toNat_natCast, Nat.toList_repr]

theorem numeral_of_neg {i : Int64} (pos : 0 < n) (whole : i.toInt = -n) :
    numeral (.integer i) = '-' :: Nat.toDigits 10 n := by
  have negative : ¬ (0 : Int) ≤ -n := by omega
  rw [numeral, whole, Int.toString_eq_repr, Int.repr_eq_if, if_neg negative, Int.neg_neg,
    Int.toNat_natCast, String.toList_append, Nat.toList_repr]
  rfl

/-- A whole number of 64 bits with a sign is not taken for a double, not even the least one. -/
theorem number?_numeral (i : Int64) (ends : Delimited rest) :
    number? (numeral (.integer i) ++ rest) = some (.integer i.toInt, rest) := by
  have least := i.le_toInt
  have most := i.toInt_lt
  by_cases nonneg : 0 ≤ i.toInt
  · obtain ⟨n, whole⟩ := Int.eq_ofNat_of_zero_le nonneg
    have fits : n < UInt64.size := by simp only [UInt64.size]; omega
    have value : numberValue? false (Nat.toDigits 10 n) [] none = some (.integer n) := by
      simp [numberValue?, fits]
    rw [numeral_of_nonneg whole, whole, number?_toDigits, unsigned?_toDigits false n ends, value]
    rfl
  · obtain ⟨n, whole⟩ : ∃ n : Nat, i.toInt = -n := ⟨(-i.toInt).toNat, by omega⟩
    have pos : 0 < n := by omega
    have fits : (n : Int) ≤ 9223372036854775808 := by omega
    have value : numberValue? true (Nat.toDigits 10 n) [] none = some (.integer (-n)) := by
      simp [numberValue?, pos, fits]
    rw [numeral_of_neg pos whole, whole]
    show unsigned? true (Nat.toDigits 10 n ++ rest) = _
    rw [unsigned?_toDigits true n ends, value]
    rfl

/-- No other token starts like a number. -/
theorem next?_of_number? {value : Value} (read : number? text = some (value, rest)) :
    Token.next? text = some (.leaf value, rest) := by
  unfold Token.next?
  split
  case h_11 => rw [read]; rfl
  all_goals cases read

theorem next?_numeral (i : Int64) (ends : Delimited rest) :
    Token.next? (numeral (.integer i) ++ rest) = some (.leaf (.integer i.toInt), rest) :=
  next?_of_number? (number?_numeral i ends)

/-! ## Turns of the reader -/

theorem next?_of_isBlank (blank : isBlank c = true) (rest : List Char) :
    Token.next? (c :: rest) = none := by
  simp only [isBlank, decide_eq_true_eq] at blank
  obtain rfl | rfl | rfl | rfl := blank <;> rfl

/-- A token that stands next and is admitted is one turn of the reader. -/
theorem readFrom_of_next? {reading reading' : Reading} (token : Token)
    (next : Token.next? text = some (token, rest)) (step : reading.step? token = some reading') :
    readFrom reading text = readFrom reading' rest := by
  cases text with
  | nil => cases next
  | cons c text =>
    have visible : ¬ isBlank c = true := by
      intro blank
      rw [next?_of_isBlank blank] at next
      cases next
    rw [readFrom, if_neg visible]
    split
    next none =>
      rw [next] at none
      cases none
    next same =>
      rw [next] at same
      cases same
      rw [step]

end Json

end DocQuery
