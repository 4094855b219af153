import DocQuery.Decimal.Reading
import DocQuery.Text.Hex
import DocQuery.Toml.Value

/-!
# Truth values, numbers and dates of TOML

These values have no quotes: each is a run of letters, digits and a few signs, and `ofWord?` says
what a run means. Of dates and times only the form is of interest.
-/

namespace DocQuery.Toml

/-- Digits of a base with single underscores between them, without the underscores. -/
def digitsOf? (base : Nat) (cs : List Char) : Option (List Char) :=
  let pieces := cs.splitOn '_'
  if pieces.all fun piece =>
      !piece.isEmpty && piece.all fun c => (Hex.value? c).any (· < base) then
    some pieces.flatten
  else none

/-- Decimal digits of which the first is no zero, unless it is the only one. -/
def wholeDigits? (cs : List Char) : Option (List Char) :=
  match digitsOf? 10 cs with
  | some ('0' :: _ :: _) => none
  | digits => digits

/-- The minus sign before a numeral, if there is one, and the rest. A plus sign changes nothing. -/
def splitSign : List Char → List Char × List Char
  | '-' :: rest => (['-'], rest)
  | '+' :: rest => ([], rest)
  | rest => ([], rest)

/-! ## Integers -/

def ofDigits (base : Nat) (digits : List Char) : Int :=
  digits.foldl (fun n c => n * base + Int.ofNat ((Hex.value? c).getD 0)) 0

/-- Integers have 64 bits with a sign. -/
def integer? (cs : List Char) : Option Value :=
  let value? : Option Int :=
    match cs with
    | '0' :: 'x' :: digits => (digitsOf? 16 digits).map (ofDigits 16)
    | '0' :: 'o' :: digits => (digitsOf? 8 digits).map (ofDigits 8)
    | '0' :: 'b' :: digits => (digitsOf? 2 digits).map (ofDigits 2)
    | cs =>
      let (sign, digits) := splitSign cs
      (wholeDigits? digits).map fun digits =>
        if sign.isEmpty then ofDigits 10 digits else -ofDigits 10 digits
  match value? with
  | some n =>
    if Int64.minValue.toInt ≤ n ∧ n ≤ Int64.maxValue.toInt then some (.integer n) else none
  | none => none

/-! ## Floats -/

/-- Digits after a point, if there is one. -/
def fraction? : List Char → Option (List Char × List Char)
  | '.' :: rest =>
    let isPart (c : Char) : Bool := c.isDigit || c == '_'
    (digitsOf? 10 (rest.takeWhile isPart)).map fun digits =>
      ('.' :: digits, rest.dropWhile isPart)
  | rest => some ([], rest)

/-- An exponent up to the end, if there is one. -/
def exponent? : List Char → Option (List Char)
  | [] => some []
  | e :: rest =>
    if e = 'e' ∨ e = 'E' then
      let (sign, digits) := splitSign rest
      (digitsOf? 10 digits).map fun digits => 'e' :: sign ++ digits
    else none

/-- A numeral beyond the largest double is refused, but not one beyond the smallest. -/
def float? (cs : List Char) : Option Value := do
  let (sign, rest) := splitSign cs
  let x ← match rest with
    | ['i', 'n', 'f'] => return .float (Decimal.nearest 1 400)
    | ['n', 'a', 'n'] => return .float (0 / 0)
    | rest =>
      let isPart (c : Char) : Bool := c.isDigit || c == '_'
      let whole ← wholeDigits? (rest.takeWhile isPart)
      let (fraction, rest) ← fraction? (rest.dropWhile isPart)
      let exponent ← exponent? rest
      Decimal.ofChars? (sign ++ whole ++ fraction ++ exponent)
  if x == Decimal.nearest 1 400 then none else return .float x

/-! ## Dates and times -/

/-- Whether two digits spell a number from `low` to `high`. -/
def isWithin (low high : Nat) (digits : List Char) : Bool :=
  digits.all Char.isDigit && decide (low ≤ Nat.ofDigitChars 10 digits 0) &&
    decide (Nat.ofDigitChars 10 digits 0 ≤ high)

def daysOf (year month : Nat) : Nat :=
  if month = 2 then
    if year % 4 = 0 ∧ (year % 100 ≠ 0 ∨ year % 400 = 0) then 29 else 28
  else if month ∈ [4, 6, 9, 11] then 30 else 31

def isDate : List Char → Bool
  | [y₁, y₂, y₃, y₄, '-', m₁, m₂, '-', d₁, d₂] =>
    let number (digits : List Char) := Nat.ofDigitChars 10 digits 0
    let days := daysOf (number [y₁, y₂, y₃, y₄]) (number [m₁, m₂])
    [y₁, y₂, y₃, y₄].all Char.isDigit && isWithin 1 12 [m₁, m₂] && isWithin 1 days [d₁, d₂]
  | _ => false

/-- A time of day, where a second may be a leap second. -/
def isTime : List Char → Bool
  | h₁ :: h₂ :: ':' :: m₁ :: m₂ :: ':' :: s₁ :: s₂ :: fraction =>
    isWithin 0 23 [h₁, h₂] && isWithin 0 59 [m₁, m₂] && isWithin 0 60 [s₁, s₂] &&
      match fraction with
      | [] => true
      | '.' :: digits => !digits.isEmpty && digits.all Char.isDigit
      | _ => false
  | _ => false

def isOffset : List Char → Bool
  | [] => true
  | [c] => c = 'Z' || c = 'z'
  | [sign, h₁, h₂, ':', m₁, m₂] =>
    (sign = '+' || sign = '-') && isWithin 0 23 [h₁, h₂] && isWithin 0 59 [m₁, m₂]
  | _ => false

/-- A date, a time, or both, and then perhaps with an offset. -/
def isDateTime (cs : List Char) : Bool :=
  isTime cs || isDate (cs.take 10) &&
    match cs.drop 10 with
    | [] => true
    | c :: rest =>
      let isOfTime (c : Char) : Bool := c.isDigit || c == ':' || c == '.'
      (c = 'T' || c = 't' || c = ' ') && isTime (rest.takeWhile isOfTime) &&
        isOffset (rest.dropWhile isOfTime)

/-! ## Words -/

def isWordChar (c : Char) : Bool :=
  c.isAlphanum || c == '+' || c == '-' || c == '.' || c == '_' || c == ':'

/-- What a run of characters means. -/
def ofWord? (word : List Char) : Option Value :=
  if word = "true".toList then some (.bool true)
  else if word = "false".toList then some (.bool false)
  else if isDateTime word then some .dateTime
  else (integer? word).or (float? word)

/-- The run of characters at the front. A time may stand a blank away from its date. -/
def splitWord (cs : List Char) : List Char × List Char :=
  let word := cs.takeWhile isWordChar
  match cs.dropWhile isWordChar with
  | ' ' :: c :: rest =>
    if isDate word && c.isDigit then
      (word ++ ' ' :: (c :: rest).takeWhile isWordChar, (c :: rest).dropWhile isWordChar)
    else (word, ' ' :: c :: rest)
  | rest => (word, rest)

end DocQuery.Toml
