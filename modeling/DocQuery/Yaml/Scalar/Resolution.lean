import DocQuery.Decimal.Reading
import DocQuery.Text.Hex
import DocQuery.Yaml.Value

/-!
# What plain scalars mean

A plain scalar is null, a truth value, an integer, a double or a text, in this order, by the look
of it. Digits behind a leading zero are a text.
-/

namespace DocQuery.Yaml

def isNullText (text : String) : Bool :=
  ["null", "Null", "NULL", "~"].contains text

def boolOfText? (text : String) : Option Bool :=
  if ["true", "True", "TRUE"].contains text then some true
  else if ["false", "False", "FALSE"].contains text then some false
  else none

/-- Several digits of which the first is zero, with or without a sign. -/
def isPaddedNumeral (text : List Char) : Bool :=
  let digits := match text with
    | '-' :: rest | '+' :: rest => rest
    | text => text
  2 ≤ digits.length && digits.head? == some '0' && digits.all Char.isDigit

/-- The value of digits in a base of at most sixteen. -/
def naturalOfDigits? (base : Nat) (digits : List Char) : Option Nat :=
  if digits.isEmpty then none
  else
    digits.foldl (fun n? c => do
      let n ← n?
      let d ← Hex.value? c
      if d < base then return base * n + d else none) (some 0)

/-- The size of an integer: decimal, or in the base that `0x`, `0o` or `0b` names. -/
def naturalOfText? (text : List Char) : Option Nat :=
  match text with
  | '0' :: 'x' :: digits => naturalOfDigits? 16 digits
  | '0' :: 'o' :: digits => naturalOfDigits? 8 digits
  | '0' :: 'b' :: digits => naturalOfDigits? 2 digits
  | digits => if isPaddedNumeral digits then none else naturalOfDigits? 10 digits

/-- An integer as written, if 128 bits hold it: with a sign if it is negative, else without. -/
def integerOfText? (text : List Char) : Option Int :=
  match text with
  | '-' :: rest =>
    (naturalOfText? rest).bind fun n => if n ≤ Nat.pow 2 127 then some (-n) else none
  | '+' :: rest => natural rest
  | rest => natural rest
where
  natural (rest : List Char) : Option Int :=
    (naturalOfText? rest).bind fun n => if n < Nat.pow 2 128 then some n else none

/-- A double as written. What is beyond the largest double is none. -/
def floatOfText? (text : List Char) : Option Float :=
  let size := match text with
    | '+' :: rest => rest
    | text => text
  if [".inf", ".Inf", ".INF"].contains (String.ofList size) then some (1 / 0)
  else if ["-.inf", "-.Inf", "-.INF"].contains (String.ofList text) then some (-1 / 0)
  else if [".nan", ".NaN", ".NAN"].contains (String.ofList text) then some (0 / 0)
  else (Decimal.ofChars? text).filter (·.isFinite)

namespace Value

/-- Integers of a document have 64 bits, with a sign if they are negative. -/
def ofInteger? (n : Int) : Option Value :=
  if Int64.minValue.toInt ≤ n ∧ n < UInt64.size then some (.integer n) else none

/-- The value of a plain scalar, unless that is an integer too large for a document. -/
def ofPlain? (text : String) : Option Value :=
  if text.isEmpty || isNullText text then some .null
  else
    match boolOfText? text, integerOfText? text.toList with
    | some b, _ => some (.bool b)
    | none, some n => ofInteger? n
    | none, none =>
      if isPaddedNumeral text.toList then some (.string text)
      else
        match floatOfText? text.toList with
        | some x => some (.float x)
        | none => some (.string text)

/-- The value of a scalar with one of the tags of the core schema, which must fit its text. Tags
that are not known make a text. -/
def ofCore? (tag text : String) : Option Value :=
  if tag = "tag:yaml.org,2002:bool" then (boolOfText? text).map .bool
  else if tag = "tag:yaml.org,2002:int" then (integerOfText? text.toList).bind ofInteger?
  else if tag = "tag:yaml.org,2002:float" then (floatOfText? text.toList).map .float
  else if tag = "tag:yaml.org,2002:null" then if isNullText text then some .null else none
  else some (.string text)

end Value

end DocQuery.Yaml
