import DocQuery.Decimal.Shortest

/-!
# Layouts of decimal numerals

How a format writes a double: the digits are the fewest that read back, and a `Layout` says which
of them go before the point, what stands in for an absent fraction, and how exponents look.
-/

namespace DocQuery.Decimal

structure Layout where
  tie : Tie
  /-- Whether a numeral whose leading digit counts `10 ^ e` is written without an exponent. -/
  positional : Int → Bool
  /-- Whether a positional whole number gets the fraction `.0`. -/
  wholeFraction : Bool
  /-- Whether an exponent that is not negative gets a plus sign. -/
  plusSign : Bool
  nan : String
  infinity : String
  negativeInfinity : String

namespace Layout

/-- The digits with the point after the first `point` of them, padded by zeros. -/
def positionalText (l : Layout) (digits : List Char) (point : Int) : List Char :=
  let n := digits.length
  if point ≤ 0 then '0' :: '.' :: List.replicate (-point).toNat '0' ++ digits
  else if n ≤ point then
    digits ++ List.replicate (point - n).toNat '0' ++ (if l.wholeFraction then ['.', '0'] else [])
  else digits.take point.toNat ++ '.' :: digits.drop point.toNat

/-- One digit before the point and the exponent `e` after. -/
def scientificText (l : Layout) (digits : List Char) (e : Int) : List Char :=
  let sign := if e < 0 then ['-'] else if l.plusSign then ['+'] else []
  let fraction := if digits.length ≤ 1 then [] else '.' :: digits.drop 1
  digits.take 1 ++ fraction ++ 'e' :: sign ++ (toString e.natAbs).toList

def write (l : Layout) (x : Float) : String :=
  if x.isNaN then l.nan
  else if x.isInf then (if isNegative x then l.negativeInfinity else l.infinity)
  else
    let numeral := (Magnitude.ofFloat x).shortest l.tie
    let digits := (toString numeral.coefficient).toList
    let point := digits.length + numeral.exponent
    let text := if l.positional (point - 1) then l.positionalText digits point
      else l.scientificText digits (point - 1)
    String.ofList (if isNegative x then '-' :: text else text)

end Layout

end DocQuery.Decimal
