/-!
# Decimal numerals as doubles

Two readings of `coefficient * 10 ^ exponent`: the double nearest to it, and the double found by
scaling the coefficient with powers of ten, which rounds at every step and may be off in the last
place. `ofChars?` reads a written numeral the first way.
-/

namespace DocQuery.Decimal

/-- The double nearest to `coefficient * 10 ^ exponent`. The exponents cut off belong to numerals
beyond the largest double or closer to zero than to the smallest one. -/
def nearest (coefficient : Nat) (exponent : Int) : Float :=
  let point := (toString coefficient).length + exponent
  if coefficient = 0 ∨ point < -330 then .ofScientific 0 false 0
  else if 310 < point then .ofScientific 1 false 400
  else if 0 ≤ exponent then .ofScientific coefficient false exponent.toNat
  else .ofScientific coefficient true (-exponent).toNat

/-- Scaling by at most `10 ^ 308` at a time. A result beyond the largest double is refused, and so
is a positive exponent that one step does not use up. -/
def scaleBy? (x : Float) (exponent : Int) : Nat → Option Float
  | 0 => some x
  | steps + 1 =>
    if exponent.natAbs ≤ 308 then
      if exponent < 0 then some (x / nearest 1 exponent.natAbs)
      else
        let y := x * nearest 1 exponent.natAbs
        if y.isInf then none else some y
    else if x == nearest 0 0 then some x
    else if 0 ≤ exponent then none
    else scaleBy? (x / nearest 1 308) (exponent + 308) steps

/-- The coefficient is below `2 ^ 64`, so four steps of `10 ^ 308` leave zero. -/
def scaled? (coefficient : Nat) (exponent : Int) : Option Float :=
  scaleBy? coefficient.toUInt64.toFloat exponent 5

/-- The exponent that `text` consists of, zero if it is empty. -/
def exponent? : List Char → Option Int
  | [] => some 0
  | e :: rest =>
    if e = 'e' ∨ e = 'E' then
      match rest with
      | '-' :: digits => (natural? digits).map (-Int.ofNat ·)
      | '+' :: digits => (natural? digits).map Int.ofNat
      | digits => (natural? digits).map Int.ofNat
    else none
where
  natural? (digits : List Char) : Option Nat :=
    if digits.isEmpty ∨ !digits.all Char.isDigit then none else some (Nat.ofDigitChars 10 digits 0)

/-- A numeral without sign: digits with a point among them, before them or after them, and then
perhaps an exponent. -/
def unsigned? (text : List Char) : Option Float :=
  let whole := text.takeWhile Char.isDigit
  let rest := text.dropWhile Char.isDigit
  let (fraction, rest) :=
    match rest with
    | '.' :: rest => (rest.takeWhile Char.isDigit, rest.dropWhile Char.isDigit)
    | rest => ([], rest)
  let digits := whole ++ fraction
  if digits.isEmpty then none
  else (exponent? rest).map fun e => nearest (Nat.ofDigitChars 10 digits 0) (e - fraction.length)

/-- The double nearest to a written numeral with or without a sign. -/
def ofChars? : List Char → Option Float
  | '-' :: rest => (unsigned? rest).map (-·)
  | '+' :: rest => unsigned? rest
  | text => unsigned? text

end DocQuery.Decimal
