/-!
# The fewest digits that read back

A finite double stands for every real number that rounds to it. Among the decimal numerals in
that range, `Magnitude.shortest` picks one with the fewest digits and, of those, the nearest to
the double. All arithmetic is on whole numbers: on the grid of multiples of `10 ^ k` only the two
neighbours of the value can be nearest, and the coarsest grid with a neighbour in range gives the
fewest digits.
-/

namespace DocQuery.Decimal

/-- `coefficient * 10 ^ exponent`. -/
structure Numeral where
  coefficient : Nat
  exponent : Int
  deriving DecidableEq

/-- `significand * 2 ^ exponent`, the size of a finite double. -/
structure Magnitude where
  significand : Nat
  exponent : Int
  deriving DecidableEq

/-- What to take when two grid points are equally near. -/
inductive Tie where
  | even
  | up
  deriving DecidableEq

def isNegative (x : Float) : Bool :=
  x.toBits.toNat.testBit 63

namespace Magnitude

/-- The bit that a significand of full length starts with. -/
def leadingBit : Nat :=
  Nat.pow 2 52

/-- The size of `x`, which is neither infinite nor a NaN. -/
def ofFloat (x : Float) : Magnitude :=
  let fraction : Nat := x.toBits.toNat % leadingBit
  let biased : Nat := x.toBits.toNat / leadingBit % 2048
  if biased = 0 then ⟨fraction, -1074⟩ else ⟨fraction + leadingBit, (biased : Int) - 1075⟩

/-- How far the range of reals that round to the double reaches down, in quarters of its last
place: the gap below a power of two is half as wide. -/
def reachDown (m : Magnitude) : Nat :=
  if m.significand = leadingBit ∧ -1074 < m.exponent then 1 else 2

/-- The multiple of `10 ^ k` nearest to `m` among those that round to `m`, as a count of
`10 ^ k`. The ends of the range round to `m` iff its significand is even. -/
def onGrid? (m : Magnitude) (tie : Tie) (k : Int) : Option Nat :=
  let quarter := m.exponent - 2
  let step := Nat.pow 10 k.toNat * Nat.pow 2 (-quarter).toNat
  let unit := Nat.pow 10 (-k).toNat * Nat.pow 2 quarter.toNat
  let value := 4 * m.significand * unit
  let low := (4 * m.significand - m.reachDown) * unit
  let high := (4 * m.significand + 2) * unit
  let inRange (d : Nat) : Bool :=
    if m.significand % 2 = 0 then low ≤ d * step ∧ d * step ≤ high
    else low < d * step ∧ d * step < high
  let below := value / step
  let above := below + 1
  match inRange below, inRange above with
  | true, true =>
    match compare (value - below * step) (above * step - value), tie with
    | .lt, _ => some below
    | .gt, _ => some above
    | .eq, .up => some above
    | .eq, .even => some (if below % 2 = 0 then below else above)
  | true, false => some below
  | false, true => some above
  | false, false => none

/-- A power of ten above `m`, by at most two places. -/
def scale (m : Magnitude) : Int :=
  (m.significand.log2 + 1 + m.exponent) * 30103 / 100000 + 1

/-- Seventeen digits tell any two doubles apart, so twenty grids from `scale` down have a hit. -/
def shortest (m : Magnitude) (tie : Tie) : Numeral :=
  if m.significand = 0 then ⟨0, 0⟩
  else
    let hit? := (List.range 20).findSome? fun i =>
      let k := m.scale - Int.ofNat i
      (m.onGrid? tie k).map (Numeral.mk · k)
    hit?.getD ⟨0, 0⟩

end Magnitude

end DocQuery.Decimal
