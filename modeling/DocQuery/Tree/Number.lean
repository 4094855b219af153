/-!
# Numbers

A number is a 64-bit integer or a double, and remembers which. Two integers compare exactly; an
integer and a double compare as doubles.
-/

namespace DocQuery

inductive Number where
  | integer (value : Int64)
  | float (value : Float)
  deriving DecidableEq

namespace Number

/-- An integer without an exact double goes to the nearest one. -/
def toFloat : Number → Float
  | .integer value => .ofInt value.toInt
  | .float value => value

def isInteger : Number → Bool
  | .integer _ => true
  | .float _ => false

/-- Numeric equality. A NaN equals nothing, and the two zeros are equal. -/
def same : Number → Number → Bool
  | .integer a, .integer b => a == b
  | a, b => a.toFloat == b.toFloat

/-- The whole number `value`, as a double when 64 bits with a sign do not hold it. -/
def ofInt (value : Int) : Number :=
  if Int64.minValue.toInt ≤ value ∧ value ≤ Int64.maxValue.toInt then .integer (.ofInt value)
  else .float (.ofInt value)

end Number

end DocQuery
