import DocQuery.Json.Writer

/-!
# Trees as text

A tree on a single line: texts as they are, other leaves by their literal, containers as compact
JSON.
-/

namespace DocQuery

/-- Doubles are written out in full, and a whole one like an integer. -/
def plainLayout : Decimal.Layout where
  tie := .up
  positional _ := true
  wholeFraction := false
  plusSign := false
  nan := "NaN"
  infinity := "inf"
  negativeInfinity := "-inf"

def Number.text : Number → String
  | .integer value => toString value.toInt
  | .float value => plainLayout.write value

def Tree.text : Tree → String
  | .null => "null"
  | .bool true => "true"
  | .bool false => "false"
  | .number value => value.text
  | .string text => text
  | container => Json.compact container

end DocQuery
