import DocQuery.Yaml.Spot

/-!
# Folded white space

White space inside a scalar is held back until the next character shows what it means: within a
line it stands for itself, one line break becomes a space, and further breaks are kept.
-/

namespace DocQuery.Yaml

/-- White space that was read and not yet written. Lists are last first. -/
structure Gap where
  /-- Blanks before the first break. -/
  blanks : List Char := []
  /-- Whether a line has ended in the gap. -/
  broken : Bool := false
  /-- The first break as text, absent if it was escaped. -/
  first : List Char := []
  /-- The breaks after the first. -/
  more : List Char := []

namespace Gap

def none : Gap := {}

def addBlank (g : Gap) (c : Char) : Gap :=
  if g.broken then g else { g with blanks := c :: g.blanks }

def addBreak (g : Gap) (c : Char) : Gap :=
  if g.broken then { g with more := (Spots.breakText c).reverse ++ g.more }
  else { broken := true, first := Spots.breakText c }

/-- A gap that starts with an escaped line break. -/
def escapedBreak : Gap :=
  { broken := true }

/-- Writes the gap behind `text`, which is last first. -/
def close (g : Gap) (text : List Char) : List Char :=
  if !g.broken then g.blanks ++ text
  else if g.first = ['\n'] then (if g.more.isEmpty then ' ' :: text else g.more ++ text)
  else g.more ++ g.first ++ text

end Gap

end DocQuery.Yaml
