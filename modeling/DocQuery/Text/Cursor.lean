/-!
# Reading by position

A text is read segment after segment from a position in it, which is counted in bytes. After a
segment the position is behind the separator that ends it. No separator ends the last segment, and
after it the position is past the end of the text; so a text that ends with a separator has one more
segment, an empty one.

A text can be cut between two of its characters and nowhere else. A position outside of it or inside
a character gives no piece.
-/

namespace DocQuery

/-- A text and how many bytes of it have been read. -/
structure Cursor where
  text : String
  position : Nat

namespace Cursor

def start (text : String) : Cursor :=
  ⟨text, 0⟩

/-- Whether the last segment has been read. -/
def atEnd (c : Cursor) : Bool :=
  c.text.utf8ByteSize < c.position

/-- What stands in `text` from a position on. -/
def from? (text : String) (position : Nat) : Option String :=
  (text.pos? ⟨position⟩).map fun p => (text.sliceFrom p).copy

/-- What stands in `text` before a position. -/
def upTo? (text : String) (position : Nat) : Option String :=
  (text.pos? ⟨position⟩).map fun p => (text.sliceTo p).copy

/-- The segment that begins at the cursor, and the cursor behind its separator. -/
def next? (separator : Char) (c : Cursor) : Option (String × Cursor) := do
  let rest ← from? c.text c.position
  let length := ((rest.find? separator).map (·.offset.byteIdx)).getD rest.utf8ByteSize
  let segment ← upTo? rest length
  return (segment, ⟨c.text, c.position + length + separator.utf8Size⟩)

theorem advances_of_next? {separator : Char} {c later : Cursor} {segment : String}
    (h : c.next? separator = some (segment, later)) :
    later.text = c.text ∧ c.position < later.position := by
  simp only [next?, Option.bind_eq_bind, Option.bind_eq_some_iff, pure, Option.some.injEq] at h
  obtain ⟨rest, -, segment, -, moved⟩ := h
  have size := separator.utf8Size_pos
  cases moved
  exact ⟨rfl, by dsimp only; omega⟩

/-- Reads the segments in turn, up to the first that `read` refuses. There is no result if the text
cannot be cut where the cursor stands. -/
def readAll {α ε : Type} (separator : Char) (read : String → Except ε α) (c : Cursor) :
    Option (Except ε (List α)) :=
  if c.atEnd then some (.ok [])
  else
    match _h : c.next? separator with
    | none => none
    | some (segment, later) =>
      match read segment with
      | .error e => some (.error e)
      | .ok x => (readAll separator read later).map (·.map (x :: ·))
  termination_by c.text.utf8ByteSize + 1 - c.position
  decreasing_by
    obtain ⟨same, further⟩ := advances_of_next? _h
    simp only [atEnd, decide_eq_true_eq] at *
    rw [same]
    omega

end Cursor

end DocQuery
