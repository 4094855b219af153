import DocQuery.Json.Token

/-!
# Reading JSON

A text is read token by token. What has been read is kept as a `Reading`: the containers that are
open, innermost first, and what may come next. A text is accepted when the reading ends `complete`.
-/

namespace DocQuery.Json

/-- How many containers may be open at once. -/
def maxDepth : Nat :=
  127

/-- An open container with what has been read of it, last first. -/
inductive Frame where
  | array (items : List Value)
  /-- An object, reading the value under `key`. -/
  | object (entries : List (String × Value)) (key : String)

inductive Reading where
  /-- A value must follow or, if `mayEnd`, the end of the array that `frames` starts with. -/
  | expectValue (frames : List Frame) (mayEnd : Bool)
  /-- A key must follow or, if `mayEnd`, the end of the object. -/
  | expectKey (entries : List (String × Value)) (frames : List Frame) (mayEnd : Bool)
  | expectColon (entries : List (String × Value)) (key : String) (frames : List Frame)
  /-- A comma must follow or the end of the array. -/
  | afterItem (items : List Value) (frames : List Frame)
  /-- A comma must follow or the end of the object. -/
  | afterEntry (entries : List (String × Value)) (frames : List Frame)
  | complete (value : Value)

namespace Reading

/-- The reading after a whole value inside `frames`. -/
def finish (value : Value) : List Frame → Reading
  | [] => .complete value
  | .array items :: frames => .afterItem (value :: items) frames
  | .object entries key :: frames => .afterEntry ((key, value) :: entries) frames

/-- Ends an array whose items are given last first. -/
def endArray (items : List Value) (frames : List Frame) : Reading :=
  finish (.array items.reverse) frames

/-- Ends an object whose entries are given last first. A key keeps its first place and its last
value. -/
def endObject (entries : List (String × Value)) (frames : List Frame) : Reading :=
  finish (.object (Entries.ofPairs entries.reverse)) frames

/-- What a token makes of a reading, if the token may stand there. -/
def step? : Reading → Token → Option Reading
  | .expectValue frames _, .leaf value => some (finish value frames)
  | .expectValue frames _, .quoted content => some (finish (.string content) frames)
  | .expectValue frames _, .beginArray =>
    if frames.length < maxDepth then some (.expectValue (.array [] :: frames) true) else none
  | .expectValue frames _, .beginObject =>
    if frames.length < maxDepth then some (.expectKey [] frames true) else none
  | .expectValue (.array items :: frames) true, .endArray => some (endArray items frames)
  | .expectKey entries frames _, .quoted content => some (.expectColon entries content frames)
  | .expectKey entries frames true, .endObject => some (endObject entries frames)
  | .expectColon entries key frames, .colon =>
    some (.expectValue (.object entries key :: frames) false)
  | .afterItem items frames, .comma => some (.expectValue (.array items :: frames) false)
  | .afterItem items frames, .endArray => some (endArray items frames)
  | .afterEntry entries frames, .comma => some (.expectKey entries frames false)
  | .afterEntry entries frames, .endObject => some (endObject entries frames)
  | _, _ => none

end Reading

/-- Reads `text` to its end, from `reading` on. -/
def readFrom (reading : Reading) (text : List Char) : Option Value :=
  match text with
  | [] =>
    match reading with
    | .complete value => some value
    | _ => none
  | c :: rest =>
    if isBlank c then readFrom reading rest
    else
      match _h : Token.next? (c :: rest) with
      | none => none
      | some (token, rest') =>
        match reading.step? token with
        | none => none
        | some reading => readFrom reading rest'
  termination_by text.length
  decreasing_by
    · simp
    · exact Token.length_lt_of_next? _h

/-- The value of a JSON text. -/
def Value.ofText? (text : String) : Option Value :=
  readFrom (.expectValue [] false) text.toList

end DocQuery.Json
