import DocQuery.Query.Basic

/-!
# Queries as text

Segments between `>` are the elements of a query. A segment with one of the characters
`<`, `^`, `|`, `"`, `\`, `[` and `{` is a pattern; any other is a key. All that is not grammar is
percent-escaped.
-/

namespace DocQuery

open Percent (Malformed)

/-- Characters that make a pattern of a segment. -/
def isPatternChar (c : Char) : Bool :=
  c = '<' ∨ c = '^' ∨ c = '|' ∨ c = '"' ∨ c = '\\' ∨ c = '[' ∨ c = '{'

/-- Whether a text is to be read as a query and not as a plain path. -/
def isQueryText (text : List Char) : Bool :=
  text.any isPatternChar

namespace Pattern

/-- The content of `text` if `marker` wraps it. The wrapped text holds no bracket of the kind. -/
def unwrap? (marker : Marker) : List Char → Option (List Char)
  | [] => none
  | c :: rest =>
    if c = marker.opening ∧ rest.getLast? = some marker.closing then
      let content := rest.dropLast
      if content.contains marker.opening ∨ content.contains marker.closing then none
      else some content
    else none

/-- Splits the marker off a pattern. -/
def splitMarker (text : List Char) : Option Marker × List Char :=
  match unwrap? .bracket text with
  | some content => (some .bracket, content)
  | none =>
    match unwrap? .curly text with
    | some content => (some .curly, content)
    | none => (none, text)

/-- Reads what a pattern asks of a key. -/
def parseKeyTest (text : List Char) : Except Malformed KeyTest :=
  if text = ['|'] then .ok .wildcard
  else if text = ['"'] then .ok .primitive
  else if text.contains '<' then
    ((Segments.split '<' text).mapM fun option => Percent.decode (String.ofList option)).map
      .options
  else (Percent.decode (String.ofList text)).map .key

/-- A value is given in text form and is always a text. -/
def parseValue : Option (List Char) → Except Malformed (Option Tree)
  | none => .ok none
  | some text => (Percent.decode (String.ofList text)).map (some ∘ .string)

/-- Reads a pattern. What follows a second `^` is left aside, and so is all that stands with a
skip. -/
def parseChars (text : List Char) : Except Malformed Pattern :=
  let (marker, content) := splitMarker text
  let parts := Segments.split '^' content
  let keys := parts.headD []
  if keys = ['\\'] then .ok .skip
  else do
    let value ← parseValue parts[1]?
    match ← parseKeyTest keys, value, marker with
    | .key name, none, none => return .literal name
    | asked, value, marker => return .test asked value marker

def parse (text : String) : Except Malformed Pattern :=
  parseChars text.toList

end Pattern

/-- Reads the element that a segment stands for. -/
def Element.parse (segment : List Char) : Except Malformed Element :=
  if segment.head? = some '\\' then .ok .skip
  else if isQueryText segment then (Pattern.parseChars segment).map .pattern
  else (Percent.decode (String.ofList segment)).map .key

def Query.parse (text : String) : Except Malformed Query :=
  (Segments.split Path.separator text.toList).mapM Element.parse

/-- A text read as what it looks like. -/
inductive Location where
  | path (p : Path)
  | query (q : Query)

namespace Location

/-- A text with pattern characters is a query, any other is a path. -/
def parse (text : String) : Except Malformed Location :=
  if isQueryText text.toList then (Query.parse text).map .query else (Path.parse text).map .path

/-- A path leads to its one place. -/
def toQuery : Location → Query
  | .path p => .ofPath p
  | .query q => q

end Location

end DocQuery
