/-!
# Tokens of YAML

Indentation is told by tokens of its own: a block collection starts and ends with one. A key in
front of a `:` is announced by `key`, as if it had been written with `?`.
-/

namespace DocQuery.Yaml

inductive Token where
  | version (major minor : Nat)
  /-- A handle and the start of the tags that it stands for. -/
  | handle (name start : String)
  | documentStart
  | documentEnd
  | blockSequence
  | blockMapping
  | blockEnd
  | flowSequence
  | flowSequenceEnd
  | flowMapping
  | flowMappingEnd
  | blockEntry
  | flowEntry
  | key
  | value
  | alias (name : String)
  | anchor (name : String)
  | tag (handle suffix : String)
  /-- Content, and whether it was written without quotes or block indicator. -/
  | scalar (text : String) (plain : Bool)
  | streamEnd
  deriving DecidableEq, Repr

end DocQuery.Yaml
