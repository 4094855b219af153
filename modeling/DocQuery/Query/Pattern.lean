import DocQuery.Path
import DocQuery.Tree.Equality
import DocQuery.Tree.Text

/-!
# Patterns

A pattern matches one key of a node, and may also look at the value under it. As text:

* `foo` is the key `foo`, and `foo<bar` either of two keys;
* `|` is any key, and `"` any key with a primitive value;
* `\` is a skip, which stands for any number of keys that the element after it does not take;
* `^value` after any of the first four asks for that value, at which `"` does not look;
* `[…]` or `{…}` around a pattern marks it, and what `{…}` matches is returned in place of the
  matches below it.
-/

namespace DocQuery

inductive Marker where
  | bracket
  | curly
  deriving DecidableEq, Repr

namespace Marker

/-- The marker that its opening bracket names. -/
def ofChar? : Char → Option Marker
  | '[' => some .bracket
  | '{' => some .curly
  | _ => none

def opening : Marker → Char
  | .bracket => '['
  | .curly => '{'

def closing : Marker → Char
  | .bracket => ']'
  | .curly => '}'

/-- Said of a character that opens no marker. -/
def unknownMessage (c : Char) : String :=
  "Invalid marker '" ++ c.toString ++ "', expected '[' or '\x7b'"

end Marker

/-- What a pattern asks of a key. -/
inductive KeyTest where
  | key (name : String)
  | options (names : List String)
  | wildcard
  /-- Any key, as long as the value is primitive. -/
  | primitive
  deriving DecidableEq, Repr

inductive Pattern where
  /-- A key and nothing else. -/
  | literal (key : String)
  | test (keys : KeyTest) (value : Option Tree) (marker : Option Marker)
  | skip
  deriving BEq

namespace Pattern

/-- The pattern of one key, ready to take a value or a marker. -/
def key (name : String) : Pattern :=
  .test (.key name) none none

def options (names : List String) : Pattern :=
  .test (.options names) none none

def wildcard : Pattern :=
  .test .wildcard none none

def primitive : Pattern :=
  .test .primitive none none

/-- Asks for a value. A skip has none. -/
def withValue (value : Tree) : Pattern → Pattern
  | .literal name => .test (.key name) (some value) none
  | .test keys _ marker => .test keys (some value) marker
  | .skip => .skip

/-- Marks the pattern. A skip stays unmarked. -/
def withMarker (marker : Marker) : Pattern → Pattern
  | .literal name => .test (.key name) none (some marker)
  | .test keys value _ => .test keys value (some marker)
  | .skip => .skip

def value? : Pattern → Option Tree
  | .test _ value _ => value
  | _ => none

def marker? : Pattern → Option Marker
  | .test _ _ marker => marker
  | _ => none

def isSkip : Pattern → Bool
  | .skip => true
  | _ => false

/-- Whether a match of this pattern is returned in place of the matches below it. -/
def returns (p : Pattern) : Bool :=
  p.marker? = some .curly

def matchesKey (key : String) : Pattern → Bool
  | .literal name => name == key
  | .test (.key name) _ _ => name == key
  | .test (.options names) _ _ => names.contains key
  | .test .wildcard _ _ => true
  | .test .primitive _ _ => true
  | .skip => false

/-- A primitive test looks at the kind of the value only, whatever value the pattern has. -/
def matchesValue (t : Tree) : Pattern → Bool
  | .test .primitive _ _ => t.isPrimitive
  | p => p.value?.all (·.same t)

/-- The keys that can match at `t`, in the order in which they are tried. -/
def candidates (t : Tree) : Pattern → List String
  | .literal name => [name]
  | .test (.key name) _ _ => [name]
  | .test (.options names) _ _ => names
  | .test .wildcard _ _ => t.keys
  | .test .primitive _ _ => t.keys
  | .skip => []

end Pattern

def KeyTest.text : KeyTest → String
  | .key name => Percent.encode name
  | .options names => Segments.join '<' (names.map Percent.encode)
  | .wildcard => "|"
  | .primitive => "\""

/-- The pattern as text. Markers are not written. -/
def Pattern.text : Pattern → String
  | .literal name => Percent.encode name
  | .test keys none _ => keys.text
  | .test keys (some value) _ => keys.text ++ "^" ++ Percent.encode value.text
  | .skip => "\\"

end DocQuery
