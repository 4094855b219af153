import DocQuery.Tree.Text

/-!
# YAML values

What a YAML text says, before it is a document: keys are values of any kind, and a value may have a
tag. In a document keys are texts and tags are gone, so that two entries of a mapping can become
one.
-/

namespace DocQuery.Yaml

inductive Value where
  | null
  | bool (value : Bool)
  | integer (value : Int)
  | float (value : Float)
  | string (text : String)
  | sequence (items : List Value)
  | mapping (entries : List (Value × Value))
  | tagged (tag : String) (value : Value)

namespace Value

/-- A tag without the `!` that it may start with. -/
def bareTag (tag : String) : List Char :=
  match tag.toList with
  | '!' :: c :: rest => c :: rest
  | chars => chars

mutual

/-- Whether two values are one key. Kinds differ from one another, also integers from doubles. -/
def same : Value → Value → Bool
  | .null, .null => true
  | .bool a, .bool b => a == b
  | .integer a, .integer b => a == b
  | .float a, .float b => a == b || (a.isNaN && b.isNaN)
  | .string a, .string b => a == b
  | .sequence as, .sequence bs => sameItems as bs
  | .mapping as, .mapping bs => as.length == bs.length && sameEntries as bs
  | .tagged tag a, .tagged tag' b => bareTag tag == bareTag tag' && same a b
  | _, _ => false
  termination_by structural v => v

def sameItems : List Value → List Value → Bool
  | [], [] => true
  | a :: as, b :: bs => same a b && sameItems as bs
  | _, _ => false
  termination_by structural vs => vs

/-- Each entry of the first list is also in the second. -/
def sameEntries : List (Value × Value) → List (Value × Value) → Bool
  | [], _ => true
  | (key, a) :: as, bs =>
    (match bs.find? fun entry => same key entry.1 with
      | some entry => same a entry.2
      | none => false) && sameEntries as bs
  termination_by structural entries => entries

end

/-- An entry under an equal key keeps its place and its key and takes the new value. -/
def put (entries : List (Value × Value)) (key value : Value) : List (Value × Value) :=
  match entries with
  | [] => [(key, value)]
  | (k, v) :: rest => if same k key then (k, value) :: rest else (k, v) :: put rest key value

mutual

/-- The document that a value stands for. -/
def toTree : Value → Tree
  | .null => .null
  | .bool value => .bool value
  | .integer value => .number (.ofInt value)
  | .float value => .number (.float value)
  | .string text => .string text
  | .sequence items => .array (toTrees items)
  | .mapping entries => .object (Entries.ofPairs (toPairs entries))
  | .tagged _ value => toTree value

def toTrees : List Value → List Tree
  | [] => []
  | item :: items => toTree item :: toTrees items

/-- The entries with their keys as text. -/
def toPairs : List (Value × Value) → List (String × Tree)
  | [] => []
  | (key, value) :: entries => ((toTree key).text, toTree value) :: toPairs entries

end

end Value

end DocQuery.Yaml
