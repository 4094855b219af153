import DocQuery.Query.Pattern

/-!
# Queries

A query is a path whose elements may be patterns, so that it leads to any number of places. A plain
key and a pattern of one key match alike; only plain keys are part of the stem.
-/

namespace DocQuery

inductive Element where
  | key (name : String)
  | pattern (p : Pattern)
  deriving BEq

namespace Element

/-- The element that takes any number of keys. -/
def skip : Element :=
  .pattern .skip

def isSkip : Element → Bool
  | .key _ => false
  | .pattern p => p.isSkip

def returns : Element → Bool
  | .key _ => false
  | .pattern p => p.returns

def matchesKey (e : Element) (key : String) : Bool :=
  match e with
  | .key name => name == key
  | .pattern p => p.matchesKey key

def matchesValue (e : Element) (value : Tree) : Bool :=
  match e with
  | .key _ => true
  | .pattern p => p.matchesValue value

def candidates (e : Element) (t : Tree) : List String :=
  match e with
  | .key name => [name]
  | .pattern p => p.candidates t

def name? : Element → Option String
  | .key name => some name
  | .pattern _ => none

def text : Element → String
  | .key name => Percent.encode name
  | .pattern p => p.text

end Element

abbrev Query := List Element

namespace Query

/-- The query that leads to the place of `path` alone. -/
def ofPath (path : Path) : Query :=
  path.map .key

/-- Every primitive leaf of a tree. -/
def leaves : Query :=
  [.skip, .pattern .primitive]

/-- The plain keys that the query starts with. -/
def stem (q : Query) : Path :=
  (q.map Element.name?).takeWhile Option.isSome |>.filterMap id

def text (q : Query) : String :=
  Segments.join Path.separator (q.map Element.text)

def isRelativeTo (q root : Query) : Bool :=
  root.isPrefixOf q

/-- The query without its last `count` elements. -/
def trimRight (q : Query) (count : Nat) : Query :=
  q.take (q.length - count)

/-- Whether the elements take all the keys of a path, after a skip if `skipping`. A skip passes over
the keys that the next element does not accept. -/
def matchesKeys : Query → Bool → List String → Bool
  | [], skipping, keys => skipping || keys.isEmpty
  | e :: rest, skipping, keys =>
    if e.isSkip then matchesKeys rest true keys
    else
      match if skipping then keys.dropWhile (!e.matchesKey ·) else keys with
      | [] => false
      | key :: keys => e.matchesKey key && matchesKeys rest false keys

/-- Whether the query leads to the place of `path` in trees that have it, values set aside. -/
def matchesPath (q : Query) (path : Path) : Bool :=
  matchesKeys q false path

/-- Whether `path` leads to a place that the query matches or to one below it. -/
def isRootOf (q : Query) (path : Path) : Bool :=
  matchesPath (q ++ [.skip]) path

end Query

end DocQuery
