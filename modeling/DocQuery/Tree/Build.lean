import DocQuery.Path

/-!
# Building along a path

Following a path down and making what is missing: an object that lacks the next key gets an empty
object under it. Arrays never grow and leaves are never replaced on the way. A build that meets one
of these ends there, and what it has made so far would stay in the tree.
-/

namespace DocQuery

/-- Why a path cannot be built. -/
inductive BuildObstacle where
  /-- An array has no item under the key. -/
  | noSuchItem
  /-- A leaf has nothing below it. -/
  | leaf
  deriving DecidableEq, Repr

/-- The first key that a build cannot follow. -/
structure BuildError where
  obstacle : BuildObstacle
  key : String
  path : Path
  deriving DecidableEq, Repr

def BuildError.message (e : BuildError) : String :=
  "Invalid argument: " ++
    match e.obstacle with
    | .noSuchItem =>
      "Key '" ++ e.key ++ "' is not an index of the array on path '" ++ e.path.text ++ "'"
    | .leaf => "Cannot build path '" ++ e.path.text ++ "' through a leaf at key '" ++ e.key ++ "'"

namespace Tree

/-- Follows the keys down and applies `change` to the node at their end. The first result is the tree
afterwards; the second is the obstacle, if there is one, and the key that it stands at. -/
def descend (change : Tree → Tree) : List String → Tree → Tree × Option (BuildObstacle × String)
  | [], node => (change node, none)
  | key :: keys, .object entries =>
    let (child, obstacle) := descend change keys ((entries.lookup key).getD default)
    (.object (Entries.put entries key child), obstacle)
  | key :: keys, .array items =>
    match Index.ofKey? key with
    | none => (.array items, some (.noSuchItem, key))
    | some i =>
      match items[i]? with
      | none => (.array items, some (.noSuchItem, key))
      | some item =>
        let (child, obstacle) := descend change keys item
        (.array (items.set i child), obstacle)
  | key :: _, leaf => (leaf, some (.leaf, key))

/-- The tree after `change` was to be applied to the node that `path` leads to, which is built first,
and the reason if that failed. -/
def alter (root : Tree) (path : Path) (change : Tree → Tree) : Tree × Option BuildError :=
  let (after, obstacle) := descend change path root
  (after, obstacle.map fun (obstacle, key) => ⟨obstacle, key, path⟩)

/-- Makes `path` lead somewhere. -/
def build (root : Tree) (path : Path) : Tree × Option BuildError :=
  root.alter path id

/-- Puts `value` at the end of `path`. -/
def assign (root : Tree) (path : Path) (value : Tree) : Tree × Option BuildError :=
  root.alter path fun _ => value

end Tree

end DocQuery
