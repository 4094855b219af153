import DocQuery.Text.Percent
import DocQuery.Tree.Basic

/-!
# Paths

A path is the list of keys that lead from the root of a tree to one place in it. Its text has the
keys escaped and a `>` between two of them; every segment of a text is a key, also an empty one, so
the empty text is the path of one empty key.
-/

namespace DocQuery

namespace Segments

/-- The pieces of a text between separators, one more than there are separators. -/
def split (separator : Char) : List Char → List (List Char)
  | [] => [[]]
  | c :: rest =>
    if c = separator then [] :: split separator rest
    else
      match split separator rest with
      | [] => [[c]]
      | piece :: pieces => (c :: piece) :: pieces

/-- The pieces as texts. -/
def ofText (separator : Char) (text : String) : List String :=
  (split separator text.toList).map String.ofList

/-- The pieces with a separator between each two. -/
def join (separator : Char) (pieces : List String) : String :=
  String.ofList (List.intercalate [separator] (pieces.map String.toList))

theorem split_eq_splitOn (separator : Char) (text : List Char) :
    split separator text = text.splitOn separator := by
  induction text with
  | nil => rfl
  | cons c text ih =>
    rw [split, List.splitOn_cons_eq_if_modifyHead, ih]
    simp only [beq_iff_eq]
    split
    · rfl
    · split
      next none => exact absurd none (List.splitOn_ne_nil _ _)
      next pieces => rw [pieces]; rfl

theorem split_append (separator : Char) (a b : List Char) :
    split separator (a ++ separator :: b) = split separator a ++ split separator b := by
  simp only [split_eq_splitOn, List.splitOn_append_cons_self]

theorem split_eq_singleton {separator : Char} {text : List Char} (free : separator ∉ text) :
    split separator text = [text] := by
  rw [split_eq_splitOn, List.splitOn_eq_singleton free]

/-- Joined pieces are read back if no separator stands in one of them. -/
theorem split_join {separator : Char} {pieces : List String}
    (free : ∀ piece ∈ pieces, separator ∉ piece.toList) (some : pieces ≠ []) :
    split separator (join separator pieces).toList = pieces.map String.toList := by
  rw [split_eq_splitOn, join, String.toList_ofList]
  apply List.splitOn_intercalate
  · simpa using free
  · simpa using some

end Segments

/-- The keys from the root to a place in a tree. -/
abbrev Path := List String

namespace Path

/-- Stands between the keys in the text of a path. -/
def separator : Char :=
  '>'

def text (path : Path) : String :=
  Segments.join separator (path.map Percent.encode)

def parse (text : String) : Except Percent.Malformed Path :=
  (Segments.ofText separator text).mapM Percent.decode

/-- Whether `root` leads to the place of `path` or to one above it. -/
def isRelativeTo (path root : Path) : Bool :=
  root.isPrefixOf path

/-- Whether `path` leads to the place of `other` or to one above it. -/
def isRootOf (path other : Path) : Bool :=
  other.isRelativeTo path

/-- The node that `path` leads to. -/
def resolve? (path : Path) (root : Tree) : Option Tree :=
  path.foldlM Tree.child? root

/-- The path without its last `count` keys. -/
def trimRight (path : Path) (count : Nat) : Path :=
  path.take (path.length - count)

end Path

end DocQuery
