import DocQuery.Tree.Basic

/-!
# Equality of trees

Two trees are the same document when their numbers are numerically equal, their arrays agree item
by item and their objects agree key by key, in whatever order the entries were written.
-/

namespace DocQuery.Tree

mutual

/-- Equality as values of a document. -/
def same : Tree → Tree → Bool
  | .null, .null => true
  | .bool a, .bool b => a == b
  | .number a, .number b => a.same b
  | .string a, .string b => a == b
  | .array as, .array bs => sameItems as bs
  | .object as, .object bs => as.length == bs.length && sameEntries as bs
  | _, _ => false
  termination_by structural t => t

def sameItems : List Tree → List Tree → Bool
  | [], [] => true
  | a :: as, b :: bs => same a b && sameItems as bs
  | _, _ => false
  termination_by structural ts => ts

/-- Each entry of the first list has one under its key in the second with the same value. -/
def sameEntries : List (String × Tree) → List (String × Tree) → Bool
  | [], _ => true
  | (key, a) :: as, bs =>
    (match bs.lookup key with
      | some b => same a b
      | none => false) && sameEntries as bs
  termination_by structural entries => entries

end

instance : BEq Tree :=
  ⟨same⟩

end DocQuery.Tree
