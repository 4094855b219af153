import DocQuery.KeySet
import DocQuery.Query.Basic
import DocQuery.Walk.State

/-!
# The guided walk

Only what a query matches is handed to the handler. The query is followed element by element; after
a skip, the walk also enters every container whose key the next element did not take. What a
return-marked element took is reported once the walk below it has matched something, in place of
all that was matched there.
-/

namespace DocQuery

/-- The keys that an element takes at a node, in the order in which it tries them. -/
def Element.keysAt (e : Element) (node : Tree) : KeySet :=
  KeySet.ofList <| (e.candidates node).filter fun key => (node.child? key).any e.matchesValue

namespace Walk

variable {σ : Type}

/-- Reports a node, unless the walk is terminated. -/
def report (handler : Handler σ) (path : Path) (node : Tree) (run : Run σ) : Run σ :=
  if run.state.terminated then run else deliver handler path node run

/-- How the walk came to a node. -/
structure Approach where
  /-- A skip stands before the next element. -/
  skipping : Bool
  /-- The node is below one that a return-marked element took. -/
  underMarked : Bool
  /-- A return-marked element took the node itself. -/
  marked : Bool

namespace Approach

def start : Approach :=
  ⟨false, false, false⟩

/-- To a child that `e` takes. -/
def taken (a : Approach) (e : Element) : Approach :=
  ⟨false, a.underMarked || a.marked, e.returns⟩

/-- To a child that a skip passes over. -/
def passed (a : Approach) : Approach :=
  ⟨true, a.underMarked || a.marked, false⟩

end Approach

/-- The keys of containers in `node` that are not in `taken`. -/
def passedKeys (node : Tree) (taken : KeySet) : KeySet :=
  (KeySet.ofList <| node.keys.filter fun key => (node.child? key).any Tree.isContainer).diff taken

mutual

/-- Follows `query` from `node` on, which is at the end of `path`. The first result says whether
anything matched at the node or below it. -/
def follow (handler : Handler σ) (query : Query) (approach : Approach) (path : Path) (node : Tree)
    (run : Run σ) : Bool × Run σ :=
  let skipping := approach.skipping || (query.head?.any Element.isSkip)
  match query.dropWhile Element.isSkip with
  | [] => (true, if approach.underMarked then run else report handler path node run)
  | e :: rest =>
    let taken := e.keysAt node
    let (found, run) := followEach handler rest (approach.taken e) path node taken.keys run
    let (foundDeeper, run) :=
      if skipping then
        followEach handler (e :: rest) approach.passed path node (passedKeys node taken).keys run
      else (false, run)
    let found := found || foundDeeper
    (found, if approach.marked && found then report handler path node run else run)
  termination_by (sizeOf node, 1, 0)

/-- Follows `query` from each child of `parent` under one of `keys`, as long as the walk is not
terminated. -/
def followEach (handler : Handler σ) (query : Query) (approach : Approach) (path : Path)
    (parent : Tree) (keys : List String) (run : Run σ) : Bool × Run σ :=
  match keys with
  | [] => (false, run)
  | key :: keys =>
    if run.state.terminated then (false, run)
    else
      match _h : parent.child? key with
      | none => followEach handler query approach path parent keys run
      | some child =>
        let (found, run) := follow handler query approach (path ++ [key]) child run
        let (foundLater, run) := followEach handler query approach path parent keys run
        (found || foundLater, run)
  termination_by (sizeOf parent, 0, keys.length)
  decreasing_by
    · decreasing_tactic
    · exact Prod.Lex.left _ _ (Tree.sizeOf_child_lt _h)
    · decreasing_tactic

end

/-- What the handler remembers after a walk guided by `query`. The walk itself keeps no count of
what it reports. -/
def guided (handler : Handler σ) (query : Query) (root : Tree) (memory : σ) : σ :=
  (follow handler query .start [] root ⟨.idle, memory⟩).2.memory

end Walk

end DocQuery
