import DocQuery.Walk.Full
import DocQuery.Walk.Guided

/-!
# Matches

What a walk finds, as a list. Taking the first match stops the walk there.
-/

namespace DocQuery

/-- A node with the path that leads to it. -/
structure Match where
  path : Path
  node : Tree

namespace Match

/-- Gathers matches last first and stops the walk when there are `limit`, if a limit is given. -/
def collector (limit : Option Nat) : Walk.Handler (List Match) :=
  Walk.observer (fun state node found => ⟨state.path.getD [], node⟩ :: found) fun found =>
    if limit = some found.length then .stop else .goOn

end Match

namespace Tree

/-- All that `query` matches, in the order of the walk. -/
def select (root : Tree) (query : Query) : List Match :=
  (Walk.guided (Match.collector none) query root []).reverse

def selectFirst? (root : Tree) (query : Query) : Option Match :=
  (Walk.guided (Match.collector (some 1)) query root []).head?

/-- All nodes below the root. -/
def descendants (root : Tree) : List Match :=
  (Walk.full (Match.collector none) root []).reverse

def firstDescendant? (root : Tree) : Option Match :=
  (Walk.full (Match.collector (some 1)) root []).head?

end Tree

end DocQuery
