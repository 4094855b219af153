import DocQuery.Path

/-!
# The state of a walk

A walk hands every node that it visits to a handler, together with a `State` that says where the
walk is. A handler has a memory of its own; it steers the walk by its answer and by changing the
state. Once a state is terminated, the walk makes no further call.
-/

namespace DocQuery.Walk

/-- What a handler wants the walk to do next. -/
inductive Visit where
  | goOn
  | stop
  deriving DecidableEq, Repr

/-- Where a walk is. Every field is empty outside of a walk. -/
structure State where
  /-- The key of the current node, absent at the root. -/
  key : Option String := none
  path : Option Path := none
  node : Option Tree := none
  terminated : Bool := false

namespace State

def idle : State := {}

/-- The walk ends when the current call returns. -/
def terminate (s : State) : State :=
  { s with terminated := true }

def reset (_ : State) : State :=
  idle

/-- The state on arrival at the end of `path`. -/
def enter (s : State) (path : Path) (node : Tree) : State :=
  { s with key := path.getLast?, path := some path, node := some node }

/-- Applies a handler's answer. -/
def apply (s : State) : Visit → State
  | .goOn => s
  | .stop => s.terminate

end State

/-- A walk under way: its state and the memory of its handler. -/
structure Run (σ : Type) where
  state : State
  memory : σ

/-- Called on each visited node. -/
abbrev Handler (σ : Type) := Tree → Run σ → Visit × Run σ

/-- One call of the handler, for the node at the end of `path`. -/
def deliver {σ : Type} (handler : Handler σ) (path : Path) (node : Tree) (run : Run σ) : Run σ :=
  let (visit, run) := handler node { run with state := run.state.enter path node }
  { run with state := run.state.apply visit }

/-- A handler that only looks, and answers `visit` on what it has gathered so far. -/
def observer {σ : Type} (gather : State → Tree → σ → σ) (visit : σ → Visit) : Handler σ :=
  fun node run =>
    let memory := gather run.state node run.memory
    (visit memory, { run with memory })

end DocQuery.Walk
