import DocQuery.Walk.State

/-!
# The full walk

Every node below the root is visited, a container before its children. The walk has no recursion of
its own: it keeps the containers that it is in, the innermost first, each with the keys that are
still to come there, and a single path, which is cut back to the level of the next visit.

A turn of the walk leaves a level, skips a key or makes one visit (`Turn`). The `effort` bounds the
number of turns that are still to come, and every turn takes some of it away (`Turn.effort_lt`).
-/

namespace DocQuery.Walk

/-- A container that a walk is in. -/
structure Level where
  node : Tree
  /-- The keys that are still to come. -/
  ahead : List String

/-- The level of a container that the walk has just come to. -/
def Level.enter (node : Tree) : Level :=
  ⟨node, node.keys⟩

/-- The place of `key` on the innermost level, if `path` leads to that level or further. -/
def pathTo (path : Path) (outer : List Level) (key : String) : Path :=
  path.take outer.length ++ [key]

/-- A full walk under way. -/
structure Tour (σ : Type) where
  /-- The containers that the walk is in, innermost first. -/
  levels : List Level
  /-- Where the last visit was. It may lead further down than the levels do. -/
  path : Path
  run : Run σ

/-! ## How long a walk takes -/

/-- A bound for the turns of a walk from entering `node` until it has left it. -/
def effort (node : Tree) : Nat :=
  node.keys.foldr (fun key turns =>
    match _h : node.child? key with
    | none => 1 + turns
    | some child => effort child + 1 + turns) 1
  termination_by sizeOf node
  decreasing_by exact Tree.sizeOf_child_lt ‹_›

def Level.effort (level : Level) : Nat :=
  level.ahead.foldr (fun key turns => (level.node.child? key).elim 0 Walk.effort + 1 + turns) 1

theorem Level.effort_enter (node : Tree) : (Level.enter node).effort = Walk.effort node := by
  rw [Walk.effort, Level.effort, Level.enter]
  congr 1
  funext key turns
  split <;> simp [*]

theorem Level.effort_cons {node : Tree} {key : String} {ahead : List String} :
    Level.effort ⟨node, key :: ahead⟩ =
      (node.child? key).elim 0 Walk.effort + 1 + Level.effort ⟨node, ahead⟩ :=
  rfl

namespace Tour

variable {σ : Type} {handler : Handler σ} {tour tour' : Tour σ}

def effort (tour : Tour σ) : Nat :=
  tour.levels.foldr (fun level turns => level.effort + turns) 0

/-! ## Turns -/

/-- The walk before its first turn. -/
def start (root : Tree) (memory : σ) : Tour σ :=
  ⟨[.enter root], [], ⟨.idle, memory⟩⟩

/-- One turn of the walk, unless it is over. -/
def next? (handler : Handler σ) (tour : Tour σ) : Option (Tour σ) :=
  if tour.run.state.terminated then none
  else
    match tour.levels with
    | [] => none
    | ⟨_, []⟩ :: outer => some { tour with levels := outer }
    | ⟨node, key :: ahead⟩ :: outer =>
      let levels := ⟨node, ahead⟩ :: outer
      match node.child? key with
      | none => some { tour with levels }
      | some child =>
        let path := pathTo tour.path outer key
        let run := deliver handler path child tour.run
        if child.isContainer && !run.state.terminated then
          some { levels := .enter child :: levels, path, run }
        else
          some { levels, path, run }

/-- What a turn can do. -/
inductive Turn (handler : Handler σ) : Tour σ → Tour σ → Prop where
  /-- Nothing is left on the innermost level. -/
  | leave {node outer path run} (live : run.state.terminated = false) :
      Turn handler ⟨⟨node, []⟩ :: outer, path, run⟩ ⟨outer, path, run⟩
  /-- The next key has no child. -/
  | skip {node key ahead outer path run} (live : run.state.terminated = false)
      (missing : node.child? key = none) :
      Turn handler ⟨⟨node, key :: ahead⟩ :: outer, path, run⟩ ⟨⟨node, ahead⟩ :: outer, path, run⟩
  /-- The child is visited and not entered: it is a leaf, or the walk ends with the visit. -/
  | visit {node key ahead outer path run child} (live : run.state.terminated = false)
      (found : node.child? key = some child)
      (last : child.isContainer = true →
        (deliver handler (pathTo path outer key) child run).state.terminated = true) :
      Turn handler ⟨⟨node, key :: ahead⟩ :: outer, path, run⟩
        ⟨⟨node, ahead⟩ :: outer, pathTo path outer key,
          deliver handler (pathTo path outer key) child run⟩
  /-- The child is visited and entered. -/
  | enter {node key ahead outer path run child} (live : run.state.terminated = false)
      (found : node.child? key = some child) (container : child.isContainer = true)
      (goesOn :
        (deliver handler (pathTo path outer key) child run).state.terminated = false) :
      Turn handler ⟨⟨node, key :: ahead⟩ :: outer, path, run⟩
        ⟨.enter child :: ⟨node, ahead⟩ :: outer, pathTo path outer key,
          deliver handler (pathTo path outer key) child run⟩

theorem turn_of_next? (turn : tour.next? handler = some tour') : Turn handler tour tour' := by
  obtain ⟨levels, path, run⟩ := tour
  simp only [next?] at turn
  split at turn
  next => cases turn
  next live =>
    rw [Bool.not_eq_true] at live
    split at turn
    next => cases turn
    next => cases turn; exact .leave live
    next =>
      split at turn
      next missing => cases turn; exact .skip live missing
      next child found =>
        split at turn
        next enters =>
          cases turn
          obtain ⟨container, goesOn⟩ := Bool.and_eq_true_iff.1 enters
          exact .enter live found container (by simpa using goesOn)
        next stays => cases turn; exact .visit live found (by simpa using stays)

/-- A walk is over when it was stopped or nothing is left of it. -/
theorem next?_eq_none (ended : tour.next? handler = none) :
    tour.run.state.terminated = true ∨ tour.levels = [] := by
  obtain ⟨levels, path, run⟩ := tour
  simp only [next?] at ended
  split at ended
  next stopped => exact .inl stopped
  next =>
    split at ended
    next => exact .inr rfl
    next => cases ended
    next =>
      split at ended
      next => cases ended
      next => split at ended <;> cases ended

theorem Turn.effort_lt (turn : Turn handler tour tour') : tour'.effort < tour.effort := by
  cases turn with
  | leave => simp [effort, Level.effort]
  | skip =>
    simp only [effort, List.foldr_cons, Level.effort_cons]
    omega
  | visit =>
    simp only [effort, List.foldr_cons, Level.effort_cons]
    omega
  | enter _ found =>
    simp only [effort, List.foldr_cons, Level.effort_cons, Level.effort_enter, found,
      Option.elim_some]
    omega

/-- Takes turns until the walk is over. -/
def finish (handler : Handler σ) (tour : Tour σ) : Tour σ :=
  match _turn : tour.next? handler with
  | none => tour
  | some tour => finish handler tour
  termination_by tour.effort
  decreasing_by exact (turn_of_next? _turn).effort_lt

end Tour

/-- What the handler remembers after a full walk. -/
def full {σ : Type} (handler : Handler σ) (root : Tree) (memory : σ) : σ :=
  ((Tour.start root memory).finish handler).run.memory

end DocQuery.Walk
