import DocQuery.Proofs.Walk.Reports

/-!
# A guided walk replays its reports

Whatever a handler does, the guided walk calls it on what an unstopped walk reports, in that order,
until a call leaves the walk terminated (`follow_replays`). What is gathered without stopping is
therefore the list of reports (`select_eq_reports`).

A walk also answers whether it matched anything. Once terminated it no longer looks, and then its
answer says nothing; but then it reports nothing more either.

The calls of a handler can be written down (`noting`). A handler that never stops the walk is called
on all reports (`GoesOn.replay_noting`).
-/

namespace DocQuery

namespace Walk

variable {σ : Type} {handler : Handler σ} {path : Path} {ms ms' : List Match} {run : Run σ}
  {key : String} {any any' : Bool}

/-- Reports `ms` in order, all of them below `path`. -/
def replay (handler : Handler σ) (path : Path) (ms : List Match) (run : Run σ) : Run σ :=
  ms.foldl (fun run m => report handler (path ++ m.path) m.node run) run

theorem replay_append :
    replay handler path (ms ++ ms') run = replay handler path ms' (replay handler path ms run) :=
  List.foldl_append

theorem replay_under :
    replay handler path (ms.map (Match.under key)) run = replay handler (path ++ [key]) ms run := by
  simp [replay, List.foldl_map, Match.under]

theorem replay_cons_of_live {m : Match} (live : run.state.terminated = false) :
    replay handler path (m :: ms) run =
      replay handler path ms (deliver handler (path ++ m.path) m.node run) := by
  simp [replay, report, live]

theorem replay_of_terminated (h : run.state.terminated = true) :
    replay handler path ms run = run := by
  induction ms with
  | nil => rfl
  | cons m ms ih =>
    have stays : report handler (path ++ m.path) m.node run = run := if_pos h
    simpa only [replay, List.foldl_cons, stays] using ih

theorem not_terminated_of_replay (h : (replay handler path ms run).state.terminated = false) :
    run.state.terminated = false := by
  cases ht : run.state.terminated with
  | false => rfl
  | true => rw [replay_of_terminated ht, ht] at h; exact h

/-- A part of a walk reports `ms`, and unless it ends terminated it answers `any`. -/
structure Replays (handler : Handler σ) (path : Path) (ms : List Match) (any : Bool) (run : Run σ)
    (result : Bool × Run σ) : Prop where
  run_eq : result.2 = replay handler path ms run
  found_eq : result.2.state.terminated = false → result.1 = any

theorem Replays.nothing : Replays handler path [] false run (false, run) :=
  ⟨rfl, fun _ => rfl⟩

theorem Replays.append {first second : Bool × Run σ} (h : Replays handler path ms any run first)
    (h' : Replays handler path ms' any' first.2 second) :
    Replays handler path (ms ++ ms') (any || any') run (first.1 || second.1, second.2) := by
  refine ⟨?_, fun live => ?_⟩
  · rw [replay_append, ← h.run_eq]
    exact h'.run_eq
  · have live' : first.2.state.terminated = false :=
      not_terminated_of_replay (h'.run_eq ▸ live)
    rw [h.found_eq live', h'.found_eq live]

theorem Replays.under {result : Bool × Run σ}
    (h : Replays handler (path ++ [key]) ms any run result) :
    Replays handler path (ms.map (Match.under key)) any run result :=
  ⟨replay_under ▸ h.run_eq, h.found_eq⟩

/-- The node itself is reported last, if it is marked and something matched below it. -/
theorem Replays.self {result : Bool × Run σ} {marked : Bool} {node : Tree}
    (h : Replays handler path ms any run result) :
    Replays handler path (ms ++ if marked && any then [⟨[], node⟩] else []) any run
      (result.1, if marked && result.1 then report handler path node result.2 else result.2) := by
  obtain ⟨answer, last⟩ := result
  cases stopped : last.state.terminated with
  | true =>
    have stays : report handler path node last = last := if_pos stopped
    refine ⟨?_, fun live => ?_⟩
    · rw [replay_append, ← h.run_eq, replay_of_terminated stopped, stays, ite_self]
    · simp [stays, stopped] at live
  | false =>
    obtain rfl : answer = any := h.found_eq stopped
    refine ⟨?_, fun _ => rfl⟩
    rw [replay_append, ← h.run_eq]
    cases marked && answer <;> simp [replay]

theorem followEach_replays {query : Query} (approach : Approach) {parent : Tree}
    (ih : ∀ key child, parent.child? key = some child → ∀ run, Replays handler (path ++ [key])
      (reports (query.steps approach.skipping) approach.underMarked approach.marked child)
      (found (query.steps approach.skipping) child) run
      (follow handler query approach (path ++ [key]) child run))
    (keys : List String) (run : Run σ) :
    Replays handler path
      ((enter parent keys (query.steps approach.skipping) approach.marked).flatMap fun m =>
        (reports m.steps approach.underMarked m.marked m.child).map (Match.under m.key))
      ((enter parent keys (query.steps approach.skipping) approach.marked).any fun m =>
        found m.steps m.child)
      run (followEach handler query approach path parent keys run) := by
  induction keys generalizing run with
  | nil =>
    rw [followEach]
    exact .nothing
  | cons key keys each =>
    rw [followEach]
    split
    next stopped =>
      exact ⟨(replay_of_terminated stopped).symm, fun live => by simp [stopped] at live⟩
    next =>
      split
      next hc =>
        rw [enter_cons_of_none hc]
        exact each run
      next child hc =>
        rw [enter_cons_of_some hc, List.flatMap_cons, List.any_cons]
        exact (ih key child hc run).under.append (each _)

theorem follow_replays (handler : Handler σ) (query : Query) (approach : Approach) (path : Path)
    (node : Tree) (run : Run σ) :
    Replays handler path
      (reports (query.steps approach.skipping) approach.underMarked approach.marked node)
      (found (query.steps approach.skipping) node) run
      (follow handler query approach path node run) := by
  induction node using Tree.induction_child generalizing query approach path run with
  | step node ih =>
    rw [follow]
    split
    next h =>
      rw [Query.steps_eq_nil h, reports_nil, found_nil]
      refine ⟨?_, fun _ => rfl⟩
      cases approach.underMarked <;> simp [replay]
    next e rest h =>
      have notSkip : e.isSkip = false := by
        have := List.head_dropWhile_not Element.isSkip (l := query) (by simp [h])
        simpa [h] using this
      rw [Query.steps_eq_cons h, reports_cons, found_cons, moves, List.flatMap_append,
        List.any_append]
      have first := followEach_replays (approach.taken e)
        (fun key child hc => ih key child hc rest (approach.taken e) (path ++ [key]))
        (e.keysAt node).keys run
      generalize (approach.skipping || query.head?.any Element.isSkip) = skips
      cases skips with
      | false => exact (first.append .nothing).self
      | true =>
        have second := followEach_replays approach.passed
          (fun key child hc => ih key child hc (e :: rest) approach.passed (path ++ [key]))
          (passedKeys node (e.keysAt node)).keys
        simp only [Query.steps, notSkip, Approach.passed] at second
        exact (first.append (second _)).self

theorem guided_eq_replay (handler : Handler σ) (q : Query) (root : Tree) (memory : σ) :
    guided handler q root memory =
      (replay handler [] (reports (q.steps false) false false root) ⟨.idle, memory⟩).memory := by
  have replays := follow_replays handler q .start [] root ⟨.idle, memory⟩
  rw [guided, replays.run_eq]
  rfl

/-! ## The calls of a handler -/

/-- Of an earlier visit nothing is left in a state that goes on. -/
theorem State.enter_of_live {state : State} {node : Tree} (live : state.terminated = false) :
    state.enter path node = State.idle.enter path node := by
  simp [State.enter, State.idle, live]

/-- One call: the state that the handler is given, and the node. -/
structure Call where
  state : State
  node : Tree

/-- The call that a walk makes when it comes to a match. -/
def Call.arrival (m : Match) : Call :=
  ⟨State.idle.enter m.path m.node, m.node⟩

/-- The handler with its calls written down, last first. It does nothing else than before. -/
def noting (handler : Handler σ) : Handler (σ × List Call) := fun node run =>
  let (visit, after) := handler node ⟨run.state, run.memory.1⟩
  (visit, ⟨after.state, after.memory, ⟨run.state, node⟩ :: run.memory.2⟩)

/-- The handler never stops a walk. -/
def GoesOn (handler : Handler σ) : Prop :=
  ∀ path node run, run.state.terminated = false →
    (deliver handler path node run).state.terminated = false

theorem GoesOn.replay_live (goesOn : GoesOn handler) (live : run.state.terminated = false) :
    (replay handler path ms run).state.terminated = false := by
  induction ms generalizing run with
  | nil => exact live
  | cons m ms ih =>
    rw [replay_cons_of_live live]
    exact ih (goesOn _ _ _ live)

theorem GoesOn.replay_eq_foldl (goesOn : GoesOn handler) (live : run.state.terminated = false) :
    replay handler path ms run =
      ms.foldl (fun run m => deliver handler (path ++ m.path) m.node run) run := by
  induction ms generalizing run with
  | nil => rfl
  | cons m ms ih =>
    rw [replay_cons_of_live live, List.foldl_cons]
    exact ih (goesOn _ _ _ live)

theorem deliver_noting {state : State} {memory : σ} {calls : List Call} {node : Tree} :
    deliver (noting handler) path node ⟨state, memory, calls⟩ =
      ⟨(deliver handler path node ⟨state, memory⟩).state,
        (deliver handler path node ⟨state, memory⟩).memory,
        ⟨state.enter path node, node⟩ :: calls⟩ :=
  rfl

/-- A handler that never stops the walk is called on all reports, in order. -/
theorem GoesOn.replay_noting (goesOn : GoesOn handler) {state : State} {memory : σ}
    {calls : List Call} (live : state.terminated = false) :
    replay (noting handler) [] ms ⟨state, memory, calls⟩ =
      ⟨(replay handler [] ms ⟨state, memory⟩).state, (replay handler [] ms ⟨state, memory⟩).memory,
        (ms.map Call.arrival).reverse ++ calls⟩ := by
  induction ms generalizing state memory calls with
  | nil => rfl
  | cons m ms ih =>
    rw [replay_cons_of_live live, replay_cons_of_live live, List.nil_append, deliver_noting,
      ih (goesOn _ _ _ live), State.enter_of_live live]
    simp [Call.arrival]

theorem goesOn_collector : GoesOn (Match.collector none) :=
  fun _ _ _ live => live

theorem memory_replay_collector {run : Run (List Match)} (live : run.state.terminated = false) :
    (replay (Match.collector none) [] ms run).memory = ms.reverse ++ run.memory := by
  induction ms generalizing run with
  | nil => rfl
  | cons m ms ih =>
    have gathers : (deliver (Match.collector none) m.path m.node run).memory = m :: run.memory :=
      rfl
    rw [replay_cons_of_live live, ih (goesOn_collector _ _ _ live), List.nil_append, gathers]
    simp

end Walk

/-- The whole selection is what an unstopped walk reports. -/
theorem Tree.select_eq_reports (root : Tree) (q : Query) :
    root.select q = Walk.reports (q.steps false) false false root := by
  rw [select, Walk.guided_eq_replay, Walk.memory_replay_collector rfl]
  simp

end DocQuery
