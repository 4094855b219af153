import DocQuery.Proofs.Walk.Preorder
import DocQuery.Proofs.Walk.StandIns

/-!
# Stopping a walk

A handler can stop a walk by its answer or by terminating the state, and before a call returns it can
also take that back. Whatever it does, in whatever mix, it only cuts the walk short: its calls are
those of a walk that nobody stops, up to and with the first call that has left the state terminated.

* `cutShort_exchanges`: what is called when a list of places is replayed;
* `Walker.log_of_goesOn`: a handler that never stops a walk is called on all its places;
* `memory_replay_limited`: a collector with a limit gathers as many places, the first ones;
* `stopping_cuts_short`: the same said of the walkers, and of one walk after another.
-/

namespace DocQuery

namespace Walk

variable {σ : Type} {handler : Handler σ} {path : Path} {node : Tree} {ms : List Match}
  {run : Run σ} {state : State} {memory : σ}

/-! ## Calls and what comes of them -/

/-- A call of a handler, and whether the state is terminated once the answer is applied. -/
structure Exchange extends Call where
  stopped : Bool

/-- The handler with its exchanges written down, last first. It does nothing else than before. -/
def recording (handler : Handler σ) : Handler (σ × List Exchange) := fun node run =>
  let (visit, after) := handler node ⟨run.state, run.memory.1⟩
  let exchange := ⟨⟨run.state, node⟩, (after.state.apply visit).terminated⟩
  (visit, ⟨after.state, after.memory, exchange :: run.memory.2⟩)

theorem deliver_recording {log : List Exchange} :
    deliver (recording handler) path node ⟨state, memory, log⟩ =
      ⟨(deliver handler path node ⟨state, memory⟩).state,
        (deliver handler path node ⟨state, memory⟩).memory,
        ⟨⟨state.enter path node, node⟩,
          (deliver handler path node ⟨state, memory⟩).state.terminated⟩ :: log⟩ :=
  rfl

/-- The exchanges of a handler to which `ms` are reported in order. -/
def exchanges (handler : Handler σ) : List Match → Run σ → List Exchange
  | [], _ => []
  | m :: ms, run =>
    if run.state.terminated then []
    else
      let after := deliver handler m.path m.node run
      ⟨⟨run.state.enter m.path m.node, m.node⟩, after.state.terminated⟩ ::
        exchanges handler ms after

theorem exchanges_of_terminated (stopped : run.state.terminated = true) :
    exchanges handler ms run = [] := by
  cases ms with
  | nil => rfl
  | cons m ms => simp [exchanges, stopped]

theorem exchanges_cons_of_live {m : Match} (live : run.state.terminated = false) :
    exchanges handler (m :: ms) run =
      ⟨Call.arrival m, (deliver handler m.path m.node run).state.terminated⟩ ::
        exchanges handler ms (deliver handler m.path m.node run) := by
  have arrives : run.state.enter m.path m.node = State.idle.enter m.path m.node :=
    State.enter_of_live live
  simp [exchanges, live, arrives, Call.arrival]

/-- The record of a replay is its exchanges. -/
theorem replay_recording {log : List Exchange} :
    replay (recording handler) [] ms ⟨state, memory, log⟩ =
      ⟨(replay handler [] ms ⟨state, memory⟩).state, (replay handler [] ms ⟨state, memory⟩).memory,
        (exchanges handler ms ⟨state, memory⟩).reverse ++ log⟩ := by
  -- The record grows from call to call, so the induction is for any record.
  induction ms generalizing state memory log with
  | nil => rfl
  | cons m ms ih =>
    by_cases stopped : state.terminated = true
    · have whole : replay handler [] (m :: ms) ⟨state, memory⟩ = ⟨state, memory⟩ :=
        replay_of_terminated stopped
      have none : exchanges handler (m :: ms) ⟨state, memory⟩ = [] :=
        exchanges_of_terminated stopped
      rw [whole, none]
      exact replay_of_terminated stopped
    · have live : state.terminated = false := by simpa using stopped
      have first : exchanges handler (m :: ms) ⟨state, memory⟩ = _ := exchanges_cons_of_live live
      rw [replay_cons_of_live live, replay_cons_of_live live, first, List.nil_append,
        deliver_recording, ih, State.enter_of_live live]
      simp [Call.arrival]

/-! ## Cut short -/

/-- The exchanges follow `whole` up to and with the first that stops the walk, and to the end if none
does. -/
structure CutShort (whole : List Call) (exchanges : List Exchange) : Prop where
  isPrefix : exchanges.map Exchange.toCall <+: whole
  before_last : ∀ e ∈ exchanges.dropLast, e.stopped = false
  eq_whole : (∀ e ∈ exchanges, e.stopped = false) → exchanges.map Exchange.toCall = whole

namespace CutShort

variable {call : Call} {whole : List Call} {rest : List Exchange}

theorem nothing : CutShort [] [] := by
  constructor
  · exact List.nil_prefix
  · intro e he
    cases he
  · intro _
    rfl

/-- The walk ends with a call that stops it. -/
theorem stops : CutShort (call :: whole) [⟨call, true⟩] := by
  constructor
  · exact List.cons_prefix_cons.2 ⟨rfl, List.nil_prefix⟩
  · intro e he
    cases he
  · intro live
    have first := live _ (.head _)
    cases first

/-- After a call that does not stop it, the walk is cut short further on. -/
theorem goesOn (h : CutShort whole rest) : CutShort (call :: whole) (⟨call, false⟩ :: rest) := by
  constructor
  · exact List.cons_prefix_cons.2 ⟨rfl, h.isPrefix⟩
  · intro e he
    cases rest with
    | nil => cases he
    | cons next rest =>
      rw [List.dropLast_cons_cons] at he
      obtain rfl | later := List.mem_cons.1 he
      · rfl
      · exact h.before_last e later
  · intro live
    have later : ∀ e ∈ rest, e.stopped = false := fun e he => live e (.tail _ he)
    rw [List.map_cons, h.eq_whole later]

end CutShort

/-- Whatever the handler does, it only cuts the replay short. -/
theorem cutShort_exchanges (handler : Handler σ) (live : run.state.terminated = false) :
    CutShort (ms.map Call.arrival) (exchanges handler ms run) := by
  induction ms generalizing run with
  | nil => exact .nothing
  | cons m ms ih =>
    rw [exchanges_cons_of_live live, List.map_cons]
    -- Only the state that this call leaves decides whether anything follows it.
    cases stopped : (deliver handler m.path m.node run).state.terminated with
    | true =>
      rw [exchanges_of_terminated stopped]
      exact .stops
    | false =>
      apply CutShort.goesOn
      exact ih stopped

theorem GoesOn.not_stopped (goesOn : GoesOn handler) (live : run.state.terminated = false) :
    ∀ e ∈ exchanges handler ms run, e.stopped = false := by
  induction ms generalizing run with
  | nil =>
    intro e he
    cases he
  | cons m ms ih =>
    have next : (deliver handler m.path m.node run).state.terminated = false := goesOn _ _ _ live
    rw [exchanges_cons_of_live live, List.forall_mem_cons]
    exact ⟨next, ih next⟩

theorem deliver_collector {limit : Option Nat} {run : Run (List Match)} :
    deliver (Match.collector limit) path node run =
      ⟨(run.state.enter path node).apply
          (if limit = some (run.memory.length + 1) then .stop else .goOn),
        ⟨path, node⟩ :: run.memory⟩ :=
  rfl

/-- A collector stops the walk when it has as many matches as it may have. -/
theorem memory_replay_limited {limit : Nat} {run : Run (List Match)}
    (live : run.state.terminated = false) (room : run.memory.length < limit) :
    (replay (Match.collector (some limit)) [] ms run).memory =
      (ms.take (limit - run.memory.length)).reverse ++ run.memory := by
  induction ms generalizing run with
  | nil => simp [replay]
  | cons m ms ih =>
    have gathered : (deliver (Match.collector (some limit)) m.path m.node run).memory =
        m :: run.memory := rfl
    have one : limit - run.memory.length = limit - (run.memory.length + 1) + 1 := by omega
    rw [replay_cons_of_live live, List.nil_append, one, List.take_succ_cons]
    by_cases full : limit = run.memory.length + 1
    · have stopped :
          (deliver (Match.collector (some limit)) m.path m.node run).state.terminated = true := by
        simp [deliver_collector, full, State.apply, State.terminate]
      rw [replay_of_terminated stopped, gathered, full]
      simp
    · have next :
          (deliver (Match.collector (some limit)) m.path m.node run).state.terminated = false := by
        simpa [deliver_collector, full, State.apply, State.enter] using live
      have room' :
          (deliver (Match.collector (some limit)) m.path m.node run).memory.length < limit := by
        rw [gathered, List.length_cons]
        omega
      rw [ih next room', gathered]
      simp

end Walk

/-! ## Walkers -/

/-- The two kinds of walks. -/
inductive Walker where
  | full
  | guided (q : Query)

namespace Walker

open Walk

variable {σ : Type} {handler : Handler σ} {m : Match}

/-- What the handler remembers after a walk through `root`. -/
def walk (walker : Walker) (handler : Handler σ) (root : Tree) (memory : σ) : σ :=
  match walker with
  | .full => Walk.full handler root memory
  | .guided q => Walk.guided handler q root memory

/-- The places that a walk comes to if nobody stops it. -/
def places (walker : Walker) (root : Tree) : List Match :=
  match walker with
  | .full => root.preorder
  | .guided q => reports (q.steps false) false false root

/-- The exchanges of one walk, first to last. -/
def log (walker : Walker) (handler : Handler σ) (root : Tree) (memory : σ) : List Exchange :=
  (walker.walk (recording handler) root (memory, [])).2.reverse

/-- The exchanges of one walk after another, each through its own tree. The handler keeps its memory
from walk to walk. -/
def logs (walker : Walker) (handler : Handler σ) : List Tree → σ → List (List Exchange)
  | [], _ => []
  | root :: roots, memory =>
    let (memory, log) := walker.walk (recording handler) root (memory, [])
    log.reverse :: walker.logs handler roots memory

theorem walk_eq_replay (walker : Walker) (handler : Handler σ) (root : Tree) (memory : σ) :
    walker.walk handler root memory =
      (replay handler [] (walker.places root) ⟨.idle, memory⟩).memory := by
  cases walker with
  | full => exact full_eq_replay handler root memory
  | guided q => exact guided_eq_replay handler q root memory

theorem resolves (walker : Walker) {root : Tree} (h : m ∈ walker.places root) :
    m.path.resolve? root = some m.node := by
  cases walker with
  | full => exact (Tree.mem_preorder_iff.1 h).2
  | guided q => exact (mem_reports_iff.1 h).1

theorem walk_recording (walker : Walker) (handler : Handler σ) (root : Tree) (memory : σ) :
    walker.walk (recording handler) root (memory, []) =
      (walker.walk handler root memory, (walker.log handler root memory).reverse) := by
  rw [log, List.reverse_reverse, walk_eq_replay, walk_eq_replay, replay_recording]

/-- What holds of every walk holds of the walks one after another. -/
theorem forall₂_logs (walker : Walker) {holds : Tree → List Exchange → Prop}
    (each : ∀ root memory, holds root (walker.log handler root memory)) (roots : List Tree)
    (memory : σ) : List.Forall₂ holds roots (walker.logs handler roots memory) := by
  induction roots generalizing memory with
  | nil => exact .nil
  | cons root roots ih => exact .cons (each root memory) (ih _)

theorem log_eq_exchanges (walker : Walker) (handler : Handler σ) (root : Tree) (memory : σ) :
    walker.log handler root memory = exchanges handler (walker.places root) ⟨.idle, memory⟩ := by
  rw [log, walk_eq_replay, replay_recording, List.append_nil, List.reverse_reverse]

theorem cutShort_log (walker : Walker) (handler : Handler σ) (root : Tree) (memory : σ) :
    CutShort ((walker.places root).map Call.arrival) (walker.log handler root memory) := by
  rw [log_eq_exchanges]
  exact cutShort_exchanges handler rfl

/-- A handler that never stops a walk is called on all places. -/
theorem log_of_goesOn (walker : Walker) (goesOn : GoesOn handler) (root : Tree) (memory : σ) :
    (walker.log handler root memory).map Exchange.toCall =
      (walker.places root).map Call.arrival := by
  apply (walker.cutShort_log handler root memory).eq_whole
  rw [log_eq_exchanges]
  exact goesOn.not_stopped rfl

theorem gathers (walker : Walker) (root : Tree) :
    (walker.walk (Match.collector none) root []).reverse = walker.places root := by
  rw [walk_eq_replay, memory_replay_collector rfl]
  simp

/-- With a limit a collector gathers the first places. -/
theorem gathers_first (walker : Walker) (limit : Nat) (root : Tree) :
    (walker.walk (Match.collector (some (limit + 1))) root []).reverse =
      (walker.places root).take (limit + 1) := by
  rw [walk_eq_replay, memory_replay_limited rfl (Nat.succ_pos limit)]
  simp

end Walker

namespace Walk

/-- The call is made at a place of `root`, with the state of a walk that goes on and has just come
there. -/
structure Call.Located (root : Tree) (call : Call) : Prop where
  live : call.state.terminated = false
  node : call.state.node = some call.node
  path : ∃ path, call.state.path = some path ∧ call.state.key = path.getLast? ∧
    path.resolve? root = some call.node

theorem Call.located_arrival {root : Tree} {m : Match} (h : m.path.resolve? root = some m.node) :
    (Call.arrival m).Located root :=
  ⟨rfl, rfl, m.path, rfl, rfl, h⟩

end Walk

theorem Walker.located_of_mem_log {σ : Type} (walker : Walker) {handler : Walk.Handler σ}
    {root : Tree} {memory : σ} {e : Walk.Exchange} (h : e ∈ walker.log handler root memory) :
    e.toCall.Located root := by
  have called : e.toCall ∈ (walker.log handler root memory).map Walk.Exchange.toCall :=
    List.mem_map_of_mem h
  have arrival := (walker.cutShort_log handler root memory).isPrefix.subset called
  obtain ⟨m, hm, same⟩ := List.mem_map.1 arrival
  rw [← same]
  exact Walk.Call.located_arrival (walker.resolves hm)

/-- Stopped at the first place, a collector has gathered that place. -/
theorem Walker.head?_gathers_first (walker : Walker) (root : Tree) :
    (walker.walk (Match.collector (some 1)) root []).head? =
      (walker.walk (Match.collector none) root []).reverse.head? := by
  have first : walker.walk (Match.collector (some 1)) root [] =
      ((walker.places root).take 1).reverse :=
    List.reverse_eq_iff.1 (walker.gathers_first 0 root)
  rw [first, walker.gathers root]
  cases walker.places root <;> rfl

theorem Tree.selectFirst?_eq_head? (root : Tree) (q : Query) :
    root.selectFirst? q = (root.select q).head? :=
  (Walker.guided q).head?_gathers_first root

theorem Tree.firstDescendant?_eq_head? (root : Tree) :
    root.firstDescendant? = root.descendants.head? :=
  Walker.full.head?_gathers_first root

/-- **Stopping a walk only cuts it short.** Take either walker, any number of trees that it walks
through one after another, and any handler. In every walk the handler's calls follow those of a
handler that never stops the walk, in the same tree and whatever was walked before, up to and with
the first that leaves the state terminated. Every call is made with a state that is not terminated
and tells the node, the path to it and the last key of the path. So a limit to what is gathered
leaves the first matches, and the first match alone is the head of all of them. -/
theorem stopping_cuts_short (walker : Walker) :
    (∀ (σ : Type) (handler : Walk.Handler σ) (roots : List Tree) (memory : σ),
      List.Forall₂ (fun root exchanges =>
        (∀ (τ : Type) (other : Walk.Handler τ) (start : τ), Walk.GoesOn other →
          Walk.CutShort ((walker.log other root start).map Walk.Exchange.toCall) exchanges) ∧
        ∀ e ∈ exchanges, e.toCall.Located root) roots (walker.logs handler roots memory)) ∧
    (∀ (σ : Type) (handler : Walk.Handler σ) (root : Tree) (memory : σ),
      (walker.walk (Walk.recording handler) root (memory, [])).1 =
        walker.walk handler root memory) ∧
    (∀ (limit : Nat) (root : Tree),
      (walker.walk (Match.collector (some (limit + 1))) root []).reverse =
        (walker.walk (Match.collector none) root []).reverse.take (limit + 1)) ∧
    (∀ (root : Tree) (q : Query), root.selectFirst? q = (root.select q).head?) ∧
    ∀ root : Tree, root.firstDescendant? = root.descendants.head? := by
  refine ⟨?_, ?_, ?_, Tree.selectFirst?_eq_head?, Tree.firstDescendant?_eq_head?⟩
  · intro σ handler
    apply walker.forall₂_logs
    intro root memory
    constructor
    · intro τ other start goesOn
      rw [walker.log_of_goesOn goesOn]
      exact walker.cutShort_log handler root memory
    · intro e he
      exact walker.located_of_mem_log he
  · intro σ handler root memory
    rw [walker.walk_recording]
  · intro limit root
    rw [walker.gathers_first, walker.gathers]

/-- On its first call this handler terminates the state and takes that back. Its second call stops
the walk. -/
def Walk.hesitant : Walk.Handler Nat := fun _ run =>
  (if run.memory = 0 then .goOn else .stop, ⟨run.state.terminate.reset, run.memory + 1⟩)

theorem stopping_cuts_short_at_second :
    Walk.GoesOn (Match.collector none) ∧
      ∃ first second,
        Walker.full.logs Walk.hesitant
          [.object [("a", .object [("b", .null)]), ("c", .null)]] 0 = [[first, second]] ∧
        second.stopped = true ∧
        Walk.CutShort ((Walker.full.log (Match.collector none)
          (.object [("a", .object [("b", .null)]), ("c", .null)]) []).map Walk.Exchange.toCall)
          [first, second] := by
  obtain ⟨walks, -⟩ := stopping_cuts_short .full
  have places : Walker.full.places (.object [("a", .object [("b", .null)]), ("c", .null)]) =
      [⟨["a"], .object [("b", .null)]⟩, ⟨["a", "b"], .null⟩, ⟨["c"], .null⟩] := by
    simp [Walker.places, Tree.preorder_eq, Tree.branch, Tree.keys, Tree.children, Tree.child?,
      List.lookup_cons, Match.under]
  have one : Walker.full.log Walk.hesitant
      (.object [("a", .object [("b", .null)]), ("c", .null)]) 0 =
        [⟨.arrival ⟨["a"], .object [("b", .null)]⟩, false⟩,
          ⟨.arrival ⟨["a", "b"], .null⟩, true⟩] := by
    rw [Walker.log_eq_exchanges, places]
    rfl
  have all : Walker.full.logs Walk.hesitant
      [.object [("a", .object [("b", .null)]), ("c", .null)]] 0 = [_] :=
    congrArg (fun log => [log]) one
  have cut := walks Nat Walk.hesitant [.object [("a", .object [("b", .null)]), ("c", .null)]] 0
  rw [all, List.forall₂_cons] at cut
  exact ⟨Walk.goesOn_collector, _, _, all, rfl, cut.1.1 _ _ [] Walk.goesOn_collector⟩

end DocQuery
