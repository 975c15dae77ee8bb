import TinyKeeper.KeeperDispatcher.Serial
import TinyKeeper.KeeperServer.Registered

/-! What the clients of the service can rely on: all of them together see one registry, and a path
that one of them has made is made again only after something freed it. -/
namespace TinyKeeper

/-- What a session was answered, request by request. -/
def Registry.answered (events : List Registry.Event) (x : SessionId) :
    List (Request × ErrorCode × ReplyBody) :=
  events.filterMap fun
    | .served id _ req code body => if id = x then some (req, code, body) else none
    | .ended _ => none

theorem answered_append (events events' : List Registry.Event) (x : SessionId) :
    Registry.answered (events ++ events') x =
      Registry.answered events x ++ Registry.answered events' x :=
  List.filterMap_append

def Frame.answer? (frame : Frame) : Option (ErrorCode × ReplyBody) :=
  frame.reply?.map fun r => (r.2.err, r.2.body)

theorem works_registered {log : List Executed} (works : ∀ e ∈ log, e.env.flush.works = true) :
    ∀ a ∈ log.filterMap Executed.registered, a.Works := by
  intro a mem
  obtain ⟨e, inside, label⟩ := List.mem_filterMap.mp mem
  exact e.registered_works (works e inside) label

/-- A request that was handled is answered in the registry. -/
theorem answered_registered (log : List Executed) (x : SessionId) :
    Registry.answered (log.filterMap Executed.registered) x =
      ((log.filterMap Executed.handled).filter (·.session = x)).map fun h =>
        (h.request, h.result.response.err, h.result.response.body) := by
  induction log with
  | nil => rfl
  | cons e log ih =>
    have one : Registry.answered (e.registered.toList) x =
        (e.handled.toList.filter (·.session = x)).map fun h =>
          (h.request, h.result.response.err, h.result.response.body) := by
      obtain ⟨env, event, output⟩ := e
      cases event with
      | handle xid id req =>
        cases output with
        | applied r => by_cases here : id = x <;>
            simp [Executed.registered, Executed.handled, Registry.answered, here]
        | _ => rfl
      | _ => rfl
    have split {β : Type} (f : Executed → Option β) :
        (e :: log).filterMap f = (f e).toList ++ log.filterMap f := by
      cases label : f e <;> simp [label]
    rw [split, split, answered_append, one, ih, List.filter_append, List.map_append]

namespace Service
variable {recordBytes : LogRecord → ℕ} {s s' : Service recordBytes} {as as' : List Action}
  {log : List Executed} {events : List Registry.Event}

/-- In these events of the registry every session asks what it was heard to ask, at most its last
request apart, and is answered what it reads, at most one last reply apart. -/
structure Agrees (as : List Action) (socket : SessionId → List Frame)
    (events : List Registry.Event) : Prop where
  requests : ∀ x, ∃ last : List Request, last.length ≤ 1 ∧
    (Registry.answered events x).map Prod.fst ++ last =
      (as.filterMap (Action.request? x)).map Prod.snd
  replies : ∀ x, ∃ lost : List (ErrorCode × ReplyBody), lost.length ≤ 1 ∧
    (socket x).filterMap Frame.answer? ++ lost = (Registry.answered events x).map Prod.snd

/-- They are one history of the registry, and lead to the tree of the server. A request is turned
away because of the log only if some flush fails. -/
structure Linearizes (as : List Action) (s : Service recordBytes) (events : List Registry.Event) :
    Prop extends Agrees as s.socket events where
  works : (∀ env ∈ as.filterMap Action.env?, env.flush.works = true) → ∀ e ∈ events, e.Works
  run : Run Registry.Step .initial events s.server.storage.registry

theorem Explains.agrees {s₀ : KeeperServer recordBytes} (explains : Explains s₀ as s log) :
    Agrees as s.socket (log.filterMap Executed.registered) := by
  refine ⟨fun x => ?_, fun x => ?_⟩
  · have requests := (explains.fifo x).requests
    refine ⟨(s.phase x).unapplied.map Prod.snd, ?_, ?_⟩
    · rw [List.length_map]
      unfold Phase.unapplied
      split <;> simp
    · rw [← requests, List.map_append, answered_registered, requestsOf, List.map_map, List.map_map]
      rfl
  · obtain ⟨missing, one, -, replies⟩ := (explains.fifo x).replies
    refine ⟨missing.map fun r => (r.2.err, r.2.body), by rwa [List.length_map], ?_⟩
    have read : (s.socket x).filterMap Frame.answer? =
        ((s.socket x).filterMap Frame.reply?).map fun r => (r.2.err, r.2.body) := by
      rw [List.map_filterMap]
      rfl
    have answers := congrArg (List.map fun r : Reply => (r.err, r.body))
      (answersTo_replies (log.filterMap Executed.handled) x)
    rw [List.map_map, List.map_map] at answers
    rw [read, ← List.map_append, replies, answered_registered, List.map_map]
    exact answers

theorem Explains.linearizes (explains : Explains (.initial recordBytes) as s log) :
    Linearizes as s (log.filterMap Executed.registered) where
  toAgrees := explains.agrees
  works all := by
    refine works_registered fun e mem => all e.env ?_
    rw [← explains.envs]
    exact List.mem_map_of_mem mem
  run := KeeperServer.keeps_registry explains.run

/-- The service is linearizable: whatever its tasks do, all clients together see one history of the
registry, which only grows, so that what was answered before a request was received also comes
before it there. -/
theorem linearizable (run : Run Step (initial recordBytes) as s) (later : Run Step s as' s') :
    ∃ events events', Linearizes as s events ∧ Linearizes (as ++ as') s' (events ++ events') := by
  have started : (initial recordBytes).Started := initial_started
  obtain ⟨log, before⟩ := started.explained run
  obtain ⟨sound, numbered⟩ := run.invariant (fun s => s.Sound ∧ s.Numbered)
    ⟨started.sound, started.numbered⟩ fun _ _ _ h step => ⟨h.1.step step, h.2.step h.1 step⟩
  obtain ⟨log', after⟩ := before.later sound numbered later
  have grown := after.linearizes
  rw [List.filterMap_append] at grown
  exact ⟨_, _, before.linearizes, grown⟩

/-- A client connects, makes a node and sets it, and all have seen one history of the registry. -/
theorem linearizable_written : ∃ (as : List Action) (s : Service fun _ => 1) (events : _),
    s.history = [⟨1, .create ⟨"/a", [], 0⟩, []⟩, ⟨1, .set ⟨"/a", [7], 0⟩, []⟩] ∧
      Linearizes as s events := by
  obtain ⟨as, as', s, s', connects, writes, -, -, history⟩ := initial_writes
  obtain ⟨events, events', -, linearizes⟩ := linearizable connects writes
  exact ⟨as ++ as', s', events ++ events', history, linearizes⟩

end Service

namespace KeeperServer
variable {recordBytes : LogRecord → ℕ} {s : KeeperServer recordBytes}

/-- A path is made twice in a lifetime, by itself or in a batch, only if something frees it in
between: a delete that was carried out, by itself or in a batch, or, if the first node was
ephemeral, the end of the session that made it. -/
theorem lock_exclusive {log : List Executed} (life : Run Serves (initial recordBytes) log s)
    {before between after : List Registry.Act} {path : String} {x y : SessionId}
    (acts : (log.filterMap Executed.registered).flatMap Registry.Event.acts =
      before ++ .made path x :: between ++ .made path y :: after) :
    ∃ a ∈ between, a.Frees path x := by
  have run := Registry.moves_of_run (keeps_registry life)
  rw [acts] at run
  exact Registry.freed_between run

/-- Two sessions are open. -/
noncomputable def bothOpen : KeeperServer fun _ => 1 :=
  ((initial _).next (.working 0, .createSession 5000)).next (.working 0, .createSession 5000)

/-- The first of them has taken a lock. -/
noncomputable def locked : KeeperServer fun _ => 1 :=
  bothOpen.next (.working 0, .handle 1 1 (.create ⟨"/lock", [], 1⟩))

/-- It has given the lock back. -/
noncomputable def unlocked : KeeperServer fun _ => 1 :=
  locked.next (.working 0, .handle 2 1 (.remove ⟨"/lock", -1⟩))

/-- The other session takes the lock in a batch, after the first has given it back. Its delete of
a path that is not there frees nothing. -/
theorem lock_exclusive_handover : ∃ (log : List Executed) (s : KeeperServer fun _ => 1)
    (between : List Registry.Act), Run Serves (initial _) log s ∧
      (log.filterMap Executed.registered).flatMap Registry.Event.acts =
        [.made "/lock" 1] ++ between ++ [.made "/lock" 2] ∧
      ∃ a ∈ between, a.Frees "/lock" 1 := by
  let opens (id : SessionId) : Executed := ⟨.working 0, .createSession 5000, .session id⟩
  let takes : Executed := ⟨.working 0, .handle 1 1 (.create ⟨"/lock", [], 1⟩),
    .applied ⟨⟨1, 3, .ok, .create "/lock"⟩, []⟩⟩
  let misses : Executed :=
    ⟨.working 0, .handle 1 2 (.remove ⟨"/other", -1⟩), .applied ⟨⟨1, 3, .noNode, .empty⟩, []⟩⟩
  let gives : Executed :=
    ⟨.working 0, .handle 2 1 (.remove ⟨"/lock", -1⟩), .applied ⟨⟨2, 4, .ok, .empty⟩, []⟩⟩
  let batch : Executed := ⟨.working 0, .handle 2 2 (.multi [.create ⟨"/lock", [], 1⟩]),
    .applied ⟨⟨2, 5, .ok, .multi [.create "/lock"]⟩, []⟩⟩
  have opened : (initial fun _ => 1).Serves (opens 1) _ := ⟨executes_next ⟨_, rfl⟩, trivial⟩
  have joined : Serves _ (opens 2) bothOpen := ⟨executes_next ⟨_, rfl⟩, trivial⟩
  have taken : bothOpen.Serves takes locked := ⟨executes_next ⟨_, rfl⟩, by decide, by decide⟩
  have missed : locked.Serves misses locked := ⟨rfl, by decide, by decide⟩
  have given : locked.Serves gives unlocked := ⟨executes_next ⟨_, rfl⟩, by decide, by decide⟩
  have again : unlocked.Serves batch _ := ⟨executes_next ⟨_, rfl⟩, by decide, by decide⟩
  have life : Run Serves (initial _) [opens 1, opens 2, takes, misses, gives, batch] _ :=
    (((((Run.single opened).snoc joined).snoc taken).snoc missed).snoc given).snoc again
  have freed := @lock_exclusive _ _ _ life [] [.removed "/lock"] [] "/lock" 1 2 (by decide)
  exact ⟨_, _, _, life, by decide, freed⟩

end KeeperServer
end TinyKeeper
