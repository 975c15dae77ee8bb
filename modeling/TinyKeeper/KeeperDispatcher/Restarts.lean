import TinyKeeper.KeeperDispatcher.Clients
import TinyKeeper.KeeperServer.Lifetimes

/-! The service over many lifetimes of its process. All connections are lost at the end of one, but
the clients before it and after it see one history of the registry. -/
namespace TinyKeeper

/-- A lifetime of the process: what its tasks did, and what they have written to the sockets. -/
structure Era where
  actions : List Service.Action
  socket : SessionId → List Frame

namespace KeeperServer
variable {recordBytes : LogRecord → ℕ} {s t u : KeeperServer recordBytes}

theorem Serves.deterministic {e : Executed} (h : s.Serves e t) (h' : s.Serves e u) : t = u :=
  h.step.eq_next.trans h'.step.eq_next.symm

end KeeperServer

namespace Service
variable {recordBytes : LogRecord → ℕ} {s s' : Service recordBytes} {a : Action}
  {server server' : KeeperServer recordBytes} {as : List Action} {log : List Executed}

/-- What the step executes is flushed, leaves nothing durable to be forgotten, and nothing in the
log that no replay can follow. -/
def Lasts (s : Service recordBytes) (a : Action) (s' : Service recordBytes) : Prop :=
  s.Step a s' ∧ ∀ x ∈ s.executed a, x.1.flush = .succeeds ∧ ¬ Unlogged s.server.storage x.2 ∧
    ¬ Doomed s.server.storage x.2

/-- The process ends, after any step or in the write of the record of one, and another one is
started on its files. -/
inductive Ends (s : Service recordBytes) : KeeperServer recordBytes → Prop
  | stopped {orders : ℕ → HashOrders} {next : KeeperServer recordBytes}
      (restarted : KeeperServer.new recordBytes s.server.wal.segments orders = .ok next) :
      Ends s next
  | died {a : Action} {s' : Service recordBytes} {op : WalOperation} {whole : Bool}
      {orders : ℕ → HashOrders} {next : KeeperServer recordBytes} (last : s.Lasts a s')
      (executes : s.executed a ≠ none) (logs : s'.server.wal = s.server.logged (some op))
      (restarted : KeeperServer.new recordBytes (s.server.dying op whole) orders = .ok next) :
      Ends s next

/-- A lifetime that starts with one server and leaves the files on which another one starts. -/
def Spans (server : KeeperServer recordBytes) (era : Era) (server' : KeeperServer recordBytes) :
    Prop :=
  ∃ s, Run Lasts (start server) era.actions s ∧ era.socket = s.socket ∧ s.Ends server'

/-- A step that executes something on the server hears nobody and writes to no socket. -/
theorem Step.executes (step : s.Step a s') (executes : s.executed a ≠ none) :
    (∀ x, a.request? x = none) ∧ s'.socket = s.socket := by
  cases step with
  | connect done | expire done | touch applying done => exact ⟨fun _ => rfl, rfl⟩
  | handle applying done => exact ⟨fun _ => rfl, rfl⟩
  | _ => exact absurd rfl executes

/-- The execution that explains a service keeps everything in the log. -/
structure Records (s₀ : KeeperServer recordBytes) (as : List Action) (s : Service recordBytes)
    (log : List Executed) : Prop extends Explains s₀ as s log where
  leaves : Run KeeperServer.Leaves s₀ log s.server

variable {s₀ : KeeperServer recordBytes}

/-- A step goes on with it, by one step of the server if it executes anything. -/
theorem Records.step (records : Records s₀ as s log) (sound : s.Sound) (numbered : s.Numbered)
    (last : s.Lasts a s') : ∃ log', Records s₀ (as ++ [a]) s' (log ++ log') ∧
      (s.executed a ≠ none → ∃ e, log' = [e] ∧ s.server.Leaves e s'.server) := by
  obtain ⟨log', executes, explains⟩ := records.toExplains.step sound numbered last.1
  obtain ⟨t, before, goes⟩ := explains.run.append_split
  obtain rfl := before.deterministic (fun _ _ _ _ h h' => h.deterministic h') records.run
  cases taken : s.executed a with
  | none =>
    rw [taken, Option.toList_none, List.map_eq_nil_iff] at executes
    subst executes
    have same : s'.server = s.server := goes.nil_eq
    refine ⟨[], ⟨explains, ?_⟩, fun some => absurd rfl some⟩
    rw [List.append_nil, same]
    exact records.leaves
  | some x =>
    rw [taken, Option.toList_some, List.map_eq_singleton_iff] at executes
    obtain ⟨e, rfl, rfl⟩ := executes
    obtain ⟨u, serves, rest⟩ := Run.cons_iff.mp goes
    cases rest.nil_eq
    have leaves : s.server.Leaves e s'.server := ⟨serves, last.2 _ taken⟩
    exact ⟨[e], ⟨explains, records.leaves.snoc leaves⟩, fun _ => ⟨e, rfl, leaves⟩⟩

theorem registered_served (log : List Executed) :
    (log.map Chapter.served).filterMap Chapter.registered = log.filterMap Executed.registered := by
  rw [List.filterMap_map]
  rfl

theorem Records.served (records : Records s₀ as s log) :
    Run KeeperServer.Endures s₀ (log.map .served) s.server :=
  records.leaves.map id Chapter.served fun _ _ _ h => h

theorem kept (h : s.Sound ∧ s.Numbered) (run : Run Lasts s as s') : s'.Sound ∧ s'.Numbered :=
  run.invariant (fun s => s.Sound ∧ s.Numbered) h
    fun _ _ _ h step => ⟨h.1.step step.1, h.2.step h.1 step.1⟩

theorem Started.kept (started : s.Started) (run : Run Lasts s as s') : s'.Sound ∧ s'.Numbered :=
  Service.kept ⟨started.sound, started.numbered⟩ run

theorem Records.later (records : Records s₀ as s log) (sound : s.Sound) (numbered : s.Numbered)
    {as' : List Action} (run : Run Lasts s as' s') :
    ∃ log', Records s₀ (as ++ as') s' (log ++ log') := by
  induction run with
  | nil => exact ⟨[], by rwa [List.append_nil, List.append_nil]⟩
  | @snoc as' t a u init last ih =>
    obtain ⟨log', before⟩ := ih
    obtain ⟨sound, numbered⟩ := kept ⟨sound, numbered⟩ init
    obtain ⟨log'', after, -⟩ := before.step sound numbered last
    refine ⟨log' ++ log'', ?_⟩
    rwa [List.append_assoc, List.append_assoc] at after

theorem Started.records {server : KeeperServer recordBytes} (started : (start server).Started)
    (run : Run Lasts (start server) as s) : ∃ log, Records server as s log := by
  have nothing : Records server [] (start server) [] := ⟨started.explains, .nil⟩
  obtain ⟨log, records⟩ := nothing.later started.sound started.numbered run
  rw [List.nil_append, List.nil_append] at records
  exact ⟨log, records⟩

theorem start_started {dir : Segments LogRecord} {orders : ℕ → HashOrders}
    {server : KeeperServer recordBytes}
    (restarted : KeeperServer.new recordBytes dir orders = .ok server) : (start server).Started :=
  ⟨dir, orders, server, restarted, rfl⟩

/-- A lifetime of the process is one of its server, and its clients agree with what the registry
sees of that. -/
theorem Spans.endures {server server' : KeeperServer recordBytes} {era : Era}
    (spans : Spans server era server') (started : (start server).Started) :
    (start server').Started ∧ ∃ cs, Run KeeperServer.Endures server cs server' ∧
      Agrees era.actions era.socket (cs.filterMap Chapter.registered) := by
  obtain ⟨s, run, socket, ends⟩ := spans
  obtain ⟨log, records⟩ := started.records run
  obtain ⟨sound, numbered⟩ := started.kept run
  have agrees : Agrees era.actions s.socket (log.filterMap Executed.registered) :=
    records.toExplains.agrees
  rw [socket]
  cases ends with
  | @stopped orders _ restarted =>
    have restarts : s.server.Endures (.restarted orders) server' := restarted
    refine ⟨start_started restarted, _, records.served.snoc restarts, ?_⟩
    rw [List.filterMap_append, registered_served]
    exact (List.append_nil _).symm ▸ agrees
  | @died a s' op whole orders _ last executes logs restarted =>
    obtain ⟨log', after, goes⟩ := records.step sound numbered last
    obtain ⟨e, rfl, leaves⟩ := goes executes
    obtain ⟨unheard, unwritten⟩ := last.1.executes executes
    have dies : s.server.Endures (.died e whole orders) server' := ⟨_, op, leaves, logs, restarted⟩
    refine ⟨start_started restarted, _, records.served.snoc dies, ?_⟩
    rw [List.filterMap_append, registered_served]
    cases whole with
    | false => exact (List.append_nil _).symm ▸ agrees
    | true =>
      have more := after.toExplains.agrees
      rw [List.filterMap_append, unwritten] at more
      have heard (x : SessionId) : (era.actions ++ [a]).filterMap (Action.request? x) =
          era.actions.filterMap (Action.request? x) := by
        simp [unheard x]
      exact ⟨fun x => heard x ▸ more.requests x, more.replies⟩

/-- Over any number of lifetimes of the process its clients agree with one life of the server. -/
theorem endures_of_eras {eras : List Era} {server : KeeperServer recordBytes}
    (run : Run Spans (.initial recordBytes) eras server) : (start server).Started ∧
      ∃ cs past, Run KeeperServer.Endures (.initial recordBytes) cs server ∧
        cs.filterMap Chapter.registered = past.flatten ∧
        List.Forall₂ (fun era events => Agrees era.actions era.socket events) eras past := by
  induction run with
  | nil => exact ⟨initial_started, [], [], .nil, rfl, .nil⟩
  | @snoc eras server era server' init last ih =>
    obtain ⟨started, cs, past, endures, registered, agree⟩ := ih
    obtain ⟨started', cs', endures', agrees⟩ := last.endures started
    refine ⟨started', cs ++ cs', past ++ [cs'.filterMap Chapter.registered],
      endures.trans endures', ?_, List.rel_append agree (.cons agrees .nil)⟩
    rw [List.filterMap_append, registered, List.flatten_append, List.flatten_singleton]

/-- The service is linearizable over its restarts. However often its process has ended, after any
step or in the write of the record of one, all clients of all its lifetimes have seen one history of
the registry, which turns nobody away because of the log: the next lifetime goes on where the files
of the last one end, and these have all that was answered. -/
theorem durably_linearizable {eras : List Era} {server : KeeperServer recordBytes}
    (past : Run Spans (.initial recordBytes) eras server) {as' : List Action}
    (run : Run Lasts (start server) as s) (later : Run Lasts s as' s') :
    ∃ histories events events',
      List.Forall₂ (fun era events => Agrees era.actions era.socket events) eras histories ∧
      Agrees as s.socket events ∧ Agrees (as ++ as') s'.socket (events ++ events') ∧
      (∀ e ∈ histories.flatten ++ (events ++ events'), e.Works) ∧
      Run Registry.Step .initial (histories.flatten ++ (events ++ events'))
        s'.server.storage.registry := by
  obtain ⟨started, cs, histories, endures, registered, agree⟩ := endures_of_eras past
  obtain ⟨log, records⟩ := started.records run
  obtain ⟨sound, numbered⟩ := started.kept run
  obtain ⟨log', records'⟩ := records.later sound numbered later
  have agrees := records'.toExplains.agrees
  have history := KeeperServer.keeps_registry_of_endures (endures.trans records'.served)
  have works := KeeperServer.works_of_endures (endures.trans records'.served)
  rw [List.filterMap_append, registered, registered_served, List.filterMap_append] at history works
  rw [List.filterMap_append] at agrees
  exact ⟨histories, _, _, agree, records.toExplains.agrees, agrees, works, history⟩

/-- The process dies behind the record that ends the session of its only client, and the next client
finds the registry of that. -/
theorem durably_linearizable_expired : ∃ (era : Era) (s : Service fun _ => 1) (histories : _)
    (events events' : List Registry.Event), era.actions = [.connect (.working 0) 5000] ∧
      List.Forall₂ (fun era events => Agrees era.actions era.socket events) [era] histories ∧
      Run Registry.Step .initial (histories.flatten ++ (events ++ events'))
        s.server.storage.registry := by
  let connect : Action := .connect (.working 0) 5000
  have connects {t : Service fun _ => 1} {x : SessionId} {next : KeeperServer fun _ => 1}
      (done : t.server.exec (.working 0) (.createSession 5000) = .done (.session x) next) :
      ∃ t', t.Lasts connect t' ∧ t'.server = next ∧ t'.socket = t.socket := by
    refine ⟨_, ⟨.connect done, ?_⟩, rfl, rfl⟩
    rintro _ ⟨⟩
    exact ⟨rfl, id, id⟩
  obtain ⟨opened, opens, closed, closes, logs, server, restarted, joined, joins⟩ :
      ∃ opened, (KeeperServer.initial fun _ => 1).exec (.working 0) (.createSession 5000) =
        .done (.session 1) opened ∧
      ∃ closed, opened.exec (.working 0) (.closeSession 1) = .done .closed closed ∧
        closed.wal = opened.logged (some (.closeSession 1)) ∧
      ∃ server, KeeperServer.new _ (opened.dying (.closeSession 1) true)
        (fun _ => ⟨.choice, .choice, .choice⟩) = .ok server ∧
      ∃ joined, server.exec (.working 0) (.createSession 5000) = .done (.session 2) joined :=
    ⟨_, rfl, _, rfl, rfl, _, rfl, _, rfl⟩
  obtain ⟨s, first, rfl, -⟩ := connects (t := initial _) opens
  let expires : Action := .expire (.working 0) 1
  have last : s.Lasts expires { s with server := closed } := by
    refine ⟨.expire closes, ?_⟩
    rintro _ ⟨⟩
    exact ⟨rfl, id, id⟩
  have ends : s.Ends server := .died last (by simp [expires, executed]) logs restarted
  obtain ⟨s', again, -, -⟩ := connects (t := start server) joins
  let era : Era := ⟨[connect], s.socket⟩
  have past : Run Spans (.initial _) [era] server := .single ⟨s, .single first, rfl, ends⟩
  obtain ⟨histories, events, events', agree, -, -, -, history⟩ :=
    durably_linearizable past .nil (.single again)
  exact ⟨era, s', histories, events, events', rfl, agree, history⟩

end Service
end TinyKeeper
