import TinyKeeper.KeeperServer.WatchSessions

/-! What a read leaves behind: the watch it asks for and nothing else, but that watch also when the
node is not there and the reply is an error. -/
namespace TinyKeeper

namespace Request

/-- The path a read looks at and the kind of watch it may make there. -/
def asked : Request → Option (ReadRequest × WatchType)
  | .get req | .exists req => some (req, .watch)
  | .simpleList req | .list req => some (req, .listWatch)
  | _ => none

/-- Get, Exists, List, SimpleList and the heartbeat. -/
def IsRead (req : Request) : Prop := req.asked ≠ none ∨ req = .heartbeat

instance : DecidablePred IsRead := fun req =>
  inferInstanceAs (Decidable (req.asked ≠ none ∨ req = .heartbeat))

/-- `exists` may watch a node that is not there. -/
def IsExists (req : Request) : Prop := ∃ read, req = .exists read

end Request

/-- The request asks for a watch on a node that is not there, which only `exists` may do, and the
session does not have this watch yet. -/
def KeeperStorage.LeavesWatch (st : KeeperStorage) (id : SessionId) (req : Request) : Prop :=
  ∃ read t, req.asked = some (read, t) ∧ read.watch = true ∧ ¬ req.IsExists ∧
    st.map.get read.path = none ∧ ¬ st.watchState.Registered t read.path id

namespace KeeperServer
variable {recordBytes : LogRecord → ℕ}

/-- A step that only reads: at most it makes the watch that the request asks for, if the reply is
`Ok` or the request is `exists`. -/
structure ReadsOnly (s : KeeperServer recordBytes) (id : SessionId) (req : Request)
    (r : ApplyResult) (s' : KeeperServer recordBytes) : Prop where
  map : s'.storage.map = s.storage.map
  lastZxid : s'.storage.lastZxid = s.storage.lastZxid
  sessions : s'.storage.sessionState.sessionAndTimeout = s.storage.sessionState.sessionAndTimeout
  ephemerals : s'.storage.sessionState.ephemerals = s.storage.sessionState.ephemerals
  wal : s'.wal = s.wal
  silent : r.watchEvents = []
  watches : s'.storage.watchState = s.storage.watchState ∨
    ∃ read t, req.asked = some (read, t) ∧ read.watch = true ∧
      (r.response.err = .ok ∨ req.IsExists) ∧
      s'.storage.watchState = s.storage.watchState.register id read.path t

variable (s : KeeperServer recordBytes)

/-- How every read but the heartbeat is answered. -/
theorem handle_asked (env : Env) (xid : Int32) (id : SessionId) {req : Request}
    {read : ReadRequest} {t : WatchType} (asked : req.asked = some (read, t)) :
    ∃ code answer, s.handle env xid id req =
        .done ⟨⟨xid, s.storage.lastZxid, code, answer⟩, []⟩ (s.afterRead id read t) ∧
      (code = .ok ↔ s.storage.map.get read.path ≠ none) := by
  cases req with
  | get req | simpleList req | list req | «exists» req =>
    cases asked
    obtain ⟨code, answer, done, -, okay⟩ := s.handleRead_done xid id _ _ _
    exact ⟨code, answer, done, okay⟩
  | _ => cases asked

variable {s}

/-- A read leaves something else behind exactly when it makes a watch that it must not make. -/
theorem handle_readsOnly_iff (mirrored : s.storage.watchState.Mirrored) (env : Env) (xid : Int32)
    (id : SessionId) {req : Request} (reads : req.IsRead) :
    (∃ r s', s.handle env xid id req = .done r s' ∧ s.ReadsOnly id req r s') ↔
      ¬ s.storage.LeavesWatch id req := by
  obtain asks | rfl := reads
  swap
  · refine iff_of_true ⟨_, s, rfl, ⟨rfl, rfl, rfl, rfl, rfl, rfl, .inl rfl⟩⟩ ?_
    rintro ⟨read, t, asked, -⟩
    cases asked
  · obtain ⟨⟨read, t⟩, asked⟩ := Option.ne_none_iff_exists'.mp asks
    obtain ⟨code, answer, done, okay⟩ := s.handle_asked env xid id asked
    constructor
    · rintro ⟨r, s', served, only⟩ ⟨read', t', asked', watch, other, missing, fresh⟩
      cases asked.symm.trans asked'
      cases done.symm.trans served
      have made : (s.afterRead id read t).storage.watchState =
          s.storage.watchState.register id read.path t := if_pos watch
      obtain same | ⟨_, _, _, _, ok | «exists», _⟩ := only.watches
      · apply fresh
        rw [← same, made]
        exact s.storage.watchState.register_self id read.path t
      · exact okay.mp ok missing
      · exact other «exists»
    · intro fine
      refine ⟨_, _, done, ⟨rfl, rfl, rfl, rfl, rfl, rfl, ?_⟩⟩
      by_cases watch : read.watch = true
      swap
      · exact .inl (if_neg watch)
      by_cases allowed : code = .ok ∨ req.IsExists
      · exact .inr ⟨read, t, asked, watch, allowed, if_pos watch⟩
      · obtain ⟨failed, other⟩ := not_or.mp allowed
        have missing : s.storage.map.get read.path = none := by
          by_contra stored
          exact failed (okay.mpr stored)
        -- the session had this watch before, so that it is made a second time
        have standing : s.storage.watchState.Registered t read.path id := by
          by_contra fresh
          exact fine ⟨read, t, asked, watch, other, missing, fresh⟩
        refine .inl ((if_pos watch).trans ?_)
        exact WatchState.register_of_registered _ id read.path t standing
          (mirrored t read.path id standing)

/-- Touching the session first changes no more than its deadline. -/
theorem readsOnly_touchSession (now : Int) {id : SessionId} {req : Request} {r : ApplyResult}
    {s' : KeeperServer recordBytes} :
    (s.touchSession now id).ReadsOnly id req r s' ↔ s.ReadsOnly id req r s' := by
  have sessions : (s.touchSession now id).storage.sessionState.sessionAndTimeout =
      s.storage.sessionState.sessionAndTimeout :=
    SessionState.sessionAndTimeout_touchSession _ id now
  have ephemerals : (s.touchSession now id).storage.sessionState.ephemerals =
      s.storage.sessionState.ephemerals :=
    SessionState.ephemerals_touchSession _ id now
  constructor
  · intro h
    exact ⟨h.map, h.lastZxid, h.sessions.trans sessions, h.ephemerals.trans ephemerals, h.wal,
      h.silent, h.watches⟩
  · intro h
    exact ⟨h.map, h.lastZxid, h.sessions.trans sessions.symm, h.ephemerals.trans ephemerals.symm,
      h.wal, h.silent, h.watches⟩

/-- A read only reads, alone or behind the touch of its session, exactly if it does not ask for a
new watch on a node that is not there, unless it is `exists`. -/
theorem reads_only_iff (h : Reachable s) (env : Env) (xid : Int32) (id : SessionId)
    {req : Request} (reads : req.IsRead) :
    ((∃ r s', s.handle env xid id req = .done r s' ∧ s.ReadsOnly id req r s') ↔
      ¬ s.storage.LeavesWatch id req) ∧
    ((∃ r s', s.apply env xid id req = .done r s' ∧ s.ReadsOnly id req r s') ↔
      ¬ s.storage.LeavesWatch id req) := by
  refine ⟨handle_readsOnly_iff h.mirrored env xid id reads, ?_⟩
  have touched : (s.touchSession env.now id).storage.watchState.Mirrored := h.mirrored
  have served := handle_readsOnly_iff touched env xid id reads
  simp only [readsOnly_touchSession] at served
  exact served

/-- The root can be watched. -/
theorem reads_only_root : ∃ r s', (initial (fun _ => 1)).apply (.working 0) 7 1 (.get ⟨"/", true⟩) =
    .done r s' ∧ (initial (fun _ => 1)).ReadsOnly 1 (.get ⟨"/", true⟩) r s' := by
  refine (reads_only_iff initial_reachable (.working 0) 7 1 (by decide)).2.mpr ?_
  rintro ⟨read, t, asked, -, -, missing, -⟩
  cases asked
  cases missing

/-- A Get of a node that is not there is refused and leaves a watch. -/
theorem get_leaves_watch :
    ¬ ∀ (s : KeeperServer (fun _ => 1)) (env : Env) (xid : Int32) (id : SessionId) (req : Request),
      Reachable s → req.IsRead →
        ∃ r s', s.apply env xid id req = .done r s' ∧ s.ReadsOnly id req r s' := by
  intro all
  obtain ⟨r, s', served, only⟩ := all (initial _) (.working 0) 7 1 (.get ⟨"/missing", true⟩)
    initial_reachable (by decide)
  cases served
  obtain same | ⟨_, _, _, _, ok | ⟨_, «exists»⟩, _⟩ := only.watches
  · have unchanged : WatchState.new.register 1 "/missing" .watch = .new := same
    have registered := WatchState.new.register_self 1 "/missing" .watch
    rw [unchanged] at registered
    exact WatchState.not_mentions_new 1 (.inl ⟨_, _, registered⟩)
  · cases ok
  · cases «exists»

end KeeperServer
end TinyKeeper
