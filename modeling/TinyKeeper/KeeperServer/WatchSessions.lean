import TinyKeeper.KeeperServer.Watches
import TinyKeeper.WatchState.Indexes

/-! Sessions in the watch indices. An explicit close takes the watches of its session along; the
end of an expired session leaves them behind, and no read looks whether its session is open. -/
namespace TinyKeeper

/-- The request asks for a watch. -/
def Request.watches : Request → Bool
  | .get req | .simpleList req | .list req | .exists req => req.watch
  | _ => false

namespace KeeperStorage

/-- Every session in a watch index is open. -/
def WatchersOpen (st : KeeperStorage) : Prop :=
  ∀ id, st.watchState.Mentions id → st.sessionState.IsOpen id

/-- The step ends an expired session that has watches, or makes a watch for a session that is not
open. -/
def AbandonsWatch (st : KeeperStorage) : ServerEvent → Prop
  | .closeSession id => st.watchState.Mentions id
  | .handle _ id req => req.watches = true ∧ ¬ st.sessionState.IsOpen id
  | _ => False

/-- No session is added to an index, and none is closed. -/
structure Calm (st st' : KeeperStorage) : Prop where
  mirrored : st'.watchState.Mirrored
  fewer : st.watchState.Shrinks st'.watchState
  stays : ∀ id, st.sessionState.IsOpen id → st'.sessionState.IsOpen id

/-- What a step does to the watch indices and the open sessions. -/
inductive WatchMove (orders : HashOrders) (st st' : KeeperStorage) : ServerEvent → Prop
  | registered {xid : Int32} {id : SessionId} {req : Request} (path : String) (t : WatchType)
      (watches : req.watches = true)
      (after : st' = { st with watchState := st.watchState.register id path t }) :
      WatchMove orders st st' (.handle xid id req)
  | closed {xid : Int32} {id : SessionId}
      (cleared : st'.watchState = st.watchState.clear orders id)
      (ended : st'.sessionState = st.sessionState.without id) :
      WatchMove orders st st' (.handle xid id .close)
  | expired {id : SessionId} (same : st'.watchState = st.watchState)
      (ended : st'.sessionState = st.sessionState.without id) :
      WatchMove orders st st' (.closeSession id)
  | quiet {e : ServerEvent} (harmless : ¬ st.AbandonsWatch e) (calm : st.Calm st') :
      WatchMove orders st st' e

variable {st st' st₁ : KeeperStorage}

theorem Calm.of_same (h : st.watchState.Mirrored) (watch : st'.watchState = st.watchState)
    (sessions : st.sessionState.SameSessions st'.sessionState) : st.Calm st' :=
  ⟨watch ▸ h, watch ▸ .refl _, fun id isOpen => (sessions.isOpen id).mpr isOpen⟩

theorem Calm.refl (h : st.watchState.Mirrored) : st.Calm st := .of_same h rfl (.refl _)

theorem Calm.fired (h : st.Calm st') (orders : HashOrders) (path : String)
    (event : WatchEventType) : st.Calm (st'.fired orders path event) := by
  exact ⟨h.mirrored.fire orders path event,
    h.fewer.trans (st'.watchState.shrinks_fire orders path event), h.stays⟩

theorem Calm.trans (h : st.Calm st') (h' : st'.Calm st₁) : st.Calm st₁ :=
  ⟨h'.mirrored, h.fewer.trans h'.fewer, fun id isOpen => h'.stays id (h.stays id isOpen)⟩

theorem calm_of_create {path created : String} {data : List UInt8} {timestamp : Int}
    {sessionId : SessionId} {flags : Int32} (h : st.watchState.Mirrored)
    (done : st.create path data timestamp sessionId flags = .ok created st') : st.Calm st' :=
  .of_same h (create_ok_watchState done) (create_ok_sameSessions done)

theorem calm_of_set {path : String} {data : List UInt8} {timestamp : Int}
    (h : st.watchState.Mirrored) (done : st.set path data timestamp = .ok () st') : st.Calm st' :=
  .of_same h (set_ok_watchState done) (set_ok_sameSessions done)

theorem calm_of_delete {path : String} (h : st.watchState.Mirrored)
    (done : st.delete path = .ok () st') (owner : SessionId) :
    st.Calm (st'.disowned owner path) := by
  refine .of_same h ?_ ((delete_ok_sameSessions done).trans (sameSessions_disowned _ _ _))
  rw [disowned_watchState, delete_ok_watchState done]

end KeeperStorage

section Steps
variable {env : Env} {st st' : KeeperStorage} {sessionId : SessionId}

theorem MultiStep.calm {entry : MultiEntry} (h : MultiStep env sessionId st entry st')
    (mirrored : st.watchState.Mirrored) : st.Calm st' := by
  cases h with
  | check => exact .refl mirrored
  | set stored version done updated => exact (KeeperStorage.calm_of_set mirrored done).fired _ _ _
  | create done => exact (KeeperStorage.calm_of_create mirrored done).fired _ _ _
  | delete stored version done =>
    exact (KeeperStorage.calm_of_delete mirrored done _).fired _ _ _

theorem MultiRun.calm {entries : List MultiEntry} (h : MultiRun env sessionId st entries st')
    (mirrored : st.watchState.Mirrored) : st.Calm st' := by
  induction h with
  | nil => exact .refl mirrored
  | snoc _ last ih => exact ih.trans (last.calm ih.mirrored)

/-- Whatever is logged adds no session to an index. Of the two logged session events only the
expiry closes a session. -/
theorem Transition.calm {e : ServerEvent} {op : WalOperation} {events : List WatchEvent}
    (h : Transition env st e (some op) events st') (mirrored : st.watchState.Mirrored)
    (lives : ∀ id, e ≠ .closeSession id) : st.Calm st' := by
  have next : st.Calm st.nextZxid := .of_same mirrored rfl (.refl _)
  cases h with
  | createSession timeoutMs =>
    refine ⟨mirrored, .refl _, fun id isOpen => ?_⟩
    exact (SessionState.isOpen_createSession timeoutMs env.now id).mpr (.inr isOpen)
  | closeSession ended => exact absurd rfl (lives _)
  | create checked done =>
    exact next.trans ((KeeperStorage.calm_of_create next.mirrored done).fired _ _ _)
  | createFails checked failed => exact next
  | set stored version done =>
    exact next.trans ((KeeperStorage.calm_of_set next.mirrored done).fired _ _ _)
  | delete checked done =>
    exact next.trans ((KeeperStorage.calm_of_delete next.mirrored done _).fired _ _ _)
  | deleteRoot checked root => exact next.fired _ _ _
  | multi path => exact next.trans (MultiRun.calm path mirrored)

end Steps

namespace KeeperServer
variable {recordBytes : LogRecord → ℕ} {s s' : KeeperServer recordBytes} {env : Env}

theorem Written.calm {xid : Int32} {id : SessionId} {req : Request} {op : WalOperation}
    {r : ApplyResult} (h : s.Written env xid id req op (.done r s'))
    (mirrored : s.storage.watchState.Mirrored) : s.storage.Calm s'.storage := by
  have logged {s₁ : KeeperServer recordBytes} {answer : Except WalError Unit}
      (hlog : s.log env op = (s₁, answer)) : s.storage.Calm s₁.storage := by
    have storage : s₁.storage = s.storage.nextZxid := by rw [← s.log_storage env op, hlog]
    rw [storage]
    exact .of_same mirrored rfl (.refl _)
  generalize ended : Exec.done r s' = result at h
  cases h with
  | refused bad =>
    cases ended
    exact .refl mirrored
  | unflushed appends failed =>
    cases ended
    exact logged failed
  | fails hlog move bad =>
    cases ended
    exact logged hlog
  | done hlog move ok names =>
    cases ended
    exact move.calm mirrored (fun _ => by simp)

theorem handleRead_watchMove {xid : Int32} {id : SessionId} {req : ReadRequest} {t : WatchType}
    {body : Node → ReplyBody} {r : ApplyResult} {request : Request}
    (same : request.watches = req.watch) (mirrored : s.storage.watchState.Mirrored)
    (done : s.handleRead xid req id t body = .done r s') :
    KeeperStorage.WatchMove env.orders s.storage s'.storage (.handle xid id request) := by
  have ends := s.handleRead_ends xid req id t body
  rw [done] at ends
  cases ends with
  | watching watch calm => exact .registered req.path t (same.trans watch) rfl
  | plain watch calm =>
    refine .quiet (fun abandons => ?_) (.refl mirrored)
    exact Bool.false_ne_true (watch.symm.trans (same.symm.trans abandons.1))

theorem MultiEnds.calm {xid : Int32} {id : SessionId} {ops : List MultiOp} {r : ApplyResult}
    (h : s.MultiEnds env xid id ops (.done r s')) (mirrored : s.storage.watchState.Mirrored) :
    s.storage.Calm s'.storage := by
  generalize ended : Exec.done r s' = result at h
  cases h with
  | completes path hlog =>
    cases ended
    have move : Transition env s.storage (.handle xid id _) _ _ _ := .multi path
    exact move.calm mirrored (fun _ => by simp)
  | aborts path hlog => cases ended
  | fails path fails =>
    cases ended
    exact .refl mirrored

/-- The inversion of a step. -/
theorem exec_watchMove (hk : s.storage.Kept) (mirrored : s.storage.watchState.Mirrored)
    {e : ServerEvent} {out : Output} (done : s.exec env e = .done out s') :
    KeeperStorage.WatchMove env.orders s.storage s'.storage e := by
  cases e with
  | createSession timeoutMs =>
    cases done
    have move : Transition env s.storage (.createSession timeoutMs) _ _ _ :=
      .createSession timeoutMs
    exact .quiet (fun h => h) (move.calm mirrored (fun _ => by simp))
  | closeSession id =>
    obtain ⟨-, ended⟩ := exec_closeSession done
    have covered : s.storage.nextZxid.Covered := hk.covered
    have watch : s'.storage.watchState = s.storage.nextZxid.watchState :=
      KeeperStorage.endSession_watchState ended
    exact .expired watch (hk.linked.nextZxid.endSession_spec covered ended).1
  | touch id =>
    cases done
    refine .quiet (fun h => h) ⟨mirrored, .refl _, fun id' isOpen => ?_⟩
    simp only [touchSession, SessionState.touchSession]
    split <;> exact isOpen
  | handle xid id req =>
    obtain ⟨r, -, handled⟩ := exec_handle done
    have silent (quiet : req.watches = false) : ¬ s.storage.AbandonsWatch (.handle xid id req) :=
      fun abandons => Bool.false_ne_true (quiet.symm.trans abandons.1)
    have written {op : WalOperation} (quiet : req.watches = false)
        (submits : (ServerEvent.handle xid id req).submits env.now = some op) :
        KeeperStorage.WatchMove env.orders s.storage s'.storage (.handle xid id req) := by
      have ends := s.handle_written env hk.linked submits
      rw [handled] at ends
      exact .quiet (silent quiet) (ends.calm mirrored)
    cases req with
    | create req => exact written rfl rfl
    | get req => exact handleRead_watchMove rfl mirrored handled
    | set req => exact written rfl rfl
    | remove req => exact written rfl rfl
    | heartbeat =>
      cases handled
      exact .quiet (silent rfl) (.refl mirrored)
    | simpleList req => exact handleRead_watchMove rfl mirrored handled
    | list req => exact handleRead_watchMove rfl mirrored handled
    | «exists» req => exact handleRead_watchMove rfl mirrored handled
    | close =>
      obtain ⟨st, ended, rfl⟩ := handle_close handled
      have watch := KeeperStorage.endSession_watchState ended
      exact .closed (by simp only [watch]) (hk.linked.endSession_spec hk.covered ended).1
    | multi ops =>
      have ends : s.MultiEnds env xid id ops (s.handleMulti env xid ops id) :=
        handleMulti_ends hk.linked xid ops id
      rw [show s.handleMulti env xid ops id = .done r s' from handled] at ends
      exact .quiet (silent rfl) (ends.calm mirrored)
    | rejected =>
      cases handled
      exact .quiet (silent rfl) (.refl mirrored)

/-- One step leaves every session in the indices open, exactly if it abandons no watch. -/
theorem exec_watchersOpen_iff (hk : s.storage.Kept) (mirrored : s.storage.watchState.Mirrored)
    (opens : s.storage.WatchersOpen) {e : ServerEvent} {out : Output}
    (done : s.exec env e = .done out s') :
    s'.storage.WatchersOpen ↔ ¬ s.storage.AbandonsWatch e := by
  have move := exec_watchMove hk mirrored done
  generalize s'.storage = st' at move ⊢
  cases move with
  | @registered xid id req path t watches after =>
    subst after
    constructor
    · intro opens' abandons
      exact abandons.2 (opens' id (s.storage.watchState.mentions_register id path t))
    · intro fine id' mentions
      have isOpen : s.storage.sessionState.IsOpen id := by
        by_contra shut
        exact fine ⟨watches, shut⟩
      by_cases here : id' = id
      · exact here ▸ isOpen
      · refine opens id' ((mirrored.mentions_iff id').mpr ?_)
        rw [← s.storage.watchState.key_register id path t here]
        exact ((mirrored.register id path t).mentions_iff id').mp mentions
  | @closed xid id cleared ended =>
    have shrinks := s.storage.watchState.shrinks_clear env.orders id
    refine iff_of_true (fun id' mentions => ?_) (fun abandons => Bool.false_ne_true abandons.1)
    rw [cleared] at mentions
    rw [ended, SessionState.isOpen_without]
    refine ⟨opens id' (shrinks.mentions mentions), ?_⟩
    rintro rfl
    exact mirrored.not_mentions_clear env.orders _ mentions
  | @expired id same ended =>
    constructor
    · intro opens' mentions
      have isOpen := opens' id (same.symm ▸ mentions)
      rw [ended, SessionState.isOpen_without] at isOpen
      exact isOpen.2 rfl
    · intro fine id' mentions
      rw [same] at mentions
      rw [ended, SessionState.isOpen_without]
      refine ⟨opens id' mentions, ?_⟩
      rintro rfl
      exact fine mentions
  | quiet harmless calm =>
    refine iff_of_true (fun id mentions => ?_) harmless
    exact calm.stays id (opens id (calm.fewer.mentions mentions))

theorem exec_mirrored (hk : s.storage.Kept) (mirrored : s.storage.watchState.Mirrored)
    {e : ServerEvent} {out : Output} (done : s.exec env e = .done out s') :
    s'.storage.watchState.Mirrored := by
  have move := exec_watchMove hk mirrored done
  generalize s'.storage = st' at move ⊢
  cases move with
  | registered path t watches after =>
    subst after
    exact mirrored.register _ path t
  | closed cleared ended =>
    rw [cleared]
    exact mirrored.clear env.orders _
  | expired same ended => exact same ▸ mirrored
  | quiet harmless calm => exact calm.mirrored

/-- A server that has just started knows no watch. -/
theorem new_watchState {dir : Segments LogRecord} {orders : ℕ → HashOrders}
    (h : new recordBytes dir orders = .ok s) : s.storage.watchState = .new :=
  (new_replays h).invariant (fun st => st.watchState = .new) rfl
    (fun _ _ _ same last => (KeeperStorage.Replays.watchState last).trans same)

/-- In every reachable state the reverse map lists every registration. -/
theorem Reachable.mirrored (h : Reachable s) : s.storage.watchState.Mirrored := by
  induction h with
  | started h => exact new_watchState h ▸ WatchState.new_mirrored
  | stepped init last ih =>
    obtain ⟨out, done⟩ := last
    exact exec_mirrored init.kept ih done

/-- The step of a run does not abandon a watch; a start has none to abandon. -/
def KeepsWatch (s : KeeperServer recordBytes) : Happening → Prop
  | .start _ _ => True
  | .serve _ e => ¬ s.storage.AbandonsWatch e

/-- Over any lifetimes, every session in a watch index is open in every state, exactly if no step
ends an expired session that has watches or makes a watch for a session that is not open. -/
theorem watchers_open_iff {hs : List Happening} (run : Run Evolves (initial recordBytes) hs s) :
    (∀ fs t, fs <+: hs → Run Evolves (initial recordBytes) fs t → t.storage.WatchersOpen) ↔
      ∀ fs h t, fs ++ [h] <+: hs → Run Evolves (initial recordBytes) fs t → t.KeepsWatch h := by
  have deterministic (s : KeeperServer recordBytes) (h : Happening)
      (u v : KeeperServer recordBytes) (hu : s.Evolves h u) (hv : s.Evolves h v) : u = v :=
    hu.deterministic hv
  have fresh (t : KeeperServer recordBytes) (none : t.storage.watchState = .new) :
      t.storage.WatchersOpen := by
    intro id mentions
    rw [none] at mentions
    exact absurd mentions (WatchState.not_mentions_new id)
  refine Run.all_states_iff_all_steps deterministic Reachable (fun t => t.storage.WatchersOpen)
    KeepsWatch initial_reachable (fresh _ rfl) ?_ ?_ run
  · exact fun t h u reachable last => last.reachable reachable
  · intro t h u reachable opens last
    cases h with
    | start dir orders => exact iff_of_true (fresh u (new_watchState last)) trivial
    | serve env e =>
      obtain ⟨out, done⟩ := last
      exact exec_watchersOpen_iff reachable.kept reachable.mirrored opens done

/-- The first session of a server watches the root. -/
theorem initial_watching : ∃ u v : KeeperServer (fun _ => 1),
    (initial _).Evolves (.serve (.working 0) (.createSession 5000)) u ∧
    u.Evolves (.serve (.working 1) (.handle 1 1 (.get ⟨"/", true⟩))) v ∧
    u.storage.sessionState.IsOpen 1 ∧ v.storage.watchState.Mentions 1 ∧
    v.storage.watchState.Mirrored := by
  obtain ⟨u, n, opened, stored, none⟩ := initial_createSession
  obtain ⟨r, watched, -⟩ := exec_get_watching (.working 1) 1 1 "/" (s := u)
  refine ⟨u, _, ⟨_, opened⟩, ⟨_, watched⟩, ?_,
    u.storage.watchState.mentions_register 1 "/" .watch, ?_⟩
  · cases opened
    exact ⟨5000, rfl⟩
  · have mirrored : u.storage.watchState.Mirrored := none ▸ WatchState.new_mirrored
    exact mirrored.register 1 "/" .watch

/-- An open session may watch what it likes. -/
theorem watchers_open_watching : ∃ s : KeeperServer (fun _ => 1),
    s.storage.watchState.Mentions 1 ∧ s.storage.WatchersOpen := by
  obtain ⟨u, v, opens, watches, isOpen, mentions, -⟩ := initial_watching
  have run := (Run.single opens).snoc watches
  refine ⟨v, mentions, (watchers_open_iff run).mpr ?_ _ _ (List.prefix_refl _) run⟩
  intro fs h t pre init
  match fs with
  | [] =>
    obtain ⟨rest, split⟩ := pre
    cases split
    exact fun abandons => abandons
  | [x] =>
    obtain ⟨rest, split⟩ := pre
    cases split
    have same : t = u := by
      have single : Run Evolves (initial _) ([] ++ [_]) t := init
      obtain ⟨t₀, start, last⟩ := single.snoc_split
      rw [start.nil_eq] at last
      exact last.deterministic opens
    exact fun abandons => abandons.2 (same ▸ isOpen)
  | x :: y :: fs =>
    have length := pre.length_le
    simp at length

/-- The watch of a session that expires stays behind. -/
theorem expiry_abandons_watch :
    ¬ ∀ hs (s : KeeperServer (fun _ => 1)), Run Evolves (initial _) hs s →
      s.storage.WatchersOpen := by
  intro all
  obtain ⟨u, v, opens, watches, -, mentions, mirrored⟩ := initial_watching
  have reachable : Reachable v := watches.reachable (opens.reachable initial_reachable)
  obtain ⟨out, done⟩ := step_next reachable.linked (.working 6000, .closeSession 1) rfl
  have expires : v.Evolves (.serve (.working 6000) (.closeSession 1)) _ := ⟨out, done⟩
  have watching := (Run.single opens).snoc watches
  exact (exec_watchersOpen_iff reachable.kept mirrored (all _ _ watching) done).mp
    (all _ _ (watching.snoc expires)) mentions

end KeeperServer
end TinyKeeper
