import TinyKeeper.KeeperServer.Sessions

/-! Expiry over restarts. A live server gives every open session a deadline; a restart gives none
to the sessions it finds open in its log, and no request can come from them any more. -/
namespace TinyKeeper
namespace SessionState
variable {s s' : SessionState}

/-- Exactly the open sessions have a deadline. -/
def Timed (s : SessionState) : Prop :=
  ∀ id, s.IsOpen id ↔ ∃ d, s.expiryQueue.sessionToExpiry.get id = some d

/-- What a step can do to the sessions. -/
inductive Move (now : Int) (s : SessionState) : SessionState → Prop
  | same {s' : SessionState} (h : s.SameSessions s') : Move now s s'
  | opened (timeoutMs : Int) : Move now s (s.createSession timeoutMs now).1
  | touched (id : SessionId) : Move now s (s.touchSession id now)
  | ended (id : SessionId) : Move now s (s.without id)

/-- What a replayed record can do to the sessions. -/
inductive ReplayMove (s : SessionState) : WalOperation → SessionState → Prop
  | same {op : WalOperation} {s' : SessionState} (h : s.SameSessions s')
      (opens : ∀ id timeoutMs, op ≠ .createSession id timeoutMs)
      (closes : ∀ id, op ≠ .closeSession id) : ReplayMove s op s'
  | restored (id : SessionId) (timeoutMs : Int) :
      ReplayMove s (.createSession id timeoutMs) (s.restoreSession id timeoutMs)
  | ended (id : SessionId) : ReplayMove s (.closeSession id) (s.without id)

theorem isOpen_createSession (timeoutMs now : Int) (id : SessionId) :
    (s.createSession timeoutMs now).1.IsOpen id ↔ id = s.nextSessionId ∨ s.IsOpen id := by
  unfold IsOpen createSession
  by_cases h : id = s.nextSessionId
  · simp [h]
  · simp [h]

theorem isOpen_restoreSession (id id' : SessionId) (timeoutMs : Int) :
    (s.restoreSession id timeoutMs).IsOpen id' ↔ id' = id ∨ s.IsOpen id' := by
  unfold IsOpen restoreSession
  by_cases h : id' = id
  · simp [h]
  · simp [h]

theorem Move.mirrored {now : Int} (h : s.Move now s') (hm : s.expiryQueue.Mirrored) :
    s'.expiryQueue.Mirrored := by
  cases h with
  | same h => exact h.deadlines ▸ hm
  | opened timeoutMs => exact SessionExpiryQueue.touch_mirrored hm _ _ _
  | touched id =>
    unfold touchSession
    split
    · exact SessionExpiryQueue.touch_mirrored hm _ _ _
    · exact hm
  | ended id => exact SessionExpiryQueue.remove_mirrored hm id

theorem Move.timed {now : Int} (h : s.Move now s') (timed : s.Timed) : s'.Timed := by
  intro id'
  cases h with
  | same h => rw [h.isOpen, h.deadlines, timed id']
  | opened timeoutMs =>
    rw [isOpen_createSession, timed id']
    simp only [createSession, SessionExpiryQueue.touch_get]
    split_ifs with here <;> simp [here]
  | touched id =>
    cases found : s.sessionAndTimeout.get id with
    | none =>
      rw [touchSession, found]
      exact timed id'
    | some timeoutMs =>
      rw [touchSession, found]
      simp only [SessionExpiryQueue.touch_get]
      split_ifs with here
      · subst here
        exact ⟨fun _ => ⟨_, rfl⟩, fun _ => ⟨timeoutMs, found⟩⟩
      · exact timed id'
  | ended id =>
    rw [isOpen_without, timed id']
    simp only [without, SessionExpiryQueue.remove_get]
    split_ifs with here <;> simp [here]

theorem ReplayMove.mirrored {op : WalOperation} (h : s.ReplayMove op s')
    (hm : s.expiryQueue.Mirrored) : s'.expiryQueue.Mirrored := by
  cases h with
  | same h => exact h.deadlines ▸ hm
  | restored id timeoutMs => exact hm
  | ended id => exact SessionExpiryQueue.remove_mirrored hm id

/-- A replay gives no session a deadline. -/
theorem ReplayMove.untimed {op : WalOperation} (h : s.ReplayMove op s') {id : SessionId}
    (none : s.expiryQueue.sessionToExpiry.get id = none) :
    s'.expiryQueue.sessionToExpiry.get id = .none := by
  cases h with
  | same h => rwa [h.deadlines]
  | restored id timeoutMs => exact none
  | ended id' =>
    rw [without, SessionExpiryQueue.remove_get]
    split_ifs
    · rfl
    · exact none

end SessionState

namespace KeeperStorage
variable {st st' : KeeperStorage}

theorem cleanup_sessionState {paths : List String} (h : st.cleanup paths = .ok st') :
    st'.sessionState = st.sessionState := by
  induction paths generalizing st with
  | nil =>
    cases h
    rfl
  | cons path paths ih =>
    rw [cleanup] at h
    cases done : st.delete path with
    | ok _ t =>
      rw [done] at h
      rw [ih h, delete_ok_sessionState done]
    | err _ =>
      rw [done] at h
      exact ih h
    | panic message =>
      rw [done] at h
      cases h

/-- A cleanup makes no owner. -/
theorem cleanup_ownerOf {paths : List String} (h : st.cleanup paths = .ok st') {p : String}
    {id : SessionId} (owner : st'.ownerOf p = some id) : st.ownerOf p = some id := by
  induction paths generalizing st with
  | nil =>
    cases h
    exact owner
  | cons path paths ih =>
    rw [cleanup] at h
    cases done : st.delete path with
    | ok _ t =>
      rw [done] at h
      have before := ih h
      rw [delete_ok_ownerOf done] at before
      split_ifs at before
      exact before
    | err _ =>
      rw [done] at h
      exact ih h
    | panic message =>
      rw [done] at h
      cases h

/-- A cleanup leaves none of its paths to an owner. -/
theorem Linked.cleanup_reaps {paths : List String} (hl : st.Linked)
    (h : st.cleanup paths = .ok st') {p : String} (mem : p ∈ paths) {id : SessionId}
    (hid : id ≠ 0) : st'.ownerOf p ≠ some id := by
  intro owner
  induction paths generalizing st with
  | nil => cases mem
  | cons path paths ih =>
    have before := cleanup_ownerOf h owner
    rw [KeeperStorage.cleanup] at h
    by_cases here : p = path
    · subst here
      obtain ⟨n, hn, ho⟩ := (st.ownerOf_eq_some p id).mp before
      obtain ⟨q, name, del⟩ := hl.deletable hn (ho ▸ hid)
      have done := hl.delete_ok del
      rw [done] at h
      have later := cleanup_ownerOf h owner
      rw [delete_ok_gone done] at later
      cases later
    · have mem : p ∈ paths := (List.mem_cons.mp mem).resolve_left here
      obtain ⟨q, name, hd, he⟩ | ⟨message, he, -⟩ := hl.delete_cases path
      · rw [he] at h
        exact ih (hl.afterDelete hd) h mem
      · rw [he] at h
        exact ih hl h mem

/-- What the end of a session does in any state: it drops the session and leaves it no node. -/
theorem Linked.endSession_spec (hl : st.Linked) (hc : st.Covered) {orders : HashOrders}
    {id : SessionId} (h : KeeperServer.endSession st orders id = .ok st') :
    st'.sessionState = st.sessionState.without id ∧
      (∀ id' p, st'.ownerOf p = some id' → st.ownerOf p = some id') ∧
      ∀ p, id ≠ 0 → st'.ownerOf p ≠ some id := by
  have dropped : Linked { st with sessionState := st.sessionState.without id } := hl.of_map rfl
  refine ⟨cleanup_sessionState h, fun id' p owner => cleanup_ownerOf h owner, fun p hid owner => ?_⟩
  have before : st.ownerOf p = some id := cleanup_ownerOf h owner
  have mem := (st.sessionState.mem_closeSession orders id p).mpr (hc id p hid before)
  exact dropped.cleanup_reaps h mem hid owner

theorem Linked.covered_endSession (hl : st.Linked) (hc : st.Covered) {orders : HashOrders}
    {id : SessionId} (h : KeeperServer.endSession st orders id = .ok st') : st'.Covered := by
  obtain ⟨sessions, owners, gone⟩ := hl.endSession_spec hc h
  intro id' p hid owner
  rw [sessions, SessionState.owns_without]
  refine ⟨hc id' p hid (owners id' p owner), ?_⟩
  rintro rfl
  exact gone p hid owner

theorem Covered.fired (hc : st.Covered) {orders : HashOrders} {path : String}
    {event : WatchEventType} : (st.fired orders path event).Covered := hc

end KeeperStorage

section Moves
variable {env : Env} {st st' : KeeperStorage} {sessionId : SessionId} {orders : HashOrders}

open SessionState in
theorem Transition.sessionMove {e : ServerEvent} {op : Option WalOperation}
    {events : List WatchEvent} (h : Transition env st e op events st') (hl : st.Linked)
    (hc : st.Covered) : st.sessionState.Move env.now st'.sessionState := by
  cases h with
  | createSession timeoutMs => exact .opened timeoutMs
  | @closeSession id _ ended =>
    have next : st.nextZxid.Covered := hc
    rw [(hl.nextZxid.endSession_spec next ended).1]
    exact .ended id
  | touch id => exact .touched id
  | unchanged => exact .same (.refl _)
  | unflushed failed => exact .same (.refl _)
  | create checked done => exact .same (KeeperStorage.create_ok_sameSessions done).fired
  | createFails checked failed => exact .same (.refl _)
  | set stored version done => exact .same (KeeperStorage.set_ok_sameSessions done).fired
  | delete checked done =>
    exact .same ((KeeperStorage.delete_ok_sameSessions done).trans
      (KeeperStorage.sameSessions_disowned _ _ _)).fired
  | deleteRoot checked root => exact .same (.refl _)
  | read path t => exact .same (.refl _)
  | @close xid id t ended =>
    have sessions := (hl.endSession_spec hc ended).1
    have same : ({ t with watchState := t.watchState.clear env.orders id }).sessionState =
      t.sessionState := rfl
    rw [same, sessions]
    exact .ended id
  | multi path => exact .same path.sameSessions

theorem MultiStep.covered {entry : MultiEntry} (h : MultiStep env sessionId st entry st')
    (hc : st.Covered) : st'.Covered := by
  cases h with
  | check => exact hc
  | set stored version done updated => exact (hc.set_ok done).fired
  | create done => exact (hc.create_ok done).fired
  | delete stored version done =>
    exact ((hc.delete_ok done).disowned _ (KeeperStorage.delete_ok_gone done)).fired

theorem Transition.covered {e : ServerEvent} {op : Option WalOperation}
    {events : List WatchEvent} (h : Transition env st e op events st') (hl : st.Linked)
    (hc : st.Covered) : st'.Covered := by
  have next : st.nextZxid.Covered := hc
  cases h with
  | createSession timeoutMs => exact hc
  | closeSession ended => exact hl.nextZxid.covered_endSession next ended
  | touch id =>
    simp only [SessionState.touchSession]
    split <;> exact hc
  | unchanged => exact hc
  | unflushed failed => exact hc
  | create checked done => exact (next.create_ok done).fired
  | createFails checked failed => exact hc
  | set stored version done => exact (next.set_ok done).fired
  | delete checked done =>
    exact ((next.delete_ok done).disowned _ (KeeperStorage.delete_ok_gone done)).fired
  | deleteRoot checked root => exact hc
  | read path t => exact hc
  | close ended =>
    have covered := hl.covered_endSession hc ended
    exact covered
  | multi path =>
    exact path.invariant KeeperStorage.Covered next (fun _ _ _ hc last => last.covered hc)

namespace KeeperStorage

theorem ReplayStep.sameSessions {timestamp : Int} {operation : MultiWalOperation}
    (h : ReplayStep timestamp sessionId st operation st') :
    st.sessionState.SameSessions st'.sessionState := by
  cases h with
  | create done => exact create_ok_sameSessions done
  | set done => exact set_ok_sameSessions done
  | delete stored done => exact (delete_ok_sameSessions done).trans (sameSessions_disowned _ _ _)

theorem ReplayStep.covered {timestamp : Int} {operation : MultiWalOperation}
    (h : ReplayStep timestamp sessionId st operation st') (hc : st.Covered) : st'.Covered := by
  cases h with
  | create done => exact hc.create_ok done
  | set done => exact hc.set_ok done
  | delete stored done => exact (hc.delete_ok done).disowned _ (delete_ok_gone done)

theorem Replays.sessionMove {op : WalOperation} (h : Replays orders st op st') :
    st.sessionState.ReplayMove op st'.sessionState := by
  cases h with
  | create done => exact .same (create_ok_sameSessions done) (by simp) (by simp)
  | set done => exact .same (set_ok_sameSessions done) (by simp) (by simp)
  | delete done => exact .same (delete_ok_sameSessions done) (by simp) (by simp)
  | createSession id timeoutMs => exact .restored id timeoutMs
  | @closeSession id _ deletes =>
    rw [cleanup_sessionState (cleanup_of_deletes deletes)]
    exact .ended id
  | multi path =>
    refine .same ?_ (by simp) (by simp)
    exact path.invariant (fun t => st.sessionState.SameSessions t.sessionState) (.refl _)
      (fun _ _ _ same last => same.trans last.sameSessions)

theorem Replays.covered {op : WalOperation} (h : Replays orders st op st') (hl : st.Linked)
    (hc : st.Covered) : st'.Covered := by
  cases h with
  | create done => exact hc.create_ok done
  | set done => exact hc.set_ok done
  | delete done => exact hc.delete_ok done
  | createSession id timeoutMs => exact hc
  | closeSession deletes => exact hl.covered_endSession hc (cleanup_of_deletes deletes)
  | multi path =>
    exact path.invariant Covered hc (fun _ _ _ hc last => last.covered hc)

end KeeperStorage
end Moves

/-- A session that was opened in the log and not closed afterwards. -/
def LeavesOpen (records : List LogRecord) (id : SessionId) : Prop :=
  ∃ before r after timeoutMs, records = before ++ r :: after ∧
    r.op = .createSession id timeoutMs ∧ ∀ later ∈ after, later.op ≠ .closeSession id

theorem leavesOpen_nil (id : SessionId) : ¬ LeavesOpen [] id := by
  rintro ⟨before, r, after, timeoutMs, split, -⟩
  simp at split

theorem leavesOpen_concat (records : List LogRecord) (r : LogRecord) (id : SessionId) :
    LeavesOpen (records ++ [r]) id ↔ (∃ timeoutMs, r.op = .createSession id timeoutMs) ∨
      (LeavesOpen records id ∧ r.op ≠ .closeSession id) := by
  constructor
  · rintro ⟨before, r', after, timeoutMs, split, opened, kept⟩
    obtain rfl | ⟨after, last, rfl⟩ := List.eq_nil_or_concat' after
    · obtain ⟨rfl, rfl⟩ := List.append_singleton_inj.mp split
      exact .inl ⟨timeoutMs, opened⟩
    · rw [← List.cons_append, ← List.append_assoc] at split
      obtain ⟨rfl, rfl⟩ := List.append_singleton_inj.mp split
      refine .inr ⟨⟨before, r', after, timeoutMs, rfl, opened, ?_⟩, kept r (by simp)⟩
      exact fun later mem => kept later (List.mem_append_left _ mem)
  · rintro (⟨timeoutMs, opened⟩ | ⟨⟨before, r', after, timeoutMs, rfl, opened, kept⟩, last⟩)
    · exact ⟨records, r, [], timeoutMs, rfl, opened, by simp⟩
    · refine ⟨before, r', after ++ [r], timeoutMs, by simp, opened, ?_⟩
      intro later mem
      obtain mem | mem := List.mem_append.mp mem
      · exact kept later mem
      · rw [List.mem_singleton.mp mem]
        exact last

theorem SessionState.ReplayMove.isOpen {s s' : SessionState} {op : WalOperation}
    (h : s.ReplayMove op s') (id : SessionId) : s'.IsOpen id ↔
      (∃ timeoutMs, op = .createSession id timeoutMs) ∨
        (s.IsOpen id ∧ op ≠ .closeSession id) := by
  cases h with
  | same same opens closes => simp [same.isOpen, opens, closes]
  | restored id' timeoutMs =>
    rw [isOpen_restoreSession]
    simp [eq_comm]
  | ended id' =>
    rw [isOpen_without]
    simp [eq_comm]

namespace KeeperStorage
variable {st st' : KeeperStorage}

/-- A replay leaves open what its records leave open. -/
theorem isOpen_replay {orders : ℕ → HashOrders} {records : List LogRecord}
    (h : Run (ReplaysRecord orders) st records st') (id : SessionId) :
    st'.sessionState.IsOpen id ↔ LeavesOpen records id ∨
      (st.sessionState.IsOpen id ∧ ∀ r ∈ records, r.op ≠ .closeSession id) := by
  induction h with
  | nil => simp [leavesOpen_nil]
  | @snoc records t r u _ last ih =>
    have counted : (t.setLastZxid r.index).sessionState = t.sessionState := rfl
    rw [(Replays.sessionMove last).isOpen id, counted, ih, leavesOpen_concat]
    simp only [List.mem_append, List.mem_singleton, or_imp, forall_and, forall_eq]
    rw [or_and_right, and_assoc, or_assoc]

/-- What every state of a server keeps, across restarts. -/
structure Kept (st : KeeperStorage) : Prop where
  linked : st.Linked
  covered : st.Covered
  mirrored : st.sessionState.expiryQueue.Mirrored

theorem new_kept (intervalMs : Int) : (new intervalMs).Kept :=
  ⟨new_linked intervalMs, (new_indexed intervalMs).covered,
    SessionExpiryQueue.new_mirrored intervalMs⟩

theorem Kept.replaysRecord {orders : ℕ → HashOrders} {r : LogRecord} (hk : st.Kept)
    (h : ReplaysRecord orders st r st') : st'.Kept := by
  have counted : (st.setLastZxid r.index).Linked := hk.linked.of_map rfl
  have covered : (st.setLastZxid r.index).Covered := hk.covered
  exact ⟨h.linked hk.linked, Replays.covered h counted covered,
    (Replays.sessionMove h).mirrored hk.mirrored⟩

end KeeperStorage

theorem Transition.kept {env : Env} {st st' : KeeperStorage} {e : ServerEvent}
    {op : Option WalOperation} {events : List WatchEvent} (h : Transition env st e op events st')
    (hk : st.Kept) : st'.Kept :=
  ⟨h.linked hk.linked, h.covered hk.linked hk.covered,
    (h.sessionMove hk.linked hk.covered).mirrored hk.mirrored⟩

namespace KeeperServer
variable {recordBytes : LogRecord → ℕ} {s s' : KeeperServer recordBytes}

/-- The records of a log directory. -/
def recordsIn (recordBytes : LogRecord → ℕ) (dir : Segments LogRecord) : List LogRecord :=
  (WalStore.replaySegments (LogRecord.format recordBytes) dir.entries).1

/-- A server that has just started is what the replay of its log leaves. -/
theorem new_replays {dir : Segments LogRecord} {orders : ℕ → HashOrders}
    (h : new recordBytes dir orders = .ok s) :
    Run (KeeperStorage.ReplaysRecord orders) (.new 500) (recordsIn recordBytes dir) s.storage := by
  obtain ⟨opened, -, replayed⟩ := new_eq_ok h
  rw [WalStore.replay_of_open (LogRecord.format_lawful recordBytes) opened] at replayed
  exact KeeperStorage.replayAll_iff.mp replayed

theorem Reachable.kept (h : Reachable s) : s.storage.Kept := by
  induction h with
  | started h =>
    exact (new_replays h).invariant KeeperStorage.Kept (KeeperStorage.new_kept 500)
      (fun _ _ _ hk last => hk.replaysRecord last)
  | stepped _ last ih =>
    obtain ⟨out, op, -, move, -⟩ := last.transition ih.linked
    exact move.kept ih

/-- Every open session has a deadline, and no other session has one; once the deadline is past,
the session is reported as expired and its end leaves it no node. -/
structure SessionsExpire (s : KeeperServer recordBytes) : Prop where
  timed : s.storage.sessionState.Timed
  expire : ∀ id, s.storage.sessionState.IsOpen id → ∃ d, ∀ env : Env, d ≤ env.now →
    id ∈ s.getExpiredSessions env ∧
    ∃ s', s.closeSession env id = .done () s' ∧ ∀ p, id ≠ 0 → s'.storage.ownerOf p ≠ some id

theorem sessionsExpire_of_timed (hk : s.storage.Kept) (timed : s.storage.sessionState.Timed) :
    s.SessionsExpire := by
  refine ⟨timed, fun id isOpen => ?_⟩
  obtain ⟨d, hd⟩ := (timed id).mp isOpen
  refine ⟨d, fun env passed => ⟨?_, ?_⟩⟩
  · exact (SessionExpiryQueue.mem_getExpired hk.mirrored _ _ _).mpr ⟨d, hd, passed⟩
  · have next : s.storage.nextZxid.Covered := hk.covered
    obtain ⟨st', ended, -⟩ := hk.linked.nextZxid.endSession env.orders id
    refine ⟨⟨st', (s.log env (.closeSession id)).1.wal⟩, ?_,
      fun p hid => (hk.linked.nextZxid.endSession_spec next ended).2.2 p hid⟩
    rw [closeSession]
    simp only [log_storage, ended]

/-- What happens to a server over its lifetimes: it is started on the log it finds, which may be
any, or takes a step. -/
inductive Happening
  | start (dir : Segments LogRecord) (orders : ℕ → HashOrders)
  | serve (env : Env) (e : ServerEvent)

def Evolves (s : KeeperServer recordBytes) : Happening → KeeperServer recordBytes → Prop
  | .start dir orders, s' => new recordBytes dir orders = .ok s'
  | .serve env e, s' => s.Step (env, e) s'

/-- The start finds no session open in its log. -/
def FindsNoSession (recordBytes : LogRecord → ℕ) : Happening → Prop
  | .start dir _ => ∀ id, ¬ LeavesOpen (recordsIn recordBytes dir) id
  | .serve _ _ => True

theorem Evolves.reachable {h : Happening} (hr : Reachable s) (last : s.Evolves h s') :
    Reachable s' := by
  cases h with
  | start dir orders => exact .started last
  | serve env e => exact .stepped hr last

theorem Evolves.deterministic {h : Happening} {u v : KeeperServer recordBytes}
    (hu : s.Evolves h u) (hv : s.Evolves h v) : u = v := by
  cases h with
  | start dir orders => exact Except.ok.inj (hu.symm.trans hv)
  | serve env e => exact (Step.eq_next hu).trans (Step.eq_next hv).symm

/-- A fresh start gives no session a deadline, so its sessions all have one only if it has no
session. -/
theorem timed_of_start {dir : Segments LogRecord} {orders : ℕ → HashOrders}
    (h : new recordBytes dir orders = .ok s) :
    s.storage.sessionState.Timed ↔ ∀ id, ¬ LeavesOpen (recordsIn recordBytes dir) id := by
  have replayed := new_replays h
  have none (id : SessionId) : s.storage.sessionState.expiryQueue.sessionToExpiry.get id = none :=
    replayed.invariant
      (fun st => st.sessionState.expiryQueue.sessionToExpiry.get id = none) rfl
      (fun _ _ _ none last =>
        SessionState.ReplayMove.untimed (KeeperStorage.Replays.sessionMove last) none)
  have fresh (id : SessionId) : ¬ (KeeperStorage.new 500).sessionState.IsOpen id := by
    rintro ⟨t, ht⟩
    cases ht
  have isOpen (id : SessionId) : s.storage.sessionState.IsOpen id ↔
      LeavesOpen (recordsIn recordBytes dir) id := by
    rw [KeeperStorage.isOpen_replay replayed id]
    simp [fresh id]
  simp [SessionState.Timed, none, isOpen]

theorem Evolves.sessionsExpire_iff {h : Happening} (hr : Reachable s) (expire : s.SessionsExpire)
    (last : s.Evolves h s') : s'.SessionsExpire ↔ FindsNoSession recordBytes h := by
  have kept := (last.reachable hr).kept
  cases h with
  | start dir orders =>
    rw [FindsNoSession, ← timed_of_start last]
    exact ⟨SessionsExpire.timed, sessionsExpire_of_timed kept⟩
  | serve env e =>
    refine iff_of_true (sessionsExpire_of_timed kept ?_) trivial
    obtain ⟨out, op, -, move, -⟩ := Step.transition last hr.linked
    exact (move.sessionMove hr.linked hr.kept.covered).timed expire.timed

theorem initial_sessionsExpire : (initial recordBytes).SessionsExpire := by
  refine sessionsExpire_of_timed initial_reachable.kept fun id => ?_
  constructor
  · rintro ⟨t, ht⟩
    cases ht
  · rintro ⟨d, hd⟩
    cases hd

/-- Over any lifetimes, every open session can expire in every state, exactly if no start finds a
session open in its log. -/
theorem sessions_expire_iff {hs : List Happening}
    (run : Run Evolves (initial recordBytes) hs s) :
    (∀ fs t, fs <+: hs → Run Evolves (initial recordBytes) fs t → t.SessionsExpire) ↔
      ∀ h ∈ hs, FindsNoSession recordBytes h := by
  have deterministic (s : KeeperServer recordBytes) (h : Happening)
      (u v : KeeperServer recordBytes) (hu : s.Evolves h u) (hv : s.Evolves h v) : u = v :=
    hu.deterministic hv
  refine (Run.all_states_iff_all_steps deterministic Reachable SessionsExpire
    (fun _ h => FindsNoSession recordBytes h) initial_reachable initial_sessionsExpire
    (fun _ _ _ hr last => last.reachable hr)
    (fun _ _ _ hr expire last => last.sessionsExpire_iff hr expire) run).trans ?_
  constructor
  · intro all h mem
    obtain ⟨fs, rest, rfl⟩ := List.append_of_mem mem
    obtain ⟨t, init, -⟩ := run.append_split
    exact all fs h t ⟨rest, by simp⟩ init
  · intro all fs h t pre _
    exact all h (pre.subset (by simp))

/-- Without a restart a new session can expire. -/
theorem sessions_expire_created :
    ∃ s : KeeperServer (fun _ => 1), s.storage.sessionState.IsOpen 1 ∧ s.SessionsExpire := by
  let opened := (initial fun _ => 1).next (.working 0, .createSession 5000)
  have serves : (initial fun _ => 1).Evolves (.serve (.working 0) (.createSession 5000)) opened :=
    step_next initial_reachable.linked _ rfl
  have run := Run.single serves
  refine ⟨opened, ⟨5000, rfl⟩, (sessions_expire_iff run).mpr ?_ _ _ (List.prefix_refl _) run⟩
  rintro h mem
  rw [List.mem_singleton.mp mem]
  trivial

/-- A session that was open at a restart is never reported as expired again. -/
theorem restored_session_immortal :
    ¬ ∀ hs (s : KeeperServer (fun _ => 1)), Run Evolves (initial _) hs s → s.SessionsExpire := by
  intro all
  let opened := (initial fun _ => 1).next (.working 0, .createSession 5000)
  have serves : (initial fun _ => 1).Evolves (.serve (.working 0) (.createSession 5000)) opened :=
    step_next initial_reachable.linked _ rfl
  obtain ⟨s, started⟩ : ∃ s, new (fun _ => 1) opened.wal.segments
      (fun _ => ⟨.choice, .choice, .choice⟩) = .ok s := ⟨_, rfl⟩
  have restarts : opened.Evolves (.start opened.wal.segments _) s := started
  have timed := (all _ _ ((Run.single serves).snoc restarts)).timed
  refine (timed_of_start started).mp timed 1 ⟨[], ⟨1, .createSession 1 5000⟩, [], 5000, rfl, rfl, ?_⟩
  simp

end KeeperServer
end TinyKeeper
