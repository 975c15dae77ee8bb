import TinyKeeper.KeeperServer.SessionIds

/-! The background loop that closes expired sessions. It reads the list of expired sessions under
one lock and closes them one by one under others, so that requests come between the two. -/
namespace TinyKeeper

/-- A deadline is the timeout away or later, whatever the rounding does. -/
theorem SessionExpiryQueue.le_bucketKey {intervalMs : Int} (positive : 0 < intervalMs)
    (timeoutMs now : Int) : now + timeoutMs ≤ bucketKey intervalMs timeoutMs now := by
  unfold bucketKey
  have split := Int.mul_tdiv_add_tmod (now + timeoutMs + intervalMs - 1) intervalMs
  have small := Int.tmod_lt_of_pos (now + timeoutMs + intervalMs - 1) positive
  rw [Int.mul_comm] at split
  omega

/-- Requests of sessions, with the times at which they were applied. -/
abbrev Requests := List (SessionId × Int)

namespace SessionState
variable {s s' : SessionState}

/-- The deadline of an open session is no sooner than any of its requests allows. -/
def Refreshed (s : SessionState) (requests : Requests) : Prop :=
  ∀ id timeoutMs t, s.sessionAndTimeout.get id = some timeoutMs → (id, t) ∈ requests →
    ∃ d, s.expiryQueue.sessionToExpiry.get id = some d ∧ t + timeoutMs ≤ d

/-- The sessions that are open or have a deadline are among those that were issued. -/
structure Counted (s : SessionState) : Prop where
  opened : ∀ id, s.IsOpen id → id < s.nextSessionId
  timed : ∀ id d, s.expiryQueue.sessionToExpiry.get id = some d → id < s.nextSessionId
  interval : 0 < s.expiryQueue.intervalMs

theorem Refreshed.touched {requests : Requests} (h : s.Refreshed requests) {now : Int}
    (past : ∀ r ∈ requests, r.2 ≤ now) (hc : s.Counted) (id : SessionId) :
    (s.touchSession id now).Refreshed (requests ++ [(id, now)]) := by
  intro id' timeoutMs t found mem
  rw [sessionAndTimeout_touchSession] at found
  by_cases here : id' = id
  · subst here
    have late := SessionExpiryQueue.le_bucketKey hc.interval timeoutMs now
    simp only [touchSession, found]
    refine ⟨_, (SessionExpiryQueue.touch_get _ _ _ _ _).trans (if_pos rfl), ?_⟩
    obtain mem | mem := List.mem_append.mp mem
    · have le : t ≤ now := past _ mem
      omega
    · cases List.mem_singleton.mp mem
      exact late
  · have mem : (id', t) ∈ requests := by
      simpa [here] using mem
    obtain ⟨d, hd, le⟩ := h id' timeoutMs t found mem
    refine ⟨d, ?_, le⟩
    unfold touchSession
    split
    · rw [SessionExpiryQueue.touch_get, if_neg here, hd]
    · exact hd

/-- A step keeps the deadlines no sooner than the requests before it allow. -/
theorem Move.refreshed {now : Int} (move : s.Move now s') {requests : Requests}
    (h : s.Refreshed requests) (past : ∀ r ∈ requests, r.2 ≤ now) (hc : s.Counted) :
    s'.Refreshed requests := by
  cases move with
  | same same =>
    intro id timeoutMs t found mem
    rw [same.sessions] at found
    rw [same.deadlines]
    exact h id timeoutMs t found mem
  | opened timeoutMs =>
    intro id timeoutMs' t found mem
    simp only [createSession, Table.get_insert, SessionExpiryQueue.touch_get] at found ⊢
    by_cases here : id = s.nextSessionId
    · rw [if_pos here] at found ⊢
      cases found
      have le : t ≤ now := past _ mem
      have late := SessionExpiryQueue.le_bucketKey hc.interval timeoutMs now
      exact ⟨_, rfl, by omega⟩
    · rw [if_neg here] at found ⊢
      exact h id timeoutMs' t found mem
  | touched id =>
    intro id' timeoutMs t found mem
    exact h.touched past hc id id' timeoutMs t found (List.mem_append_left _ mem)
  | ended id =>
    intro id' timeoutMs t found mem
    simp only [without, Table.get_remove, SessionExpiryQueue.remove_get] at found ⊢
    by_cases here : id' = id
    · rw [if_pos here] at found
      cases found
    · rw [if_neg here] at found ⊢
      exact h id' timeoutMs t found mem

/-- A session that was issued before and is open now was open before, with the same timeout. -/
theorem Move.still_open {now : Int} (move : s.Move now s') {id : SessionId} {timeoutMs : Int}
    (issued : id < s.nextSessionId) (found : s'.sessionAndTimeout.get id = some timeoutMs) :
    s.sessionAndTimeout.get id = some timeoutMs := by
  cases move with
  | same same => rwa [same.sessions] at found
  | opened timeoutMs' =>
    simp only [createSession, Table.get_insert] at found
    rwa [if_neg issued.ne] at found
  | touched id' => rwa [sessionAndTimeout_touchSession] at found
  | ended id' =>
    simp only [without, Table.get_remove] at found
    split_ifs at found
    exact found

theorem Move.counted {now : Int} (move : s.Move now s') (h : s.Counted) : s'.Counted := by
  cases move with
  | same same =>
    refine ⟨fun id opened => ?_, fun id d timed => ?_, ?_⟩
    · rw [same.nextId]
      exact h.opened id ((same.isOpen id).mp opened)
    · rw [same.deadlines] at timed
      rw [same.nextId]
      exact h.timed id d timed
    · rw [same.deadlines]
      exact h.interval
  | opened timeoutMs =>
    have next : (s.createSession timeoutMs now).1.nextSessionId = s.nextSessionId + 1 := rfl
    refine ⟨fun id opened => ?_, fun id d timed => ?_, h.interval⟩
    · rw [next]
      obtain rfl | opened := (isOpen_createSession _ _ _).mp opened
      · exact Int.lt_succ _
      · exact (h.opened id opened).trans (Int.lt_succ _)
    · rw [next]
      simp only [createSession, SessionExpiryQueue.touch_get] at timed
      split_ifs at timed with here
      · rw [here]
        exact Int.lt_succ _
      · exact (h.timed id d timed).trans (Int.lt_succ _)
  | touched id =>
    cases found : s.sessionAndTimeout.get id with
    | none =>
      rw [touchSession, found]
      exact h
    | some timeoutMs =>
      rw [touchSession, found]
      refine ⟨h.opened, fun id' d timed => ?_, h.interval⟩
      simp only [SessionExpiryQueue.touch_get] at timed
      split_ifs at timed with here
      · rw [here]
        exact h.opened id ⟨timeoutMs, found⟩
      · exact h.timed id' d timed
  | ended id =>
    refine ⟨fun id' opened => ?_, fun id' d timed => ?_, ?_⟩
    · exact h.opened id' ((isOpen_without _ _ _).mp opened).1
    · simp only [without, SessionExpiryQueue.remove_get] at timed
      split_ifs at timed
      exact h.timed id' d timed
    · simp only [without, SessionExpiryQueue.remove]
      split <;> exact h.interval

theorem ReplayMove.counted {op : WalOperation} (move : s.ReplayMove op s') (h : s.Counted) :
    s'.Counted := by
  have above := move.nextId
  cases move with
  | same same opens closes =>
    have move : s.Move 0 s' := .same same
    exact move.counted h
  | restored id timeoutMs =>
    refine ⟨fun id' opened => ?_, fun id' d timed => ?_, h.interval⟩
    · obtain rfl | opened := (isOpen_restoreSession _ _ _).mp opened
      · exact above.2 _ _ rfl
      · exact (h.opened id' opened).trans_le above.1
    · exact (h.timed id' d timed).trans_le above.1
  | ended id =>
    have move : s.Move 0 (s.without id) := .ended id
    exact move.counted h

end SessionState

/-- The request that a step of the server applies; its time is the one that refreshes the session's
deadline. -/
def ServerEvent.applied (now : Int) : ServerEvent → Requests
  | .touch id => [(id, now)]
  | _ => []

/-- A server, its clock, and the loop: the expired sessions still to be closed, and the requests
that were applied before and since the list was read. -/
structure ExpiryLoop (recordBytes : LogRecord → ℕ) where
  server : KeeperServer recordBytes
  clock : Int
  listed : List SessionId
  before : Requests
  since : Requests

namespace ExpiryLoop
variable {recordBytes : LogRecord → ℕ}

inductive Action
  | serve (env : Env) (e : ServerEvent)
  | read (env : Env)
  | close (env : Env)

/-- Any step for the clients, or the next step of the loop. The clock never goes back. -/
inductive Step (l : ExpiryLoop recordBytes) : Action → ExpiryLoop recordBytes → Prop
  | serve {env : Env} {e : ServerEvent} {server : KeeperServer recordBytes}
      (later : l.clock ≤ env.now) (client : ∀ id, e ≠ .closeSession id)
      (step : l.server.Step (env, e) server) :
      Step l (.serve env e) ⟨server, env.now, l.listed, l.before, l.since ++ e.applied env.now⟩
  | read {env : Env} (later : l.clock ≤ env.now) (idle : l.listed = []) :
      Step l (.read env)
        ⟨l.server, env.now, l.server.getExpiredSessions env, l.before ++ l.since, []⟩
  | close {env : Env} {id : SessionId} {rest : List SessionId} {server : KeeperServer recordBytes}
      (later : l.clock ≤ env.now) (next : l.listed = id :: rest)
      (closed : l.server.Step (env, .closeSession id) server) :
      Step l (.close env) ⟨server, env.now, rest, l.before, l.since⟩

/-- The server has just started, on whatever log it found. -/
structure Started (l : ExpiryLoop recordBytes) : Prop where
  server : ∃ dir orders, KeeperServer.new recordBytes dir orders = .ok l.server
  idle : l.listed = []
  silent : l.before = [] ∧ l.since = []

/-- No request of the session that is closed next, if it is open, was applied within its
timeout. -/
def ClosesInactive (l : ExpiryLoop recordBytes) (now : Int) : Prop :=
  ∀ id timeoutMs t, l.listed.head? = some id →
    l.server.storage.sessionState.sessionAndTimeout.get id = some timeoutMs →
    (id, t) ∈ l.before ++ l.since → t + timeoutMs ≤ now

/-- The same of the requests that came after the list was read. -/
def WindowQuiet (l : ExpiryLoop recordBytes) (now : Int) : Prop :=
  ∀ id timeoutMs t, l.listed.head? = some id →
    l.server.storage.sessionState.sessionAndTimeout.get id = some timeoutMs →
    (id, t) ∈ l.since → t + timeoutMs ≤ now

/-- What every state of the loop keeps. -/
structure Watched (l : ExpiryLoop recordBytes) : Prop where
  kept : l.server.storage.Kept
  counted : l.server.storage.sessionState.Counted
  past : ∀ r ∈ l.before ++ l.since, r.2 ≤ l.clock
  refreshed : l.server.storage.sessionState.Refreshed (l.before ++ l.since)
  issued : ∀ id ∈ l.listed, id < l.server.storage.sessionState.nextSessionId
  expired : ∀ id ∈ l.listed, ∀ timeoutMs t,
    l.server.storage.sessionState.sessionAndTimeout.get id = some timeoutMs →
    (id, t) ∈ l.before → t + timeoutMs ≤ l.clock

variable {l l' l₀ : ExpiryLoop recordBytes}

theorem Started.watched (h : l.Started) : l.Watched := by
  obtain ⟨dir, orders, started⟩ := h.server
  have kept : l.server.storage.Kept := (KeeperServer.Reachable.started started).kept
  have counted : l.server.storage.sessionState.Counted := by
    refine (KeeperServer.new_replays started).invariant
      (fun st => st.sessionState.Counted) ⟨?_, ?_, by decide⟩
      (fun _ _ _ counted last =>
        (KeeperStorage.Replays.sessionMove last).counted ⟨counted.1, counted.2, counted.3⟩)
    · rintro id ⟨t, ht⟩
      cases ht
    · intro id d hd
      cases hd
  obtain ⟨before, since⟩ := h.silent
  refine ⟨kept, counted, ?_, ?_, ?_, ?_⟩
  · simp [before, since]
  · intro id timeoutMs t _ mem
    simp [before, since] at mem
  · simp [h.idle]
  · simp [h.idle]

/-- What a step of the server keeps; a session that it opens is none of those listed. -/
theorem Watched.moved (h : l.Watched) {now : Int} (later : l.clock ≤ now)
    {server : KeeperServer recordBytes} (kept : server.storage.Kept)
    (move : l.server.storage.sessionState.Move now server.storage.sessionState) :
    (⟨server, now, l.listed, l.before, l.since⟩ : ExpiryLoop recordBytes).Watched := by
  have past : ∀ r ∈ l.before ++ l.since, r.2 ≤ now := fun r mem => (h.past r mem).trans later
  refine ⟨kept, move.counted h.counted, past, move.refreshed h.refreshed past h.counted, ?_, ?_⟩
  · exact fun id mem => (h.issued id mem).trans_le move.nextId_le
  · intro id mem timeoutMs t found applied
    refine (h.expired id mem timeoutMs t (move.still_open (h.issued id mem) found) applied).trans ?_
    exact later

theorem Watched.step {a : Action} (h : l.Watched) (step : l.Step a l') : l'.Watched := by
  cases step with
  | @serve env e server later client step =>
    obtain ⟨out, op, -, transition, -⟩ := step.transition h.kept.linked
    have move := transition.sessionMove h.kept.linked h.kept.covered
    have moved := h.moved later (transition.kept h.kept) move
    cases e with
    | touch id =>
      obtain ⟨_, done⟩ := step
      cases done
      have past : ∀ r ∈ l.before ++ l.since, r.2 ≤ env.now :=
        fun r mem => (h.past r mem).trans later
      refine ⟨moved.kept, moved.counted, ?_, ?_, moved.issued, moved.expired⟩
      · intro r mem
        rw [← List.append_assoc] at mem
        obtain mem | mem := List.mem_append.mp mem
        · exact past r mem
        · rw [List.mem_singleton.mp mem]
      · simp only [← List.append_assoc]
        exact h.refreshed.touched past h.counted id
    | createSession timeoutMs => simpa [ServerEvent.applied] using moved
    | closeSession id => exact absurd rfl (client id)
    | handle xid id req => simpa [ServerEvent.applied] using moved
  | @read env later idle =>
    have mirrored := h.kept.mirrored
    refine ⟨h.kept, h.counted, ?_, ?_, ?_, ?_⟩
    · simp only [List.append_nil]
      exact fun r mem => (h.past r mem).trans later
    · simpa using h.refreshed
    · intro id mem
      obtain ⟨d, hd, -⟩ := (SessionExpiryQueue.mem_getExpired mirrored _ _ _).mp mem
      exact h.counted.timed id d hd
    · intro id mem timeoutMs t found applied
      obtain ⟨d, hd, passed⟩ := (SessionExpiryQueue.mem_getExpired mirrored _ _ _).mp mem
      obtain ⟨d', hd', le⟩ := h.refreshed id timeoutMs t found applied
      cases hd.symm.trans hd'
      exact le.trans passed
  | @close env id rest server later next closed =>
    obtain ⟨out, op, -, transition, -⟩ := closed.transition h.kept.linked
    have moved := h.moved later (transition.kept h.kept)
      (transition.sessionMove h.kept.linked h.kept.covered)
    have sub (id' : SessionId) (mem : id' ∈ rest) : id' ∈ l.listed := by
      rw [next]
      exact List.mem_cons_of_mem id mem
    exact ⟨moved.kept, moved.counted, moved.past, moved.refreshed,
      fun id' mem => moved.issued id' (sub id' mem), fun id' mem => moved.expired id' (sub id' mem)⟩

/-- A listed session had no request within its timeout when the list was read, so that only those
that came later count. -/
theorem Watched.closesInactive_iff (h : l.Watched) {now : Int} (later : l.clock ≤ now) :
    l.ClosesInactive now ↔ l.WindowQuiet now := by
  constructor
  · intro inactive id timeoutMs t next found mem
    exact inactive id timeoutMs t next found (List.mem_append_right _ mem)
  · intro quiet id timeoutMs t next found mem
    obtain mem | mem := List.mem_append.mp mem
    · have listed : id ∈ l.listed := List.mem_of_mem_head? next
      exact (h.expired id listed timeoutMs t found mem).trans later
    · exact quiet id timeoutMs t next found mem

/-- In every run the loop closes none but inactive sessions exactly if no session gets a request,
still within its timeout at the close, after the list was read that it stands in. -/
theorem expiry_spares_active_iff (started : l₀.Started) (as : List Action) :
    (∀ bs env t u, bs ++ [.close env] <+: as → Run Step l₀ bs t → t.Step (.close env) u →
        t.ClosesInactive env.now) ↔
      ∀ bs env t u, bs ++ [.close env] <+: as → Run Step l₀ bs t → t.Step (.close env) u →
        t.WindowQuiet env.now := by
  have exact_close {bs : List Action} {env : Env} {t u : ExpiryLoop recordBytes}
      (init : Run Step l₀ bs t) (close : t.Step (.close env) u) :
      t.ClosesInactive env.now ↔ t.WindowQuiet env.now := by
    have watched := init.invariant Watched started.watched (fun _ _ _ h last => h.step last)
    cases close with
    | close later next closed => exact watched.closesInactive_iff later
  constructor
  · intro all bs env t u pre init close
    exact (exact_close init close).mp (all bs env t u pre init close)
  · intro all bs env t u pre init close
    exact (exact_close init close).mpr (all bs env t u pre init close)

/-- The state of a server that has just been set up, at time 0. -/
def initial (recordBytes : LogRecord → ℕ) : ExpiryLoop recordBytes :=
  ⟨.initial recordBytes, 0, [], [], []⟩

theorem initial_started : (initial recordBytes).Started :=
  ⟨⟨_, _, KeeperServer.new_empty fun _ => ⟨.choice, .choice, .choice⟩⟩, rfl, rfl, rfl⟩

/-- A session that is opened at time 0 is in the list that is read at time 5000. -/
theorem exists_listed :
    ∃ opened : KeeperServer fun _ => 1, opened.Reachable ∧
      opened.storage.sessionState.sessionAndTimeout.get 1 = some 5000 ∧
      Run Step (initial _) [.serve (.working 0) (.createSession 5000), .read (.working 5000)]
        ⟨opened, 5000, [1], [], []⟩ := by
  let opened := (KeeperServer.initial fun _ => 1).next (.working 0, .createSession 5000)
  have opens : (KeeperServer.initial fun _ => 1).Step (.working 0, .createSession 5000) opened :=
    KeeperServer.step_next KeeperServer.initial_reachable.linked _ rfl
  have listed : opened.getExpiredSessions (.working 5000) = [1] := by
    have bucket : opened.getExpiredSessions (.working 5000) =
        (insert 1 ∅ : Finset SessionId).toList ++ [] := rfl
    rw [bucket, List.append_nil, insert_empty_eq, Finset.toList_singleton]
  have serves : (initial _).Step (.serve (.working 0) (.createSession 5000))
      ⟨opened, 0, [], [], []⟩ := .serve (Int.le_refl 0) (by simp) opens
  have reads : Step ⟨opened, 0, [], [], []⟩ (.read (.working 5000))
      ⟨opened, 5000, opened.getExpiredSessions (.working 5000), [], []⟩ :=
    .read (show (0 : Int) ≤ 5000 by decide) rfl
  rw [listed] at reads
  exact ⟨opened, .stepped KeeperServer.initial_reachable opens, rfl, (Run.single serves).snoc reads⟩

/-- A session without requests is closed when it has expired. -/
theorem expiry_spares_active_silent :
    ∃ t u : ExpiryLoop fun _ => 1,
      Run Step (initial _) [.serve (.working 0) (.createSession 5000), .read (.working 5000)] t ∧
      t.Step (.close (.working 5000)) u ∧ t.ClosesInactive 5000 := by
  obtain ⟨opened, reachable, -, run⟩ := exists_listed
  have closes : Step ⟨opened, 5000, [1], [], []⟩ (.close (.working 5000)) _ :=
    .close (Int.le_refl 5000) rfl
      (KeeperServer.step_next reachable.linked (.working 5000, .closeSession 1) rfl)
  refine ⟨_, _, run, closes, ?_⟩
  refine (expiry_spares_active_iff initial_started [.serve (.working 0) (.createSession 5000),
    .read (.working 5000), .close (.working 5000)]).mpr ?_ _ _ _ _ (List.prefix_refl _) run closes
  intro bs env t u pre init close id timeoutMs t' next found mem
  obtain rfl : bs = [.serve (.working 0) (.createSession 5000), .read (.working 5000)] := by
    obtain _ | ⟨a, _ | ⟨b, _ | ⟨c, bs⟩⟩⟩ := bs <;> simp_all
  have split : Run Step _ ([_] ++ [.read (.working 5000)]) t := init
  obtain ⟨v, -, last⟩ := split.snoc_split
  cases last
  cases mem

/-- A session is closed though a request of it has just been applied. -/
theorem active_session_closed :
    ¬ ∀ (l₀ l u : ExpiryLoop fun _ => 1) as env, l₀.Started → Run Step l₀ as l →
      l.Step (.close env) u → l.ClosesInactive env.now := by
  intro all
  obtain ⟨opened, reachable, timeout, run⟩ := exists_listed
  let touched := opened.next (.working 5000, .touch 1)
  have touches : opened.Step (.working 5000, .touch 1) touched := ⟨_, rfl⟩
  have requests : Step ⟨opened, 5000, [1], [], []⟩ (.serve (.working 5000) (.touch 1))
      ⟨touched, 5000, [1], [], [(1, 5000)]⟩ := .serve (Int.le_refl 5000) (by simp) touches
  have linked := (KeeperServer.Reachable.stepped reachable touches).linked
  have closes : Step ⟨touched, 5000, [1], [], [(1, 5000)]⟩ (.close (.working 5000)) _ :=
    .close (Int.le_refl 5000) rfl
      (KeeperServer.step_next linked (.working 5000, .closeSession 1) rfl)
  have still : touched.storage.sessionState.sessionAndTimeout.get 1 = some 5000 := by
    have same : touched.storage.sessionState =
        opened.storage.sessionState.touchSession 1 5000 := rfl
    rw [same, SessionState.sessionAndTimeout_touchSession, timeout]
  have inactive : (5000 : Int) + 5000 ≤ 5000 :=
    all _ _ _ _ _ initial_started (run.snoc requests) closes 1 5000 5000 rfl still
      (List.mem_singleton.mpr rfl)
  omega

end ExpiryLoop
end TinyKeeper
