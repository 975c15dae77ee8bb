import TinyKeeper.KeeperServer.Executions
import TinyKeeper.KeeperServer.ExpiryLoop
import TinyKeeper.KeeperServer.Owners

/-! A client that falls silent loses its session, and its ephemeral nodes with it: the first list
that is read a rounded timeout later has the session on it, and the closes of that list end it. -/
namespace TinyKeeper

/-- The rounding adds less than two intervals, whichever way the division truncates. -/
theorem SessionExpiryQueue.bucketKey_le {intervalMs : Int} (positive : 0 < intervalMs)
    (timeoutMs now : Int) :
    bucketKey intervalMs timeoutMs now ≤ now + timeoutMs + 2 * (intervalMs - 1) := by
  unfold bucketKey
  have split := Int.mul_tdiv_add_tmod (now + timeoutMs + intervalMs - 1) intervalMs
  have large := Int.lt_tmod_of_pos (now + timeoutMs + intervalMs - 1) positive
  rw [Int.mul_comm] at split
  omega

namespace SessionState
variable {s s' : SessionState} {restored : SessionId → Prop} {now now' : Int}

/-- The sessions that were opened since the start have a deadline, no later than a silence of a
rounded timeout from now. -/
structure OnTime (restored : SessionId → Prop) (now : Int) (s : SessionState) : Prop where
  interval : s.expiryQueue.intervalMs = 500
  next : 0 < s.nextSessionId
  due : ∀ id timeoutMs, s.sessionAndTimeout.get id = some timeoutMs → ¬ restored id →
    0 < id ∧ ∃ d, s.expiryQueue.sessionToExpiry.get id = some d ∧ d ≤ now + timeoutMs + 998

theorem OnTime.bucketKey_le (h : s.OnTime restored now) (timeoutMs : Int) :
    SessionExpiryQueue.bucketKey s.expiryQueue.intervalMs timeoutMs now' ≤
      now' + timeoutMs + 998 := by
  rw [h.interval]
  exact SessionExpiryQueue.bucketKey_le (by decide) timeoutMs now'

theorem Move.onTime (move : s.Move now' s') (h : s.OnTime restored now) (later : now ≤ now') :
    s'.OnTime restored now' := by
  have kept {id : SessionId} {timeoutMs : Int}
      (found : s.sessionAndTimeout.get id = some timeoutMs) (opened : ¬ restored id) :
      0 < id ∧ ∃ d, s.expiryQueue.sessionToExpiry.get id = some d ∧
        d ≤ now' + timeoutMs + 998 := by
    obtain ⟨positive, d, hd, le⟩ := h.due id timeoutMs found opened
    exact ⟨positive, d, hd, by omega⟩
  cases move with
  | same same =>
    refine ⟨?_, ?_, fun id timeoutMs found opened => ?_⟩
    · rw [same.deadlines]
      exact h.interval
    · rw [same.nextId]
      exact h.next
    · rw [same.sessions] at found
      rw [same.deadlines]
      exact kept found opened
  | opened timeoutMs =>
    refine ⟨h.interval, h.next.trans (Int.lt_succ _), fun id timeoutMs' found opened => ?_⟩
    simp only [createSession, Table.get_insert, SessionExpiryQueue.touch_get] at found ⊢
    by_cases here : id = s.nextSessionId
    · rw [if_pos here] at found ⊢
      cases found
      exact ⟨here ▸ h.next, _, rfl, h.bucketKey_le timeoutMs⟩
    · rw [if_neg here] at found ⊢
      exact kept found opened
  | touched id =>
    cases still : s.sessionAndTimeout.get id with
    | none =>
      rw [touchSession, still]
      exact ⟨h.interval, h.next, fun _ _ => kept⟩
    | some timeoutMs =>
      rw [touchSession, still]
      refine ⟨h.interval, h.next, fun id' timeoutMs' found opened => ?_⟩
      simp only [SessionExpiryQueue.touch_get]
      by_cases here : id' = id
      · subst here
        obtain rfl : timeoutMs = timeoutMs' := Option.some.inj (still.symm.trans found)
        rw [if_pos rfl]
        exact ⟨(kept found opened).1, _, rfl, h.bucketKey_le timeoutMs⟩
      · rw [if_neg here]
        exact kept found opened
  | ended id =>
    refine ⟨?_, h.next, fun id' timeoutMs found opened => ?_⟩
    · simp only [without, SessionExpiryQueue.remove]
      split <;> exact h.interval
    · simp only [without, Table.get_remove, SessionExpiryQueue.remove_get] at found ⊢
      by_cases here : id' = id
      · rw [if_pos here] at found
        cases found
      · rw [if_neg here] at found ⊢
        exact kept found opened

theorem ReplayMove.intervalMs {op : WalOperation} (move : s.ReplayMove op s') :
    s'.expiryQueue.intervalMs = s.expiryQueue.intervalMs := by
  cases move with
  | same same opens closes => rw [same.deadlines]
  | restored id timeoutMs => rfl
  | ended id =>
    simp only [without, SessionExpiryQueue.remove]
    split <;> rfl

end SessionState

/-- A step for a request of the session. -/
def ServerEvent.From (id : SessionId) : ServerEvent → Prop
  | .touch id' => id' = id
  | .handle _ id' _ => id' = id
  | _ => False

namespace KeeperStorage
variable {st st' st'' : KeeperStorage} {id : SessionId}

/-- The session is closed and owns no node. -/
structure Gone (st : KeeperStorage) (id : SessionId) : Prop where
  closed : ¬ st.sessionState.IsOpen id
  released : ∀ p, st.ownerOf p ≠ some id

/-- All that happened to the session is that it may have lost nodes. -/
structure Spares (id : SessionId) (st st' : KeeperStorage) : Prop where
  timeout : st'.sessionState.sessionAndTimeout.get id = st.sessionState.sessionAndTimeout.get id
  deadline : st'.sessionState.expiryQueue.sessionToExpiry.get id =
    st.sessionState.expiryQueue.sessionToExpiry.get id
  owners : ∀ p, st'.ownerOf p = some id → st.ownerOf p = some id

theorem Spares.refl (id : SessionId) (st : KeeperStorage) : Spares id st st :=
  ⟨rfl, rfl, fun _ owner => owner⟩

theorem Gone.spared (h : st.Gone id) (spares : Spares id st st') : st'.Gone id := by
  refine ⟨?_, fun p owner => h.released p (spares.owners p owner)⟩
  rintro ⟨timeoutMs, found⟩
  exact h.closed ⟨timeoutMs, spares.timeout.symm.trans found⟩

/-- The end of a session releases its nodes, and leaves the other sessions what they have. -/
theorem Linked.gone_endSession (hl : st.Linked) (hc : st.Covered) {orders : HashOrders}
    (hid : id ≠ 0) (ended : KeeperServer.endSession st orders id = .ok st') : st'.Gone id := by
  obtain ⟨sessions, -, released⟩ := hl.endSession_spec hc ended
  refine ⟨fun isOpen => ?_, fun p => released p hid⟩
  rw [sessions] at isOpen
  exact ((SessionState.isOpen_without _ _ _).mp isOpen).2 rfl

theorem Linked.spares_endSession (hl : st.Linked) (hc : st.Covered) {orders : HashOrders}
    {id' : SessionId} (other : id ≠ id')
    (ended : KeeperServer.endSession st orders id' = .ok st') : Spares id st st' := by
  obtain ⟨sessions, owners, -⟩ := hl.endSession_spec hc ended
  refine ⟨?_, ?_, owners id⟩
  · rw [sessions, SessionState.without, Table.get_remove, if_neg other]
  · rw [sessions, SessionState.without, SessionExpiryQueue.remove_get, if_neg other]

end KeeperStorage

section Steps
open KeeperStorage
variable {env : Env} {st st' : KeeperStorage} {id sessionId : SessionId}

theorem MultiRun.spares {entries : List MultiEntry}
    (h : MultiRun env sessionId st.nextZxid entries st') (hid : id ≠ 0) (other : id ≠ sessionId) :
    Spares id st st' := by
  refine ⟨?_, ?_, fun p owner => (h.ownerOf hid owner).resolve_right fun made => other made.1⟩
  · rw [h.sameSessions.sessions]
    rfl
  · rw [h.sameSessions.deadlines]
    rfl

/-- A step that is none of a session's requests spares the session, or ends it. -/
theorem Transition.spares {e : ServerEvent} {op : Option WalOperation} {events : List WatchEvent}
    (h : Transition env st e op events st') (hl : st.Linked) (hc : st.Covered) (hid : id ≠ 0)
    (issued : id < st.sessionState.nextSessionId) (silent : ¬ e.From id) :
    Spares id st st' ∨ st'.Gone id := by
  have next : st.nextZxid.Covered := hc
  cases h with
  | createSession timeoutMs =>
    refine .inl ⟨?_, ?_, fun _ owner => owner⟩
    · simp [SessionState.createSession, issued.ne]
    · simp [SessionState.createSession, SessionExpiryQueue.touch_get, issued.ne]
  | @closeSession id' _ ended =>
    by_cases here : id = id'
    · subst here
      exact .inr (hl.nextZxid.gone_endSession next hid ended)
    · have spared := hl.nextZxid.spares_endSession next here ended
      exact .inl ⟨spared.timeout, spared.deadline, spared.owners⟩
  | touch id' =>
    have other : id ≠ id' := fun here => silent here.symm
    refine .inl ⟨?_, ?_, fun _ owner => owner⟩
    · simp
    · unfold SessionState.touchSession
      split
      · exact (SessionExpiryQueue.touch_get _ _ _ _ _).trans (if_neg other)
      · rfl
  | unchanged => exact .inl (.refl id st)
  | unflushed failed => exact .inl ⟨rfl, rfl, fun _ owner => owner⟩
  | @create xid id' req path u checked done =>
    have single : MultiRun env id' st.nextZxid _ _ := Run.single (.create done)
    exact .inl (single.spares hid fun here => silent here.symm)
  | createFails checked failed => exact .inl ⟨rfl, rfl, fun _ owner => owner⟩
  | @set xid id' req n u stored version done =>
    have storedNext : st.nextZxid.traverse req.path = some n := stored
    obtain ⟨n', updated⟩ := set_ok_traverse done
    have single : MultiRun env id' st.nextZxid _ _ :=
      Run.single (.set storedNext version done updated)
    exact .inl (single.spares hid fun here => silent here.symm)
  | @delete xid id' req n u checked done =>
    have storedNext : st.nextZxid.traverse req.path = some n := checked.stored
    have single : MultiRun env id' st.nextZxid _ _ :=
      Run.single (.delete storedNext checked.version done)
    exact .inl (single.spares hid fun here => silent here.symm)
  | deleteRoot checked root => exact .inl ⟨rfl, rfl, fun _ owner => owner⟩
  | read path t => exact .inl ⟨rfl, rfl, fun _ owner => owner⟩
  | @close xid id' u ended =>
    have spared := hl.spares_endSession hc (fun here => silent here.symm) ended
    exact .inl ⟨spared.timeout, spared.deadline, spared.owners⟩
  | multi path => exact .inl (path.spares hid fun here => silent here.symm)

theorem Transition.ends {op : Option WalOperation} {events : List WatchEvent}
    (h : Transition env st (.closeSession id) op events st') (hl : st.Linked) (hc : st.Covered)
    (hid : id ≠ 0) : st'.Gone id := by
  have next : st.nextZxid.Covered := hc
  cases h with
  | closeSession ended => exact hl.nextZxid.gone_endSession next hid ended

end Steps

namespace KeeperServer
variable {recordBytes : LogRecord → ℕ} {s : KeeperServer recordBytes}

/-- What a start finds open it calls restored. -/
theorem onTime_of_start {dir : Segments LogRecord} {orders : ℕ → HashOrders} {now : Int}
    (h : new recordBytes dir orders = .ok s) :
    s.storage.sessionState.OnTime s.storage.sessionState.IsOpen now := by
  have interval := (new_replays h).invariant
    (fun st => st.sessionState.expiryQueue.intervalMs = 500) rfl fun _ _ _ interval last =>
      (KeeperStorage.Replays.sessionMove last).intervalMs.trans interval
  exact ⟨interval, nextSessionId_pos_of_start h,
    fun id timeoutMs found opened => absurd ⟨timeoutMs, found⟩ opened⟩

end KeeperServer

namespace ExpiryLoop
variable {recordBytes : LogRecord → ℕ} {l₀ l l' m t u : ExpiryLoop recordBytes} {id : SessionId}

def Action.From (id : SessionId) : Action → Prop
  | .serve _ e => e.From id
  | _ => False

/-- One step, of a client or of the loop, seen by the server. -/
theorem Step.server {a : Action} (step : l.Step a l') (watched : l.Watched) :
    l.clock ≤ l'.clock ∧
      l.server.storage.sessionState.Move l'.clock l'.server.storage.sessionState ∧
      ∀ id, id ≠ 0 → id < l.server.storage.sessionState.nextSessionId → ¬ a.From id →
        KeeperStorage.Spares id l.server.storage l'.server.storage ∨
          l'.server.storage.Gone id := by
  have linked := watched.kept.linked
  have covered := watched.kept.covered
  cases step with
  | serve later client step =>
    obtain ⟨out, op, -, move, -⟩ := step.transition linked
    exact ⟨later, move.sessionMove linked covered, fun id hid issued silent =>
      move.spares linked covered hid issued silent⟩
  | read later idle => exact ⟨later, .same (.refl _), fun id _ _ _ => .inl (.refl id _)⟩
  | close later next closed =>
    obtain ⟨out, op, -, move, -⟩ := closed.transition linked
    exact ⟨later, move.sessionMove linked covered, fun id hid issued _ =>
      move.spares linked covered hid issued not_false⟩

/-- A session that is issued, and what every state of the loop keeps. -/
structure Knows (id : SessionId) (l : ExpiryLoop recordBytes) : Prop where
  watched : l.Watched
  positive : 0 < id
  issued : id < l.server.storage.sessionState.nextSessionId

theorem Knows.step {a : Action} (h : l.Knows id) (step : l.Step a l') : l'.Knows id :=
  ⟨h.watched.step step, h.positive,
    h.issued.trans_le (step.server h.watched).2.1.nextId_le⟩

/-- The session has been closed, or will have expired by this time. -/
def ExpiresBy (id : SessionId) (due : Int) (l : ExpiryLoop recordBytes) : Prop :=
  (∃ d, l.server.storage.sessionState.expiryQueue.sessionToExpiry.get id = some d ∧ d ≤ due) ∨
    l.server.storage.Gone id

theorem ExpiresBy.step {a : Action} {due : Int} (h : l.ExpiresBy id due) (knows : l.Knows id)
    (silent : ¬ a.From id) (step : l.Step a l') : l'.ExpiresBy id due := by
  obtain spares | gone := (step.server knows.watched).2.2 id knows.positive.ne' knows.issued silent
  · refine h.imp (fun h => ?_) (fun gone => gone.spared spares)
    rw [spares.deadline]
    exact h
  · exact .inr gone

/-- The session is on the list, or has been closed. -/
def Condemned (id : SessionId) (l : ExpiryLoop recordBytes) : Prop :=
  id ∈ l.listed ∨ l.server.storage.Gone id

/-- A list that is read late enough has the session on it. -/
theorem ExpiresBy.read {env : Env} {due : Int} (h : l.ExpiresBy id due) (knows : l.Knows id)
    (late : due ≤ env.now) (step : l.Step (.read env) m) : m.Condemned id := by
  cases step with
  | read later idle =>
    refine h.imp (fun ⟨d, hd, le⟩ => ?_) (fun gone => gone)
    have mirrored := knows.watched.kept.mirrored
    exact (SessionExpiryQueue.mem_getExpired mirrored _ _ _).mpr ⟨d, hd, le.trans late⟩

theorem Condemned.step {a : Action} (h : l.Condemned id) (knows : l.Knows id) (silent : ¬ a.From id)
    (step : l.Step a l') : l'.Condemned id := by
  have positive := knows.positive.ne'
  have seen := (step.server knows.watched).2.2 id positive knows.issued silent
  have stays (gone : l.server.storage.Gone id) : l'.server.storage.Gone id :=
    seen.elim (fun spares => gone.spared spares) fun gone => gone
  obtain listed | gone := h
  · cases step with
    | serve later client step => exact .inl listed
    | read later idle =>
      rw [idle] at listed
      cases listed
    | close later next closed =>
      rw [next] at listed
      obtain rfl | listed := List.mem_cons.mp listed
      · have linked := knows.watched.kept.linked
        obtain ⟨out, op, -, move, -⟩ := closed.transition linked
        exact .inr (move.ends linked knows.watched.kept.covered positive)
      · exact .inl listed
  · exact .inr (stays gone)

/-- While all files work, the loop can work its list off. -/
theorem pass_ends (watched : l.Watched) : ∃ as u, Run Step l as u ∧
    (∀ a ∈ as, ∃ env, a = .close env) ∧ u.listed = [] := by
  induction left : l.listed generalizing l with
  | nil => exact ⟨[], l, .nil, by simp, left⟩
  | cons id rest ih =>
    have closed := KeeperServer.step_next watched.kept.linked
      (.working l.clock, .closeSession id) rfl
    have first : l.Step (.close (.working l.clock)) _ := .close (le_refl l.clock) left closed
    obtain ⟨as, u, run, closes, done⟩ := ih (watched.step first) rfl
    refine ⟨_, u, (Run.single first).trans run, ?_, done⟩
    simpa using closes

/-- A run without requests of the session keeps what its steps keep. -/
theorem keeps_silent {P : ExpiryLoop recordBytes → Prop} {as : List Action}
    (keep : ∀ {l l' : ExpiryLoop recordBytes} {a : Action}, P l → l.Knows id → ¬ a.From id →
      l.Step a l' → P l')
    (knows : l.Knows id) (start : P l) (run : Run Step l as u) (silent : ∀ a ∈ as, ¬ a.From id) :
    u.Knows id ∧ P u := by
  refine (run.restrict silent).invariant (fun l => l.Knows id ∧ P l) ⟨knows, start⟩ ?_
  rintro t a u ⟨knows, holds⟩ ⟨last, quiet⟩
  exact ⟨knows.step last, keep holds knows quiet last⟩

/-- A session that this server opened and that makes no more requests: from the first list on that
is read its timeout and 998 ms later, it is on the list or closed with its nodes deleted, and
working off the list closes it. -/
theorem silent_session_ends (started : l₀.Started) {as bs cs : List Action} {env : Env}
    {timeoutMs : Int} (init : Run Step l₀ as t)
    (opened : ¬ l₀.server.storage.sessionState.IsOpen id)
    (found : t.server.storage.sessionState.sessionAndTimeout.get id = some timeoutMs)
    (waits : Run Step t bs l) (read : l.Step (.read env) m)
    (late : t.clock + timeoutMs + 998 ≤ env.now) (pass : Run Step m cs u)
    (silent : ∀ a ∈ bs ++ cs, ¬ a.From id) :
    (id ∈ u.listed ∨ u.server.storage.Gone id) ∧
      ∃ ds v, Run Step u ds v ∧ (∀ a ∈ ds, ∃ env, a = .close env) ∧
        v.server.storage.Gone id := by
  have timely : t.Watched ∧
      t.server.storage.sessionState.OnTime l₀.server.storage.sessionState.IsOpen t.clock := by
    obtain ⟨dir, orders, start⟩ := started.server
    refine init.invariant (fun l => l.Watched ∧
      l.server.storage.sessionState.OnTime l₀.server.storage.sessionState.IsOpen l.clock)
      ⟨started.watched, KeeperServer.onTime_of_start start⟩ ?_
    rintro t a u ⟨watched, onTime⟩ last
    obtain ⟨later, move, -⟩ := last.server watched
    exact ⟨watched.step last, move.onTime onTime later⟩
  obtain ⟨watched, onTime⟩ := timely
  obtain ⟨positive, d, hd, le⟩ := onTime.due id timeoutMs found opened
  have knows : t.Knows id := ⟨watched, positive, watched.counted.opened id ⟨timeoutMs, found⟩⟩
  have due : t.ExpiresBy id (t.clock + timeoutMs + 998) := .inl ⟨d, hd, le⟩
  obtain ⟨knows, due⟩ := keeps_silent (fun h knows quiet => h.step knows quiet) knows due waits
    fun a mem => silent a (List.mem_append_left _ mem)
  obtain ⟨knows, condemned⟩ := keeps_silent (fun h knows quiet => h.step knows quiet)
    (knows.step read) (due.read knows late read) pass
    fun a mem => silent a (List.mem_append_right _ mem)
  refine ⟨condemned, ?_⟩
  obtain ⟨ds, v, run, closes, done⟩ := pass_ends knows.watched
  have quiet : ∀ a ∈ ds, ¬ a.From id := by
    intro a mem
    obtain ⟨env, rfl⟩ := closes a mem
    exact not_false
  obtain ⟨-, listed | gone⟩ := keeps_silent (fun h knows quiet => h.step knows quiet) knows
    condemned run quiet
  · rw [done] at listed
    cases listed
  · exact ⟨ds, v, run, closes, gone⟩

/-- A session that never makes a request is on the list that is read at time 5998. -/
theorem silent_session_ends_opened : ∃ m v : ExpiryLoop fun _ => 1, ∃ ds,
    (1 ∈ m.listed ∨ m.server.storage.Gone 1) ∧ Run Step m ds v ∧ v.server.storage.Gone 1 := by
  let opened := (KeeperServer.initial fun _ => 1).next (.working 0, .createSession 5000)
  have opens : (initial fun _ => 1).Step (.serve (.working 0) (.createSession 5000))
      ⟨opened, 0, [], [], []⟩ :=
    .serve (Int.le_refl 0) (by simp)
      (KeeperServer.step_next KeeperServer.initial_reachable.linked _ rfl)
  have reads : Step ⟨opened, 0, [], [], []⟩ (.read (.working 5998))
      ⟨opened, 5998, opened.getExpiredSessions (.working 5998), [], []⟩ :=
    .read (show (0 : Int) ≤ 5998 by decide) rfl
  have unopened : ¬ (initial fun _ => 1).server.storage.sessionState.IsOpen 1 := by
    rintro ⟨timeoutMs, found⟩
    cases found
  obtain ⟨condemned, ds, v, run, -, gone⟩ := silent_session_ends initial_started (.single opens)
    unopened (show _ = some 5000 from rfl) .nil reads (by decide) .nil (by simp)
  exact ⟨_, v, ds, condemned, run, gone⟩

end ExpiryLoop
end TinyKeeper
