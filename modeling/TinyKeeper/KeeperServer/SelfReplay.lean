import TinyKeeper.KeeperServer.Writes

/-! What a step that was just logged would do if it were replayed from the state it started in: a
committed batch brings back what it left, a single write does unless it removes an ephemeral
node or the root. -/
namespace TinyKeeper
namespace KeeperStorage
variable {st st' r : KeeperStorage}

/-- The trees, the zxids and the index agree, and so do the open sessions. -/
theorem SameTree.durable (same : st.SameTree r)
    (sessions : r.sessionState.sessionAndTimeout = st.sessionState.sessionAndTimeout) :
    r.durable = st.durable :=
  Durable.ext same.map same.lastZxid sessions same.index

/-- Taking a node out of the index shows, unless nobody owned it. -/
theorem Covered.disowned_durable_iff (hc : st.Covered) {path : String} {n : Node}
    (stored : st.map.get path = some n) (done : st.delete path = .ok () st') :
    st'.durable = (st'.disowned n.stat.ephemeralOwner path).durable ↔
      n.stat.ephemeralOwner = 0 := by
  constructor
  · intro same
    by_contra owned
    have owns : st'.sessionState.Owns n.stat.ephemeralOwner path := by
      rw [delete_ok_sessionState done]
      exact hc _ path owned ((st.ownerOf_eq_some path _).mpr ⟨n, stored, rfl⟩)
    have index : st'.sessionState.ephemerals =
        (st'.disowned n.stat.ephemeralOwner path).sessionState.ephemerals :=
      congrArg Durable.ephemerals same
    have still : (st'.sessionState.removeEphemeral n.stat.ephemeralOwner path).Owns
        n.stat.ephemeralOwner path := by
      rw [KeeperStorage.disowned, if_pos owned] at index
      rw [SessionState.Owns, ← index]
      exact owns
    exact ((SessionState.owns_removeEphemeral _ _ _ _ _).mp still).2 ⟨rfl, rfl⟩
  · intro unowned
    rw [KeeperStorage.disowned, if_neg (not_not.mpr unowned)]

end KeeperStorage

section Writes
open KeeperStorage

/-- The replay of a write that was answered `Ok`, unless it removed the root or an ephemeral
node. -/
theorem WriteEnds.replays_iff {env : Env} {xid : Int32} {id : SessionId} {st st' : KeeperStorage}
    {req : Request} {op : WalOperation} {body : ReplyBody} {events : List WatchEvent}
    (h : WriteEnds env id st req .ok body events st') (hc : st.Covered)
    (writes : (ServerEvent.handle xid id req).submits env.now = some op) (orders : HashOrders) :
    (∃ r, Replays orders st.nextZxid op r ∧ r.durable = st'.durable) ↔
      ∀ gone, req = .remove gone → gone.path ≠ "/" ∧ st.ownerOf gone.path = some 0 := by
  have next : st.nextZxid.Covered := hc
  cases h with
  | create checked done =>
    cases writes
    exact iff_of_true ⟨_, .create done, rfl⟩ (fun _ other => by cases other)
  | set stored version done updated =>
    cases writes
    exact iff_of_true ⟨_, .set done, rfl⟩ (fun _ other => by cases other)
  | @delete req n t checked done =>
    cases writes
    have exact_when := next.disowned_durable_iff checked.stored done
    constructor
    · rintro ⟨r, replays, same⟩ gone ⟨⟩
      cases replays with
      | delete done' =>
        cases done.symm.trans done'
        obtain ⟨q, name, del, -⟩ := delete_ok done
        exact ⟨parentOf_ne_root del.split del.name_ne,
          (st.ownerOf_eq_some _ _).mpr ⟨n, checked.stored, exact_when.mp same⟩⟩
    · intro plain
      obtain ⟨m, stored, unowned⟩ := (st.ownerOf_eq_some _ _).mp (plain req rfl).2
      cases checked.stored.symm.trans stored
      exact ⟨t, .delete done, exact_when.mpr unowned⟩
  | deleteRoot checked root =>
    cases writes
    refine iff_of_false ?_ (fun plain => (plain _ rfl).1 root)
    rintro ⟨r, replays, -⟩
    cases replays with
    | delete done =>
      obtain ⟨q, name, del, -⟩ := delete_ok done
      exact parentOf_ne_root del.split del.name_ne root

end Writes

namespace KeeperServer
variable {recordBytes : LogRecord → ℕ} {s s' : KeeperServer recordBytes} {env : Env}

/-- The replay of the record, from the first state, hits no failing `expect` and brings back the
durable part of the second one. -/
def ReplaysTo (s s' : KeeperServer recordBytes) (record : LogRecord) : Prop :=
  ∀ orders, ∃ st, s.storage.replayRecord orders record = .ok st ∧
    st.durable = s'.storage.durable

/-- The record was appended to the log and flushed. -/
def Appended (s s' : KeeperServer recordBytes) (env : Env) (record : LogRecord) : Prop :=
  (s.wal.append record).flush env.flush = (s'.wal, .ok ())

theorem replayRecord_iff {op : WalOperation} {orders : HashOrders} {st : KeeperStorage} :
    s.storage.replayRecord orders ⟨s.storage.lastZxid + 1, op⟩ = .ok st ↔
      KeeperStorage.Replays orders s.storage.nextZxid op st := by
  rw [KeeperStorage.replayRecord, KeeperStorage.replayOperation_iff]
  rfl

/-- A batch that is answered without an error is in the log as one record, with its operations in
order and without its checks, and the replay of that record from the state before the batch
brings back what the batch left. -/
theorem committed_multi_replays (reachable : Reachable s) {xid : Int32} {id : SessionId}
    {ops : List MultiOp} {out : Output}
    (done : s.exec env (.handle xid id (.multi ops)) = .done out s')
    (committed : Acknowledges (.handle xid id (.multi ops)) out) :
    s.Appended s' env ⟨s'.storage.lastZxid, .multi (ops.flatMap MultiOp.logged) env.now id⟩ ∧
      s.ReplaysTo s' ⟨s'.storage.lastZxid, .multi (ops.flatMap MultiOp.logged) env.now id⟩ := by
  obtain ⟨r, rfl, handled⟩ := exec_handle done
  have ends : s.MultiEnds env xid id ops (s.handleMulti env xid ops id) :=
    handleMulti_ends reachable.linked xid ops id
  rw [show s.handleMulti env xid ops id = .done r s' from handled] at ends
  cases ends with
  | @completes entries st s₁ path hlog =>
    have operations : (entries.map Prod.fst).flatMap MultiOp.logged =
        entries.flatMap (·.1.logged) := List.flatMap_map ..
    have index : st.lastZxid = s.storage.lastZxid + 1 := path.stamped.2
    have flushed := s.flush_of_log env hlog
    simp only [operations, index]
    refine ⟨flushed, fun orders => ?_⟩
    obtain ⟨t, replayed, same⟩ := path.replays (.refl s.storage.nextZxid)
    refine ⟨t, replayRecord_iff.mpr (.multi replayed), same.durable ?_⟩
    have kept : s.storage.nextZxid.sessionState.SameSessions t.sessionState :=
      replayed.invariant
        (fun u => s.storage.nextZxid.sessionState.SameSessions u.sessionState) (.refl _)
        (fun _ _ _ same last => same.trans last.sameSessions)
    rw [kept.sessions, path.sameSessions.sessions]
  | fails path fails =>
    obtain ⟨responses, body, none⟩ := committed
    cases body
    exact absurd (error_mem_rolledBack _ _ (by simp)) (none _)

/-- A batch that builds on itself: the name of the second node counts the first. -/
theorem committed_multi_replays_created :
    ∃ s' : KeeperServer (fun _ => 1),
      s'.storage.map.get "/b0000000001" ≠ none ∧ (initial fun _ => 1).ReplaysTo s' ⟨1,
        .multi [.create "/a" [] 0, .create "/b" [] 2] 0 1⟩ := by
  let request : ServerEvent := .handle 1 1 (.multi [.create ⟨"/a", [], 0⟩, .create ⟨"/b", [], 2⟩])
  obtain ⟨r, s', done, body, there, index⟩ : ∃ r s',
      (initial fun _ => 1).exec (.working 0) request = .done (.applied r) s' ∧
      r.response.body = .multi [.create "/a", .create "/b0000000001"] ∧
      s'.storage.map.get "/b0000000001" ≠ none ∧ s'.storage.lastZxid = 1 :=
    ⟨_, _, rfl, by decide, by decide, rfl⟩
  have committed : Acknowledges request (.applied r) := ⟨_, body, by simp⟩
  obtain ⟨-, replays⟩ := committed_multi_replays initial_reachable done committed
  rw [index] at replays
  exact ⟨s', there, replays⟩

/-- A single write that is answered `Ok` is in the log as one record. The replay of that record
from the state before the write brings back what the write left, except for a removal of the root
or of an ephemeral node: the first stops the replay, the second leaves the path in the index. -/
theorem acknowledged_write_replays_iff (reachable : Reachable s) {xid : Int32} {id : SessionId}
    {req : Request} {op : WalOperation}
    (writes : (ServerEvent.handle xid id req).submits env.now = some op) {r : ApplyResult}
    (done : s.exec env (.handle xid id req) = .done (.applied r) s')
    (ok : r.response.err = .ok) :
    s.Appended s' env ⟨s'.storage.lastZxid, op⟩ ∧
      (s.ReplaysTo s' ⟨s'.storage.lastZxid, op⟩ ↔
        ∀ gone, req = .remove gone → gone.path ≠ "/" ∧ s.storage.ownerOf gone.path = some 0) := by
  obtain ⟨r', same, handled⟩ := exec_handle done
  cases same
  have answers := s.handle_answers env reachable.linked writes
  rw [handled] at answers
  obtain ⟨ends, -, hlog⟩ := answers.acknowledged ok
  have index := ends.lastZxid
  rw [index]
  have flushed := s.flush_of_log env hlog
  have replays := fun orders => ends.replays_iff reachable.kept.covered writes orders
  simp only [ReplaysTo, replayRecord_iff]
  refine ⟨flushed, fun all => ?_, fun plain orders => (replays orders).mpr plain⟩
  exact (replays ⟨.choice, .choice, .choice⟩).mp (all _)

/-- A removal of a persistent node. -/
theorem acknowledged_write_replays_removed :
    ∃ s s' : KeeperServer (fun _ => 1), s.storage.map.get "/a" ≠ none ∧
      s'.storage.map.get "/a" = none ∧ s.ReplaysTo s' ⟨2, .delete "/a"⟩ := by
  let first : Env × ServerEvent := (.working 0, .handle 1 1 (.create ⟨"/a", [], 0⟩))
  have created : Reachable ((initial fun _ => 1).next first) := initial_reachable.next first rfl
  obtain ⟨r, s', done, ok, gone, index⟩ : ∃ r s', ((initial fun _ => 1).next first).exec
      (.working 1) (.handle 2 1 (.remove ⟨"/a", -1⟩)) = .done (.applied r) s' ∧
      r.response.err = .ok ∧ s'.storage.map.get "/a" = none ∧ s'.storage.lastZxid = 2 :=
    ⟨_, _, rfl, by decide, by decide, rfl⟩
  obtain ⟨-, replays⟩ := acknowledged_write_replays_iff created rfl done ok
  rw [index] at replays
  refine ⟨_, s', by decide, gone, replays.mpr ?_⟩
  rintro plain ⟨⟩
  exact ⟨by decide, by decide⟩

/-- The removal of an ephemeral node: its replay leaves the path in the index of the session. -/
theorem removed_lock_stays_indexed :
    ¬ ∀ (s s' : KeeperServer (fun _ => 1)) env xid id req op r, Reachable s →
      (ServerEvent.handle xid id req).submits env.now = some op →
      s.exec env (.handle xid id req) = .done (.applied r) s' → r.response.err = .ok →
      s.ReplaysTo s' ⟨s'.storage.lastZxid, op⟩ := by
  intro all
  let first : Env × ServerEvent := (.working 0, .createSession 5000)
  let second : Env × ServerEvent := (.working 1, .handle 1 1 (.create ⟨"/lock", [], 1⟩))
  have opened : Reachable ((initial fun _ => 1).next first) := initial_reachable.next first rfl
  have locked := opened.next second rfl
  obtain ⟨r, s', done, ok, index, empty⟩ : ∃ r s',
      (((initial fun _ => 1).next first).next second).exec
        (.working 2) (.handle 2 1 (.remove ⟨"/lock", -1⟩)) = .done (.applied r) s' ∧
      r.response.err = .ok ∧ s'.storage.lastZxid = 3 ∧
      s'.storage.sessionState.ephemerals.get 1 = none :=
    ⟨_, _, rfl, by decide, rfl, by decide⟩
  obtain ⟨st, replayed, same⟩ := all _ s' (.working 2) 2 1 _ _ r locked rfl done ok
    ⟨.choice, .choice, .choice⟩
  rw [index] at replayed
  have still : st.sessionState.ephemerals.get 1 = some {"/lock"} := by
    cases replayed
    decide
  have index := congrArg (fun d => d.ephemerals.get 1) same
  simp only [KeeperStorage.durable, still, empty] at index
  cases index

end KeeperServer
end TinyKeeper
