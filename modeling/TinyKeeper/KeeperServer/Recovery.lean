import TinyKeeper.KeeperServer.Atomic
import TinyKeeper.KeeperServer.Expiry

/-! Recovery. The replay of a log goes the way the live server went, step by step, as long as the
server does nothing behind the back of its log: that is the simulation both recovery results use. -/
namespace TinyKeeper
namespace KeeperStorage

/-- The two agree on the tree, the zxid and the index of ephemeral nodes. -/
structure SameTree (st r : KeeperStorage) : Prop where
  map : r.map = st.map
  lastZxid : r.lastZxid = st.lastZxid
  index : r.sessionState.ephemerals = st.sessionState.ephemerals

section SameTree
variable {st r u : KeeperStorage} {path created : String} {data : List UInt8} {timestamp : Int}
variable {sessionId : SessionId} {flags : Int32}

theorem SameTree.refl (st : KeeperStorage) : st.SameTree st := ⟨rfl, rfl, rfl⟩

theorem SameTree.trans {st₁ st₂ st₃ : KeeperStorage} (h : st₁.SameTree st₂)
    (h' : st₂.SameTree st₃) : st₁.SameTree st₃ :=
  ⟨h'.map.trans h.map, h'.lastZxid.trans h.lastZxid, h'.index.trans h.index⟩

theorem SameTree.symm (h : st.SameTree r) : r.SameTree st :=
  ⟨h.map.symm, h.lastZxid.symm, h.index.symm⟩

theorem SameTree.linked (h : st.SameTree r) (hl : st.Linked) : r.Linked := hl.of_map h.map

theorem SameTree.indexed (h : st.SameTree r) (hi : st.Indexed) : r.Indexed :=
  hi.congr (fun p => by rw [ownerOf, h.map, ownerOf]) h.index

theorem SameTree.creatable {q name : String} (h : st.SameTree r)
    (hc : st.Creatable path flags q name created) : r.Creatable path flags q name created := by
  obtain ⟨split, parent, fresh, createdSplit⟩ := hc
  rw [← h.map] at parent fresh
  exact ⟨split, parent, fresh, createdSplit⟩

theorem SameTree.create_ok (h : st.SameTree r)
    (done : st.create path data timestamp sessionId flags = .ok created u) :
    ∃ r', r.create path data timestamp sessionId flags = .ok created r' ∧ u.SameTree r' := by
  obtain ⟨q, name, hc, rfl⟩ := (create_ok_iff _ _ _ _ _ _ _ _).mp done
  refine ⟨_, (create_ok_iff _ _ _ _ _ _ _ _).mpr ⟨q, name, h.creatable hc, rfl⟩, ?_, h.lastZxid, ?_⟩
  · simp only [afterCreate, newNode, h.map, h.lastZxid]
  · simp only [afterCreate]
    split_ifs
    · simp only [SessionState.addEphemeral, h.index]
    · exact h.index

theorem SameTree.set_ok (h : st.SameTree r) (done : st.set path data timestamp = .ok () u) :
    ∃ r', r.set path data timestamp = .ok () r' ∧ u.SameTree r' := by
  obtain ⟨n, hn, he⟩ | ⟨-, he⟩ := st.set_eq path data timestamp
  · rw [he, Outcome.ok.injEq] at done
    rw [← done.2]
    rw [← h.map] at hn
    exact ⟨_, set_of_stored hn data timestamp,
      by simp only [afterSet, h.map, h.lastZxid], h.lastZxid, h.index⟩
  · rw [he] at done
    contradiction

theorem SameTree.delete_ok (h : st.SameTree r) (done : st.delete path = .ok () u) :
    ∃ r', r.delete path = .ok () r' ∧ u.SameTree r' := by
  obtain ⟨q, name, ⟨split, hne, node⟩, parent, rfl⟩ := KeeperStorage.delete_ok done
  rw [← h.map] at node parent
  exact ⟨_, delete_of_deletable ⟨split, hne, node⟩ parent,
    by simp only [afterDelete, h.map, h.lastZxid], h.lastZxid, h.index⟩

theorem SameTree.disowned (h : st.SameTree r) (owner : SessionId) (path : String) :
    (st.disowned owner path).SameTree (r.disowned owner path) := by
  refine ⟨by simp [h.map], by simp [h.lastZxid], ?_⟩
  unfold KeeperStorage.disowned SessionState.removeEphemeral
  rw [h.index]
  split_ifs
  · cases st.sessionState.ephemerals.get owner with
    | none => exact h.index
    | some paths =>
      simp only
      split_ifs <;> rfl
  · exact h.index

/-- Watches and sessions do not show in the tree. -/
theorem SameTree.fired (h : st.SameTree r) {orders : HashOrders} {event : WatchEventType} :
    (st.fired orders path event).SameTree r := ⟨h.map, h.lastZxid, h.index⟩

theorem SameTree.setLastZxid (h : st.SameTree r) :
    st.nextZxid.SameTree (r.setLastZxid (st.lastZxid + 1)) := ⟨h.map, rfl, h.index⟩

theorem SameTree.ended (h : st.SameTree r) (id : SessionId) :
    (st.ended id).SameTree (r.ended id) := by
  have owned : r.sessionState.owned id = st.sessionState.owned id := by
    rw [SessionState.owned, h.index, SessionState.owned]
  refine ⟨?_, h.lastZxid, ?_⟩
  · simp only [KeeperStorage.ended, reaped, owned, h.map, h.lastZxid]
  · simp only [KeeperStorage.ended, SessionState.without, h.index]

/-- The end of a session without an index entry leaves the tree as it is. -/
theorem sameTree_ended_of_none {id : SessionId} (none : st.sessionState.ephemerals.get id = none) :
    st.SameTree (st.ended id) := by
  have owned : st.sessionState.owned id = ∅ := by simp [SessionState.owned, none]
  refine ⟨?_, rfl, Table.remove_of_get_none _ _ none⟩
  simp only [KeeperStorage.ended, owned, reaped_empty]

end SameTree
end KeeperStorage

section Simulation
variable {env : Env} {sessionId : SessionId} {st r u : KeeperStorage}
open KeeperStorage

theorem MultiStep.replays {entry : MultiEntry} (h : MultiStep env sessionId st entry u)
    (same : st.SameTree r) :
    ∃ r', Run (ReplayStep env.now sessionId) r entry.1.logged r' ∧ u.SameTree r' := by
  cases h with
  | check => exact ⟨r, .nil, same⟩
  | set stored version done updated =>
    obtain ⟨r', done', same'⟩ := same.set_ok done
    exact ⟨r', Run.single (.set done'), same'.fired⟩
  | create done =>
    obtain ⟨r', done', same'⟩ := same.create_ok done
    exact ⟨r', Run.single (.create done'), same'.fired⟩
  | @delete _ req n stored version done =>
    obtain ⟨r', done', same'⟩ := same.delete_ok done
    have stored' : st.map.get req.path = some n := stored
    rw [← same.map] at stored'
    exact ⟨_, Run.single (.delete stored' done'), (same'.disowned _ _).fired⟩

/-- A committed batch is replayed operation by operation. -/
theorem MultiRun.replays {entries : List MultiEntry} (h : MultiRun env sessionId st entries u)
    (same : st.SameTree r) :
    ∃ r', Run (ReplayStep env.now sessionId) r (entries.flatMap (·.1.logged)) r' ∧
      u.SameTree r' := by
  induction h with
  | nil => exact ⟨r, .nil, same⟩
  | @snoc entries t entry u _ last ih =>
    obtain ⟨r₁, path, same₁⟩ := ih
    obtain ⟨r₂, step, same₂⟩ := last.replays same₁
    refine ⟨r₂, ?_, same₂⟩
    rw [List.flatMap_append]
    simpa using path.trans step

/-- The step changes what is durable without leaving it to the log: a `Close` is not logged, and
the record of a removal does not say whose node it was. -/
def Lossy (st : KeeperStorage) : ServerEvent → Prop
  | .handle _ id .close => st.sessionState.ephemerals.get id ≠ none
  | .handle _ _ (.remove req) => ∃ n, DeleteChecked st req n ∧ n.stat.ephemeralOwner ≠ 0
  | _ => False

/-- The request passes the checks of its handler, is logged, and then fails. -/
def Doomed (st : KeeperStorage) : ServerEvent → Prop
  | .handle _ _ (.create req) =>
    CreateChecked st req ∧ ∀ q name created, ¬ st.Creatable req.path req.flags q name created
  | .handle _ _ (.remove req) => ∃ n, DeleteChecked st req n ∧ req.path = "/"
  | _ => False

/-- A step that logs nothing leaves the tree alone. -/
theorem Transition.sameTree {e : ServerEvent} {events : List WatchEvent}
    (h : Transition env st e none events u) (hl : st.Linked) (hi : st.Indexed)
    (flushed : env.flush = .succeeds) (kept : ¬ Lossy st e) : st.SameTree u := by
  cases h with
  | touch id =>
    refine ⟨rfl, rfl, ?_⟩
    simp only [SessionState.touchSession]
    split <;> rfl
  | unchanged => exact .refl st
  | unflushed failed => exact absurd flushed failed
  | read path t => exact ⟨rfl, rfl, rfl⟩
  | close ended =>
    cases ended.symm.trans (hl.endSession_eq hi env.orders _)
    have same := sameTree_ended_of_none (not_not.mp kept)
    exact ⟨same.map, same.lastZxid, same.index⟩

/-- Where the tree refuses a create, its checks do not pass. -/
theorem not_creatable_of_err {path message : String} {data : List UInt8} {timestamp : Int}
    {flags : Int32}
    (failed : st.nextZxid.create path data timestamp sessionId flags = .err message)
    (q name created : String) : ¬ st.Creatable path flags q name created := by
  intro hc
  have done := (create_ok_iff st.nextZxid path data timestamp sessionId flags created _).mpr
    ⟨q, name, ⟨hc.split, hc.parent, hc.fresh, hc.createdSplit⟩, rfl⟩
  rw [failed] at done
  cases done

/-- A step that logs a record is what its replay does, unless the request was doomed: then the
replay of its record fails. -/
theorem Transition.replays {e : ServerEvent} {op : WalOperation} {events : List WatchEvent}
    (h : Transition env st e (some op) events u) (hl : st.Linked) (hi : st.Indexed)
    (kept : ¬ Lossy st e) (same : st.SameTree r) (orders : HashOrders) :
    (∃ r', Replays orders (r.setLastZxid (st.lastZxid + 1)) op r' ∧ u.SameTree r') ∨
      (Doomed st e ∧ ∀ r', ¬ Replays orders (r.setLastZxid (st.lastZxid + 1)) op r') := by
  have next := same.setLastZxid
  have hiNext : st.nextZxid.Indexed := hi.congr (fun _ => rfl) rfl
  cases h with
  | createSession timeoutMs => exact .inl ⟨_, .createSession _ _, next.map, next.lastZxid, next.index⟩
  | @closeSession id _ ended =>
    cases ended.symm.trans (hl.nextZxid.endSession_eq hiNext env.orders _)
    have deletes := (next.linked hl.nextZxid).deletes_ended (next.indexed hiNext) orders id
    exact .inl ⟨_, .closeSession deletes, next.ended id⟩
  | create checked done =>
    obtain ⟨r', done', same'⟩ := next.create_ok done
    exact .inl ⟨r', .create done', same'.fired⟩
  | @createFails xid id req message checked failed =>
    have none := not_creatable_of_err failed
    refine .inr ⟨⟨checked, none⟩, fun r' replays => ?_⟩
    cases replays with
    | create done =>
      obtain ⟨q, name, ⟨split, parent, fresh, createdSplit⟩, -⟩ :=
        (create_ok_iff _ _ _ _ _ _ _ _).mp done
      rw [next.map] at parent fresh
      exact none q name _ ⟨split, parent, fresh, createdSplit⟩
  | set stored version done =>
    obtain ⟨r', done', same'⟩ := next.set_ok done
    exact .inl ⟨r', .set done', same'.fired⟩
  | @delete xid id req n t checked done =>
    obtain ⟨r', done', same'⟩ := next.delete_ok done
    have unowned : n.stat.ephemeralOwner = 0 := by
      by_contra owned
      exact kept ⟨n, checked, owned⟩
    have whole : t.disowned n.stat.ephemeralOwner req.path = t := by simp [disowned, unowned]
    rw [whole]
    exact .inl ⟨r', .delete done', same'.fired⟩
  | @deleteRoot xid id req n checked root =>
    refine .inr ⟨⟨n, checked, root⟩, fun r' replays => ?_⟩
    cases replays with
    | delete done =>
      obtain ⟨q, name, del, -⟩ := delete_ok done
      exact parentOf_ne_root del.split del.name_ne root
  | multi path =>
    obtain ⟨r', path', same'⟩ := path.replays next
    exact .inl ⟨r', .multi path', same'⟩

theorem KeeperStorage.Replays.unique {orders : HashOrders} {op : WalOperation}
    {r₁ r₂ : KeeperStorage} (h₁ : Replays orders r op r₁) (h₂ : Replays orders r op r₂) : r₁ = r₂ := by
  rw [← replayOperation_iff] at h₁ h₂
  exact Except.ok.inj (h₁.symm.trans h₂)

/-- The step takes an open session, or one with ephemeral nodes, out of the tables without a
record, or it is lossy. -/
def Unlogged (st : KeeperStorage) : ServerEvent → Prop
  | .handle xid id .close =>
    st.sessionState.IsOpen id ∨ Lossy st (.handle xid id .close)
  | e => Lossy st e

theorem not_lossy_of_not_unlogged {e : ServerEvent} (kept : ¬ Unlogged st e) : ¬ Lossy st e := by
  intro lossy
  refine kept ?_
  unfold Unlogged
  split
  · exact .inr lossy
  · exact lossy

/-- A step that logs nothing leaves the open sessions alone. -/
theorem Transition.same_sessions {e : ServerEvent} {events : List WatchEvent}
    (h : Transition env st e none events u) (hl : st.Linked) (hi : st.Indexed)
    (kept : ¬ Unlogged st e) :
    u.sessionState.sessionAndTimeout = st.sessionState.sessionAndTimeout := by
  cases h with
  | touch id =>
    simp only [SessionState.touchSession]
    split <;> rfl
  | unchanged => rfl
  | unflushed failed => rfl
  | read path t => rfl
  | @close xid id t ended =>
    cases ended.symm.trans (hl.endSession_eq hi env.orders _)
    refine Table.remove_of_get_none _ _ (Option.eq_none_iff_forall_ne_some.mpr fun t ht => ?_)
    exact kept (.inl ⟨t, ht⟩)

/-- A record does to the open sessions what its step did. -/
theorem Transition.replays_sessions {e : ServerEvent} {op : WalOperation}
    {events : List WatchEvent} (h : Transition env st e (some op) events u) (hl : st.Linked)
    (hi : st.Indexed) {orders : HashOrders} {r' : KeeperStorage} (replays : Replays orders r op r')
    (same : r.sessionState.sessionAndTimeout = st.sessionState.sessionAndTimeout) :
    r'.sessionState.sessionAndTimeout = u.sessionState.sessionAndTimeout := by
  have hiNext : st.nextZxid.Indexed := hi.congr (fun _ => rfl) rfl
  -- Where the step keeps the sessions, so does the record, unless it opens or closes one.
  have keeps (live : st.sessionState.SameSessions u.sessionState)
      (opens : ∀ id timeoutMs, op ≠ .createSession id timeoutMs)
      (closes : ∀ id, op ≠ .closeSession id) :
      r'.sessionState.sessionAndTimeout = u.sessionState.sessionAndTimeout := by
    have move := replays.sessionMove
    generalize r'.sessionState = sessions at move
    cases move with
    | same h => rw [h.sessions, same, live.sessions]
    | restored id timeoutMs => exact absurd rfl (opens id timeoutMs)
    | ended id => exact absurd rfl (closes id)
  cases h with
  | createSession timeoutMs =>
    cases replays with
    | createSession id timeoutMs =>
      simp [SessionState.restoreSession, same, SessionState.createSession]
  | closeSession ended =>
    cases ended.symm.trans (hl.nextZxid.endSession_eq hiNext env.orders _)
    have move := replays.sessionMove
    generalize r'.sessionState = sessions at move
    cases move with
    | same h opens closes => exact absurd rfl (closes _)
    | ended id => rw [SessionState.without, same]; rfl
  | create checked done =>
    exact keeps (create_ok_sameSessions done).fired (by simp) (by simp)
  | createFails checked failed => exact keeps (.refl _) (by simp) (by simp)
  | set stored version done => exact keeps (set_ok_sameSessions done).fired (by simp) (by simp)
  | delete checked done =>
    exact keeps ((delete_ok_sameSessions done).trans (sameSessions_disowned _ _ _)).fired
      (by simp) (by simp)
  | deleteRoot checked root => exact keeps (.refl _) (by simp) (by simp)
  | multi path => exact keeps path.sameSessions (by simp) (by simp)

end Simulation

namespace KeeperServer
variable {recordBytes : LogRecord → ℕ} {s s' : KeeperServer recordBytes}

/-- The log holds exactly these records, and their indices are the zxids of the past. -/
structure Logs (s : KeeperServer recordBytes) (records : List LogRecord) : Prop where
  settled : WalStore.Settled s.wal records
  increasing : records.Pairwise (·.index < ·.index)
  past : ∀ r ∈ records, 1 ≤ r.index ∧ r.index ≤ s.storage.lastZxid

theorem initial_logs : Logs (initial recordBytes) [] :=
  ⟨WalStore.freshStart_settled _, .nil, by simp⟩

/-- The record a step leaves in the log. -/
def recorded (s : KeeperServer recordBytes) (op : Option WalOperation) : List LogRecord :=
  op.toList.map fun op => ⟨s.storage.lastZxid + 1, op⟩

theorem Logs.step {records : List LogRecord} (h : Logs s records) {op : Option WalOperation}
    (wal : s'.wal = s.logged op)
    (counter : s'.storage.lastZxid = s.storage.lastZxid + op.toList.length) :
    Logs s' (records ++ s.recorded op) := by
  cases op with
  | none =>
    have same : records ++ s.recorded none = records := by simp [recorded]
    rw [same]
    refine ⟨wal ▸ h.settled, h.increasing, fun r mem => ?_⟩
    obtain ⟨first, last⟩ := h.past r mem
    rw [counter]
    exact ⟨first, last⟩
  | some op =>
    have later : ∀ r ∈ records, r.index < s.storage.lastZxid + 1 :=
      fun r mem => Nat.lt_succ_of_le (h.past r mem).2
    have increasing : (records ++ s.recorded (some op)).Pairwise (·.index < ·.index) := by
      refine List.pairwise_append.mpr ⟨h.increasing, by simp [recorded], ?_⟩
      intro r mem q hq
      rw [List.mem_singleton.mp hq]
      exact later r mem
    refine ⟨?_, increasing, ?_⟩
    · have settled := h.settled.appendBatches [s.recorded (some op)] (by simp [recorded])
        (by simp [recorded, LogRecord.format]) (by rwa [List.flatten_singleton])
      rw [List.flatten_singleton] at settled
      rw [wal]
      exact settled
    · intro r mem
      rw [counter]
      obtain mem | mem := List.mem_append.mp mem
      · have := h.past r mem
        simp only [Option.toList_some, List.length_singleton]
        omega
      · rw [List.mem_singleton.mp mem]
        simp

/-- A restart on the log of a server replays its records. -/
theorem Logs.new_iff {records : List LogRecord} (h : Logs s records) (orders : ℕ → HashOrders)
    (st : KeeperStorage) :
    (∃ s', new recordBytes s.wal.segments orders = .ok s' ∧ s'.storage = st) ↔
      Run (KeeperStorage.ReplaysRecord orders) (.new 500) records st := by
  have fits : ∀ r ∈ records, True := fun _ _ => trivial
  obtain ⟨w, opened, settled, -⟩ :=
    h.settled.reopen (LogRecord.format_lawful recordBytes) fits maxSegmentBytes
  have replay : w.replay = (records, none) := by
    simpa using settled.replay (LogRecord.format_lawful recordBytes) fits
  rw [← KeeperStorage.replayAll_iff, new]
  simp only [opened, replay]
  cases KeeperStorage.replayAll orders (.new 500) records with
  | error message => simp
  | ok storage =>
    constructor
    · rintro ⟨s', started, rfl⟩
      cases started
      rfl
    · intro replayed
      cases replayed
      exact ⟨_, rfl, rfl⟩

/-- A step of a lifetime in which every flush succeeds. -/
def FlushedStep (s : KeeperServer recordBytes) (e : Env × ServerEvent)
    (s' : KeeperServer recordBytes) : Prop :=
  s.LifeStep e s' ∧ e.1.flush = .succeeds

/-- What a step of such a lifetime does to the tree and to the log. -/
theorem FlushedStep.logs {e : Env × ServerEvent} {records : List LogRecord}
    (h : s.FlushedStep e s') (hl : s.storage.Linked) (logs : Logs s records) :
    ∃ op events, Transition e.1 s.storage e.2 op events s'.storage ∧
      Logs s' (records ++ s.recorded op) := by
  obtain ⟨out, op, -, move, wal⟩ := h.1.2.transition hl
  exact ⟨op, out.watchEvents, move, logs.step (wal h.2) (move.lastZxid h.2)⟩

/-- Whatever the records rebuild agrees with the live server. -/
structure Tracks (s : KeeperServer recordBytes) (records : List LogRecord) : Prop where
  linked : s.storage.Linked
  indexed : s.storage.Indexed
  logs : Logs s records
  rebuilt : ∀ orders r, Run (KeeperStorage.ReplaysRecord orders) (.new 500) records r →
    s.storage.SameTree r ∧
      r.sessionState.sessionAndTimeout = s.storage.sessionState.sessionAndTimeout

theorem initial_tracks : Tracks (initial recordBytes) [] := by
  refine ⟨KeeperStorage.new_linked 500, KeeperStorage.new_indexed 500, initial_logs, ?_⟩
  intro orders r replayed
  rw [replayed.nil_eq]
  exact ⟨.refl _, rfl⟩

theorem Tracks.step {e : Env × ServerEvent} {records : List LogRecord} (h : Tracks s records)
    (last : s.FlushedStep e s') (kept : ¬ Unlogged s.storage e.2) :
    ∃ records, Tracks s' records := by
  obtain ⟨hl, hi, logs, rebuilt⟩ := h
  obtain ⟨op, events, move, logs'⟩ := last.logs hl logs
  have lossless := not_lossy_of_not_unlogged kept
  refine ⟨_, last.1.2.linked hl, last.1.indexed hl hi, logs', ?_⟩
  intro orders r' replayed
  cases op with
  | none =>
    rw [recorded, Option.toList_none, List.map_nil, List.append_nil] at replayed
    obtain ⟨same, sessions⟩ := rebuilt orders r' replayed
    have quiet := move.sameTree hl hi last.2 lossless
    refine ⟨quiet.symm.trans same, ?_⟩
    rw [sessions, move.same_sessions hl hi kept]
  | some op =>
    obtain ⟨r, earlier, replays⟩ := replayed.snoc_split
    obtain ⟨same, sessions⟩ := rebuilt orders r earlier
    have counted : (r.setLastZxid (s.storage.lastZxid + 1)).sessionState = r.sessionState := rfl
    refine ⟨?_, move.replays_sessions hl hi replays (by rw [counted, sessions])⟩
    rcases move.replays hl hi lossless same (orders (s.storage.lastZxid + 1)) with
      ⟨r'', replays', same'⟩ | ⟨-, never⟩
    · rwa [KeeperStorage.Replays.unique replays replays']
    · exact absurd replays (never r')

/-- In a lifetime whose flushes succeed, and in which no step changes what is durable behind the
back of the log, a restart that completes brings back exactly what is durable. -/
theorem recovery_durable {es : List (Env × ServerEvent)}
    (life : Run (fun s e s' => FlushedStep s e s' ∧ ¬ Unlogged s.storage e.2)
      (initial recordBytes) es s) (orders : ℕ → HashOrders)
    (restarted : new recordBytes s.wal.segments orders = .ok s') :
    s'.storage.durable = s.storage.durable := by
  obtain ⟨records, tracks⟩ := life.invariant (fun s => ∃ records, Tracks s records)
    ⟨[], initial_tracks⟩ (fun _ _ _ ⟨_, tracks⟩ last => tracks.step last.1 last.2)
  have replayed := (tracks.logs.new_iff orders s'.storage).mp ⟨s', restarted, rfl⟩
  obtain ⟨same, sessions⟩ := tracks.rebuilt orders s'.storage replayed
  exact KeeperStorage.Durable.ext same.map same.lastZxid sessions same.index

theorem FlushedStep.next {e : Env × ServerEvent} (hl : s.storage.Linked)
    (admitted : e.2.Admitted s.storage.sessionState) (flushed : e.1.flush = .succeeds) :
    s.FlushedStep e (s.next e) :=
  ⟨⟨admitted, step_next hl e flushed⟩, flushed⟩

/-- A node is there again after a restart. -/
theorem recovery_durable_node :
    ∃ (s s' : KeeperServer (fun _ => 1)) (orders : ℕ → HashOrders),
      new (fun _ => 1) s.wal.segments orders = .ok s' ∧ s'.storage.durable = s.storage.durable ∧
      s'.storage.map.get "/a" ≠ none := by
  let first : Env × ServerEvent := (.working 0, .createSession 5000)
  let second : Env × ServerEvent := (.working 1, .handle 1 1 (.create ⟨"/a", [], 0⟩))
  have opens : FlushedStep (initial fun _ => 1) first _ :=
    .next initial_reachable.linked trivial rfl
  have creates : FlushedStep _ second _ :=
    .next (opens.1.2.linked initial_reachable.linked) ⟨by decide, by decide⟩ rfl
  have life : Run (fun s e s' => FlushedStep s e s' ∧ ¬ Unlogged s.storage e.2)
      (initial fun _ => 1) _ _ := (Run.single ⟨opens, id⟩).snoc ⟨creates, id⟩
  obtain ⟨s', restarted⟩ : ∃ s', new (fun _ => 1)
      (((initial fun _ => 1).next first).next second).wal.segments
      (fun _ => ⟨.choice, .choice, .choice⟩) = .ok s' := ⟨_, rfl⟩
  have durable := recovery_durable life _ restarted
  refine ⟨_, s', _, restarted, durable, ?_⟩
  have map : s'.storage.map = _ := congrArg KeeperStorage.Durable.map durable
  rw [map]
  decide

/-- An explicit close is not logged, so the session is open again after a restart. -/
theorem closed_session_returns :
    ¬ ∀ es (s s' : KeeperServer (fun _ => 1)) orders, Run FlushedStep (initial _) es s →
      new (fun _ => 1) s.wal.segments orders = .ok s' →
      s'.storage.durable = s.storage.durable := by
  intro all
  let first : Env × ServerEvent := (.working 0, .createSession 5000)
  let second : Env × ServerEvent := (.working 1, .handle 1 1 .close)
  have opens : FlushedStep (initial fun _ => 1) first _ :=
    .next initial_reachable.linked trivial rfl
  have closes : FlushedStep _ second _ :=
    .next (opens.1.2.linked initial_reachable.linked) ⟨by decide, by decide⟩ rfl
  obtain ⟨s', restarted, again⟩ : ∃ s', new (fun _ => 1)
      (((initial fun _ => 1).next first).next second).wal.segments
      (fun _ => ⟨.choice, .choice, .choice⟩) = .ok s' ∧
      s'.storage.durable.sessionAndTimeout.get 1 = some 5000 := ⟨_, rfl, rfl⟩
  rw [all _ _ s' _ ((Run.single opens).snoc closes) restarted] at again
  cases again

/-- The step is lossy, or logs a record that no replay can follow. -/
def Unreplayable (st : KeeperStorage) (e : ServerEvent) : Prop := Lossy st e ∨ Doomed st e

/-- The records rebuild the tree of the live server. -/
structure Rebuilds (s : KeeperServer recordBytes) (records : List LogRecord) : Prop where
  linked : s.storage.Linked
  indexed : s.storage.Indexed
  logs : Logs s records
  rebuilt : ∀ orders, ∃ r, Run (KeeperStorage.ReplaysRecord orders) (.new 500) records r ∧
    s.storage.SameTree r

theorem initial_rebuilds : Rebuilds (initial recordBytes) [] :=
  ⟨KeeperStorage.new_linked 500, KeeperStorage.new_indexed 500, initial_logs,
    fun _ => ⟨_, .nil, .refl _⟩⟩

theorem Rebuilds.step {e : Env × ServerEvent} {records : List LogRecord} (h : Rebuilds s records)
    (last : s.FlushedStep e s') (kept : ¬ Unreplayable s.storage e.2) :
    ∃ records, Rebuilds s' records := by
  obtain ⟨hl, hi, logs, rebuilt⟩ := h
  obtain ⟨op, events, move, logs'⟩ := last.logs hl logs
  obtain ⟨lossless, undoomed⟩ := not_or.mp kept
  refine ⟨_, last.1.2.linked hl, last.1.indexed hl hi, logs', fun orders => ?_⟩
  obtain ⟨r, replayed, same⟩ := rebuilt orders
  cases op with
  | none =>
    have quiet := move.sameTree hl hi last.2 lossless
    exact ⟨r, by simpa [recorded] using replayed, quiet.symm.trans same⟩
  | some op =>
    rcases move.replays hl hi lossless same (orders (s.storage.lastZxid + 1)) with
      ⟨r', replays, same'⟩ | ⟨doomed, -⟩
    · exact ⟨r', replayed.snoc replays, same'⟩
    · exact absurd doomed undoomed

/-- In a lifetime whose flushes succeed, and in which no step is lossy or logs a request that then
fails, the server can always restart on its own log. -/
theorem restart_completes {es : List (Env × ServerEvent)}
    (life : Run (fun s e s' => FlushedStep s e s' ∧ ¬ Unreplayable s.storage e.2)
      (initial recordBytes) es s) (orders : ℕ → HashOrders) :
    ∃ s', new recordBytes s.wal.segments orders = .ok s' := by
  obtain ⟨records, rebuilds⟩ := life.invariant (fun s => ∃ records, Rebuilds s records)
    ⟨[], initial_rebuilds⟩ (fun _ _ _ ⟨_, rebuilds⟩ last => rebuilds.step last.1 last.2)
  obtain ⟨r, replayed, -⟩ := rebuilds.rebuilt orders
  obtain ⟨s', restarted, -⟩ := (rebuilds.logs.new_iff orders r).mpr replayed
  exact ⟨s', restarted⟩

/-- A server restarts after it served a create. -/
theorem restart_completes_created :
    ∃ (s s' : KeeperServer (fun _ => 1)) (orders : ℕ → HashOrders),
      s.storage.map.get "/a" ≠ none ∧ new (fun _ => 1) s.wal.segments orders = .ok s' := by
  let first : Env × ServerEvent := (.working 0, .createSession 5000)
  let second : Env × ServerEvent := (.working 1, .handle 1 1 (.create ⟨"/a", [], 0⟩))
  have opens : FlushedStep (initial fun _ => 1) first _ :=
    .next initial_reachable.linked trivial rfl
  have creates : FlushedStep _ second _ :=
    .next (opens.1.2.linked initial_reachable.linked) ⟨by decide, by decide⟩ rfl
  have fine : ¬ Unreplayable ((initial fun _ => 1).next first).storage second.2 := by
    rintro (lossy | ⟨-, never⟩)
    · exact lossy
    · exact never "/" "a" "/a" ⟨⟨"a", by decide, by decide⟩, ⟨{}, rfl, rfl, rfl⟩, rfl, by decide⟩
  have life : Run (fun s e s' => FlushedStep s e s' ∧ ¬ Unreplayable s.storage e.2)
      (initial fun _ => 1) _ _ :=
    (Run.single ⟨opens, not_or.mpr ⟨id, id⟩⟩).snoc ⟨creates, fine⟩
  obtain ⟨s', restarted⟩ := restart_completes life fun _ => ⟨.choice, .choice, .choice⟩
  exact ⟨_, s', _, by decide, restarted⟩

/-- A create under an ephemeral node is refused, but it is in the log, and no start gets past it. -/
theorem refused_create_blocks_restart :
    ¬ ∀ es (s : KeeperServer (fun _ => 1)) orders, Run FlushedStep (initial _) es s →
      ∃ s', new (fun _ => 1) s.wal.segments orders = .ok s' := by
  intro all
  let first : Env × ServerEvent := (.working 0, .createSession 5000)
  let second : Env × ServerEvent := (.working 1, .handle 1 1 (.create ⟨"/lock", [], 1⟩))
  let third : Env × ServerEvent := (.working 2, .handle 2 1 (.create ⟨"/lock/a", [], 0⟩))
  have opens : FlushedStep (initial fun _ => 1) first _ :=
    .next initial_reachable.linked trivial rfl
  have linked := opens.1.2.linked initial_reachable.linked
  have locks : FlushedStep _ second _ := .next linked ⟨by decide, by decide⟩ rfl
  have refused : FlushedStep _ third _ :=
    .next (locks.1.2.linked linked) ⟨by decide, by decide⟩ rfl
  have fails : (new (fun _ => 1)
      ((((initial fun _ => 1).next first).next second).next third).wal.segments
      (fun _ => ⟨.choice, .choice, .choice⟩)).isOk = false := by decide +kernel
  obtain ⟨s', restarted⟩ := all _ _ (fun _ => ⟨.choice, .choice, .choice⟩)
    (((Run.single opens).snoc locks).snoc refused)
  rw [restarted] at fails
  cases fails

end KeeperServer
end TinyKeeper
