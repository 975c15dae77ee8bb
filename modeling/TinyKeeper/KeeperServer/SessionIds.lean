import TinyKeeper.KeeperServer.Crashes
import TinyKeeper.KeeperServer.Zxids

/-! Session ids over the lifetimes of a server whose flushes succeed. The counter is rebuilt from
the log, so it stays above every id that stands in it, and every id that was returned does. -/
namespace TinyKeeper
namespace SessionState
variable {s s' : SessionState}

theorem Move.nextId_le {now : Int} (h : s.Move now s') : s.nextSessionId ≤ s'.nextSessionId := by
  cases h with
  | same h => exact h.nextId.ge
  | opened timeoutMs => exact Int.le_of_lt (Int.lt_succ _)
  | touched id =>
    unfold touchSession
    split <;> exact Int.le_refl _
  | ended id => exact Int.le_refl _

/-- The counter rebuilt by a replay is above the ids it meets. -/
theorem ReplayMove.nextId {op : WalOperation} (h : s.ReplayMove op s') :
    s.nextSessionId ≤ s'.nextSessionId ∧
      ∀ id timeoutMs, op = .createSession id timeoutMs → id < s'.nextSessionId := by
  cases h with
  | same h opens closes => exact ⟨h.nextId.ge, fun id t here => absurd here (opens id t)⟩
  | restored id timeoutMs =>
    have above (next id : Int) : next ≤ (if id ≥ next then id + 1 else next) ∧
        id < if id ≥ next then id + 1 else next := by
      split_ifs <;> omega
    refine ⟨(above s.nextSessionId id).1, fun id' t here => ?_⟩
    cases here
    exact (above s.nextSessionId id).2
  | ended id =>
    refine ⟨Int.le_refl _, fun id' t here => ?_⟩
    cases here

end SessionState

theorem KeeperStorage.nextId_replay {st st' : KeeperStorage} {orders : ℕ → HashOrders}
    {records : List LogRecord} (h : Run (ReplaysRecord orders) st records st') :
    st.sessionState.nextSessionId ≤ st'.sessionState.nextSessionId ∧
      ∀ r ∈ records, ∀ id timeoutMs, r.op = .createSession id timeoutMs →
        id < st'.sessionState.nextSessionId := by
  induction h with
  | nil => exact ⟨Int.le_refl _, by simp⟩
  | @snoc records t r u _ last ih =>
    obtain ⟨later, above⟩ := (Replays.sessionMove last).nextId
    have counted : (t.setLastZxid r.index).sessionState = t.sessionState := rfl
    rw [counted] at later
    refine ⟨ih.1.trans later, fun r' mem id timeoutMs here => ?_⟩
    obtain mem | mem := List.mem_append.mp mem
    · exact (ih.2 r' mem id timeoutMs here).trans_le later
    · rw [List.mem_singleton.mp mem] at here
      exact above id timeoutMs here

theorem Transition.creates {env : Env} {st st' : KeeperStorage} {e : ServerEvent} {id : SessionId}
    {timeoutMs : Int} {events : List WatchEvent}
    (h : Transition env st e (some (.createSession id timeoutMs)) events st') :
    id = st.sessionState.nextSessionId ∧ st'.sessionState.nextSessionId = id + 1 := by
  cases h
  exact ⟨rfl, rfl⟩

theorem Transition.of_createSession {env : Env} {st st' : KeeperStorage} {timeoutMs : Int}
    {op : Option WalOperation} {events : List WatchEvent}
    (h : Transition env st (.createSession timeoutMs) op events st') :
    op = some (.createSession st.sessionState.nextSessionId timeoutMs) := by
  cases h
  rfl

/-- The id that a call of `create_session` returned. -/
def Episode.returned : Episode → Option SessionId
  | .serve _ _ (.session id) => some id
  | _ => none

namespace KeeperServer
variable {recordBytes : LogRecord → ℕ} {s s' : KeeperServer recordBytes} {env : Env}

theorem exec_session {e : ServerEvent} {id : SessionId}
    (done : s.exec env e = .done (.session id) s') :
    id = s.storage.sessionState.nextSessionId ∧ ∃ timeoutMs, e = .createSession timeoutMs := by
  cases e with
  | createSession timeoutMs =>
    cases done
    exact ⟨rfl, timeoutMs, rfl⟩
  | closeSession id' =>
    rw [exec] at done
    cases closed : s.closeSession env id' <;> simp [closed, Exec.map] at done
  | touch id' => cases done
  | handle xid id' req =>
    rw [exec] at done
    cases handled : s.handle env xid id' req <;> simp [handled, Exec.map] at done

/-- What a step has written when the server dies in it; a session that it opens gets the next
id. -/
theorem InStep.written (h : s.InStep) {e : ServerEvent} {dead : KeeperServer recordBytes}
    (last : (∃ out, s.exec env e = .done out dead) ∨ s.exec env e = .abort dead) :
    ∃ written, recordsOf dead.wal.segments.entries =
        recordsOf s.wal.segments.entries ++ written ∧
      ∀ r ∈ written, ∀ id timeoutMs, r.op = .createSession id timeoutMs →
        id = s.storage.sessionState.nextSessionId := by
  have linked := h.reachable.linked
  have logged (op : WalOperation) (wal : dead.wal = (s.log env op).1.wal)
      (opens : ∀ id timeoutMs, op = .createSession id timeoutMs →
        id = s.storage.sessionState.nextSessionId) :
      ∃ written, recordsOf dead.wal.segments.entries =
          recordsOf s.wal.segments.entries ++ written ∧
        ∀ r ∈ written, ∀ id timeoutMs, r.op = .createSession id timeoutMs →
          id = s.storage.sessionState.nextSessionId := by
    obtain ⟨-, records⟩ := h.tidy.log env op
    rw [h.flushed, List.nil_append, ← wal] at records
    refine ⟨_, records, fun r mem id timeoutMs here => ?_⟩
    have only := (env.flush.reaches_prefix [s.fresh op]).subset mem
    rw [List.mem_singleton.mp only] at here
    exact opens id timeoutMs here
  obtain ⟨out, done⟩ | stops := last
  · obtain ⟨op, move, journal⟩ := served_of_done done linked
    cases journal with
    | quiet wal unsaid calm => exact ⟨[], by rw [wal, List.append_nil], by simp⟩
    | flushed done wal calm =>
      refine logged _ (by rw [wal, done]) ?_
      rintro id timeoutMs rfl
      exact move.creates.1
    | refused submits appends failed told =>
      refine logged _ (by rw [failed]) ?_
      rintro id timeoutMs rfl
      unfold ServerEvent.submits at submits
      split at submits <;> cases submits
    | ignored session wal =>
      refine logged _ wal ?_
      rintro id timeoutMs rfl
      exact move.creates.1
  · obtain ⟨xid, id, ops, operations, s₁, error, -, -, failed, rfl⟩ := served_of_abort stops linked
    refine logged (.multi operations env.now id) (by rw [failed]) ?_
    rintro id timeoutMs ⟨⟩

/-- The counter is above every id in the log, and these ids, all in the log, were returned. -/
structure Issued (s : KeeperServer recordBytes) (ids : List SessionId) : Prop where
  inStep : s.InStep
  positive : 1 ≤ s.storage.sessionState.nextSessionId
  logged : ∀ r ∈ recordsOf s.wal.segments.entries, ∀ id timeoutMs,
    r.op = .createSession id timeoutMs → 1 ≤ id ∧ id < s.storage.sessionState.nextSessionId
  returned : ∀ id ∈ ids, ∃ r ∈ recordsOf s.wal.segments.entries, ∃ timeoutMs,
    r.op = .createSession id timeoutMs
  distinct : ids.Nodup

theorem initial_issued : (initial recordBytes).Issued [] := by
  have none : recordsOf (initial recordBytes).wal.segments.entries = [] := rfl
  refine ⟨initial_inStep, Int.le_refl 1, ?_, by simp, .nil⟩
  rw [none]
  simp

/-- A restart on the log of the server, and on what a step added to it, keeps all ids apart. -/
theorem Issued.of_new {ids : List SessionId} (h : s.Issued ids) {dir : Segments LogRecord}
    {zxid : ℕ} {orders : ℕ → HashOrders} (gapless : Gapless dir zxid) (ne : dir.entries ≠ [])
    (started : new recordBytes dir orders = .ok s') {written : List LogRecord}
    (records : recordsOf dir.entries = recordsOf s.wal.segments.entries ++ written)
    (opens : ∀ r ∈ written, ∀ id timeoutMs, r.op = .createSession id timeoutMs →
      id = s.storage.sessionState.nextSessionId) : s'.Issued ids := by
  obtain ⟨inStep, segments, -⟩ := InStep.of_new gapless ne started
  have replayed := new_replays started
  rw [recordsIn_eq] at replayed
  obtain ⟨later, above⟩ := KeeperStorage.nextId_replay replayed
  refine ⟨inStep, later, ?_, ?_, h.distinct⟩
  · rw [segments]
    intro r mem id timeoutMs here
    refine ⟨?_, above r mem id timeoutMs here⟩
    rw [records] at mem
    obtain mem | mem := List.mem_append.mp mem
    · exact (h.logged r mem id timeoutMs here).1
    · rw [opens r mem id timeoutMs here]
      exact h.positive
  · intro id mem
    obtain ⟨r, there, opened⟩ := h.returned id mem
    refine ⟨r, ?_, opened⟩
    rw [segments, records]
    exact List.mem_append_left _ there

theorem Issued.serve {ids : List SessionId} (h : s.Issued ids) {e : ServerEvent} {out : Output}
    (flushed : env.flush = .succeeds) (done : s.exec env e = .done out s') :
    s'.Issued (ids ++ (Episode.serve env e out).returned.toList) := by
  have linked := h.inStep.reachable.linked
  obtain ⟨inStep, op, move, records, -, -⟩ := h.inStep.serve flushed done
  have later := (move.sessionMove linked h.inStep.reachable.kept.covered).nextId_le
  rw [recordsIn_eq, recordsIn_eq] at records
  have logged : ∀ r ∈ recordsOf s'.wal.segments.entries, ∀ id timeoutMs,
      r.op = .createSession id timeoutMs →
        1 ≤ id ∧ id < s'.storage.sessionState.nextSessionId := by
    intro r mem id timeoutMs here
    rw [records] at mem
    obtain mem | mem := List.mem_append.mp mem
    · obtain ⟨positive, below⟩ := h.logged r mem id timeoutMs here
      exact ⟨positive, below.trans_le later⟩
    · obtain ⟨op', there, rfl⟩ := List.mem_map.mp mem
      obtain rfl : op = some op' := Option.mem_toList.mp there
      obtain rfl : op' = .createSession id timeoutMs := here
      obtain ⟨next, after⟩ := move.creates
      rw [after]
      exact ⟨next ▸ h.positive, Int.lt_succ id⟩
  have returned : ∀ id ∈ ids, ∃ r ∈ recordsOf s'.wal.segments.entries, ∃ timeoutMs,
      r.op = .createSession id timeoutMs := by
    intro id mem
    obtain ⟨r, there, opened⟩ := h.returned id mem
    refine ⟨r, ?_, opened⟩
    rw [records]
    exact List.mem_append_left _ there
  cases out with
  | session id =>
    have new : (Episode.serve env e (.session id)).returned.toList = [id] := rfl
    obtain ⟨rfl, timeoutMs, rfl⟩ := exec_session done
    obtain rfl := move.of_createSession
    rw [new]
    refine ⟨inStep, h.positive.trans later, logged, ?_, ?_⟩
    · intro id mem
      obtain mem | mem := List.mem_append.mp mem
      · exact returned id mem
      · rw [List.mem_singleton.mp mem, records]
        exact ⟨_, List.mem_append_right _ (List.mem_singleton_self _), timeoutMs, rfl⟩
    · refine List.nodup_append.mpr ⟨h.distinct, List.nodup_singleton _, ?_⟩
      rintro id mem id' new rfl
      obtain ⟨r, there, timeoutMs, opened⟩ := h.returned id mem
      rw [List.mem_singleton.mp new] at opened
      exact absurd (h.logged r there _ timeoutMs opened).2 (Int.lt_irrefl _)
  | closed | touched | applied =>
    refine ⟨inStep, h.positive.trans later, logged, ?_, ?_⟩
    · simpa [Episode.returned] using returned
    · simpa [Episode.returned] using h.distinct

theorem Issued.lives {ids : List SessionId} (h : s.Issued ids) {e : Episode}
    (last : s.Lives e s') : s'.Issued (ids ++ e.returned.toList) := by
  cases e with
  | serve env e out => exact h.serve last.1 last.2
  | restart orders =>
    have started : new recordBytes s.wal.segments orders = .ok s' := last
    have none : ids ++ (Episode.restart orders).returned.toList = ids := List.append_nil ids
    rw [none]
    exact h.of_new h.inStep.gapless h.inStep.tidy.entries_ne_nil started
      (List.append_nil _).symm (by simp)
  | crash env e orders =>
    obtain ⟨reported, dead, stopped, started⟩ := last
    obtain ⟨ne, zxid, gapless⟩ := h.inStep.dead reported stopped
    obtain ⟨written, records, opens⟩ := h.inStep.written stopped
    have none : ids ++ (Episode.crash env e orders).returned.toList = ids := List.append_nil ids
    rw [none]
    exact h.of_new gapless ne started records opens

/-- Over any lifetimes in which the flushes succeed, crashes that leave no part of a record
included, no session id is returned twice, and none is 0. -/
theorem session_ids_unique {es : List Episode} (life : Run Lives (initial recordBytes) es s) :
    (es.filterMap Episode.returned).Nodup ∧ 0 ∉ es.filterMap Episode.returned := by
  have issued : s.Issued (es.filterMap Episode.returned) := by
    induction life with
    | nil => exact initial_issued
    | snoc _ last ih =>
      rw [List.filterMap_append]
      exact ih.lives last
  refine ⟨issued.distinct, fun zero => ?_⟩
  obtain ⟨r, mem, timeoutMs, opened⟩ := issued.returned 0 zero
  exact absurd (issued.logged r mem 0 timeoutMs opened).1 (by decide)

/-- The server dies while it opens a second session; its id is skipped, as its record is there. -/
theorem session_ids_unique_crashed :
    ∃ (s : KeeperServer (fun _ => 1)) (es : List Episode), Run Lives (initial _) es s ∧
      es.filterMap Episode.returned = [1, 3] ∧ ([1, 3] : List SessionId).Nodup := by
  let orders : HashOrders := ⟨.choice, .choice, .choice⟩
  let opened := (initial fun _ => 1).next (.working 0, .createSession 5000)
  let dead := (opened.createSession ⟨1, .syncFails, orders⟩ 5000).2
  have serves : (initial fun _ => 1).Lives
      (.serve (.working 0) (.createSession 5000) (.session 1)) opened := ⟨rfl, rfl⟩
  obtain ⟨s, started, next⟩ : ∃ s, new (fun _ => 1) dead.wal.segments (fun _ => orders) = .ok s ∧
      s.storage.sessionState.nextSessionId = 3 := ⟨_, rfl, rfl⟩
  have crashes : opened.Lives
      (.crash ⟨1, .syncFails, orders⟩ (.createSession 5000) (fun _ => orders)) s :=
    ⟨trivial, dead, .inl ⟨.session 2, rfl⟩, started⟩
  have again : s.Lives (.serve (.working 2) (.createSession 5000) (.session 3))
      (s.createSession (.working 2) 5000).2 := by
    refine ⟨rfl, ?_⟩
    rw [← next]
    rfl
  have life := ((Run.single serves).snoc crashes).snoc again
  exact ⟨_, _, life, rfl, (session_ids_unique life).1⟩

/-- A session is opened by a server on these files: its id, and the files with its record. -/
def createSessionOnDisk {checksum : List UInt8 → BitVec 128} (serialize : WalOperation → List UInt8)
    (st : KeeperStorage) (wal : WalStore (Record.logFormat checksum)) (env : Env)
    (timeoutMs : Int) : SessionId × Segments UInt8 :=
  let opened := (⟨st, WalStore.freshStart _ .empty maxSegmentBytes⟩ :
    KeeperServer (LogRecord.diskBytes serialize)).createSession env timeoutMs
  (opened.1, (wal.appendBatch ((recordsOf opened.2.wal.segments.entries).map
    (LogRecord.onDisk serialize))).1.segments)

/-- The bytes of the first two sessions of a server: the variant, and two varints. -/
def sessionBytes (op : WalOperation) : List UInt8 :=
  if op = .createSession 1 5000 then [3, 2, 0x90, 0x4e]
  else if op = .createSession 2 5000 then [3, 4, 0x90, 0x4e] else []

def sessionFrom (bytes : List UInt8) : Option WalOperation :=
  if bytes = [3, 2, 0x90, 0x4e] then some (.createSession 1 5000)
  else if bytes = [3, 4, 0x90, 0x4e] then some (.createSession 2 5000) else none

/-- The server dies after 20 bytes of the record of a second session. The id is given to a session
of the next life, whose record is written behind these bytes; no start can read it there, and the
life after that gives the id again. -/
theorem torn_session_id_reused :
    ¬ ∀ cut orders st st' wal wal',
      newOnDisk (fun _ => 0) sessionFrom
        (filesOf (((initial (LogRecord.diskBytes sessionBytes)).createSession (.working 0)
          5000).2.torn (fun _ => 0) (.createSession 2 5000) cut)) orders = .ok (st, wal) →
      newOnDisk (fun _ => 0) sessionFrom
        (filesOf (createSessionOnDisk sessionBytes st wal (.working 1) 5000).2) orders =
          .ok (st', wal') →
      (createSessionOnDisk sessionBytes st' wal' (.working 2) 5000).1 ≠
        (createSessionOnDisk sessionBytes st wal (.working 1) 5000).1 := by
  intro all
  let orders : ℕ → HashOrders := fun _ => ⟨.choice, .choice, .choice⟩
  obtain ⟨st, wal, started, next, files⟩ : ∃ st wal, newOnDisk (fun _ => 0) sessionFrom
      (filesOf (((initial (LogRecord.diskBytes sessionBytes)).createSession (.working 0)
        5000).2.torn (fun _ => 0) (.createSession 2 5000) 20)) orders = .ok (st, wal) ∧
      st.sessionState.nextSessionId = 2 ∧
      (createSessionOnDisk sessionBytes st wal (.working 1) 5000).2.entries =
        [(1, Record.bytes (fun _ => 0) ⟨1, 1, 0, 0, [3, 2, 0x90, 0x4e]⟩ ++
          (Record.bytes (fun _ => 0) ⟨1, 2, 0, 0, [3, 4, 0x90, 0x4e]⟩).take 20 ++
          Record.bytes (fun _ => 0) ⟨1, 2, 0, 0, [3, 4, 0x90, 0x4e]⟩)] := by
    rw [newOnDisk, scanDir_of_perm ?_ (.refl _)]
    · exact ⟨_, _, rfl, rfl, rfl⟩
    · decide +kernel
  obtain ⟨st', wal', again, next'⟩ : ∃ st' wal', newOnDisk (fun _ => 0) sessionFrom
      (filesOf (createSessionOnDisk sessionBytes st wal (.working 1) 5000).2) orders =
        .ok (st', wal') ∧ st'.sessionState.nextSessionId = 2 := by
    rw [newOnDisk, scanDir_of_perm ?_ (.refl _)]
    · generalize createSessionOnDisk sessionBytes st wal (.working 1) 5000 = opened at files
      obtain ⟨id, ⟨entries, sorted⟩⟩ := opened
      obtain rfl := files
      exact ⟨_, _, rfl, rfl⟩
    · simp [files]
  exact all 20 orders st st' wal wal' started again (next'.trans next.symm)

end KeeperServer
end TinyKeeper
