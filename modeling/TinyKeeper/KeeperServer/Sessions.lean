import TinyKeeper.KeeperServer.Transition
import TinyKeeper.Storage.Ephemeral

/-! Sessions in one lifetime of the server. The index of every session lists exactly the nodes it
owns, so ending a session deletes those nodes and no others. -/
namespace TinyKeeper
namespace SessionState

/-- The session was handed out by a handshake. -/
def Issued (s : SessionState) (id : SessionId) : Prop := 0 < id ∧ id < s.nextSessionId

def IsOpen (s : SessionState) (id : SessionId) : Prop := ∃ t, s.sessionAndTimeout.get id = some t

/-- The paths in the index of a session. -/
def owned (s : SessionState) (id : SessionId) : Finset String := (s.ephemerals.get id).getD ∅

/-- The tables once a session has ended. -/
def without (s : SessionState) (id : SessionId) : SessionState :=
  { s with
    sessionAndTimeout := s.sessionAndTimeout.remove id
    expiryQueue := (s.expiryQueue.remove id).1
    ephemerals := s.ephemerals.remove id }

@[simp] theorem mem_owned (s : SessionState) (id : SessionId) (p : String) :
    p ∈ s.owned id ↔ s.Owns id p := by
  unfold owned Owns
  cases s.ephemerals.get id with
  | none => simp
  | some paths => simp

theorem closeSession_toFinset (s : SessionState) (orders : HashOrders) (id : SessionId) :
    (s.closeSession orders id).2.toFinset = s.owned id := by
  ext p
  rw [List.mem_toFinset, mem_closeSession, mem_owned]

theorem owns_without (s : SessionState) (id id' : SessionId) (p : String) :
    (s.without id).Owns id' p ↔ s.Owns id' p ∧ id' ≠ id := by
  unfold Owns without
  by_cases h : id' = id
  · simp [h]
  · simp [h]

theorem isOpen_without (s : SessionState) (id id' : SessionId) :
    (s.without id).IsOpen id' ↔ s.IsOpen id' ∧ id' ≠ id := by
  unfold IsOpen without
  by_cases h : id' = id
  · simp [h]
  · simp [h]

/-- The two differ in nothing but the index of ephemeral nodes. -/
structure SameSessions (s s' : SessionState) : Prop where
  sessions : s'.sessionAndTimeout = s.sessionAndTimeout
  deadlines : s'.expiryQueue = s.expiryQueue
  nextId : s'.nextSessionId = s.nextSessionId

theorem SameSessions.refl (s : SessionState) : s.SameSessions s := ⟨rfl, rfl, rfl⟩

theorem SameSessions.trans {s₁ s₂ s₃ : SessionState} (h : s₁.SameSessions s₂)
    (h' : s₂.SameSessions s₃) : s₁.SameSessions s₃ :=
  ⟨h'.sessions.trans h.sessions, h'.deadlines.trans h.deadlines, h'.nextId.trans h.nextId⟩

theorem SameSessions.isOpen {s s' : SessionState} (h : s.SameSessions s') (id : SessionId) :
    s'.IsOpen id ↔ s.IsOpen id := by
  rw [IsOpen, h.sessions]
  rfl

theorem SameSessions.fired {s : SessionState} {st : KeeperStorage}
    (h : s.SameSessions st.sessionState) {orders : HashOrders} {path : String}
    {event : WatchEventType} : s.SameSessions (st.fired orders path event).sessionState := h

theorem sameSessions_addEphemeral (s : SessionState) (id : SessionId) (path : String) :
    s.SameSessions (s.addEphemeral id path) := ⟨rfl, rfl, rfl⟩

theorem sameSessions_removeEphemeral (s : SessionState) (id : SessionId) (path : String) :
    s.SameSessions (s.removeEphemeral id path) := by
  unfold removeEphemeral
  cases s.ephemerals.get id with
  | none => exact .refl s
  | some paths =>
    simp only
    split_ifs <;> exact ⟨rfl, rfl, rfl⟩

end SessionState

namespace KeeperStorage
variable {st st' : KeeperStorage}

/-- The calls on the tree leave the sessions alone. -/
theorem create_ok_sameSessions {path created : String} {data : List UInt8} {timestamp : Int}
    {sessionId : SessionId} {flags : Int32}
    (done : st.create path data timestamp sessionId flags = .ok created st') :
    st.sessionState.SameSessions st'.sessionState := by
  rw [(create_ok_sessionState done).2]
  split_ifs
  · exact SessionState.sameSessions_addEphemeral _ _ _
  · exact .refl _

theorem set_ok_sameSessions {path : String} {data : List UInt8} {timestamp : Int}
    (done : st.set path data timestamp = .ok () st') :
    st.sessionState.SameSessions st'.sessionState := by
  rw [set_ok_sessionState done]
  exact .refl _

theorem delete_ok_sameSessions {path : String} (done : st.delete path = .ok () st') :
    st.sessionState.SameSessions st'.sessionState := by
  rw [delete_ok_sessionState done]
  exact .refl _

theorem sameSessions_disowned (st : KeeperStorage) (owner : SessionId) (path : String) :
    st.sessionState.SameSessions (st.disowned owner path).sessionState := by
  unfold disowned
  split_ifs
  · exact SessionState.sameSessions_removeEphemeral _ _ _
  · exact .refl _

/-- The tree once a session has ended: its nodes are gone, and so are its tables. -/
def ended (st : KeeperStorage) (id : SessionId) : KeeperStorage :=
  { st.reaped (st.sessionState.owned id) with sessionState := st.sessionState.without id }

theorem cleanup_append (st : KeeperStorage) (paths paths' : List String) :
    st.cleanup (paths ++ paths') = st.cleanup paths >>= fun st => st.cleanup paths' := by
  induction paths generalizing st with
  | nil => rfl
  | cons path paths ih =>
    rw [List.cons_append, cleanup, cleanup]
    cases st.delete path with
    | ok _ st => exact ih st
    | err _ => exact ih st
    | panic message => rfl

/-- Where every delete succeeds, the cleanup performs them all. -/
theorem cleanup_of_deletes {paths : List String} (h : Run Deletes st paths st') :
    st.cleanup paths = .ok st' := by
  induction h with
  | nil => rfl
  | @snoc paths t path u _ last ih =>
    rw [cleanup_append, ih]
    simp only [bind, Except.bind, cleanup]
    rw [show t.delete path = .ok () u from last]

/-- The deletes at the end of a session all succeed, in whatever order they come. -/
theorem Linked.deletes_ended (hl : st.Linked) (hi : st.Indexed) (orders : HashOrders)
    (id : SessionId) :
    Run Deletes { st with sessionState := st.sessionState.without id }
      (st.sessionState.closeSession orders id).2 (st.ended id) := by
  have dropped : Linked { st with sessionState := st.sessionState.without id } := hl.of_map rfl
  have run := dropped.deletes_reaped (st.sessionState.nodup_closeSession orders id) (by
    intro p hp
    obtain ⟨hid, owner⟩ := (hi id p).mp ((st.sessionState.mem_closeSession orders id p).mp hp)
    obtain ⟨n, hn, ho⟩ := (st.ownerOf_eq_some p id).mp owner
    exact ⟨n, hn, ho ▸ hid⟩)
  rw [SessionState.closeSession_toFinset] at run
  exact run

theorem Linked.endSession_eq (hl : st.Linked) (hi : st.Indexed) (orders : HashOrders)
    (id : SessionId) : KeeperServer.endSession st orders id = .ok (st.ended id) :=
  cleanup_of_deletes (hl.deletes_ended hi orders id)

theorem ownerOf_ended (hi : st.Indexed) (id : SessionId) (p : String) :
    (st.ended id).ownerOf p =
      if id ≠ 0 ∧ st.ownerOf p = some id then none else st.ownerOf p := by
  have closed : (st.ended id).ownerOf p = (st.reaped (st.sessionState.owned id)).ownerOf p := rfl
  rw [closed, ownerOf_reaped]
  simp only [SessionState.mem_owned, hi id p]

theorem Indexed.ended (hi : st.Indexed) (id : SessionId) : (st.ended id).Indexed := by
  intro id' p
  have sessions : (st.ended id).sessionState = st.sessionState.without id := rfl
  rw [sessions, SessionState.owns_without, hi id' p, ownerOf_ended hi]
  by_cases own : id ≠ 0 ∧ st.ownerOf p = some id
  · rw [if_pos own, own.2]
    simp only [Option.some.injEq, reduceCtorEq, and_false, iff_false]
    exact fun h => h.2 h.1.2.symm
  · rw [if_neg own]
    refine ⟨And.left, fun h => ⟨h, ?_⟩⟩
    rintro rfl
    exact own h

theorem Indexed.fired (hi : st.Indexed) (orders : HashOrders) (path : String)
    (event : WatchEventType) : (st.fired orders path event).Indexed :=
  hi.congr (fun _ => rfl) rfl

/-- The end of session `id`, its nodes yielded in this order, takes the tree from `st` to `st'`:
every delete succeeds, the nodes in the index are gone, and the others keep all but the names of
the deleted children and the bookkeeping for them. -/
structure Reaps (orders : HashOrders) (id : SessionId) (st st' : KeeperStorage) : Prop where
  deletes : ∃ u, Run Deletes { st with sessionState := st.sessionState.without id }
    (st.sessionState.closeSession orders id).2 u ∧ u.map = st'.map
  gone : ∀ p, st.sessionState.Owns id p → st'.map.get p = none
  kept : ∀ p, ¬ st.sessionState.Owns id p → st'.map.get p =
    (st.map.get p).map (·.reap (childrenIn (st.sessionState.owned id) p) st.lastZxid)

theorem Linked.reaps_ended (hl : st.Linked) (hi : st.Indexed) (orders : HashOrders)
    (id : SessionId) : st.Reaps orders id (st.ended id) where
  deletes := ⟨st.ended id, hl.deletes_ended hi orders id, rfl⟩
  gone p owns := if_pos (by rwa [SessionState.mem_owned])
  kept p owns := if_neg (by rwa [SessionState.mem_owned])

theorem Reaps.of_map {orders : HashOrders} {id : SessionId} (h : st.Reaps orders id st')
    {st'' : KeeperStorage} (map : st''.map = st'.map) : st.Reaps orders id st'' := by
  obtain ⟨deletes, gone, kept⟩ := h
  rw [← map] at gone kept deletes
  exact ⟨deletes, gone, kept⟩

end KeeperStorage

section Batches
variable {env : Env} {sessionId : SessionId} {st st' : KeeperStorage}

theorem MultiStep.sameSessions {entry : MultiEntry} (h : MultiStep env sessionId st entry st') :
    st.sessionState.SameSessions st'.sessionState := by
  cases h with
  | check => exact .refl _
  | set stored version done updated => exact (KeeperStorage.set_ok_sameSessions done).fired
  | create done => exact (KeeperStorage.create_ok_sameSessions done).fired
  | delete stored version done =>
    exact ((KeeperStorage.delete_ok_sameSessions done).trans
      (KeeperStorage.sameSessions_disowned _ _ _)).fired

theorem MultiRun.sameSessions {entries : List MultiEntry}
    (h : MultiRun env sessionId st entries st') :
    st.sessionState.SameSessions st'.sessionState :=
  h.invariant (fun t => st.sessionState.SameSessions t.sessionState) (.refl _)
    (fun _ _ _ same last => same.trans last.sameSessions)

theorem MultiStep.indexed {entry : MultiEntry} (h : MultiStep env sessionId st entry st')
    (issued : sessionId ≠ 0) (hi : st.Indexed) : st'.Indexed := by
  cases h with
  | check => exact hi
  | set stored version done updated => exact (hi.set_ok done).fired _ _ _
  | create done => exact (hi.create_ok (fun _ => issued) done).fired _ _ _
  | delete stored version done => exact (hi.of_delete_ok stored done).fired _ _ _

theorem MultiRun.indexed {entries : List MultiEntry} (h : MultiRun env sessionId st entries st')
    (issued : sessionId ≠ 0) (hi : st.Indexed) : st'.Indexed :=
  h.invariant KeeperStorage.Indexed hi (fun _ _ _ hi last => last.indexed issued hi)

end Batches

section Transitions
variable {env : Env} {st st' : KeeperStorage}

/-- Requests come from connections, whose session was issued in their handshake. -/
def ServerEvent.Admitted (s : SessionState) : ServerEvent → Prop
  | .handle _ id _ => s.Issued id
  | _ => True

/-- Every transition keeps the index of the sessions in step with the owners in the tree. -/
theorem Transition.indexed {e : ServerEvent} {op : Option WalOperation} {events : List WatchEvent}
    (h : Transition env st e op events st') (hl : st.Linked) (hi : st.Indexed)
    (admitted : e.Admitted st.sessionState) : st'.Indexed := by
  have next : st.nextZxid.Indexed := hi.congr (fun _ => rfl) rfl
  cases h with
  | createSession timeoutMs => exact hi.congr (fun _ => rfl) rfl
  | closeSession ended =>
    cases ended.symm.trans (hl.nextZxid.endSession_eq next env.orders _)
    exact next.ended _
  | touch id =>
    refine hi.congr (fun _ => rfl) ?_
    simp only [SessionState.touchSession]
    split <;> rfl
  | unchanged => exact hi
  | unflushed failed => exact next
  | create checked done => exact (next.create_ok (fun _ => admitted.1.ne') done).fired _ _ _
  | createFails checked failed => exact next
  | set stored version done => exact (next.set_ok done).fired _ _ _
  | delete checked done => exact (next.of_delete_ok checked.stored done).fired _ _ _
  | deleteRoot checked root => exact next
  | read path t => exact hi
  | close ended =>
    cases ended.symm.trans (hl.endSession_eq hi env.orders _)
    exact hi.ended _
  | multi path => exact path.indexed admitted.1.ne' next

end Transitions

namespace KeeperServer
variable {recordBytes : LogRecord → ℕ}

/-- One step in the lifetime of a server. -/
def LifeStep (s : KeeperServer recordBytes) (e : Env × ServerEvent)
    (s' : KeeperServer recordBytes) : Prop :=
  e.2.Admitted s.storage.sessionState ∧ s.Step e s'

/-- One lifetime of the server: it starts on an empty directory and is never restarted. -/
abbrev Lifetime (es : List (Env × ServerEvent)) (s : KeeperServer recordBytes) : Prop :=
  Run LifeStep (initial recordBytes) es s

variable {s s' : KeeperServer recordBytes} {e : Env × ServerEvent} {es : List (Env × ServerEvent)}

theorem LifeStep.indexed (h : s.LifeStep e s') (hl : s.storage.Linked) (hi : s.storage.Indexed) :
    s'.storage.Indexed := by
  obtain ⟨out, op, -, move, -⟩ := h.2.transition hl
  exact move.indexed hl hi h.1

theorem Lifetime.linked_indexed (life : Lifetime es s) :
    s.storage.Linked ∧ s.storage.Indexed :=
  life.invariant (fun s => s.storage.Linked ∧ s.storage.Indexed)
    ⟨KeeperStorage.new_linked 500, KeeperStorage.new_indexed 500⟩
    (fun _ _ _ ⟨hl, hi⟩ last => ⟨last.2.linked hl, last.indexed hl hi⟩)

theorem Lifetime.reachable (life : Lifetime es s) : Reachable s :=
  life.invariant Reachable (.started (new_empty fun _ => ⟨.choice, .choice, .choice⟩))
    (fun _ _ _ hr last => .stepped hr last.2)

theorem Lifetime.next (life : Lifetime es s) (admitted : e.2.Admitted s.storage.sessionState)
    (flushed : e.1.flush = .succeeds) : Lifetime (es ++ [e]) (s.next e) :=
  life.snoc ⟨admitted, step_next life.linked_indexed.1 e flushed⟩

/-- In one lifetime the index of a session lists exactly the nodes it owns, and these are leaves,
so either way to end a session reaps its nodes and touches nothing else. -/
theorem session_end_reaps (life : Lifetime es s) :
    s.storage.Indexed ∧
    (∀ p n, s.storage.map.get p = some n → n.stat.ephemeralOwner ≠ 0 → n.children = ∅) ∧
    ∀ env id,
      (∃ s', s.closeSession env id = .done () s' ∧
        s.storage.nextZxid.Reaps env.orders id s'.storage) ∧
      ∀ xid, ∃ result s', s.handleClose env xid id = .done result s' ∧
        s.storage.Reaps env.orders id s'.storage := by
  obtain ⟨hl, hi⟩ := life.linked_indexed
  refine ⟨hi, hl.leaf, fun env id => ⟨?_, fun xid => ?_⟩⟩
  · have next : s.storage.nextZxid.Indexed := hi.congr (fun _ => rfl) rfl
    have ends := hl.nextZxid.endSession_eq next env.orders id
    rw [closeSession]
    simp only [log_storage, ends]
    exact ⟨_, rfl, hl.nextZxid.reaps_ended next env.orders id⟩
  · rw [handleClose, hl.endSession_eq hi env.orders id]
    exact ⟨_, _, rfl, (hl.reaps_ended hi env.orders id).of_map rfl⟩

/-- A lock is released when its session expires. -/
theorem session_end_reaps_lock :
    ∃ es, ∃ s : KeeperServer (fun _ => 1), Lifetime es s ∧
      s.storage.ownerOf "/lock" = some 1 ∧ s.storage.Indexed ∧
      ∃ s', s.closeSession (.working 5500) 1 = .done () s' ∧
        s'.storage.map.get "/lock" = none := by
  have fresh : Lifetime [] (initial fun _ => 1) := .nil
  have opened := fresh.next (e := (.working 0, .createSession 5000)) trivial rfl
  have life := opened.next (e := (.working 0, .handle 1 1 (.create ⟨"/lock", [], 1⟩)))
    ⟨by decide, by decide⟩ rfl
  obtain ⟨indexed, -, ends⟩ := session_end_reaps life
  obtain ⟨⟨s', closed, reaps⟩, -⟩ := ends (.working 5500) 1
  refine ⟨_, _, life, rfl, indexed, s', closed, reaps.gone "/lock" ?_⟩
  exact (indexed 1 "/lock").mpr ⟨by decide, rfl⟩

end KeeperServer
end TinyKeeper
