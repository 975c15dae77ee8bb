import TinyKeeper.KeeperServer.Expiry

/-! Removals and their watches. A removal that a client asks for fires the watches it triggers; the
two ends of a session remove its nodes without firing any. -/
namespace TinyKeeper

/-- Every session with a watch that the removal of `p` triggers is told about it, and the watch is
consumed; `held` is what was registered at the removal, `left` what is registered afterwards. -/
def WatchState.Notifies (held left : WatchState) (events : List WatchEvent) (p : String) : Prop :=
  ∀ t q id, DeletionWatch p t q → Registered held t q id →
    deletionEvent t q id ∈ events ∧ ¬ Registered left t q id ∧ ¬ Recorded left id ⟨q, t⟩

/-- The step to `st'` removes the node at `p`; `held` are the watches at that moment. -/
inductive Removes (env : Env) (st st' : KeeperStorage) : ServerEvent → String → WatchState → Prop
  | remove {xid : Int32} {id : SessionId} {req : DeleteRequest}
      (stored : st.map.get req.path ≠ none) (gone : st'.map.get req.path = none) :
      Removes env st st' (.handle xid id (.remove req)) req.path st.watchState
  | batch {xid : Int32} {id : SessionId} {before after : List MultiEntry} {req : DeleteRequest}
      {response : MultiOpResponse} {events : List WatchEvent} {st₁ st₂ : KeeperStorage}
      (init : MultiRun env id st.nextZxid before st₁)
      (removal : MultiStep env id st₁ (.delete req, response, events) st₂)
      (rest : MultiRun env id st₂ after st') :
      Removes env st st'
        (.handle xid id (.multi ((before ++ (.delete req, response, events) :: after).map Prod.fst)))
        req.path st₁.watchState
  | close {xid : Int32} {id : SessionId} {p : String} (owner : st.ownerOf p = some id)
      (session : id ≠ 0) (gone : st'.map.get p = none) :
      Removes env st st' (.handle xid id .close) p st.watchState
  | expire {id : SessionId} {p : String} (owner : st.ownerOf p = some id)
      (session : id ≠ 0) (gone : st'.map.get p = none) :
      Removes env st st' (.closeSession id) p st.watchState

/-- The two ways to end a session. -/
inductive ServerEvent.Ends (id : SessionId) : ServerEvent → Prop
  | close (xid : Int32) : Ends id (.handle xid id .close)
  | expire : Ends id (.closeSession id)

/-- Some watch waits for the removal of the node at `p`. -/
def WatchState.Watched (ws : WatchState) (p : String) : Prop :=
  ∃ t q id, DeletionWatch p t q ∧ Registered ws t q id

namespace KeeperStorage
variable {st st' : KeeperStorage} {path : String}

theorem create_ok_watchState {created : String} {data : List UInt8} {timestamp : Int}
    {sessionId : SessionId} {flags : Int32}
    (done : st.create path data timestamp sessionId flags = .ok created st') :
    st'.watchState = st.watchState := by
  obtain ⟨q, name, -, rfl⟩ := (st.create_ok_iff _ _ _ _ _ _ _).mp done
  rfl

theorem set_ok_watchState {data : List UInt8} {timestamp : Int}
    (done : st.set path data timestamp = .ok () st') : st'.watchState = st.watchState := by
  obtain ⟨n, -, he⟩ | ⟨-, he⟩ := st.set_eq path data timestamp
  · rw [he, Outcome.ok.injEq] at done
    rw [← done.2]
    rfl
  · rw [he] at done
    contradiction

theorem delete_ok_watchState (done : st.delete path = .ok () st') :
    st'.watchState = st.watchState := by
  obtain ⟨q, name, -, -, rfl⟩ := delete_ok done
  rfl

@[simp] theorem fired_watchState (orders : HashOrders) (event : WatchEventType) :
    (st.fired orders path event).watchState = (st.watchState.fire orders path event).1 := rfl

/-- The end of a session removes every node the session owns. -/
theorem Linked.endSession_get (hl : st.Linked) (hc : st.Covered) {orders : HashOrders}
    {id : SessionId} (h : KeeperServer.endSession st orders id = .ok st') (hid : id ≠ 0)
    {p : String} (owner : st.ownerOf p = some id) : st'.map.get p = none := by
  obtain ⟨-, owners, gone⟩ := hl.endSession_spec hc h
  cases hn : st'.map.get p with
  | none => rfl
  | some n =>
    have left : st'.ownerOf p = some n.stat.ephemeralOwner := by simp [ownerOf, hn]
    have same := owners _ p left
    rw [owner, Option.some.injEq] at same
    exact absurd (same ▸ left) (gone p hid)

theorem cleanup_watchState {paths : List String} (h : st.cleanup paths = .ok st') :
    st'.watchState = st.watchState := by
  induction paths generalizing st with
  | nil =>
    cases h
    rfl
  | cons path paths ih =>
    rw [cleanup] at h
    cases done : st.delete path with
    | ok _ t =>
      rw [done] at h
      rw [ih h, delete_ok_watchState done]
    | err _ =>
      rw [done] at h
      exact ih h
    | panic message =>
      rw [done] at h
      cases h

theorem endSession_watchState {orders : HashOrders} {id : SessionId}
    (h : KeeperServer.endSession st orders id = .ok st') : st'.watchState = st.watchState := by
  have same := cleanup_watchState (show KeeperStorage.cleanup
    { st with sessionState := (st.sessionState.closeSession orders id).1 } _ = .ok st' from h)
  exact same

theorem ReplayStep.watchState {timestamp : Int} {sessionId : SessionId}
    {operation : MultiWalOperation} (h : ReplayStep timestamp sessionId st operation st') :
    st'.watchState = st.watchState := by
  cases h with
  | create done => exact create_ok_watchState done
  | set done => exact set_ok_watchState done
  | delete stored done =>
    rw [disowned_watchState]
    exact delete_ok_watchState done

/-- The log holds no watches. -/
theorem Replays.watchState {orders : HashOrders} {op : WalOperation}
    (h : Replays orders st op st') : st'.watchState = st.watchState := by
  cases h with
  | create done => exact create_ok_watchState done
  | set done => exact set_ok_watchState done
  | delete done => exact delete_ok_watchState done
  | createSession id timeoutMs => rfl
  | closeSession deletes =>
    have same := cleanup_watchState (cleanup_of_deletes deletes)
    exact same
  | multi path =>
    exact path.invariant (fun t => t.watchState = st.watchState) rfl
      (fun _ _ _ same last => last.watchState.trans same)

end KeeperStorage

/-- A deletion tells about everything it triggers, and nothing of it is left. -/
theorem WatchState.notifies_fire (ws : WatchState) (orders : HashOrders) (path : String) :
    ws.Notifies (ws.fire orders path .deleted).1 (ws.fire orders path .deleted).2 path := by
  intro t q id triggers held
  refine ⟨ws.deletionEvent_mem_fire orders path t q id triggers held, ?_,
    ws.fire_deleted_recorded orders path t q id triggers held⟩
  rw [fire_deleted_registered]
  exact fun left => left.2 triggers

/-- More notifications, and fewer registrations. -/
theorem WatchState.Notifies.mono {held left left' : WatchState} {events events' : List WatchEvent}
    {p : String} (h : held.Notifies left events p) (sub : events ⊆ events')
    (registered : ∀ t q id, Registered left' t q id → Registered left t q id)
    (recorded : ∀ id info, Recorded left' id info → Recorded left id info) :
    held.Notifies left' events' p := by
  intro t q id triggers watch
  obtain ⟨told, consumed, forgotten⟩ := h t q id triggers watch
  exact ⟨sub told, fun again => consumed (registered t q id again),
    fun again => forgotten (recorded id _ again)⟩

section Batches
variable {env : Env} {sessionId : SessionId} {st st' : KeeperStorage}

/-- A batch makes no registration. -/
theorem MultiStep.watch_le {entry : MultiEntry} (h : MultiStep env sessionId st entry st') :
    (∀ t p id, st'.watchState.Registered t p id → st.watchState.Registered t p id) ∧
      ∀ id info, st'.watchState.Recorded id info → st.watchState.Recorded id info := by
  cases h with
  | check => exact ⟨fun _ _ _ h => h, fun _ _ h => h⟩
  | @set u req n n' stored version done updated =>
    rw [← KeeperStorage.set_ok_watchState done]
    exact WatchState.fire_le _ _ _ _
  | create done =>
    rw [← KeeperStorage.create_ok_watchState done]
    exact WatchState.fire_le _ _ _ _
  | delete stored version done =>
    rw [← KeeperStorage.delete_ok_watchState done, KeeperStorage.fired_watchState,
      KeeperStorage.disowned_watchState]
    exact WatchState.fire_le _ _ _ _

theorem MultiRun.watch_le {entries : List MultiEntry} (h : MultiRun env sessionId st entries st') :
    (∀ t p id, st'.watchState.Registered t p id → st.watchState.Registered t p id) ∧
      ∀ id info, st'.watchState.Recorded id info → st.watchState.Recorded id info := by
  induction h with
  | nil => exact ⟨fun _ _ _ h => h, fun _ _ h => h⟩
  | snoc _ last ih =>
    exact ⟨fun t p id h => ih.1 t p id (last.watch_le.1 t p id h),
      fun id info h => ih.2 id info (last.watch_le.2 id info h)⟩

/-- A batch tells none but registered sessions. -/
theorem MultiStep.told {entry : MultiEntry} (h : MultiStep env sessionId st entry st')
    {e : WatchEvent} (mem : e ∈ entry.2.2) : ∃ t p, st.watchState.Registered t p e.sessionId := by
  cases h with
  | check => cases mem
  | @set u req n n' stored version done updated =>
    rw [← KeeperStorage.set_ok_watchState done]
    exact WatchState.registered_of_mem_fire _ _ _ _ mem
  | create done =>
    rw [← KeeperStorage.create_ok_watchState done]
    exact WatchState.registered_of_mem_fire _ _ _ _ mem
  | delete stored version done =>
    rw [← KeeperStorage.delete_ok_watchState done]
    exact WatchState.registered_of_mem_fire _ _ _ _ mem

theorem MultiRun.told {entries : List MultiEntry} (h : MultiRun env sessionId st entries st')
    {e : WatchEvent} (mem : e ∈ entries.flatMap (·.2.2)) :
    ∃ t p, st.watchState.Registered t p e.sessionId := by
  induction h with
  | nil => cases mem
  | snoc init last ih =>
    rw [List.flatMap_append, List.mem_append, List.flatMap_singleton] at mem
    obtain mem | mem := mem
    · exact ih mem
    · obtain ⟨t, p, registered⟩ := last.told mem
      exact ⟨t, p, (MultiRun.watch_le init).1 t p _ registered⟩

end Batches

/-- A step tells none but registered sessions. -/
theorem Transition.told {env : Env} {st st' : KeeperStorage} {e : ServerEvent}
    {op : Option WalOperation} {events : List WatchEvent} (h : Transition env st e op events st')
    {event : WatchEvent} (mem : event ∈ events) :
    ∃ t p, st.watchState.Registered t p event.sessionId := by
  cases h with
  | createSession | closeSession | touch | unchanged | unflushed | createFails | read | close =>
    cases mem
  | create checked done =>
    rw [KeeperStorage.create_ok_watchState done] at mem
    exact WatchState.registered_of_mem_fire _ _ _ _ mem
  | set stored version done =>
    rw [KeeperStorage.set_ok_watchState done] at mem
    exact WatchState.registered_of_mem_fire _ _ _ _ mem
  | delete checked done =>
    rw [KeeperStorage.delete_ok_watchState done] at mem
    exact WatchState.registered_of_mem_fire _ _ _ _ mem
  | deleteRoot checked root => exact WatchState.registered_of_mem_fire _ _ _ _ mem
  | multi path => exact path.told mem

/-- A registration is made by a request of the session that it is for. -/
theorem Transition.registered {env : Env} {st st' : KeeperStorage} {e : ServerEvent}
    {op : Option WalOperation} {events : List WatchEvent} (h : Transition env st e op events st')
    {t : WatchType} {p : String} {id : SessionId} (after : st'.watchState.Registered t p id) :
    st.watchState.Registered t p id ∨ ∃ xid req, e = .handle xid id req := by
  cases h with
  | createSession | touch | unchanged | unflushed | createFails => exact .inl after
  | closeSession ended =>
    rw [KeeperStorage.endSession_watchState ended] at after
    exact .inl after
  | create checked done =>
    rw [KeeperStorage.fired_watchState, KeeperStorage.create_ok_watchState done] at after
    exact .inl ((WatchState.fire_le _ _ _ _).1 _ _ _ after)
  | set stored version done =>
    rw [KeeperStorage.fired_watchState, KeeperStorage.set_ok_watchState done] at after
    exact .inl ((WatchState.fire_le _ _ _ _).1 _ _ _ after)
  | delete checked done =>
    rw [KeeperStorage.fired_watchState, KeeperStorage.disowned_watchState,
      KeeperStorage.delete_ok_watchState done] at after
    exact .inl ((WatchState.fire_le _ _ _ _).1 _ _ _ after)
  | deleteRoot checked root => exact .inl ((WatchState.fire_le _ _ _ _).1 _ _ _ after)
  | @read xid id' req path t' =>
    by_cases here : id = id'
    · subst here
      exact .inr ⟨xid, req, rfl⟩
    · refine .inl (WatchState.registered_of_register here after)
  | close ended =>
    have before := WatchState.clear_le _ _ _ after
    rw [KeeperStorage.endSession_watchState ended] at before
    exact .inl before
  | multi path => exact .inl (path.watch_le.1 _ _ _ after)

theorem MultiStep.notifies {env : Env} {sessionId : SessionId} {st st' : KeeperStorage}
    {req : DeleteRequest} {response : MultiOpResponse} {events : List WatchEvent}
    (h : MultiStep env sessionId st (.delete req, response, events) st') :
    st.watchState.Notifies st'.watchState events req.path := by
  cases h with
  | delete stored version done =>
    rw [← KeeperStorage.delete_ok_watchState done, KeeperStorage.fired_watchState,
      KeeperStorage.disowned_watchState]
    exact WatchState.notifies_fire _ _ _

namespace KeeperServer
variable {recordBytes : LogRecord → ℕ} {s s' : KeeperServer recordBytes} {env : Env}
variable {e : ServerEvent} {out : Output}

/-- The server once a session watches the data at a path. -/
def watching (s : KeeperServer recordBytes) (id : SessionId) (path : String) :
    KeeperServer recordBytes :=
  { s with storage := { s.storage with
      watchState := s.storage.watchState.register id path .watch } }

/-- The first session of a server on an empty directory. -/
theorem initial_createSession :
    ∃ (server : KeeperServer fun _ => 1) (n : Node),
      (initial _).exec (.working 0) (.createSession 5000) = .done (.session 1) server ∧
      server.storage.map.get "/" = some n ∧ server.storage.watchState = .new :=
  ⟨_, _, rfl, rfl, rfl⟩

theorem exec_get_watching (env : Env) (xid : Int32) (id : SessionId) (path : String) :
    ∃ r, s.exec env (.handle xid id (.get ⟨path, true⟩)) = .done (.applied r) (s.watching id path) ∧
      r.watchEvents = [] := by
  obtain ⟨code, answer, done, -⟩ := s.handleRead_done xid id ⟨path, true⟩ .watch _
  exact ⟨_, congrArg (Exec.map Output.applied) done, rfl⟩

/-- An unconditional set of a stored node is logged, done and told. -/
theorem exec_set_fires (works : env.flush = .succeeds) (xid : Int32) (id : SessionId)
    {path : String} {n : Node} (stored : s.storage.map.get path = some n) (data : List UInt8) :
    ∃ r s', s.exec env (.handle xid id (.set ⟨path, data, -1⟩)) = .done (.applied r) s' ∧
      r.watchEvents = (s.storage.watchState.fire env.orders path .changed).2 ∧
      s'.storage.watchState = (s.storage.watchState.fire env.orders path .changed).1 ∧
      ∃ n', s'.storage.map.get path = some n' := by
  have again : s.storage.nextZxid.map.get path = some n := stored
  have done := KeeperStorage.set_of_stored again data env.now
  have updated : (s.storage.nextZxid.afterSet path data env.now).map.get path =
      some (n.setData data env.now (s.storage.lastZxid + 1)) := by
    rw [KeeperStorage.get_afterSet, if_pos rfl]
    exact congrArg (Option.map _) again
  rw [exec, handle, handleSet]
  simp only [KeeperStorage.traverse, stored, s.log_succeeds env _ works, done, updated]
  exact ⟨_, _, rfl, rfl, rfl, _, updated⟩

/-- A batch whose reference run completes ends as that run does, if it ends normally. -/
theorem handleMulti_done {xid : Int32} {id : SessionId} {entries : List MultiEntry}
    {st : KeeperStorage} {result : ApplyResult}
    (path : MultiRun env id s.storage.nextZxid entries st)
    (done : s.handleMulti env xid (entries.map Prod.fst) id = .done result s') :
    result.watchEvents = entries.flatMap (·.2.2) ∧ s'.storage = st := by
  rcases s.log_cases env (.multi (entries.flatMap (·.1.logged)) env.now id) with
    ⟨s₁, error, hlog, -⟩ | ⟨s₁, hlog, -⟩
  · rw [handleMulti_aborts path hlog] at done
    cases done
  · rw [handleMulti_completes path hlog] at done
    cases done
    exact ⟨rfl, rfl⟩

/-- The end of a session emits nothing. -/
theorem watchEvents_of_ends {id : SessionId} (hl : s.storage.Linked) (ends : e.Ends id)
    (done : s.exec env e = .done out s') : out.watchEvents = [] := by
  obtain ⟨out', op, done', move, -⟩ := Step.transition (e := (env, e)) ⟨out, done⟩ hl
  rw [done, Exec.done.injEq] at done'
  rw [← done'.1] at move
  generalize out.watchEvents = events at move
  generalize s'.storage = st' at move
  cases ends with
  | close xid => cases move <;> rfl
  | expire => cases move; rfl

/-- The end of a session removes every node the session owns, on either way. -/
theorem removes_of_ends {id : SessionId} (hk : s.storage.Kept) (ends : e.Ends id)
    (done : s.exec env e = .done out s') {p : String} (hid : id ≠ 0)
    (owner : s.storage.ownerOf p = some id) :
    Removes env s.storage s'.storage e p s.storage.watchState := by
  cases ends with
  | close xid =>
    obtain ⟨r, -, handled⟩ := exec_handle done
    obtain ⟨st', ended, rfl⟩ := handle_close handled
    have gone := hk.linked.endSession_get hk.covered ended hid owner
    exact .close owner hid gone
  | expire =>
    obtain ⟨-, ended⟩ := exec_closeSession done
    have covered : s.storage.nextZxid.Covered := hk.covered
    exact .expire owner hid (hk.linked.nextZxid.endSession_get covered ended hid owner)

/-- A removal that a client asks for notifies every watch it triggers. -/
theorem notifies_of_not_ends (hl : s.storage.Linked) (done : s.exec env e = .done out s')
    {p : String} {held : WatchState} (removes : Removes env s.storage s'.storage e p held)
    (others : ∀ id, ¬ e.Ends id) : held.Notifies s'.storage.watchState out.watchEvents p := by
  cases removes with
  | @remove xid id req stored gone =>
    obtain ⟨out', op, done', move, -⟩ := Step.transition (e := (env, _)) ⟨out, done⟩ hl
    rw [done, Exec.done.injEq] at done'
    rw [← done'.1] at move
    generalize out.watchEvents = events at move
    generalize s'.storage = st' at move gone
    cases move with
    | unchanged => exact absurd gone stored
    | unflushed failed => exact absurd gone stored
    | delete checked deleted =>
      rw [← KeeperStorage.nextZxid_watchState, ← KeeperStorage.delete_ok_watchState deleted,
        KeeperStorage.fired_watchState, KeeperStorage.disowned_watchState]
      exact WatchState.notifies_fire _ _ _
    | deleteRoot checked root => exact absurd gone stored
    | read path t => exact absurd gone stored
  | @batch xid id before after req response events st₁ st₂ init removal rest =>
    have path := (init.snoc removal).trans rest
    rw [List.append_assoc, List.singleton_append] at path
    cases result : s.handleMulti env xid
        ((before ++ (.delete req, response, events) :: after).map Prod.fst) id with
    | done r t =>
      rw [exec, handle, result] at done
      cases done
      obtain ⟨emitted, -⟩ := handleMulti_done path result
      refine removal.notifies.mono ?_ (MultiRun.watch_le rest).1 (MultiRun.watch_le rest).2
      rw [Output.watchEvents_applied, emitted]
      intro event mem
      simp [mem]
    | panic message =>
      rw [exec, handle, result] at done
      cases done
    | abort t =>
      rw [exec, handle, result] at done
      cases done
  | close owner session gone => exact absurd (.close _) (others _)
  | expire owner session gone => exact absurd .expire (others _)

/-- A step notifies every watch on every node it removes, exactly if it does not end a session
that owns a watched node. -/
theorem removals_notify_iff (reachable : Reachable s) (done : s.exec env e = .done out s') :
    (∀ p held, Removes env s.storage s'.storage e p held →
      held.Notifies s'.storage.watchState out.watchEvents p) ↔
    ∀ id p, e.Ends id → id ≠ 0 → s.storage.ownerOf p = some id →
      ¬ s.storage.watchState.Watched p := by
  have hk := reachable.kept
  constructor
  · rintro all id p ends hid owner ⟨t, q, w, triggers, held⟩
    obtain ⟨told, -⟩ := all p _ (removes_of_ends hk ends done hid owner) t q w triggers held
    rw [watchEvents_of_ends hk.linked ends done] at told
    cases told
  · intro unwatched p held removes
    have quiet {id : SessionId} (ends : e.Ends id) (hid : id ≠ 0)
        (owner : s.storage.ownerOf p = some id) :
        s.storage.watchState.Notifies s'.storage.watchState out.watchEvents p :=
      fun t q w triggers watch => absurd ⟨t, q, w, triggers, watch⟩ (unwatched id p ends hid owner)
    by_cases ends : ∃ id, e.Ends id
    · obtain ⟨id, ends⟩ := ends
      cases removes with
      | remove stored gone => cases ends
      | batch init removal rest => cases ends
      | close owner session gone => exact quiet (.close _) session owner
      | expire owner session gone => exact quiet .expire session owner
    · exact notifies_of_not_ends hk.linked done removes (fun id h => ends ⟨id, h⟩)

/-- Session 1 watches the node that it removes, and is told. -/
theorem remove_notifies_watcher :
    ∃ (s s' : KeeperServer (fun _ => 1)) (out : Output),
      s.exec (.working 3) (.handle 3 1 (.remove ⟨"/a", -1⟩)) = .done out s' ∧
      s.storage.watchState.Registered .watch "/a" 1 ∧
      s.storage.watchState.Notifies s'.storage.watchState out.watchEvents "/a" := by
  have fresh : Lifetime [] (initial fun _ => 1) := .nil
  have opened := fresh.next (e := (.working 0, .createSession 5000)) trivial rfl
  have created := opened.next (e := (.working 1, .handle 1 1 (.create ⟨"/a", [], 0⟩)))
    ⟨by decide, by decide⟩ rfl
  have watched := created.next (e := (.working 2, .handle 2 1 (.exists ⟨"/a", true⟩)))
    ⟨by decide, by decide⟩ rfl
  obtain ⟨out, done⟩ := step_next watched.linked_indexed.1
    (.working 3, .handle 3 1 (.remove ⟨"/a", -1⟩)) rfl
  refine ⟨_, _, out, done, ⟨_, rfl, by decide⟩, ?_⟩
  exact (removals_notify_iff watched.reachable done).mpr (fun _ _ ends => by cases ends) "/a" _
    (.remove (by decide) rfl)

/-- Session 2 waits for the lock of session 1 and is not told that it is free. -/
theorem expiry_skips_watchers :
    ¬ ∀ (s s' : KeeperServer (fun _ => 1)) env e out, Reachable s →
      s.exec env e = .done out s' → ∀ p held, Removes env s.storage s'.storage e p held →
      held.Notifies s'.storage.watchState out.watchEvents p := by
  intro all
  have fresh : Lifetime [] (initial fun _ => 1) := .nil
  have first := fresh.next (e := (.working 0, .createSession 5000)) trivial rfl
  have second := first.next (e := (.working 0, .createSession 5000)) trivial rfl
  have locked := second.next (e := (.working 1, .handle 1 1 (.create ⟨"/lock", [], 1⟩)))
    ⟨by decide, by decide⟩ rfl
  have waits := locked.next (e := (.working 2, .handle 1 2 (.exists ⟨"/lock", true⟩)))
    ⟨by decide, by decide⟩ rfl
  obtain ⟨out, done⟩ := step_next waits.linked_indexed.1 (.working 5500, .closeSession 1) rfl
  have removes := removes_of_ends (p := "/lock") waits.reachable.kept .expire done
    (by decide) rfl
  obtain ⟨told, -⟩ := all _ _ _ _ out waits.reachable done "/lock" _ removes .watch "/lock" 2
    (.inl ⟨rfl, rfl⟩) ⟨_, rfl, by decide⟩
  rw [watchEvents_of_ends waits.linked_indexed.1 .expire done] at told
  cases told

end KeeperServer
end TinyKeeper
