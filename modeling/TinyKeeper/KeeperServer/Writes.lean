import TinyKeeper.KeeperServer.Recovery

/-! When the log holds exactly the standalone writes that were applied. -/
namespace TinyKeeper

/-- The write passes the checks that its handler makes before it logs it. -/
def Passes (st : KeeperStorage) : Request → Prop
  | .create req => CreateChecked st req
  | .set req => ∃ n, st.map.get req.path = some n ∧ VersionOk req.version n.stat.version
  | .remove req => ∃ n, DeleteChecked st req n
  | _ => False

/-- A write that was logged has used up one zxid. -/
theorem WriteEnds.lastZxid {env : Env} {id : SessionId} {st st' : KeeperStorage} {req : Request}
    {code : ErrorCode} {body : ReplyBody} {events : List WatchEvent}
    (h : WriteEnds env id st req code body events st') : st'.lastZxid = st.lastZxid + 1 := by
  cases h with
  | create checked done => exact (KeeperStorage.create_ok_stamped done).2
  | createFails checked failed => rfl
  | set stored version done updated => exact (KeeperStorage.set_ok_stamped done).2
  | delete checked done =>
    simpa [KeeperStorage.fired] using (KeeperStorage.delete_ok_stamped done).2
  | deleteRoot checked root => rfl

theorem WriteFails.not_passes {st : KeeperStorage} {req : Request} {code : ErrorCode}
    (h : WriteFails st req code) : ¬ Passes st req := by
  cases h with
  | createExists present => exact fun checked => present checked.absent
  | createInvalid absent invalid =>
    intro checked
    obtain ⟨q, c, split, named, -⟩ := checked.parent
    exact named (invalid q c split)
  | createOrphan absent split named missing =>
    intro checked
    obtain ⟨q', c', split', -, stored⟩ := checked.parent
    cases split.symm.trans split'
    exact stored missing
  | setMissing missing =>
    rintro ⟨n, stored, -⟩
    cases missing.symm.trans stored
  | setVersion stored version =>
    rintro ⟨n, stored', version'⟩
    cases stored.symm.trans stored'
    exact version version'
  | deleteMissing missing =>
    rintro ⟨n, checked⟩
    cases missing.symm.trans checked.stored
  | deleteVersion stored version =>
    rintro ⟨n, checked⟩
    cases stored.symm.trans checked.stored
    exact version checked.version
  | deleteNotEmpty stored version children =>
    rintro ⟨n, checked⟩
    cases stored.symm.trans checked.stored
    exact children checked.childless

theorem WriteEnds.passes {env : Env} {id : SessionId} {st st' : KeeperStorage} {req : Request}
    {code : ErrorCode} {body : ReplyBody} {events : List WatchEvent}
    (h : WriteEnds env id st req code body events st') : Passes st req := by
  cases h with
  | create checked done => exact checked
  | createFails checked failed => exact checked
  | set stored version done updated => exact ⟨_, stored, version⟩
  | delete checked done => exact ⟨_, checked⟩
  | deleteRoot checked root => exact ⟨_, checked⟩

theorem Doomed.passes {st : KeeperStorage} {xid : Int32} {id : SessionId} {req : Request}
    (h : Doomed st (.handle xid id req)) : Passes st req := by
  cases req with
  | create req => exact h.1
  | remove req =>
    obtain ⟨n, checked, -⟩ := h
    exact ⟨n, checked⟩
  | _ => exact h.elim

namespace KeeperServer
variable {recordBytes : LogRecord → ℕ} (s : KeeperServer recordBytes) (env : Env)

variable {s env} in
/-- A write that is answered `Ok` was logged, flushed and carried out. -/
theorem Answers.acknowledged {xid : Int32} {id : SessionId} {req : Request} {op : WalOperation}
    {r : ApplyResult} {s' : KeeperServer recordBytes}
    (h : s.Answers env xid id req op (.done r s')) (ok : r.response.err = .ok) :
    WriteEnds env id s.storage req .ok r.response.body r.watchEvents s'.storage ∧
      r.response = ⟨xid, s'.storage.lastZxid, .ok, r.response.body⟩ ∧
      s.log env op = (⟨s.storage.nextZxid, s'.wal⟩, .ok ()) := by
  generalize he : Exec.done r s' = result at h
  cases h with
  | refused fails =>
    cases he
    exact absurd ok fails.code_ne.1
  | logged ends =>
    rw [finish] at he
    obtain ⟨s₁, error, hlog, -⟩ | ⟨s₁, hlog, storage⟩ := s.log_cases env op
    · simp only [hlog] at he
      cases he
      cases ok
    · simp only [hlog] at he
      cases he
      cases ok
      exact ⟨ends, rfl, by rw [hlog, ← storage]⟩

/-- The call on the tree that a write asks for succeeds, and leaves this tree. -/
inductive Performs (env : Env) (id : SessionId) (st : KeeperStorage) :
    Request → KeeperStorage → Prop
  | create {req : CreateRequest} {path : String} {st' : KeeperStorage}
      (done : st.create req.path req.data env.now id req.flags = .ok path st') :
      Performs env id st (.create req) st'
  | set {req : SetDataRequest} {st' : KeeperStorage}
      (done : st.set req.path req.data env.now = .ok () st') : Performs env id st (.set req) st'
  | remove {req : DeleteRequest} {st' : KeeperStorage} (done : st.delete req.path = .ok () st') :
      Performs env id st (.remove req) st'

/-- The write was applied under the next zxid, and one record of it was appended. -/
structure Applied (id : SessionId) (req : Request) (op : WalOperation) (r : ApplyResult)
    (s' : KeeperServer recordBytes) : Prop where
  code : r.response.err = .ok
  zxid : s'.storage.lastZxid = s.storage.lastZxid + 1
  performed : ∃ st, Performs env id s.storage.nextZxid req st ∧ s'.storage.map = st.map
  appended : s'.wal = (s.wal.appendBatch [⟨s'.storage.lastZxid, op⟩]).1

/-- The write was answered with an error, and left nothing behind. -/
structure LeftOut (r : ApplyResult) (s' : KeeperServer recordBytes) : Prop where
  code : r.response.err ≠ .ok
  zxid : s'.storage.lastZxid = s.storage.lastZxid
  map : s'.storage.map = s.storage.map
  index : s'.storage.sessionState.ephemerals = s.storage.sessionState.ephemerals
  wal : s'.wal = s.wal

/-- The log holds the write exactly if it was applied. -/
def LogsExactly (xid : Int32) (id : SessionId) (req : Request) (op : WalOperation) : Prop :=
  ∃ r s', s.handle env xid id req = .done r s' ∧
    Xor (s.Applied env id req op r s') (s.LeftOut r s')

variable {s env}

theorem finish_flushed (flushed : env.flush = .succeeds) (xid : Int32) (op : WalOperation)
    (r : ApplyResult) (st : KeeperStorage) :
    s.finish env xid op r st = .done r ⟨st, s.logged (some op)⟩ := by
  rw [finish, s.log_succeeds env op flushed]

/-- A write that was logged is applied, unless the tree refuses it. -/
theorem logsExactly_of_ends (flushed : env.flush = .succeeds) {xid : Int32} {id : SessionId}
    {req : Request} {op : WalOperation} {code : ErrorCode} {body : ReplyBody}
    {events : List WatchEvent} {st : KeeperStorage}
    (ends : WriteEnds env id s.storage req code body events st)
    (handled : s.handle env xid id req =
      s.finish env xid op ⟨⟨xid, st.lastZxid, code, body⟩, events⟩ st) :
    s.LogsExactly env xid id req op ↔ ¬ Doomed s.storage (.handle xid id req) := by
  rw [s.finish_flushed flushed] at handled
  have counted := ends.lastZxid
  have applies (ok : code = .ok)
      (performed : ∃ u, Performs env id s.storage.nextZxid req u ∧ st.map = u.map) :
      s.LogsExactly env xid id req op := by
    refine ⟨_, _, handled, .inl ⟨⟨ok, counted, performed, ?_⟩, fun left => left.code ok⟩⟩
    rw [counted]
    rfl
  cases ends with
  | create checked done =>
    obtain ⟨q, name, hc, -⟩ := (KeeperStorage.create_ok_iff _ _ _ _ _ _ _ _).mp done
    refine iff_of_true (applies rfl ⟨_, .create done, rfl⟩) fun doomed => ?_
    exact doomed.2 q name _ ⟨hc.split, hc.parent, hc.fresh, hc.createdSplit⟩
  | createFails checked failed =>
    refine iff_of_false ?_ (not_not.mpr ⟨checked, not_creatable_of_err failed⟩)
    rintro ⟨r, s', handled', outcome⟩
    cases handled.symm.trans handled'
    obtain ⟨applied, -⟩ | ⟨left, -⟩ := outcome
    · cases applied.code
    · exact absurd left.zxid (Nat.succ_ne_self _)
  | set stored version done updated =>
    exact iff_of_true (applies rfl ⟨_, .set done, rfl⟩) fun doomed => doomed
  | delete checked done =>
    refine iff_of_true (applies rfl ⟨_, .remove done, by simp [KeeperStorage.fired]⟩) ?_
    rintro ⟨n', -, root⟩
    obtain ⟨q, name, del, -⟩ := KeeperStorage.delete_ok done
    exact parentOf_ne_root del.split del.name_ne root
  | deleteRoot checked root =>
    refine iff_of_false ?_ (not_not.mpr ⟨_, checked, root⟩)
    rintro ⟨r, s', handled', outcome⟩
    cases handled.symm.trans handled'
    obtain ⟨applied, -⟩ | ⟨left, -⟩ := outcome
    · obtain ⟨u, performs, -⟩ := applied.performed
      cases performs with
      | remove done =>
        obtain ⟨q, name, del, -⟩ := KeeperStorage.delete_ok done
        exact parentOf_ne_root del.split del.name_ne root
    · exact absurd rfl left.code

/-- While its files work, the log holds exactly what is applied, unless a request is doomed: its
handler logs it, and the tree refuses it. -/
theorem logs_exactly_iff (reachable : Reachable s) (flushed : env.flush = .succeeds) (xid : Int32)
    (id : SessionId) (req : Request) (op : WalOperation)
    (writes : (ServerEvent.handle xid id req).submits env.now = some op) :
    s.LogsExactly env xid id req op ↔ ¬ Doomed s.storage (.handle xid id req) := by
  have answers := s.handle_answers env reachable.linked writes
  generalize handled : s.handle env xid id req = result at answers
  cases answers with
  | @refused code fails =>
    refine iff_of_true ⟨_, _, handled, .inr ⟨⟨fails.code_ne.1, rfl, rfl, rfl, rfl⟩, ?_⟩⟩
      (fun doomed => fails.not_passes doomed.passes)
    exact fun applied => absurd applied.zxid (Nat.succ_ne_self _).symm
  | logged ends => exact logsExactly_of_ends flushed ends handled

/-- A create that is logged and applied. -/
theorem logs_exactly_created :
    (initial fun _ => 1).LogsExactly (.working 0) 1 1 (.create ⟨"/a", [], 0⟩)
      (.create "/a" [] 0 0 1) := by
  refine (logs_exactly_iff initial_reachable rfl 1 1 _ _ rfl).mpr fun doomed => ?_
  exact doomed.2 "/" "a" "/a" ⟨⟨"a", by decide, by decide⟩, ⟨{}, rfl, rfl, rfl⟩, rfl, by decide⟩

/-- A create below an ephemeral node is answered with an error, and is in the log. -/
theorem doomed_create_logged :
    ¬ ∀ (s : KeeperServer (fun _ => 1)) env xid id req op, Reachable s →
      env.flush = .succeeds → (ServerEvent.handle xid id req).submits env.now = some op →
      s.LogsExactly env xid id req op := by
  intro all
  have fresh : Reachable (initial fun _ => 1) := initial_reachable
  have opened := fresh.next (.working 0, .createSession 5000) rfl
  have locked := opened.next (.working 1, .handle 1 1 (.create ⟨"/lock", [], 1⟩)) rfl
  obtain ⟨r, s', handled, outcome⟩ := all _ (.working 2) 2 1 (.create ⟨"/lock/a", [], 0⟩) _ locked
    rfl rfl
  cases handled
  obtain ⟨applied, -⟩ | ⟨left, -⟩ := outcome
  · exact absurd applied.code (by decide)
  · exact absurd left.zxid (by decide)

end KeeperServer
end TinyKeeper
