import TinyKeeper.KeeperServer.Multi

/-! How the handlers answer. A read is answered once the watch it asks for is registered; a
standalone write with the code of a refusal, or behind the record that is logged for it. -/
namespace TinyKeeper

/-- The checks `handleCreate` makes before it logs the request. -/
structure CreateChecked (st : KeeperStorage) (req : CreateRequest) : Prop where
  absent : st.map.get req.path = none
  parent : ∃ q c, parentOf req.path = some (q, c) ∧ c ≠ "" ∧ st.map.get q ≠ none

/-- The checks `handleDelete` makes before it logs the request. -/
structure DeleteChecked (st : KeeperStorage) (req : DeleteRequest) (n : Node) : Prop where
  stored : st.map.get req.path = some n
  version : VersionOk req.version n.stat.version
  childless : n.children = ∅

/-- The standalone writes, each with the operation that is logged for it. -/
def ServerEvent.submits (now : Int) : ServerEvent → Option WalOperation
  | .handle _ id (.create req) => some (.create req.path req.data now req.flags id)
  | .handle _ _ (.set req) => some (.set req.path req.data now)
  | .handle _ _ (.remove req) => some (.delete req.path)
  | _ => none

namespace KeeperStorage

@[simp] theorem nextZxid_map (st : KeeperStorage) : st.nextZxid.map = st.map := rfl

@[simp] theorem nextZxid_lastZxid (st : KeeperStorage) :
    st.nextZxid.lastZxid = st.lastZxid + 1 := rfl

@[simp] theorem nextZxid_sessionState (st : KeeperStorage) :
    st.nextZxid.sessionState = st.sessionState := rfl

@[simp] theorem nextZxid_watchState (st : KeeperStorage) :
    st.nextZxid.watchState = st.watchState := rfl

theorem Linked.nextZxid {st : KeeperStorage} (hl : st.Linked) : st.nextZxid.Linked :=
  hl.of_map rfl

/-- On a linked tree the cleanup never panics. -/
theorem Linked.cleanup {st : KeeperStorage} (hl : st.Linked) (paths : List String) :
    ∃ st', st.cleanup paths = .ok st' ∧ st'.Linked := by
  induction paths generalizing st with
  | nil => exact ⟨st, rfl, hl⟩
  | cons path paths ih =>
    rw [KeeperStorage.cleanup]
    obtain ⟨q, name, hd, he⟩ | ⟨message, he, -⟩ := hl.delete_cases path
    · rw [he]
      exact ih (hl.afterDelete hd)
    · rw [he]
      exact ih hl

/-- The root cannot be deleted, and a cleanup passes over it. -/
theorem cleanup_root (st : KeeperStorage) : st.cleanup ["/"] = .ok st := by
  obtain ⟨q, name, hd, -⟩ | ⟨message, he, -⟩ | ⟨q, name, hd, -⟩ := st.delete_eq "/"
  · exact absurd rfl (parentOf_ne_root hd.split hd.name_ne)
  · rw [KeeperStorage.cleanup, he]
    rfl
  · exact absurd rfl (parentOf_ne_root hd.split hd.name_ne)

/-- Any other stored node without children can be deleted. -/
theorem Linked.cleanup_childless {st : KeeperStorage} (hl : st.Linked) {path : String} {n : Node}
    (stored : st.map.get path = some n) (childless : n.children = ∅) (root : path ≠ "/") :
    ∃ st', st.delete path = .ok () st' ∧ st.cleanup [path] = .ok st' := by
  obtain ⟨q, c, -, split, hne, -, -⟩ := hl.parent path n stored root
  have done := hl.delete_ok ⟨split, hne, n, stored, childless⟩
  refine ⟨_, done, ?_⟩
  rw [KeeperStorage.cleanup, done]
  rfl

theorem Linked.endSession {st : KeeperStorage} (hl : st.Linked) (orders : HashOrders)
    (id : SessionId) : ∃ st', KeeperServer.endSession st orders id = .ok st' ∧ st'.Linked := by
  have dropped : Linked { st with sessionState := (st.sessionState.closeSession orders id).1 } :=
    hl.of_map rfl
  exact dropped.cleanup _

end KeeperStorage

/-- Why a write is refused before it is logged. -/
inductive WriteFails (st : KeeperStorage) : Request → ErrorCode → Prop
  | createExists {req : CreateRequest} (present : st.map.get req.path ≠ none) :
      WriteFails st (.create req) .nodeExists
  | createInvalid {req : CreateRequest} (absent : st.map.get req.path = none)
      (invalid : ∀ q c, parentOf req.path = some (q, c) → c = "") :
      WriteFails st (.create req) .badArguments
  | createOrphan {req : CreateRequest} {q c : String} (absent : st.map.get req.path = none)
      (split : parentOf req.path = some (q, c)) (named : c ≠ "") (missing : st.map.get q = none) :
      WriteFails st (.create req) .noNode
  | setMissing {req : SetDataRequest} (missing : st.map.get req.path = none) :
      WriteFails st (.set req) .noNode
  | setVersion {req : SetDataRequest} {n : Node} (stored : st.map.get req.path = some n)
      (version : ¬ VersionOk req.version n.stat.version) : WriteFails st (.set req) .badVersion
  | deleteMissing {req : DeleteRequest} (missing : st.map.get req.path = none) :
      WriteFails st (.remove req) .noNode
  | deleteVersion {req : DeleteRequest} {n : Node} (stored : st.map.get req.path = some n)
      (version : ¬ VersionOk req.version n.stat.version) : WriteFails st (.remove req) .badVersion
  | deleteNotEmpty {req : DeleteRequest} {n : Node} (stored : st.map.get req.path = some n)
      (version : VersionOk req.version n.stat.version) (children : n.children ≠ ∅) :
      WriteFails st (.remove req) .notEmpty

/-- How a write ends that was logged: the code and the body of its reply, the notifications and
the tree it leaves. -/
inductive WriteEnds (env : Env) (id : SessionId) (st : KeeperStorage) :
    Request → ErrorCode → ReplyBody → List WatchEvent → KeeperStorage → Prop
  | create {req : CreateRequest} {path : String} {st' : KeeperStorage}
      (checked : CreateChecked st req)
      (done : st.nextZxid.create req.path req.data env.now id req.flags = .ok path st') :
      WriteEnds env id st (.create req) .ok (.create path)
        (st'.watchState.fire env.orders path .created).2 (st'.fired env.orders path .created)
  | createFails {req : CreateRequest} {message : String} (checked : CreateChecked st req)
      (failed : st.nextZxid.create req.path req.data env.now id req.flags = .err message) :
      WriteEnds env id st (.create req) .badArguments .empty [] st.nextZxid
  | set {req : SetDataRequest} {n n' : Node} {st' : KeeperStorage}
      (stored : st.map.get req.path = some n) (version : VersionOk req.version n.stat.version)
      (done : st.nextZxid.set req.path req.data env.now = .ok () st')
      (updated : st'.map.get req.path = some n') :
      WriteEnds env id st (.set req) .ok
        (.stat n'.stat (Int32.ofNat n'.data.length) (Int32.ofNat n'.children.card))
        (st'.watchState.fire env.orders req.path .changed).2
        (st'.fired env.orders req.path .changed)
  | delete {req : DeleteRequest} {n : Node} {st' : KeeperStorage}
      (checked : DeleteChecked st req n) (done : st.nextZxid.delete req.path = .ok () st') :
      WriteEnds env id st (.remove req) .ok .empty
        (st'.watchState.fire env.orders req.path .deleted).2
        ((st'.disowned n.stat.ephemeralOwner req.path).fired env.orders req.path .deleted)
  /-- The root passes the checks when it has no children; its removal fails, and is answered all
  the same. -/
  | deleteRoot {req : DeleteRequest} {n : Node} (checked : DeleteChecked st req n)
      (root : req.path = "/") :
      WriteEnds env id st (.remove req) .ok .empty
        (st.watchState.fire env.orders req.path .deleted).2
        (st.nextZxid.fired env.orders req.path .deleted)

theorem WriteFails.code_ne {st : KeeperStorage} {req : Request} {code : ErrorCode}
    (h : WriteFails st req code) : code ≠ .ok ∧ code ≠ .systemError := by
  cases h <;> decide

namespace KeeperServer
variable {recordBytes : LogRecord → ℕ} (s : KeeperServer recordBytes) (env : Env)

/-- How a read ends. -/
inductive ReadEnds (xid : Int32) (id : SessionId) (req : ReadRequest) (t : WatchType) :
    Exec (KeeperServer recordBytes) ApplyResult → Prop
  | watching {code : ErrorCode} {body : ReplyBody} (watch : req.watch = true)
      (calm : code ≠ .systemError) :
      ReadEnds xid id req t (.done ⟨⟨xid, s.storage.lastZxid, code, body⟩, []⟩
        { s with storage := { s.storage with
            watchState := s.storage.watchState.register id req.path t } })
  | plain {code : ErrorCode} {body : ReplyBody} (watch : req.watch = false)
      (calm : code ≠ .systemError) :
      ReadEnds xid id req t (.done ⟨⟨xid, s.storage.lastZxid, code, body⟩, []⟩ s)

/-- The server once a read has made its watch. -/
def afterRead (id : SessionId) (read : ReadRequest) (t : WatchType) : KeeperServer recordBytes :=
  { s with storage := { s.storage with
      watchState := if read.watch then s.storage.watchState.register id read.path t
        else s.storage.watchState } }

/-- A read makes its watch first, and is then answered by what is stored. -/
theorem handleRead_done (xid : Int32) (id : SessionId) (read : ReadRequest) (t : WatchType)
    (body : Node → ReplyBody) :
    ∃ code answer, s.handleRead xid read id t body =
        .done ⟨⟨xid, s.storage.lastZxid, code, answer⟩, []⟩ (s.afterRead id read t) ∧
      code ≠ .systemError ∧ (code = .ok ↔ s.storage.map.get read.path ≠ none) := by
  have registered : (if read.watch then { s with storage := { s.storage with
      watchState := s.storage.watchState.register id read.path t } } else s) =
        s.afterRead id read t := by
    unfold afterRead
    split_ifs <;> rfl
  unfold handleRead
  rw [registered]
  have looked : (s.afterRead id read t).storage.traverse read.path = s.storage.map.get read.path :=
    rfl
  simp only [looked]
  cases stored : s.storage.map.get read.path with
  | none => exact ⟨.noNode, .empty, rfl, by decide, by simp⟩
  | some node => exact ⟨.ok, body node, rfl, by decide, by simp⟩

theorem handleRead_ends (xid : Int32) (req : ReadRequest) (id : SessionId) (t : WatchType)
    (body : Node → ReplyBody) : s.ReadEnds xid id req t (s.handleRead xid req id t body) := by
  obtain ⟨code, answer, done, calm, -⟩ := s.handleRead_done xid id req t body
  rw [done, afterRead]
  cases watch : req.watch with
  | true => exact .watching watch calm
  | false => exact .plain watch calm

theorem log_storage (op : WalOperation) : (s.log env op).1.storage = s.storage.nextZxid := rfl

/-- A request that is logged meets a failed flush, or goes on with the record in the log. -/
theorem log_cases (op : WalOperation) :
    (∃ s₁ error, s.log env op = (s₁, .error error) ∧ s₁.storage = s.storage.nextZxid) ∨
    ∃ s₁, s.log env op = (s₁, .ok ()) ∧ s₁.storage = s.storage.nextZxid := by
  cases hlog : s.log env op with
  | mk s₁ result =>
    have storage : s₁.storage = s.storage.nextZxid := by
      rw [← s.log_storage env op, hlog]
    cases result with
    | error error => exact .inl ⟨s₁, error, rfl, storage⟩
    | ok => exact .inr ⟨s₁, rfl, storage⟩

theorem versionOk_of_not {expected actual : Int32}
    (h : ¬ (expected ≠ -1 ∧ actual ≠ expected)) : VersionOk expected actual := by
  by_contra other
  obtain ⟨given, differs⟩ := (not_versionOk_iff _ _).mp other
  exact h ⟨given, Ne.symm differs⟩

/-- Log a write that has passed its checks, and answer it. -/
def finish (xid : Int32) (op : WalOperation) (r : ApplyResult) (st : KeeperStorage) :
    Exec (KeeperServer recordBytes) ApplyResult :=
  match s.log env op with
  | (s₁, .error _) => s₁.refuse xid .systemError
  | (s₁, .ok ()) => .done r ⟨st, s₁.wal⟩

/-- The result of a write: it is refused at once, or logged and then answered. -/
inductive Answers (xid : Int32) (id : SessionId) (req : Request) (op : WalOperation) :
    Exec (KeeperServer recordBytes) ApplyResult → Prop
  | refused {code : ErrorCode} (fails : WriteFails s.storage req code) :
      Answers xid id req op (s.refuse xid code)
  | logged {code : ErrorCode} {body : ReplyBody} {events : List WatchEvent} {st : KeeperStorage}
      (ends : WriteEnds env id s.storage req code body events st) :
      Answers xid id req op (s.finish env xid op ⟨⟨xid, st.lastZxid, code, body⟩, events⟩ st)

variable {s env} in
/-- A write that goes on behind its record, once that is flushed. -/
theorem Answers.of_log {xid : Int32} {id : SessionId} {req : Request} {op : WalOperation}
    {code : ErrorCode} {body : ReplyBody} {events : List WatchEvent} {st : KeeperStorage}
    (ends : WriteEnds env id s.storage req code body events st)
    {result : Exec (KeeperServer recordBytes) ApplyResult}
    (failed : ∀ s₁ error, s.log env op = (s₁, .error error) →
      result = s₁.refuse xid .systemError)
    (flushed : ∀ s₁, s.log env op = (s₁, .ok ()) → s₁.storage = s.storage.nextZxid →
      result = .done ⟨⟨xid, st.lastZxid, code, body⟩, events⟩ ⟨st, s₁.wal⟩) :
    s.Answers env xid id req op result := by
  have finished : result = s.finish env xid op ⟨⟨xid, st.lastZxid, code, body⟩, events⟩ st := by
    rw [finish]
    obtain ⟨s₁, error, hlog, -⟩ | ⟨s₁, hlog, storage⟩ := s.log_cases env op
    · simp only [hlog]
      exact failed s₁ error hlog
    · simp only [hlog]
      exact flushed s₁ hlog storage
  rw [finished]
  exact .logged ends

theorem handleCreate_answers (xid : Int32) (req : CreateRequest) (id : SessionId) :
    s.Answers env xid id (.create req) (.create req.path req.data env.now req.flags id)
      (s.handleCreate env xid req id) := by
  unfold handleCreate
  by_cases present : s.storage.exists req.path = true
  · rw [if_pos present]
    obtain ⟨n, stored⟩ := (Table.contains_eq_true_iff _ _).mp present
    exact .refused (.createExists (by simp [stored]))
  rw [if_neg present]
  have absent := (Table.contains_eq_false_iff _ _).mp (Bool.eq_false_iff.mpr present)
  cases split : splitPath req.path with
  | none =>
    refine .refused (.createInvalid absent fun q c h => ?_)
    simp [parentOf, split] at h
  | some pc =>
    obtain ⟨parent, childName⟩ := pc
    have computed : parentOf req.path = some (parentPath parent, childName) := by
      simp [parentOf, split]
    simp only
    by_cases empty : childName = ""
    · rw [if_pos empty]
      refine .refused (.createInvalid absent fun q c h => ?_)
      exact (parentOf_det computed h).2.trans empty
    rw [if_neg empty]
    by_cases stored : s.storage.exists (parentPath parent) = true
    swap
    · rw [if_pos (by simpa using stored)]
      have missing := (Table.contains_eq_false_iff _ _).mp (Bool.eq_false_iff.mpr stored)
      exact .refused (.createOrphan absent computed empty missing)
    rw [if_neg (by simpa using stored)]
    obtain ⟨parentNode, hp⟩ := (Table.contains_eq_true_iff _ _).mp stored
    have checked : CreateChecked s.storage req :=
      ⟨absent, parentPath parent, childName, computed, empty, by simp [hp]⟩
    rcases s.storage.nextZxid.create_eq req.path req.data env.now id req.flags with
      ⟨q, name, created, -, done⟩ | ⟨message, failed, -⟩
    · refine .of_log (.create checked done) (fun s₁ error hlog => ?_) fun s₁ hlog storage => ?_
      · simp only [hlog]
      · simp only [hlog, storage, done]
        rfl
    · refine .of_log (.createFails checked failed) (fun s₁ error hlog => ?_)
        fun s₁ hlog storage => ?_
      · simp only [hlog]
      · simp only [hlog, storage, failed, refuse, reply]
        rw [← storage]

theorem handleSet_answers (xid : Int32) (req : SetDataRequest) (id : SessionId) :
    s.Answers env xid id (.set req) (.set req.path req.data env.now)
      (s.handleSet env xid req) := by
  unfold handleSet
  cases hn : s.storage.traverse req.path with
  | none => exact .refused (.setMissing hn)
  | some n =>
    simp only
    by_cases hv : req.version ≠ -1 ∧ n.stat.version ≠ req.version
    · rw [if_pos hv]
      exact .refused (.setVersion hn ((not_versionOk_iff _ _).mpr ⟨hv.1, hv.2.symm⟩))
    rw [if_neg hv]
    have again : s.storage.nextZxid.map.get req.path = some n := hn
    have done := KeeperStorage.set_of_stored again req.data env.now
    have updated : (s.storage.nextZxid.afterSet req.path req.data env.now).map.get req.path =
        some (n.setData req.data env.now (s.storage.lastZxid + 1)) := by
      rw [KeeperStorage.get_afterSet, if_pos rfl]
      exact congrArg (Option.map _) again
    refine .of_log (.set hn (versionOk_of_not hv) done updated) (fun s₁ error hlog => ?_)
      fun s₁ hlog storage => ?_
    · simp only [hlog]
    · simp only [hlog, storage, done, KeeperStorage.traverse, updated]
      rfl

theorem handleDelete_answers (hl : s.storage.Linked) (xid : Int32) (req : DeleteRequest)
    (id : SessionId) :
    s.Answers env xid id (.remove req) (.delete req.path) (s.handleDelete env xid req) := by
  unfold handleDelete
  cases hn : s.storage.traverse req.path with
  | none => exact .refused (.deleteMissing hn)
  | some n =>
    simp only
    by_cases hv : req.version ≠ -1 ∧ n.stat.version ≠ req.version
    · rw [if_pos hv]
      exact .refused (.deleteVersion hn ((not_versionOk_iff _ _).mpr ⟨hv.1, hv.2.symm⟩))
    rw [if_neg hv]
    by_cases childless : n.children = ∅
    swap
    · rw [if_pos childless]
      exact .refused (.deleteNotEmpty hn (versionOk_of_not hv) childless)
    rw [if_neg (not_not.mpr childless)]
    have checked : DeleteChecked s.storage req n := ⟨hn, versionOk_of_not hv, childless⟩
    have again : s.storage.nextZxid.traverse req.path = some n := hn
    by_cases root : req.path = "/"
    · obtain ⟨r, hr, owner⟩ := hl.root
      obtain rfl : n = r := by
        rw [← root, ← KeeperStorage.traverse, hn] at hr
        exact Option.some.inj hr
      have fails : s.storage.nextZxid.cleanup [req.path] = .ok s.storage.nextZxid := by
        rw [root]
        exact KeeperStorage.cleanup_root _
      refine .of_log (.deleteRoot checked root) (fun s₁ error hlog => ?_)
        fun s₁ hlog storage => ?_
      · simp only [hlog]
      · simp only [hlog, storage, again, fails, owner]
        rfl
    · obtain ⟨st', done, removed⟩ := hl.nextZxid.cleanup_childless again childless root
      refine .of_log (.delete checked done) (fun s₁ error hlog => ?_) fun s₁ hlog storage => ?_
      · simp only [hlog]
      · simp only [hlog, storage, again, removed]
        by_cases owned : n.stat.ephemeralOwner = 0
        · simp [KeeperStorage.disowned, KeeperStorage.fired, owned, reply]
        · simp [KeeperStorage.disowned, KeeperStorage.fired, owned, reply]

/-- How every standalone write is answered. -/
theorem handle_answers (hl : s.storage.Linked) {xid : Int32} {id : SessionId} {req : Request}
    {op : WalOperation} (writes : (ServerEvent.handle xid id req).submits env.now = some op) :
    s.Answers env xid id req op (s.handle env xid id req) := by
  cases req with
  | create req =>
    cases writes
    exact s.handleCreate_answers env xid req id
  | set req =>
    cases writes
    exact s.handleSet_answers env xid req id
  | remove req =>
    cases writes
    exact s.handleDelete_answers env hl xid req id
  | _ => cases writes

end KeeperServer
end TinyKeeper
