import TinyKeeper.KeeperServer.Replay

/-! Batches. The reference run of a batch applies its operations one after another to a copy of
the tree; the handler publishes the copy when none fails and changes nothing when one does. -/
namespace TinyKeeper

/-- Fire the watches of an event and keep the rest. -/
def KeeperStorage.fired (st : KeeperStorage) (orders : HashOrders) (path : String)
    (event : WatchEventType) : KeeperStorage :=
  { st with watchState := (st.watchState.fire orders path event).1 }

/-- What is logged for an operation. -/
def MultiOp.logged : MultiOp → List MultiWalOperation
  | .create req => [.create req.path req.data req.flags]
  | .set req => [.set req.path req.data]
  | .delete req => [.delete req.path]
  | .check _ => []

/-- Version `-1` stands for any version. -/
def VersionOk (expected actual : Int32) : Prop := expected = -1 ∨ expected = actual

instance (expected actual : Int32) : Decidable (VersionOk expected actual) :=
  inferInstanceAs (Decidable (_ ∨ _))

/-- One operation of a batch as an entry of its run: the operation, its response and the
notifications it fires. -/
abbrev MultiEntry := MultiOp × MultiOpResponse × List WatchEvent

/-- One operation of the reference run succeeds. -/
inductive MultiStep (env : Env) (sessionId : SessionId) :
    KeeperStorage → MultiEntry → KeeperStorage → Prop
  | check {st : KeeperStorage} {req : CheckRequest} {n : Node}
      (stored : st.traverse req.path = some n) (version : VersionOk req.version n.stat.version) :
      MultiStep env sessionId st (.check req, .check, []) st
  | set {st st' : KeeperStorage} {req : SetDataRequest} {n n' : Node}
      (stored : st.traverse req.path = some n) (version : VersionOk req.version n.stat.version)
      (done : st.set req.path req.data env.now = .ok () st')
      (updated : st'.traverse req.path = some n') :
      MultiStep env sessionId st
        (.set req, .set n'.stat (Int32.ofNat n'.data.length) (Int32.ofNat n'.children.card),
          (st'.watchState.fire env.orders req.path .changed).2)
        (st'.fired env.orders req.path .changed)
  | create {st st' : KeeperStorage} {req : CreateRequest} {path : String}
      (done : st.create req.path req.data env.now sessionId req.flags = .ok path st') :
      MultiStep env sessionId st
        (.create req, .create path, (st'.watchState.fire env.orders path .created).2)
        (st'.fired env.orders path .created)
  | delete {st st' : KeeperStorage} {req : DeleteRequest} {n : Node}
      (stored : st.traverse req.path = some n) (version : VersionOk req.version n.stat.version)
      (done : st.delete req.path = .ok () st') :
      MultiStep env sessionId st
        (.delete req, .delete, (st'.watchState.fire env.orders req.path .deleted).2)
        ((st'.disowned n.stat.ephemeralOwner req.path).fired env.orders req.path .deleted)

/-- One operation of the reference run fails. -/
inductive MultiFails (env : Env) (sessionId : SessionId) :
    KeeperStorage → MultiOp → ErrorCode → Prop
  | checkMissing {st req} (missing : st.traverse req.path = none) :
      MultiFails env sessionId st (.check req) .noNode
  | checkVersion {st req n} (stored : st.traverse req.path = some n)
      (version : ¬ VersionOk req.version n.stat.version) :
      MultiFails env sessionId st (.check req) .badVersion
  | setMissing {st req} (missing : st.traverse req.path = none) :
      MultiFails env sessionId st (.set req) .noNode
  | setVersion {st req n} (stored : st.traverse req.path = some n)
      (version : ¬ VersionOk req.version n.stat.version) :
      MultiFails env sessionId st (.set req) .badVersion
  | create {st req message}
      (failed : st.create req.path req.data env.now sessionId req.flags = .err message) :
      MultiFails env sessionId st (.create req) (createErrorCode message)
  | deleteMissing {st req} (missing : st.traverse req.path = none) :
      MultiFails env sessionId st (.delete req) .noNode
  | deleteVersion {st req n} (stored : st.traverse req.path = some n)
      (version : ¬ VersionOk req.version n.stat.version) :
      MultiFails env sessionId st (.delete req) .badVersion
  | deleteRoot {st req n} (stored : st.traverse req.path = some n)
      (version : VersionOk req.version n.stat.version) (root : req.path = "/") :
      MultiFails env sessionId st (.delete req) .badArguments
  | deleteNotEmpty {st req n} (stored : st.traverse req.path = some n)
      (version : VersionOk req.version n.stat.version) (root : req.path ≠ "/")
      (children : n.children ≠ ∅) : MultiFails env sessionId st (.delete req) .notEmpty

/-- The reference run of a batch. -/
abbrev MultiRun (env : Env) (sessionId : SessionId) :=
  Run (MultiStep env sessionId)

theorem not_versionOk_iff (expected actual : Int32) :
    ¬ VersionOk expected actual ↔ expected ≠ -1 ∧ expected ≠ actual := by
  simp [VersionOk]

namespace KeeperStorage
variable {st : KeeperStorage}

theorem Linked.fired (h : st.Linked) (orders : HashOrders) (path : String)
    (event : WatchEventType) : (st.fired orders path event).Linked := h.of_map rfl

theorem set_ok_traverse {st' : KeeperStorage} {path : String} {data : List UInt8}
    {timestamp : Int} (done : st.set path data timestamp = .ok () st') :
    ∃ n, st'.traverse path = some n := by
  obtain ⟨n, hn, he⟩ | ⟨_, he⟩ := st.set_eq path data timestamp
  · rw [he, Outcome.ok.injEq] at done
    rw [← done.2, traverse, get_afterSet, if_pos rfl, hn]
    exact ⟨_, rfl⟩
  · rw [he] at done
    contradiction

end KeeperStorage

theorem MultiStep.linked {env : Env} {sessionId : SessionId} {st st' : KeeperStorage}
    {entry : MultiEntry} (h : MultiStep env sessionId st entry st') (hl : st.Linked) :
    st'.Linked := by
  cases h with
  | check => exact hl
  | set stored version done updated => exact (hl.set_ok done).fired _ _ _
  | create done => exact (hl.create_ok done).fired _ _ _
  | delete stored version done => exact ((hl.of_delete_ok done).of_map (by simp)).fired _ _ _

theorem MultiRun.linked {env : Env} {sessionId : SessionId} {st st' : KeeperStorage}
    {entries : List MultiEntry} (h : MultiRun env sessionId st entries st') (hl : st.Linked) :
    st'.Linked :=
  h.invariant KeeperStorage.Linked hl (fun _ _ _ hl last => last.linked hl)

namespace MultiProgress
variable {env : Env} {sessionId : SessionId}

/-- The loop does to its staged tree what the reference run does. -/
theorem step_of_multiStep {m : MultiProgress} {op : MultiOp} {response : MultiOpResponse}
    {events : List WatchEvent} {st : KeeperStorage}
    (h : MultiStep env sessionId m.staged (op, response, events) st) :
    m.step env sessionId op = .ok (.ok (m.push st response op.logged events)) := by
  have admitted {expected actual : Int32} (version : VersionOk expected actual) :
      ¬ (expected ≠ -1 ∧ expected ≠ actual) :=
    fun hv => (not_versionOk_iff _ _).mpr hv version
  cases h with
  | check stored version =>
    rw [step, check, stored]
    simp only
    rw [if_neg (admitted version)]
    rfl
  | set stored version done updated =>
    rw [step, set, stored]
    simp only
    rw [if_neg (admitted version), done]
    simp only [Outcome.expect, bind, Except.bind, KeeperStorage.traverse] at updated ⊢
    rw [updated]
    rfl
  | create done =>
    rw [step, create, done]
    rfl
  | @delete st' req n stored version done =>
    obtain ⟨q, name, del, -, rfl⟩ := KeeperStorage.delete_ok done
    obtain ⟨n', stored', childless⟩ := del.node
    obtain rfl : n = n' := Option.some.inj (stored.symm.trans stored')
    rw [step, delete, stored]
    simp only
    rw [if_neg (admitted version), if_neg (parentOf_ne_root del.split del.name_ne),
      if_neg (not_not.mpr childless), done]
    simp only [Outcome.expect, bind, Except.bind]
    by_cases owned : n.stat.ephemeralOwner = 0 <;>
      simp [owned, KeeperStorage.disowned, KeeperStorage.fired, MultiOp.logged]

theorem step_of_multiFails {m : MultiProgress} {op : MultiOp} {error : ErrorCode}
    (h : MultiFails env sessionId m.staged op error) :
    m.step env sessionId op = .ok (.error error) := by
  cases h with
  | checkMissing missing => rw [step, check, missing]
  | checkVersion stored version =>
    rw [step, check, stored]
    exact if_pos ((not_versionOk_iff _ _).mp version)
  | setMissing missing => rw [step, set, missing]
  | setVersion stored version =>
    rw [step, set, stored]
    exact if_pos ((not_versionOk_iff _ _).mp version)
  | create failed => rw [step, create, failed]
  | deleteMissing missing => rw [step, delete, missing]
  | deleteVersion stored version =>
    rw [step, delete, stored]
    exact if_pos ((not_versionOk_iff _ _).mp version)
  | deleteRoot stored version root =>
    rw [step, delete, stored]
    exact (if_neg (fun hv => (not_versionOk_iff _ _).mpr hv version)).trans (if_pos root)
  | deleteNotEmpty stored version root children =>
    rw [step, delete, stored]
    exact (if_neg (fun hv => (not_versionOk_iff _ _).mpr hv version)).trans
      ((if_neg root).trans (if_pos children))

/-- The progress after the entries of a reference run that ended in `st`. -/
def after (m : MultiProgress) (st : KeeperStorage) (entries : List MultiEntry) : MultiProgress where
  staged := st
  responses := m.responses ++ entries.map (·.2.1)
  walOperations := m.walOperations ++ entries.flatMap (·.1.logged)
  watchEvents := m.watchEvents ++ entries.flatMap (·.2.2)

theorem run_of_multiRun {m : MultiProgress} {entries : List MultiEntry} {st : KeeperStorage}
    (h : MultiRun env sessionId m.staged entries st) (rest : List MultiOp) :
    m.run env sessionId (entries.map Prod.fst ++ rest) =
      (m.after st entries).run env sessionId rest := by
  induction h generalizing rest with
  | nil => simp [after]
  | @snoc entries t entry u _ last ih =>
    obtain ⟨op, response, events⟩ := entry
    have next := step_of_multiStep (m := m.after t entries) last
    rw [List.map_append, List.append_assoc, ih]
    simp only [List.map_cons, List.map_nil, List.singleton_append]
    rw [run, next]
    simp [after, push]

/-- The loop gets through the operations of a reference run. -/
theorem run_completes {m : MultiProgress} {entries : List MultiEntry} {st : KeeperStorage}
    (path : MultiRun env sessionId m.staged entries st) :
    m.run env sessionId (entries.map Prod.fst) = .ok (.ok (m.after st entries)) := by
  have all := run_of_multiRun path []
  rwa [List.append_nil] at all

/-- The loop stops at the first operation that fails. -/
theorem run_fails {m : MultiProgress} {entries : List MultiEntry} {st : KeeperStorage}
    (path : MultiRun env sessionId m.staged entries st) {op : MultiOp} (rest : List MultiOp)
    {error : ErrorCode} (fails : MultiFails env sessionId st op error) :
    m.run env sessionId (entries.map Prod.fst ++ op :: rest) =
      .ok (.error ((m.after st entries).responses, error)) := by
  have stops : (m.after st entries).step env sessionId op = .ok (.error error) :=
    step_of_multiFails fails
  rw [run_of_multiRun path, run, stops]

end MultiProgress

/-- On a linked tree an operation of the reference run succeeds or fails; it is never stuck. -/
theorem multiStep_total (env : Env) (sessionId : SessionId) {st : KeeperStorage}
    (hl : st.Linked) (op : MultiOp) :
    (∃ response events st', MultiStep env sessionId st (op, response, events) st') ∨
      ∃ error, MultiFails env sessionId st op error := by
  cases op with
  | check req =>
    cases hn : st.traverse req.path with
    | none => exact .inr ⟨_, .checkMissing hn⟩
    | some n =>
      by_cases version : VersionOk req.version n.stat.version
      · exact .inl ⟨_, _, _, .check hn version⟩
      · exact .inr ⟨_, .checkVersion hn version⟩
  | set req =>
    cases hn : st.traverse req.path with
    | none => exact .inr ⟨_, .setMissing hn⟩
    | some n =>
      by_cases version : VersionOk req.version n.stat.version
      · have updated : (st.afterSet req.path req.data env.now).traverse req.path =
            some (n.setData req.data env.now st.lastZxid) := by
          rw [KeeperStorage.traverse, KeeperStorage.get_afterSet, if_pos rfl,
            show st.map.get req.path = some n from hn]
          rfl
        exact .inl ⟨_, _, _, .set hn version
          (KeeperStorage.set_of_stored hn req.data env.now) updated⟩
      · exact .inr ⟨_, .setVersion hn version⟩
  | create req =>
    rcases st.create_eq req.path req.data env.now sessionId req.flags with
      ⟨q, name, created, -, done⟩ | ⟨message, failed, -⟩
    · exact .inl ⟨_, _, _, .create done⟩
    · exact .inr ⟨_, .create failed⟩
  | delete req =>
    cases hn : st.traverse req.path with
    | none => exact .inr ⟨_, .deleteMissing hn⟩
    | some n =>
      by_cases version : VersionOk req.version n.stat.version
      swap
      · exact .inr ⟨_, .deleteVersion hn version⟩
      by_cases root : req.path = "/"
      · exact .inr ⟨_, .deleteRoot hn version root⟩
      by_cases children : n.children = ∅
      · obtain ⟨q, c, -, split, hne, -, -⟩ := hl.parent req.path n hn root
        exact .inl ⟨_, _, _, .delete hn version (hl.delete_ok ⟨split, hne, n, hn, children⟩)⟩
      · exact .inr ⟨_, .deleteNotEmpty hn version root children⟩

/-- Every batch runs to its end or to its first failure. -/
theorem multiRun_total (env : Env) (sessionId : SessionId) {st : KeeperStorage} (hl : st.Linked)
    (ops : List MultiOp) :
    (∃ entries st', MultiRun env sessionId st entries st' ∧ entries.map Prod.fst = ops) ∨
      ∃ entries st' op rest error, MultiRun env sessionId st entries st' ∧
        ops = entries.map Prod.fst ++ op :: rest ∧ MultiFails env sessionId st' op error := by
  induction ops using List.reverseRecOn with
  | nil => exact .inl ⟨[], st, .nil, rfl⟩
  | append_singleton ops op ih =>
    obtain ⟨entries, st', path, rfl⟩ | ⟨entries, st', op', rest, error, path, rfl, fails⟩ := ih
    · rcases multiStep_total env sessionId (MultiRun.linked path hl) op with
        ⟨response, events, st'', last⟩ | ⟨error, fails⟩
      · exact .inl ⟨_, st'', path.snoc last, by simp⟩
      · exact .inr ⟨entries, st', op, [], error, path, rfl, fails⟩
    · exact .inr ⟨entries, st', op', rest ++ [op], error, path, by simp, fails⟩

/-- What the loop has done when it has not failed. -/
theorem MultiProgress.run_ok {env : Env} {id : SessionId} {m : MultiProgress}
    (hl : m.staged.Linked) {ops : List MultiOp} {m' : MultiProgress}
    (done : m.run env id ops = .ok (.ok m')) :
    ∃ entries st, MultiRun env id m.staged entries st ∧ entries.map Prod.fst = ops ∧
      m' = m.after st entries := by
  rcases multiRun_total env id hl ops with
    ⟨entries, st, path, rfl⟩ | ⟨entries, st, op, rest, error, path, rfl, fails⟩
  · rw [run_completes path] at done
    cases done
    exact ⟨entries, st, path, rfl, rfl⟩
  · rw [run_fails path rest fails] at done
    cases done

end TinyKeeper
