import TinyKeeper.KeeperServer.Transition

/-! A batch is all or nothing: it is answered operation by operation as its reference run goes,
and publishes either the whole run under one zxid or nothing. -/
namespace TinyKeeper
namespace KeeperStorage

/-- Every zxid in the stat of a node is `zxid`, or stood there before. -/
def StampedBy (old new : KeeperStorage) (zxid : ℕ) : Prop :=
  ∀ p n, new.map.get p = some n → ∀ field ∈ [Stat.czxid, Stat.mzxid, Stat.pzxid],
    field n.stat = zxid ∨ ∃ m, old.map.get p = some m ∧ field n.stat = field m.stat

theorem StampedBy.refl (st : KeeperStorage) (zxid : ℕ) : st.StampedBy st zxid :=
  fun _ n hn _ _ => .inr ⟨n, hn, rfl⟩

theorem StampedBy.trans {st₁ st₂ st₃ : KeeperStorage} {zxid : ℕ} (h : st₁.StampedBy st₂ zxid)
    (h' : st₂.StampedBy st₃ zxid) : st₁.StampedBy st₃ zxid := by
  intro p n hn field hf
  obtain stamped | ⟨m, hm, same⟩ := h' p n hn field hf
  · exact .inl stamped
  · rw [same]
    exact h p m hm field hf

theorem StampedBy.of_map {st st₁ st₂ : KeeperStorage} {zxid : ℕ} (h : st.StampedBy st₁ zxid)
    (hm : st₂.map = st₁.map) : st.StampedBy st₂ zxid := by
  intro p n hn
  exact h p n (hm ▸ hn)

variable {st st' : KeeperStorage} {path created : String} {data : List UInt8} {timestamp : Int}
variable {sessionId : SessionId} {flags : Int32}

theorem create_ok_stamped
    (done : st.create path data timestamp sessionId flags = .ok created st') :
    st.StampedBy st' st.lastZxid ∧ st'.lastZxid = st.lastZxid := by
  obtain ⟨q, name, hc, rfl⟩ := (st.create_ok_iff _ _ _ _ _ _ _).mp done
  refine ⟨?_, rfl⟩
  intro p n hn field hf
  simp only [List.mem_cons, List.not_mem_nil, or_false] at hf
  obtain ⟨-, rfl⟩ | ⟨rfl, -, m, hm, rfl⟩ | ⟨-, -, hm⟩ := afterCreate_cases hc hn
  · obtain rfl | rfl | rfl := hf <;> exact .inl rfl
  · obtain rfl | rfl | rfl := hf
    · exact .inr ⟨m, hm, rfl⟩
    · exact .inr ⟨m, hm, rfl⟩
    · exact .inl rfl
  · exact .inr ⟨n, hm, rfl⟩

theorem set_ok_stamped (done : st.set path data timestamp = .ok () st') :
    st.StampedBy st' st.lastZxid ∧ st'.lastZxid = st.lastZxid := by
  obtain ⟨m, hm, he⟩ | ⟨-, he⟩ := st.set_eq path data timestamp
  · rw [he, Outcome.ok.injEq] at done
    obtain ⟨-, rfl⟩ := done
    refine ⟨?_, rfl⟩
    intro p n hn field hf
    simp only [List.mem_cons, List.not_mem_nil, or_false] at hf
    obtain ⟨rfl, m, hm, rfl⟩ | ⟨-, hm⟩ := afterSet_cases hn
    · obtain rfl | rfl | rfl := hf
      · exact .inr ⟨m, hm, rfl⟩
      · exact .inl rfl
      · exact .inr ⟨m, hm, rfl⟩
    · exact .inr ⟨n, hm, rfl⟩
  · rw [he] at done
    contradiction

theorem delete_ok_stamped (done : st.delete path = .ok () st') :
    st.StampedBy st' st.lastZxid ∧ st'.lastZxid = st.lastZxid := by
  obtain ⟨q, name, hd, -, rfl⟩ := delete_ok done
  refine ⟨?_, rfl⟩
  intro p n hn field hf
  simp only [List.mem_cons, List.not_mem_nil, or_false] at hf
  obtain ⟨-, ⟨rfl, m, hm, rfl⟩ | ⟨-, hm⟩⟩ := afterDelete_cases hd hn
  · obtain rfl | rfl | rfl := hf
    · exact .inr ⟨m, hm, rfl⟩
    · exact .inr ⟨m, hm, rfl⟩
    · exact .inl rfl
  · exact .inr ⟨n, hm, rfl⟩

end KeeperStorage

theorem MultiStep.stamped {env : Env} {sessionId : SessionId} {st st' : KeeperStorage}
    {entry : MultiEntry} (h : MultiStep env sessionId st entry st') :
    st.StampedBy st' st.lastZxid ∧ st'.lastZxid = st.lastZxid := by
  cases h with
  | check => exact ⟨.refl _ _, rfl⟩
  | set stored version done updated =>
    obtain ⟨stamped, counter⟩ := KeeperStorage.set_ok_stamped done
    exact ⟨stamped.of_map rfl, counter⟩
  | create done =>
    obtain ⟨stamped, counter⟩ := KeeperStorage.create_ok_stamped done
    exact ⟨stamped.of_map rfl, counter⟩
  | delete stored version done =>
    obtain ⟨stamped, counter⟩ := KeeperStorage.delete_ok_stamped done
    exact ⟨stamped.of_map (by simp [KeeperStorage.fired]),
      by simpa [KeeperStorage.fired] using counter⟩

theorem MultiRun.stamped {env : Env} {sessionId : SessionId} {st st' : KeeperStorage}
    {entries : List MultiEntry} (h : MultiRun env sessionId st entries st') :
    st.StampedBy st' st.lastZxid ∧ st'.lastZxid = st.lastZxid := by
  induction h with
  | nil => exact ⟨.refl _ _, rfl⟩
  | snoc _ last ih =>
    obtain ⟨stamped, counter⟩ := last.stamped
    rw [ih.2] at stamped counter
    exact ⟨ih.1.trans stamped, counter⟩

namespace KeeperStorage

theorem cleanup_lastZxid {st st' : KeeperStorage} {paths : List String}
    (h : st.cleanup paths = .ok st') : st'.lastZxid = st.lastZxid := by
  induction paths generalizing st with
  | nil =>
    cases h
    rfl
  | cons path paths ih =>
    rw [cleanup] at h
    cases done : st.delete path with
    | ok _ t =>
      rw [done] at h
      rw [ih h, (delete_ok_stamped done).2]
    | err _ =>
      rw [done] at h
      exact ih h
    | panic message =>
      rw [done] at h
      cases h

theorem endSession_lastZxid {st st' : KeeperStorage} {orders : HashOrders} {id : SessionId}
    (h : KeeperServer.endSession st orders id = .ok st') : st'.lastZxid = st.lastZxid := by
  have cleaned : ({ st with
      sessionState := (st.sessionState.closeSession orders id).1 } : KeeperStorage).cleanup
      (st.sessionState.closeSession orders id).2 = .ok st' := h
  rw [cleanup_lastZxid cleaned]

end KeeperStorage

/-- The counter advances with the log, except that a write whose flush failed uses up a zxid. -/
theorem Transition.advances {env : Env} {st u : KeeperStorage} {e : ServerEvent}
    {op : Option WalOperation} {events : List WatchEvent} (h : Transition env st e op events u) :
    u.lastZxid = st.lastZxid + op.toList.length ∨
      (op = none ∧ env.flush ≠ .succeeds ∧ u = st.nextZxid) := by
  cases h with
  | createSession timeoutMs => exact .inl rfl
  | closeSession ended => exact .inl (KeeperStorage.endSession_lastZxid ended)
  | touch id => exact .inl rfl
  | unchanged => exact .inl rfl
  | unflushed failed => exact .inr ⟨rfl, failed, rfl⟩
  | create checked done => exact .inl (KeeperStorage.create_ok_stamped done).2
  | createFails checked failed => exact .inl rfl
  | set stored version done => exact .inl (KeeperStorage.set_ok_stamped done).2
  | delete checked done =>
    have same (t : KeeperStorage) (path : String) :
        (t.fired env.orders path .deleted).lastZxid = t.lastZxid := rfl
    rw [same, KeeperStorage.disowned_lastZxid]
    exact .inl (KeeperStorage.delete_ok_stamped done).2
  | deleteRoot checked root => exact .inl rfl
  | read path t => exact .inl rfl
  | close ended =>
    have same := KeeperStorage.endSession_lastZxid ended
    exact .inl same
  | multi path => exact .inl path.stamped.2

theorem Transition.lastZxid {env : Env} {st u : KeeperStorage} {e : ServerEvent}
    {op : Option WalOperation} {events : List WatchEvent} (h : Transition env st e op events u)
    (flushed : env.flush = .succeeds) : u.lastZxid = st.lastZxid + op.toList.length := by
  obtain counted | ⟨-, failed, -⟩ := h.advances
  · exact counted
  · exact absurd flushed failed

theorem Transition.lastZxid_logged {env : Env} {st u : KeeperStorage} {e : ServerEvent}
    {op : WalOperation} {events : List WatchEvent} (h : Transition env st e (some op) events u) :
    u.lastZxid = st.lastZxid + 1 := by
  obtain counted | ⟨none, -⟩ := h.advances
  · exact counted
  · cases none

theorem Transition.lastZxid_le {env : Env} {st u : KeeperStorage} {e : ServerEvent}
    {op : Option WalOperation} {events : List WatchEvent} (h : Transition env st e op events u) :
    st.lastZxid ≤ u.lastZxid := by
  obtain counted | ⟨-, -, rfl⟩ := h.advances
  · omega
  · exact Nat.le_succ _

theorem rolledBack_eq (responses : List MultiOpResponse) (error : ErrorCode) (opCount : ℕ)
    (h : responses.length < opCount) :
    rolledBack responses error opCount =
      List.replicate responses.length (.error .ok) ++ [.error error] ++
        List.replicate (opCount - responses.length - 1) (.error .runtimeInconsistency) := by
  have filled : responses.map (fun _ => MultiOpResponse.error .ok) =
      List.replicate responses.length (.error .ok) := List.map_const' ..
  rw [rolledBack, filled]
  simp only [List.length_append, List.length_replicate, List.length_singleton]
  rw [List.take_of_length_le (by simp; omega), Nat.sub_sub]

namespace KeeperServer
variable {recordBytes : LogRecord → ℕ}

/-- The copy a batch of the session starts on: the zxid has advanced once. -/
def staged (s : KeeperServer recordBytes) (env : Env) (sessionId : SessionId) : KeeperStorage :=
  (s.touchSession env.now sessionId).storage.nextZxid

/-- The log after a committed batch. -/
def walAfterMulti (s : KeeperServer recordBytes) (env : Env) (sessionId : SessionId)
    (ops : List MultiOp) : WalStore (LogRecord.format recordBytes) :=
  (s.wal.appendBatch
    [⟨s.storage.lastZxid + 1, .multi (ops.flatMap MultiOp.logged) env.now sessionId⟩]).1

/-- A batch whose reference run completes is published as that run left it. -/
theorem apply_multi_commits (s : KeeperServer recordBytes) (env : Env)
    (flushed : env.flush = .succeeds) (xid : Int32) (sessionId : SessionId)
    {entries : List MultiEntry} {st : KeeperStorage}
    (path : MultiRun env sessionId (s.staged env sessionId) entries st) :
    s.apply env xid sessionId (.multi (entries.map Prod.fst)) =
      .done ⟨⟨xid, s.storage.lastZxid + 1, .ok, .multi (entries.map (·.2.1))⟩,
          entries.flatMap (·.2.2)⟩
        ⟨st, s.walAfterMulti env sessionId (entries.map Prod.fst)⟩ := by
  have hlog := (s.touchSession env.now sessionId).log_succeeds env
    (.multi (entries.flatMap (·.1.logged)) env.now sessionId) flushed
  have wal : (s.touchSession env.now sessionId).logged
      (some (.multi (entries.flatMap (·.1.logged)) env.now sessionId)) =
      s.walAfterMulti env sessionId (entries.map Prod.fst) := by
    rw [logged, walAfterMulti, List.flatMap_map]
    rfl
  rw [apply, handle, handleMulti_completes path hlog, wal]
  rfl

/-- A batch whose reference run fails changes nothing but the deadline of the session, which
moved when the request came in. -/
theorem apply_multi_fails (s : KeeperServer recordBytes) (env : Env) (xid : Int32)
    (sessionId : SessionId) {entries : List MultiEntry} {st : KeeperStorage} {op : MultiOp}
    {rest : List MultiOp} {error : ErrorCode}
    (path : MultiRun env sessionId (s.staged env sessionId) entries st)
    (fails : MultiFails env sessionId st op error) :
    s.apply env xid sessionId (.multi (entries.map Prod.fst ++ op :: rest)) =
      .done ⟨⟨xid, s.storage.lastZxid, .ok, .multi
          (List.replicate entries.length (.error .ok) ++ [.error error] ++
            List.replicate rest.length (.error .runtimeInconsistency))⟩, []⟩
        (s.touchSession env.now sessionId) := by
  rw [apply, handle, handleMulti_fails path rest fails, rolledBack_eq _ _ _ (by simp)]
  simp only [List.length_map, List.length_append, List.length_cons]
  rw [show entries.length + (rest.length + 1) - entries.length - 1 = rest.length by omega]
  rfl

@[simp] theorem touchSession_durable (s : KeeperServer recordBytes) (now : Int) (id : SessionId) :
    (s.touchSession now id).storage.durable = s.storage.durable := by
  simp only [touchSession, SessionState.touchSession]
  split <;> rfl

/-- A batch is answered and published as its reference run goes: wholly if no operation fails, and
not at all from the first operation that does. In a reachable state one of the two is the case. -/
theorem multi_all_or_nothing (s : KeeperServer recordBytes) (env : Env)
    (flushed : env.flush = .succeeds) (xid : Int32) (sessionId : SessionId)
    (ops : List MultiOp) :
    (∀ entries st op rest error, MultiRun env sessionId (s.staged env sessionId) entries st →
      ops = entries.map Prod.fst ++ op :: rest → MultiFails env sessionId st op error →
      ∃ s', s.apply env xid sessionId (.multi ops) =
          .done ⟨⟨xid, s.storage.lastZxid, .ok, .multi
            (List.replicate entries.length (.error .ok) ++ [.error error] ++
              List.replicate (ops.length - entries.length - 1)
                (.error .runtimeInconsistency))⟩, []⟩ s' ∧
        s'.storage.durable = s.storage.durable ∧
        s'.storage.watchState = s.storage.watchState ∧ s'.wal = s.wal) ∧
    (∀ entries st, MultiRun env sessionId (s.staged env sessionId) entries st →
      entries.map Prod.fst = ops →
      s.apply env xid sessionId (.multi ops) =
          .done ⟨⟨xid, s.storage.lastZxid + 1, .ok, .multi (entries.map (·.2.1))⟩,
              entries.flatMap (·.2.2)⟩
            ⟨st, s.walAfterMulti env sessionId ops⟩ ∧
        s.storage.StampedBy st (s.storage.lastZxid + 1)) ∧
    (Reachable s → (∃ entries st op rest error,
        MultiRun env sessionId (s.staged env sessionId) entries st ∧
        ops = entries.map Prod.fst ++ op :: rest ∧ MultiFails env sessionId st op error) ∨
      ∃ entries st, MultiRun env sessionId (s.staged env sessionId) entries st ∧
        entries.map Prod.fst = ops) := by
  refine ⟨?_, ?_, ?_⟩
  · rintro entries st op rest error path rfl fails
    refine ⟨_, ?_, touchSession_durable s env.now sessionId, rfl, rfl⟩
    rw [s.apply_multi_fails env xid sessionId path fails]
    simp only [List.length_append, List.length_map, List.length_cons]
    rw [show entries.length + (rest.length + 1) - entries.length - 1 = rest.length by omega]
  · rintro entries st path rfl
    exact ⟨s.apply_multi_commits env flushed xid sessionId path, path.stamped.1.of_map rfl⟩
  · intro reachable
    have linked : (s.staged env sessionId).Linked := reachable.linked.of_map rfl
    exact (multiRun_total env sessionId linked ops).symm

/-- A check that fails, with an operation behind it. -/
theorem multi_all_or_nothing_checked :
    ∃ s' : KeeperServer (fun _ => 1),
      (initial fun _ => 1).apply (.working 0) 7 1 (.multi [.check ⟨"/", 5⟩, .delete ⟨"/a", -1⟩]) =
        .done ⟨⟨7, 0, .ok, .multi [.error .badVersion, .error .runtimeInconsistency]⟩, []⟩ s' ∧
      s'.storage.durable = (initial fun _ => 1).storage.durable := by
  obtain ⟨fails, -⟩ := multi_all_or_nothing (initial fun _ => 1) (.working 0) rfl 7 1
    [.check ⟨"/", 5⟩, .delete ⟨"/a", -1⟩]
  obtain ⟨s', replied, durable, -⟩ :=
    fails [] _ _ _ _ .nil rfl (.checkVersion (n := {}) rfl (by decide))
  exact ⟨s', replied, durable⟩

end KeeperServer
end TinyKeeper
