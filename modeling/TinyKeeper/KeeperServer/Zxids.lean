import TinyKeeper.KeeperServer.LogFiles
import TinyKeeper.KeeperServer.Recovery

/-! Numbering over the lifetimes of a server whose flushes succeed: the log is gapless from the
first transaction on, over rotations, restarts and crashes. -/
namespace TinyKeeper

/-- What happens to a server and its log directory: a step is served, the server is restarted on
the log it left, or it dies in a step and is restarted on what the step had written by then, a
record whole or not at all. -/
inductive Episode
  | serve (env : Env) (e : ServerEvent) (out : Output)
  | restart (orders : ℕ → HashOrders)
  | crash (env : Env) (e : ServerEvent) (orders : ℕ → HashOrders)

/-- Every segment file has the name of the index that was next when it was started. -/
def Keyed (segments : List (ℕ × List LogRecord)) : Prop :=
  ∀ front segment, front ++ [segment] <+: segments →
    segment.1 = (recordsOf front).length + 1

theorem Keyed.grow {front : List (ℕ × List LogRecord)} {k : ℕ} {data : List LogRecord}
    (h : Keyed (front ++ [(k, data)])) (data' : List LogRecord) :
    Keyed (front ++ [(k, data')]) := by
  intro d segment pre
  obtain e | pre := List.prefix_concat_iff.mp pre
  · obtain ⟨rfl, rfl⟩ := List.append_singleton_inj.mp e
    exact h d (k, data) (List.prefix_refl _)
  · exact h d segment (pre.trans (List.prefix_append _ _))

theorem Keyed.start {segments : List (ℕ × List LogRecord)} (h : Keyed segments) {k : ℕ}
    (next : k = (recordsOf segments).length + 1) : Keyed (segments ++ [(k, [])]) := by
  intro d segment pre
  obtain e | pre := List.prefix_concat_iff.mp pre
  · obtain ⟨rfl, rfl⟩ := List.append_singleton_inj.mp e
    exact next
  · exact h d segment pre

/-- The directory holds the records of the zxids up to this one, without a gap. -/
structure Gapless (dir : Segments LogRecord) (zxid : ℕ) : Prop where
  indices : (recordsOf dir.entries).map LogRecord.index = List.range' 1 zxid
  keyed : Keyed dir.entries

namespace Gapless
variable {dir : Segments LogRecord} {zxid : ℕ}

theorem length (h : Gapless dir zxid) : (recordsOf dir.entries).length = zxid := by
  have lengths := congrArg List.length h.indices
  simpa using lengths

/-- The record behind `before` has the next index. -/
theorem index_eq (h : Gapless dir zxid) {before after : List LogRecord} {r : LogRecord}
    (split : recordsOf dir.entries = before ++ r :: after) : r.index = before.length + 1 := by
  have indices := h.indices
  rw [split, List.map_append, List.map_cons] at indices
  have there := congrArg (fun l : List ℕ => l[before.length]?) indices
  have inside : before.length < zxid := by
    rw [← h.length, split]
    simp
  simp only [List.getElem?_append_right, List.length_map, le_refl, Nat.sub_self,
    List.getElem?_cons_zero] at there
  rw [List.getElem?_range' inside] at there
  have same := Option.some.inj there
  omega

/-- A segment file starts with the record of the index in its name. -/
theorem head (h : Gapless dir zxid) {k : ℕ} {r : LogRecord} {rs : List LogRecord}
    (mem : (k, r :: rs) ∈ dir.entries) : r.index = k := by
  obtain ⟨front, rest, split⟩ := List.append_of_mem mem
  have key := h.keyed front (k, r :: rs) ⟨rest, by simp [split]⟩
  have records : recordsOf dir.entries = recordsOf front ++ r :: (rs ++ recordsOf rest) := by
    simp [split]
  rw [h.index_eq records]
  exact key.symm

/-- A segment file holds only indices below the index in the name of the next one. -/
theorem below_next (h : Gapless dir zxid) {front rest : List (ℕ × List LogRecord)} {k k' : ℕ}
    {rs rs' : List LogRecord} (split : dir.entries = front ++ (k, rs) :: (k', rs') :: rest)
    {r : LogRecord} (mem : r ∈ rs) : r.index < k' := by
  have key := h.keyed (front ++ [(k, rs)]) (k', rs') ⟨rest, by simp [split]⟩
  obtain ⟨before, after, rfl⟩ := List.append_of_mem mem
  have records : recordsOf dir.entries =
      (recordsOf front ++ before) ++ r :: (after ++ rs' ++ recordsOf rest) := by
    simp [split]
  have place := h.index_eq records
  simp only [recordsOf_append, recordsOf_cons, recordsOf_nil, List.length_append,
    List.length_cons, List.append_nil] at key place
  omega

end Gapless

namespace KeeperServer
variable {recordBytes : LogRecord → ℕ} {s s' : KeeperServer recordBytes}

/-- The flushes of the steps that are served succeed, and a crash leaves no part of a record. -/
def Lives (s : KeeperServer recordBytes) : Episode → KeeperServer recordBytes → Prop
  | .serve env e out, s' => env.flush = .succeeds ∧ s.exec env e = .done out s'
  | .restart orders, s' => new recordBytes s.wal.segments orders = .ok s'
  | .crash env e orders, s' => env.flush.Reported ∧ ∃ dead,
    ((∃ out, s.exec env e = .done out dead) ∨ s.exec env e = .abort dead) ∧
      new recordBytes dead.wal.segments orders = .ok s'

/-- The counter is in step with the log, and nothing waits to be written. -/
structure InStep (s : KeeperServer recordBytes) : Prop where
  reachable : Reachable s
  tidy : s.Tidy
  flushed : s.wal.writer.buf = []
  gapless : Gapless s.wal.segments s.storage.lastZxid

theorem initial_inStep : (initial recordBytes).InStep := by
  refine ⟨initial_reachable, initial_tidy, rfl, rfl, ?_⟩
  have empty : Keyed [] := by simp [Keyed]
  exact empty.start rfl

/-- However far the flush of a logged operation gets, it leaves no gap, unless it loses a write. -/
theorem InStep.log (h : s.InStep) {env : Env} (reported : env.flush.Reported) (op : WalOperation) :
    Gapless (s.log env op).1.wal.segments
      (s.storage.lastZxid + (env.flush.reaches [s.fresh op]).length) := by
  obtain ⟨front, data, entries⟩ := h.tidy.active
  have keyed := h.gapless.keyed
  have length := h.gapless.length
  rw [entries] at keyed length
  obtain ⟨-, records⟩ := h.tidy.log env op
  rw [h.flushed, List.nil_append] at records
  refine ⟨?_, ?_⟩
  · rw [records, List.map_append, h.gapless.indices]
    rcases List.prefix_concat_iff.mp (env.flush.reaches_prefix ([] ++ [s.fresh op])) with
      whole | none
    · rw [List.nil_append] at whole
      rw [whole, List.length_singleton, List.range'_1_concat]
      simp [fresh, Nat.add_comm]
    · rw [List.nil_append] at none
      rw [List.prefix_nil.mp none]
      simp
  · have last : (s.wal.append (s.fresh op)).lastIndex = s.storage.lastZxid + 1 := rfl
    have file : (s.wal.append (s.fresh op)).writer.file = s.wal.writer.file := rfl
    have buf : (s.wal.append (s.fresh op)).writer.buf = s.wal.writer.buf ++ [s.fresh op] := rfl
    obtain ⟨after, -⟩ | ⟨passes, -, after⟩ := (s.log_flushed env op).entries entries h.tidy.below
    · rw [after, file]
      exact keyed.grow _
    · rw [after, file, last, buf, h.flushed]
      refine (keyed.grow _).start ?_
      rw [(passes.syncs reported).reaches]
      simp only [recordsOf_append, recordsOf_cons, recordsOf_nil, List.length_append,
        List.append_nil, List.nil_append, List.length_singleton] at length ⊢
      omega

theorem Tidy.entries_ne_nil (h : s.Tidy) : s.wal.segments.entries ≠ [] := by
  obtain ⟨front, data, entries⟩ := h.active
  rw [entries]
  exact List.concat_ne_nil _ _

/-- Whatever a step has written when the server dies in it, its log has no gap. -/
theorem InStep.dead (h : s.InStep) {env : Env} {e : ServerEvent} {dead : KeeperServer recordBytes}
    (reported : env.flush.Reported)
    (last : (∃ out, s.exec env e = .done out dead) ∨ s.exec env e = .abort dead) :
    dead.wal.segments.entries ≠ [] ∧ ∃ zxid, Gapless dead.wal.segments zxid := by
  have linked := h.reachable.linked
  obtain ⟨out, done⟩ | stops := last
  · obtain ⟨op, move, journal⟩ := served_of_done done linked
    refine ⟨(h.tidy.step move journal).entries_ne_nil, ?_⟩
    obtain ⟨-, wal⟩ | ⟨op', -, wal, -⟩ := journal.wal move
    · exact ⟨_, wal ▸ h.gapless⟩
    · exact ⟨_, wal ▸ h.log reported op'⟩
  · obtain ⟨xid, id, ops, operations, s₁, error, -, -, failed, rfl⟩ := served_of_abort stops linked
    have wal : s₁.wal = (s.log env (.multi operations env.now id)).1.wal := by rw [failed]
    rw [wal]
    exact ⟨(h.tidy.log env _).1.entries_ne_nil, _, h.log reported _⟩

/-- A restart on a log without a gap goes on behind it. -/
theorem InStep.of_new {dir : Segments LogRecord} {zxid : ℕ} {orders : ℕ → HashOrders}
    (h : Gapless dir zxid) (ne : dir.entries ≠ []) (started : new recordBytes dir orders = .ok s') :
    s'.InStep ∧ s'.wal.segments = dir ∧ s'.storage.lastZxid = zxid := by
  obtain ⟨front, ⟨k, data⟩, entries⟩ := (List.eq_nil_or_concat' _).resolve_left ne
  obtain ⟨w, opened, segments, writer, -⟩ := WalStore.open_of_decodes dir maxSegmentBytes entries
    (LogRecord.decodeAll_format recordBytes data)
  obtain ⟨opened', -, -⟩ := new_eq_ok started
  cases opened.symm.trans opened'
  have counter : s'.storage.lastZxid = zxid := by
    rw [KeeperStorage.lastZxid_replay (new_replays started), recordsIn_eq, ← List.getLast?_map,
      h.indices, List.getLast?_range']
    cases zxid with
    | zero => rfl
    | succ zxid => simp
  have key := h.keyed front (k, data) (by rw [entries])
  have length := h.length
  refine ⟨⟨.started started, ⟨⟨front, data, ?_⟩, ?_⟩, ?_, ?_⟩, segments, counter⟩
  · rw [segments, writer, entries]
  · rw [writer, counter, ← length, entries]
    simp only [recordsOf_append, List.length_append] at key ⊢
    omega
  · rw [writer]
  · rw [segments, counter]
    exact h

/-- What a served step does to the log and the counter. -/
theorem InStep.serve (h : s.InStep) {env : Env} {e : ServerEvent} {out : Output}
    (flushed : env.flush = .succeeds) (done : s.exec env e = .done out s') :
    s'.InStep ∧ ∃ op, Transition env s.storage e op out.watchEvents s'.storage ∧
      recordsIn recordBytes s'.wal.segments =
        recordsIn recordBytes s.wal.segments ++ s.recorded op ∧
      s'.storage.lastZxid = s.storage.lastZxid + op.toList.length ∧
      s.Journal env e out op s' := by
  have linked := h.reachable.linked
  obtain ⟨op, move, journal⟩ := served_of_done done linked
  have counter := move.lastZxid flushed
  have tidy := h.tidy.step move journal
  have reachable : Reachable s' := .stepped (e := (env, e)) h.reachable ⟨out, done⟩
  obtain ⟨rfl, wal⟩ | ⟨op', -, wal, counted⟩ := journal.wal move
  · refine ⟨⟨reachable, tidy, wal ▸ h.flushed, ?_⟩, none, move, ?_, counter, journal⟩
    · rw [wal, counter]
      exact h.gapless
    · rw [wal, recorded, Option.toList_none, List.map_nil, List.append_nil]
  · obtain rfl : op = some op' := by
      obtain same | ⟨rfl, storage⟩ := counted
      · exact same
      · rw [storage] at counter
        exact absurd counter (Nat.succ_ne_self _)
    have synced : env.flush.Syncs := .inl flushed
    have reported : env.flush.Reported := by rw [flushed]; trivial
    refine ⟨⟨reachable, tidy, ?_, ?_⟩, some op', move, ?_, counter, journal⟩
    · rw [wal, log_buf, if_pos synced.passes]
    · have gapless := h.log reported op'
      rw [synced.reaches] at gapless
      rw [wal, counter]
      exact gapless
    · obtain ⟨-, records⟩ := h.tidy.log env op'
      rw [h.flushed, synced.reaches] at records
      rw [wal, recordsIn_eq, recordsIn_eq, records]
      rfl

theorem InStep.lives (h : s.InStep) {e : Episode} (last : s.Lives e s') : s'.InStep := by
  cases e with
  | serve env e out => exact (h.serve last.1 last.2).1
  | restart orders => exact (of_new h.gapless h.tidy.entries_ne_nil last).1
  | crash env e orders =>
    obtain ⟨reported, dead, stopped, started⟩ := last
    obtain ⟨ne, zxid, gapless⟩ := h.dead reported stopped
    exact (of_new gapless ne started).1

theorem inStep_of_life {es : List Episode} (life : Run Lives (initial recordBytes) es s) :
    s.InStep :=
  life.invariant InStep initial_inStep (fun _ _ _ h last => h.lives last)

/-- No response of a run that completes is an error. -/
theorem error_not_mem {env : Env} {id : SessionId} {st st' : KeeperStorage}
    {entries : List MultiEntry} (path : MultiRun env id st entries st') (code : ErrorCode) :
    .error code ∉ entries.map (·.2.1) := by
  induction path with
  | nil => simp
  | snoc _ last ih =>
    rw [List.map_append, List.mem_append, List.map_singleton, List.mem_singleton, not_or]
    refine ⟨ih, ?_⟩
    cases last <;> simp

/-- A batch is acknowledged, or leaves the server as it was. -/
theorem exec_multi {env : Env} {xid : Int32} {id : SessionId} {ops : List MultiOp} {out : Output}
    (hl : s.storage.Linked) (done : s.exec env (.handle xid id (.multi ops)) = .done out s') :
    Acknowledges (.handle xid id (.multi ops)) out ∨ s' = s := by
  have handled : (s.handleMulti env xid ops id).map .applied = .done out s' := done
  have ends : s.MultiEnds env xid id ops (s.handleMulti env xid ops id) :=
    handleMulti_ends hl xid ops id
  generalize s.handleMulti env xid ops id = result at handled ends
  cases ends with
  | completes path hlog =>
    cases handled
    exact .inl ⟨_, rfl, error_not_mem path⟩
  | aborts path hlog => cases handled
  | fails path fails =>
    cases handled
    exact .inr rfl

/-- Over any lifetimes in which the flushes succeed the log is a gapless sequence: it holds the
indices from 1 to the counter, a step appends at most one record, under the next zxid, and a batch
that fails appends none; a restart changes neither the log nor the counter; and the name of a
segment file is the index of its first record and above those of the files before it. -/
theorem log_gapless {es : List Episode} (life : Run Lives (initial recordBytes) es s) :
    (recordsIn recordBytes s.wal.segments).map LogRecord.index =
        List.range' 1 s.storage.lastZxid ∧
      (∀ k r rs, (k, r :: rs) ∈ s.wal.segments.entries → r.index = k) ∧
      (∀ front k rs k' rs' rest,
        s.wal.segments.entries = front ++ (k, rs) :: (k', rs') :: rest →
          ∀ r ∈ rs, r.index < k') ∧
      (∀ env e out s', s.Lives (.serve env e out) s' →
        ∃ op, Transition env s.storage e op out.watchEvents s'.storage ∧
          recordsIn recordBytes s'.wal.segments =
            recordsIn recordBytes s.wal.segments ++ s.recorded op ∧
          s'.storage.lastZxid = s.storage.lastZxid + op.toList.length ∧
          ((∃ xid id ops, e = .handle xid id (.multi ops)) → ¬ Acknowledges e out → op = none)) ∧
      ∀ orders s', s.Lives (.restart orders) s' →
        recordsIn recordBytes s'.wal.segments = recordsIn recordBytes s.wal.segments ∧
          s'.storage.lastZxid = s.storage.lastZxid := by
  have inStep := inStep_of_life life
  have gapless := inStep.gapless
  refine ⟨?_, fun k r rs mem => gapless.head mem, ?_, ?_, ?_⟩
  · rw [recordsIn_eq]
    exact gapless.indices
  · intro front k rs k' rs' rest split r mem
    exact gapless.below_next split mem
  · rintro env e out s' ⟨flushed, done⟩
    obtain ⟨-, op, move, records, counter, -⟩ := inStep.serve flushed done
    refine ⟨op, move, records, counter, ?_⟩
    rintro ⟨xid, id, ops, rfl⟩ unsaid
    obtain said | rfl := exec_multi inStep.reachable.linked done
    · exact absurd said unsaid
    · cases op with
      | none => rfl
      | some op => simp at counter
  · intro orders s' started
    obtain ⟨-, segments, counter⟩ :=
      InStep.of_new gapless inStep.tidy.entries_ne_nil started
    rw [segments]
    exact ⟨rfl, counter⟩

/-- A session is opened and makes a node, and the server is restarted. -/
theorem log_gapless_restarted :
    ∃ s : KeeperServer (fun _ => 1), s.storage.lastZxid = 2 ∧
      (recordsIn (fun _ => 1) s.wal.segments).map LogRecord.index = [1, 2] := by
  let create : ServerEvent := .handle 1 1 (.create ⟨"/a", [], 0⟩)
  obtain ⟨opened, opens, out, made, makes, two, s, started⟩ : ∃ opened,
      (initial fun _ => 1).exec (.working 0) (.createSession 5000) = .done (.session 1) opened ∧
      ∃ out made, opened.exec (.working 0) create = .done out made ∧
        made.storage.lastZxid = 2 ∧ ∃ s, new (fun _ => 1) made.wal.segments
          (fun _ => ⟨.choice, .choice, .choice⟩) = .ok s := ⟨_, rfl, _, _, rfl, rfl, _, rfl⟩
  have serves : (initial fun _ => 1).Lives
      (.serve (.working 0) (.createSession 5000) (.session 1)) opened := ⟨rfl, opens⟩
  have serves' : opened.Lives (.serve (.working 0) create out) made := ⟨rfl, makes⟩
  have restarts : made.Lives (.restart _) s := started
  have life := (Run.single serves).snoc serves'
  obtain ⟨-, -, -, -, resumes⟩ := log_gapless life
  obtain ⟨indices, -⟩ := log_gapless (life.snoc restarts)
  have counter : s.storage.lastZxid = 2 := (resumes _ _ restarts).2.trans two
  rw [counter] at indices
  exact ⟨s, counter, indices⟩

end KeeperServer
end TinyKeeper
