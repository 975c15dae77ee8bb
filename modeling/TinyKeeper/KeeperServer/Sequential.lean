import TinyKeeper.KeeperServer.Chronicle
import TinyKeeper.KeeperServer.Writes
import TinyKeeper.Storage.Sequential

/-! Sequential creates over whole lifetimes: their names are distinct and sorted below any node, and
free unless a client has put a number into a name before the counter of the parent got there. -/
namespace TinyKeeper

/-- A sequential create of a valid path below a node that can have children. -/
structure KeeperStorage.AsksSequential (st : KeeperStorage) (req : CreateRequest) (q : String) :
    Prop where
  sequential : isSequential req.flags
  split : ∃ name, parentOf req.path = some (q, name) ∧ name ≠ ""
  parent : ∃ n, st.map.get q = some n ∧ n.stat.ephemeralOwner = 0

/-- The name that a sequential create below `q` gets next is not taken. -/
def KeeperStorage.NextFree (st : KeeperStorage) (req : CreateRequest) (q : String) : Prop :=
  ∀ n, st.map.get q = some n → st.map.get (req.path ++ formatSeq n.stat.cversion) = none

namespace KeeperStorage.AsksSequential
variable {st : KeeperStorage} {req : CreateRequest} {q : String}

theorem nextZxid (asks : st.AsksSequential req q) : st.nextZxid.AsksSequential req q :=
  ⟨asks.sequential, asks.split, asks.parent⟩

/-- The tree makes the node exactly if the name is free. -/
theorem create_ok_iff (asks : st.AsksSequential req q) (timestamp : Int) (id : SessionId) :
    (∃ path st', st.create req.path req.data timestamp id req.flags = .ok path st') ↔
      st.NextFree req q := by
  obtain ⟨sequential, ⟨c, split, named⟩, n, parent, persistent⟩ := asks
  constructor
  · rintro ⟨path, st', done⟩ k there
    obtain ⟨q', name, creatable, -⟩ := (KeeperStorage.create_ok_iff _ _ _ _ _ _ _ _).mp done
    obtain ⟨c', split', -⟩ := creatable.split
    obtain ⟨n', stored, -, made⟩ := creatable.parent
    have free := creatable.fresh
    cases split.symm.trans split'
    cases there.symm.trans stored
    rwa [made, createdPath, if_pos sequential] at free
  · intro free
    have made : createdPath req.path req.flags n.stat.cversion =
        req.path ++ formatSeq n.stat.cversion := if_pos sequential
    obtain ⟨name, below, -⟩ := parentOf_createdPath req.flags n.stat.cversion split named
    refine ⟨_, _, (KeeperStorage.create_ok_iff _ _ _ _ _ _ _ _).mpr
      ⟨q, name, ⟨⟨c, split, named⟩, ⟨n, parent, persistent, rfl⟩, ?_, below⟩, rfl⟩⟩
    rw [made]
    exact free n parent

theorem nextFree_iff (asks : st.AsksSequential req q) {intervalMs : Int} {trace : List Change}
    (path : Run TreeChange (KeeperStorage.new intervalMs).map trace st.map)
    (few : childChanges q trace < 2 ^ 31) :
    st.NextFree req q ↔ ¬ StandsAhead q req.path (childChanges q trace) trace := by
  obtain ⟨name, split, named⟩ := asks.split
  obtain ⟨n, parent, -⟩ := asks.parent
  rw [← next_free_iff path split named parent few]
  constructor
  · exact fun free => free n parent
  · intro free k there
    cases there.symm.trans parent
    exact free

end KeeperStorage.AsksSequential

namespace MultiProgress
variable {env : Env} {id : SessionId} {m : MultiProgress}

/-- What the operations of a batch have done to the staged tree. -/
def changes (m : MultiProgress) (ops : List MultiOp) : List Change :=
  (ops.zip m.responses).flatMap fun (op, response) => op.changes response

theorem changes_after (st staged : KeeperStorage) (entries : List MultiEntry) :
    (after ⟨staged, [], [], []⟩ st entries).changes (entries.map Prod.fst) =
      entries.flatMap fun entry => entry.1.changes entry.2.1 := by
  rw [changes, after, List.nil_append, List.zip_map', List.flatMap_map]

/-- A sequential create goes on exactly if its name is free. -/
theorem create_step_iff {req : CreateRequest} {q : String}
    (asks : m.staged.AsksSequential req q) :
    (∃ path m', m.step env id (.create req) = .ok (.ok m') ∧
      m'.responses = m.responses ++ [.create path]) ↔ m.staged.NextFree req q := by
  rw [← asks.create_ok_iff env.now id]
  constructor
  · rintro ⟨path, m', went, -⟩
    rcases m.staged.create_eq req.path req.data env.now id req.flags with
      ⟨q, name, created, -, done⟩ | ⟨message, failed, -⟩
    · exact ⟨_, _, done⟩
    · rw [step_of_multiFails (.create failed)] at went
      cases went
  · rintro ⟨path, st, done⟩
    exact ⟨path, _, step_of_multiStep (.create done), rfl⟩

end MultiProgress

namespace KeeperServer
variable {recordBytes : LogRecord → ℕ} {s : KeeperServer recordBytes} {env : Env}

/-- The create is answered with the path it made. -/
def Creates (s : KeeperServer recordBytes) (env : Env) (xid : Int32) (id : SessionId)
    (req : CreateRequest) : Prop :=
  ∃ path events s', s.exec env (.handle xid id (.create req)) =
    .done (.applied ⟨⟨xid, s'.storage.lastZxid, .ok, .create path⟩, events⟩) s'

/-- A standalone sequential create succeeds exactly if its name is free, no node is at the path
without the number, and its record is flushed. -/
theorem creates_iff {req : CreateRequest} {q : String} (asks : s.storage.AsksSequential req q)
    (xid : Int32) (id : SessionId) : s.Creates env xid id req ↔
      s.storage.map.get req.path = none ∧ s.storage.NextFree req q ∧
        (s.log env (.create req.path req.data env.now req.flags id)).2 = .ok () := by
  have answers := s.handleCreate_answers env xid req id
  have create_iff := asks.nextZxid.create_ok_iff env.now id
  constructor
  · rintro ⟨path, events, s', done⟩
    obtain ⟨r, same, handled⟩ := exec_handle done
    cases same
    rw [show s.handleCreate env xid req id = _ from handled] at answers
    obtain ⟨ends, -, hlog⟩ := answers.acknowledged rfl
    generalize s'.storage = st at ends
    cases ends with
    | create checked made => exact ⟨checked.absent, create_iff.mp ⟨_, _, made⟩, by rw [hlog]⟩
  · rintro ⟨absent, free, flushed⟩
    obtain ⟨path, st, done⟩ := create_iff.mpr free
    obtain ⟨c, split, named⟩ := asks.split
    obtain ⟨n, parent, -⟩ := asks.parent
    have checked : CreateChecked s.storage req :=
      ⟨absent, q, c, split, named, by simp [parent]⟩
    generalize he : s.handleCreate env xid req id = result at answers
    cases answers with
    | refused fails => exact absurd checked fails.not_passes
    | logged ends =>
      rcases s.log_cases env (.create req.path req.data env.now req.flags id) with
        ⟨s₁, error, hlog, -⟩ | ⟨s₁, hlog, -⟩
      · rw [hlog] at flushed
        cases flushed
      · rw [finish, hlog] at he
        cases ends with
        | @create _ path' st' checked' done' =>
          refine ⟨path', (st'.watchState.fire env.orders path' .created).2,
            ⟨st'.fired env.orders path' .created, s₁.wal⟩, ?_⟩
          rw [exec, handle, he]
          rfl
        | createFails checked' failed =>
          rw [done] at failed
          cases failed

end KeeperServer

namespace Chronicle
variable {recordBytes : LogRecord → ℕ} {h : Chronicle recordBytes}

/-- Over any lifetimes, while a node is not removed and counts less than 2^31 changes of its
children, every sequential name below it is the path asked for with ten digits, no two of them are
equal, and those with the same path asked for come in alphabetic order. -/
theorem sequential_names {hs : List KeeperServer.Happening}
    (run : Run Step (initial recordBytes) hs h) {before life after : List Change} {q : String}
    (trace : h.changes = before ++ life ++ after) (stays : ∀ c ∈ life, c.removes ≠ some q)
    (few : childChanges q (before ++ life) < 2 ^ 31) :
    (∀ x ∈ sequentialUnder q life, ∃ digits : List Char, digits.length = 10 ∧
      (∀ d ∈ digits, d.isDigit) ∧ x.2 = x.1 ++ String.ofList digits) ∧
    (sequentialUnder q life).Pairwise fun x y => x.2 ≠ y.2 ∧ (x.1 = y.1 → x.2 < y.2) := by
  have leads := (sound_of_run run).leads
  rw [trace] at leads
  obtain ⟨t, leads, -⟩ := leads.append_split
  obtain ⟨m, start, path⟩ := leads.append_split
  obtain ⟨below, ordered⟩ := (numbered_of_run start path stays).1
  constructor
  · intro x mem
    obtain ⟨k, less, numbered⟩ := below x mem
    exact numbered.digits (less.trans few)
  · apply ordered.imp
    rintro ⟨stem, path⟩ ⟨stem', path'⟩ ⟨k, k', less, bound, numbered, numbered'⟩
    have small := bound.trans few
    refine ⟨fun same => ?_, fun stem => numbered.lt numbered' stem less small⟩
    obtain rfl : path = path' := same
    exact less.ne (numbered.unique (less.trans small) small numbered')

/-- Two sequential creates below the root. -/
theorem sequential_names_root : ∃ h : Chronicle (fun _ => 1),
    sequentialUnder "/" h.changes = [("/a", "/a0000000000"), ("/a", "/a0000000001")] ∧
      (sequentialUnder "/" h.changes).Pairwise fun x y => x.2 ≠ y.2 ∧ (x.1 = y.1 → x.2 < y.2) := by
  obtain ⟨h, h', first, second, trace⟩ : ∃ h h' : Chronicle (fun _ => 1),
      (initial _).Step (.serve (.working 0) (.handle 1 1 (.create ⟨"/a", [], 2⟩))) h ∧
      h.Step (.serve (.working 1) (.handle 2 1 (.create ⟨"/a", [], 2⟩))) h' ∧
      h'.changes = [.created ⟨"/a", [], 2⟩ "/a0000000000", .created ⟨"/a", [], 2⟩ "/a0000000001"] :=
    ⟨_, _, .serve rfl, .serve rfl, rfl⟩
  have split : h'.changes = [] ++ h'.changes ++ [] := by simp
  have run := (Run.single first).snoc second
  rw [trace] at split
  refine ⟨h', ?_, ?_⟩
  · rw [trace]
    decide
  · rw [trace]
    exact (sequential_names run (trace.trans split) (by decide) (by decide)).2

/-- Over any lifetimes, a sequential create below `q` succeeds in a batch that has got to it exactly
if its name is not that of a standing node that ran ahead of the counter of `q`; a standalone one
moreover only if no node is at the path without the number, and its record is flushed. -/
theorem sequential_create_succeeds_iff {hs : List KeeperServer.Happening}
    (run : Run Step (initial recordBytes) hs h) (env : Env) (id : SessionId) (req : CreateRequest)
    (q : String) :
    (∀ xid, h.server.storage.AsksSequential req q → childChanges q h.changes < 2 ^ 31 →
      (h.server.Creates env xid id req ↔ h.server.storage.map.get req.path = none ∧
        ¬ StandsAhead q req.path (childChanges q h.changes) h.changes ∧
        (h.server.log env (.create req.path req.data env.now req.flags id)).2 = .ok ())) ∧
    (∀ ops m trace, trace = h.changes ++ m.changes ops →
      MultiProgress.run ⟨h.server.storage.nextZxid, [], [], []⟩ env id ops = .ok (.ok m) →
      m.staged.AsksSequential req q → childChanges q trace < 2 ^ 31 →
      ((∃ path m', m.step env id (.create req) = .ok (.ok m') ∧
        m'.responses = m.responses ++ [.create path]) ↔
      ¬ StandsAhead q req.path (childChanges q trace) trace)) := by
  have sound := sound_of_run run
  constructor
  · intro xid asks few
    rw [KeeperServer.creates_iff asks, asks.nextFree_iff sound.leads few]
  · rintro ops m trace rfl done asks few
    have linked := sound.reachable.linked.nextZxid
    obtain ⟨entries, st, path, rfl, rfl⟩ := MultiProgress.run_ok linked done
    have changed := TreeStep.run_changes (MultiRun.changes path linked)
    rw [MultiProgress.changes_after] at few ⊢
    rw [MultiProgress.create_step_iff asks]
    exact asks.nextFree_iff (sound.leads.trans changed) few

/-- A name with a number that the counter has reached is no obstacle. -/
theorem sequential_create_succeeds_behind : ∃ h : Chronicle (fun _ => 1),
    h.server.storage.map.get "/a0000000000" ≠ none ∧
      h.server.Creates (.working 1) 2 1 ⟨"/a", [], 2⟩ := by
  obtain ⟨h, n, first, trace, asks, absent, flushed, stored⟩ :
      ∃ (h : Chronicle (fun _ => 1)) (n : Node),
      (initial _).Step (.serve (.working 0) (.handle 1 1 (.create ⟨"/a0000000000", [], 0⟩))) h ∧
      h.changes = [.created ⟨"/a0000000000", [], 0⟩ "/a0000000000"] ∧
      h.server.storage.AsksSequential ⟨"/a", [], 2⟩ "/" ∧ h.server.storage.map.get "/a" = none ∧
      (h.server.log (.working 1) (.create "/a" [] 1 2 1)).2 = .ok () ∧
      h.server.storage.map.get "/a0000000000" = some n :=
    ⟨_, _, .serve rfl, rfl, ⟨rfl, ⟨"a", by decide, by decide⟩, _, rfl, rfl⟩, rfl, rfl, rfl⟩
  have clear : ¬ StandsAhead "/" "/a" (childChanges "/" h.changes) h.changes := by
    rw [trace]
    rintro ⟨before, req, after, split, -⟩
    have made : Change.created req ("/a" ++ formatSeq (Int32.ofNat 1)) ∈
        [Change.created ⟨"/a0000000000", [], 0⟩ "/a0000000000"] := by
      rw [split]
      exact List.mem_append_right _ (List.mem_cons_self ..)
    rw [List.mem_singleton, Change.created.injEq] at made
    exact absurd made.2 (by decide)
  have succeeds := sequential_create_succeeds_iff (Run.single first) (.working 1) 1 ⟨"/a", [], 2⟩ "/"
  refine ⟨h, by simp [stored], (succeeds.1 2 asks ?_).mpr ⟨absent, clear, flushed⟩⟩
  rw [trace]
  decide

/-- A name that a client numbered by hand is in the way once the counter gets there, and it cannot
be the path of a sequential create itself. -/
theorem sequential_create_collides : ∃ hs, ∃ h : Chronicle (fun _ => 1), Run Step (initial _) hs h ∧
    h.server.storage.AsksSequential ⟨"/a", [], 2⟩ "/" ∧
    ¬ h.server.Creates (.working 1) 2 1 ⟨"/a", [], 2⟩ ∧
    h.server.storage.AsksSequential ⟨"/a0000000001", [], 2⟩ "/" ∧
    ¬ h.server.Creates (.working 1) 2 1 ⟨"/a0000000001", [], 2⟩ := by
  obtain ⟨h, s', first, asks, asks', taken, present⟩ : ∃ (h : Chronicle (fun _ => 1)) (s' : _),
      (initial _).Step (.serve (.working 0) (.handle 1 1 (.create ⟨"/a0000000001", [], 0⟩))) h ∧
      h.server.storage.AsksSequential ⟨"/a", [], 2⟩ "/" ∧
      h.server.storage.AsksSequential ⟨"/a0000000001", [], 2⟩ "/" ∧
      h.server.exec (.working 1) (.handle 2 1 (.create ⟨"/a", [], 2⟩)) =
        .done (.applied ⟨⟨2, 2, .badArguments, .empty⟩, []⟩) s' ∧
      h.server.exec (.working 1) (.handle 2 1 (.create ⟨"/a0000000001", [], 2⟩)) =
        .done (.applied ⟨⟨2, 1, .nodeExists, .empty⟩, []⟩) h.server :=
    ⟨_, _, .serve rfl, ⟨rfl, ⟨"a", by decide, by decide⟩, _, rfl, rfl⟩,
      ⟨rfl, ⟨"a0000000001", by decide, by decide⟩, _, rfl, rfl⟩, rfl, rfl⟩
  refine ⟨_, h, Run.single first, asks, ?_, asks', ?_⟩
  · rintro ⟨path, events, s, done⟩
    simp [taken] at done
  · rintro ⟨path, events, s, done⟩
    simp [present] at done

end Chronicle
end TinyKeeper
