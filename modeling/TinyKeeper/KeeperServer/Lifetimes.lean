import TinyKeeper.KeeperServer.Crashes
import TinyKeeper.KeeperServer.Registered
import TinyKeeper.KeeperServer.SessionIds

/-! The server over many lifetimes. It may stop after any step, or die in the write of a record, and
be started again on its files, any number of times, and its clients see one registry all the way. -/
namespace TinyKeeper

/-- What happens to a server: it serves a step, it stops and is started on its files, or it dies in
the write of the record of a step, of which all has reached the file or nothing, and is started. -/
inductive Chapter
  | served (e : Executed)
  | restarted (orders : ℕ → HashOrders)
  | died (e : Executed) (whole : Bool) (orders : ℕ → HashOrders)

/-- What the registry sees of it. A step of which the record is in the file took place, although
nobody was answered. -/
def Chapter.registered : Chapter → Option Registry.Event
  | .served e => e.registered
  | .restarted _ => none
  | .died e whole _ => if whole then e.registered else none

/-- The reply of a step, if it served a request. -/
def Episode.handled : Episode → Option Handled
  | .serve env e out => Executed.handled ⟨env, e, out⟩
  | .restart _ => none
  | .crash _ _ _ => none

namespace WalStore
variable {recordBytes : LogRecord → ℕ} {w : WalStore (LogRecord.format recordBytes)}
  {records : List LogRecord} {r : LogRecord}

/-- The store under another limit for its segments. -/
def limited (w : WalStore (LogRecord.format recordBytes)) (maxSegmentBytes : ℕ) :
    WalStore (LogRecord.format recordBytes) :=
  { w with maxSegmentBytes := maxSegmentBytes }

/-- The limit does not matter before the next flush. -/
theorem Settled.limited (h : Settled w records) (maxSegmentBytes : ℕ) :
    Settled (w.limited maxSegmentBytes) records := by
  obtain ⟨segs, behind, head, all⟩ := h
  exact ⟨segs, ⟨behind.entries, behind.active, behind.counted, behind.flushed, behind.keyed⟩, head,
    all⟩

/-- A record is in the file, and no new file is started. A store of which the segments have no limit
comes to the same files. -/
theorem Settled.write (h : Settled w records) (positive : 1 ≤ r.index)
    (increasing : (records ++ [r]).Pairwise (·.index < ·.index)) :
    ∃ w' : WalStore (LogRecord.format recordBytes),
      w'.segments = ((w.append r).flush .syncFails).1.segments ∧ Settled w' (records ++ [r]) := by
  let limit := (w.append r).writer.bytesWritten + 1
  have settled : Settled ((w.limited limit).appendBatch [r]).1 (records ++ [r]) :=
    (h.limited limit).appendBatches [[r]] (by simp) (by simpa [LogRecord.format] using positive)
      (by rwa [List.flatten_singleton])
  have ne : (w.append r).writer.buf ≠ [] :=
    List.append_ne_nil_of_right_ne_nil _ (by simp [LogRecord.format])
  have failed : (w.append r).flush .syncFails =
      ((w.append r).spill (w.append r).writer.buf, .error .io) := flush_fails ne id
  have done : (w.limited limit).appendBatch [r] =
      (((w.append r).limited limit).emptied .succeeds, .ok ()) := by
    have full : ¬ limit ≤ (w.append r).writer.bytesWritten := Nat.not_succ_le_self _
    exact (flush_succeeds _).trans (if_neg full)
  refine ⟨_, ?_, settled⟩
  rw [failed, done]
  rfl

end WalStore

namespace KeeperServer
variable {recordBytes : LogRecord → ℕ} {s s' : KeeperServer recordBytes}
  {w : WalStore (LogRecord.format recordBytes)} {records : List LogRecord}

/-- What is served is flushed, leaves nothing durable to be forgotten, and nothing in the log that
no replay can follow. -/
def Leaves (s : KeeperServer recordBytes) (e : Executed) (s' : KeeperServer recordBytes) : Prop :=
  s.Serves e s' ∧ e.env.flush = .succeeds ∧ ¬ Unlogged s.storage e.event ∧
    ¬ Doomed s.storage e.event

/-- The files when the server dies in the write of this record. -/
def dying (s : KeeperServer recordBytes) (op : WalOperation) (whole : Bool) : Segments LogRecord :=
  if whole then ((s.wal.append (s.fresh op)).flush .syncFails).1.segments else s.wal.segments

/-- A step over lifetimes. -/
def Endures (s : KeeperServer recordBytes) : Chapter → KeeperServer recordBytes → Prop
  | .served e, s' => s.Leaves e s'
  | .restarted orders, s' => new recordBytes s.wal.segments orders = .ok s'
  | .died e whole orders, s' => ∃ t op, s.Leaves e t ∧ t.wal = s.logged (some op) ∧
      new recordBytes (s.dying op whole) orders = .ok s'

theorem Leaves.faithful {e : Executed} (leaves : s.Leaves e s') :
    s.Faithful (e.env, e.event) s' :=
  ⟨⟨⟨leaves.1.2, leaves.1.step⟩, leaves.2.1⟩, leaves.2.2⟩

/-- A start on the files of a store that holds the records brings back what they bring back. -/
theorem Restores.restart (h : Restores s records) (settled : WalStore.Settled w records)
    {orders : ℕ → HashOrders} (restarted : new recordBytes w.segments orders = .ok s') :
    Restores s' records ∧ s'.storage.durable = s.storage.durable := by
  have before : Logs (⟨s.storage, w⟩ : KeeperServer recordBytes) records :=
    ⟨settled, h.rebuilds.logs.increasing, h.rebuilds.logs.past⟩
  have fits : ∀ r ∈ records, True := fun _ _ => trivial
  obtain ⟨w', opened, settled', -⟩ :=
    settled.reopen (LogRecord.format_lawful recordBytes) fits maxSegmentBytes
  obtain ⟨opened', -, -⟩ := new_eq_ok restarted
  obtain rfl : w' = s'.wal := Except.ok.inj (opened.symm.trans opened')
  have replayed := (before.new_iff orders s'.storage).mp ⟨s', restarted, rfl⟩
  obtain ⟨same, sessions⟩ := h.tracks.rebuilt orders s'.storage replayed
  have logs : Logs s' records := by
    refine ⟨settled', h.rebuilds.logs.increasing, ?_⟩
    rw [same.lastZxid]
    exact h.rebuilds.logs.past
  have linked := same.linked h.rebuilds.linked
  have indexed := same.indexed h.rebuilds.indexed
  refine ⟨⟨⟨linked, indexed, logs, fun orders' => ?_⟩, linked, indexed, logs,
    fun orders' r replayed' => ?_⟩, KeeperStorage.Durable.ext same.map same.lastZxid sessions
      same.index⟩
  · obtain ⟨r, replayed', same'⟩ := h.rebuilds.rebuilt orders'
    exact ⟨r, replayed', same.symm.trans same'⟩
  · obtain ⟨same', sessions'⟩ := h.tracks.rebuilt orders' r replayed'
    exact ⟨same.symm.trans same', sessions'.trans sessions.symm⟩

/-- The server can be started on its files, and finds what is durable. -/
theorem Restores.restarts (h : Restores s records) (orders : ℕ → HashOrders) :
    ∃ s', new recordBytes s.wal.segments orders = .ok s' ∧
      s'.storage.durable = s.storage.durable := by
  obtain ⟨r, replayed, -⟩ := h.rebuilds.rebuilt orders
  obtain ⟨s', restarted, -⟩ := (h.rebuilds.logs.new_iff orders r).mpr replayed
  exact ⟨s', restarted, (h.restart h.rebuilds.logs.settled restarted).2⟩

theorem Restores.fresh_increasing (h : Restores s records) (op : WalOperation) :
    (records ++ [s.fresh op]).Pairwise (·.index < ·.index) := by
  have logged : Logs (⟨s.storage.nextZxid, s.logged (some op)⟩ : KeeperServer recordBytes)
      (records ++ s.recorded (some op)) := h.rebuilds.logs.step rfl rfl
  exact logged.increasing

/-- The files of a server that dies are those of the records before the step or after it. -/
theorem Restores.dying (h : Restores s records) (op : WalOperation) (whole : Bool) :
    ∃ w : WalStore (LogRecord.format recordBytes), w.segments = s.dying op whole ∧
      WalStore.Settled w (if whole then records ++ [s.fresh op] else records) := by
  cases whole with
  | false => exact ⟨s.wal, rfl, h.rebuilds.logs.settled⟩
  | true => exact h.rebuilds.logs.settled.write (Nat.succ_pos _) (h.fresh_increasing op)

/-- The step logs the operation that is in its log and no other. -/
theorem Restores.leaves (h : Restores s records) {e : Executed} (leaves : s.Leaves e s')
    {op : WalOperation} (wal : s'.wal = s.logged (some op)) :
    Restores s' (records ++ [s.fresh op]) := by
  obtain ⟨op', -, after⟩ := h.step leaves.faithful
  have logged : WalStore.Settled s'.wal (records ++ [s.fresh op]) := by
    have step : Logs (⟨s.storage.nextZxid, s.logged (some op)⟩ : KeeperServer recordBytes)
      (records ++ s.recorded (some op)) := h.rebuilds.logs.step rfl rfl
    exact wal ▸ step.settled
  rwa [after.rebuilds.logs.settled.unique logged] at after

/-- Whatever happens, a server that can be started leaves one; and what is durable is as it was, or
as a step of the server leaves it. -/
theorem Endures.restores {c : Chapter} (step : s.Endures c s')
    (h : ∃ records, Restores s records) : (∃ records, Restores s' records) ∧
      ((∃ e t, s.Leaves e t ∧ s'.storage.durable = t.storage.durable ∧
        c.registered = e.registered) ∨
      (s'.storage.durable = s.storage.durable ∧ c.registered = none)) := by
  obtain ⟨records, restores⟩ := h
  cases c with
  | served e =>
    have leaves : s.Leaves e s' := step
    obtain ⟨op, -, restores'⟩ := restores.step leaves.faithful
    exact ⟨⟨_, restores'⟩, .inl ⟨e, s', leaves, rfl, rfl⟩⟩
  | restarted orders =>
    obtain ⟨restores', same⟩ := restores.restart restores.rebuilds.logs.settled step
    exact ⟨⟨_, restores'⟩, .inr ⟨same, rfl⟩⟩
  | died e whole orders =>
    obtain ⟨t, op, leaves, wal, restarted⟩ := step
    obtain ⟨w, segments, settled⟩ := restores.dying op whole
    rw [← segments] at restarted
    cases whole with
    | false =>
      obtain ⟨restores', same⟩ := restores.restart settled restarted
      exact ⟨⟨_, restores'⟩, .inr ⟨same, rfl⟩⟩
    | true =>
      obtain ⟨restores', same⟩ := (restores.leaves leaves wal).restart settled restarted
      exact ⟨⟨_, restores'⟩, .inl ⟨e, t, leaves, same, rfl⟩⟩

theorem Leaves.works {e : Executed} (leaves : s.Leaves e s') {a : Registry.Event}
    (label : e.registered = some a) : a.Works :=
  e.registered_works (by rw [leaves.2.1]; rfl) label

/-- No flush fails over the lifetimes. -/
theorem Endures.works {c : Chapter} (step : s.Endures c s') {a : Registry.Event}
    (label : c.registered = some a) : a.Works := by
  cases c with
  | served e =>
    have leaves : s.Leaves e s' := step
    exact leaves.works label
  | restarted orders => cases label
  | died e whole orders =>
    obtain ⟨t, op, leaves, -⟩ := step
    cases whole with
    | false => cases label
    | true => exact leaves.works label

theorem works_of_endures {cs : List Chapter} {s₀ : KeeperServer recordBytes}
    (life : Run Endures s₀ cs s) : ∀ a ∈ cs.filterMap Chapter.registered, a.Works := by
  intro a mem
  obtain ⟨c, inside, label⟩ := List.mem_filterMap.mp mem
  obtain ⟨t, u, step⟩ := life.mem_step inside
  exact step.works label

theorem registry_of_durable (same : s'.storage.durable = s.storage.durable) :
    s'.storage.registry = s.storage.registry := by
  have map : s'.storage.map = s.storage.map := congrArg KeeperStorage.Durable.map same
  unfold KeeperStorage.registry
  rw [map]

/-- A server with one session and one node. -/
noncomputable def furnished : KeeperServer fun _ => 1 :=
  ((initial _).next (.working 0, .createSession 5000)).next
    (.working 0, .handle 1 1 (.create ⟨"/a", [], 0⟩))

/-- How it came about. -/
noncomputable def furnishes : List Chapter :=
  [.served ⟨.working 0, .createSession 5000, .session 1⟩,
    .served ⟨.working 0, .handle 1 1 (.create ⟨"/a", [], 0⟩),
      .applied ⟨⟨1, 2, .ok, .create "/a"⟩, []⟩⟩]

theorem furnished_opened : (initial fun _ => 1).Serves
    ⟨.working 0, .createSession 5000, .session 1⟩
    ((initial _).next (.working 0, .createSession 5000)) :=
  ⟨executes_next ⟨_, rfl⟩, trivial⟩

theorem furnished_created : ((initial fun _ => 1).next (.working 0, .createSession 5000)).Serves
    ⟨.working 0, .handle 1 1 (.create ⟨"/a", [], 0⟩),
      .applied ⟨⟨1, 2, .ok, .create "/a"⟩, []⟩⟩ furnished :=
  ⟨executes_next ⟨_, rfl⟩, by decide, by decide⟩

theorem furnished_life : Run Endures (initial fun _ => 1) furnishes furnished := by
  refine (Run.single ⟨furnished_opened, rfl, id, id⟩).snoc ⟨furnished_created, rfl, id, ?_⟩
  rintro ⟨-, never⟩
  exact never "/" "a" "/a" ⟨⟨"a", by decide, by decide⟩, ⟨{}, rfl, rfl, rfl⟩, rfl, by decide⟩

theorem initial_endures : ∃ records, Restores (initial recordBytes) records :=
  ⟨[], initial_restores⟩

theorem keeps_registry_of_endures {cs : List Chapter}
    (life : Run Endures (initial recordBytes) cs s) :
    Run Registry.Step .initial (cs.filterMap Chapter.registered) s.storage.registry := by
  rw [← initial_registry recordBytes]
  refine life.refines (fun s => s.storage.registry) Chapter.registered
    (fun s => ∃ records, Restores s records) initial_endures
    (fun _ _ _ h step => (step.restores h).1) ?_ ?_
  · rintro s c s' a h step label
    obtain ⟨-, ⟨e, t, leaves, same, seen⟩ | ⟨-, unseen⟩⟩ := step.restores h
    · obtain ⟨records, restores⟩ := h
      rw [seen] at label
      rw [registry_of_durable same]
      exact (leaves.1.registered restores.rebuilds.linked restores.rebuilds.indexed).1 a label
    · rw [unseen] at label
      cases label
  · rintro s c s' h step label
    obtain ⟨-, ⟨e, t, leaves, same, seen⟩ | ⟨same, -⟩⟩ := step.restores h
    · obtain ⟨records, restores⟩ := h
      rw [seen] at label
      rw [registry_of_durable same]
      exact (leaves.1.registered restores.rebuilds.linked restores.rebuilds.indexed).2 label
    · exact registry_of_durable same

/-- Over any number of lifetimes the server is one registry: what was answered, before and after the
restarts, is a run of it together with the steps in which the server died behind their records, no
request of it is turned away because of the log, and the next start finds its last state. -/
theorem registry_endures {cs : List Chapter} (life : Run Endures (initial recordBytes) cs s) :
    Run Registry.Step .initial (cs.filterMap Chapter.registered) s.storage.registry ∧
      (∀ a ∈ cs.filterMap Chapter.registered, a.Works) ∧
      ∀ orders, ∃ s', new recordBytes s.wal.segments orders = .ok s' ∧
        s'.storage.registry = s.storage.registry := by
  refine ⟨keeps_registry_of_endures life, works_of_endures life, fun orders => ?_⟩
  obtain ⟨records, restores⟩ := life.invariant (fun s => ∃ records, Restores s records)
    initial_endures fun _ _ _ h step => (step.restores h).1
  obtain ⟨s', restarted, same⟩ := restores.restarts orders
  exact ⟨s', restarted, registry_of_durable same⟩

/-- The server dies behind the record of a second node. It is registered, although nobody was
answered. -/
theorem registry_endures_furnished : ∃ s s' : KeeperServer fun _ => 1,
    new _ (furnished.dying (.create "/b" [] 0 0 1) true)
      (fun _ => ⟨.choice, .choice, .choice⟩) = .ok s ∧
    Run Registry.Step .initial [.served 1 true (.create ⟨"/a", [], 0⟩) .ok (.create "/a"),
      .served 1 true (.create ⟨"/b", [], 0⟩) .ok (.create "/b")] s.storage.registry ∧
    new _ s.wal.segments (fun _ => ⟨.choice, .choice, .choice⟩) = .ok s' ∧
      s'.storage.registry = s.storage.registry := by
  obtain ⟨s, restarted⟩ : ∃ s : KeeperServer fun _ => 1,
    new _ (furnished.dying (.create "/b" [] 0 0 1) true)
      (fun _ => ⟨.choice, .choice, .choice⟩) = .ok s := ⟨_, rfl⟩
  let e : Executed := ⟨.working 0, .handle 2 1 (.create ⟨"/b", [], 0⟩),
    .applied ⟨⟨2, 3, .ok, .create "/b"⟩, []⟩⟩
  have leaves : furnished.Leaves e (furnished.next (e.env, e.event)) := by
    refine ⟨⟨executes_next ⟨_, rfl⟩, by decide, by decide⟩, rfl, id, ?_⟩
    rintro ⟨-, never⟩
    exact never "/" "b" "/b" ⟨⟨"b", by decide, by decide⟩, ⟨_, rfl, rfl, rfl⟩, rfl, by decide⟩
  have died : furnished.Endures (.died e true fun _ => ⟨.choice, .choice, .choice⟩) s :=
    ⟨_, _, leaves, rfl, restarted⟩
  obtain ⟨run, -, starts⟩ := registry_endures (furnished_life.snoc died)
  obtain ⟨s', again, same⟩ := starts fun _ => ⟨.choice, .choice, .choice⟩
  exact ⟨s, s', restarted, run, again, same⟩

/-- A start on a log that goes on behind the counter. -/
theorem Consistent.started {handled : List Handled} (h : Consistent s handled)
    {dir : Segments LogRecord} {orders : ℕ → HashOrders}
    (started : new recordBytes dir orders = .ok s')
    (counter : s.storage.lastZxid ≤ s'.storage.lastZxid) : Consistent s' handled :=
  ⟨.started started, h.ordered, fun r mem => (h.bounded r mem).trans counter, h.shaped⟩

theorem Consistent.lives {handled : List Handled} (h : Consistent s handled) (inStep : s.InStep)
    {e : Episode} (step : s.Lives e s') : Consistent s' (handled ++ e.handled.toList) := by
  cases e with
  | serve env e out =>
    have executes : s.Executes ⟨env, e, out⟩ s' := step.2
    exact h.executes executes
  | restart orders =>
    obtain ⟨-, -, counter⟩ := InStep.of_new inStep.gapless inStep.tidy.entries_ne_nil step
    rw [Episode.handled, Option.toList_none, List.append_nil]
    exact h.started step counter.ge
  | crash env e orders =>
    -- The log that is left has all records of before.
    obtain ⟨reported, dead, stopped, started⟩ := step
    obtain ⟨ne, zxid, gapless⟩ := inStep.dead reported stopped
    obtain ⟨written, records, -⟩ := inStep.written stopped
    obtain ⟨-, -, counter⟩ := InStep.of_new gapless ne started
    have longer : s.storage.lastZxid ≤ s'.storage.lastZxid := by
      rw [counter, ← gapless.length, ← inStep.gapless.length, records, List.length_append]
      exact Nat.le_add_right _ _
    rw [Episode.handled, Option.toList_none, List.append_nil]
    exact h.started started longer

/-- Over any lifetimes in which the flushes succeed, crashes included, the zxids of the replies
never go back, and the counter is not behind them. -/
theorem zxids_endure {es : List Episode} (life : Run Lives (initial recordBytes) es s) :
    ((es.filterMap Episode.handled).map (·.result.response.zxid)).Pairwise (· ≤ ·) ∧
      ∀ h ∈ es.filterMap Episode.handled, h.result.response.zxid ≤ s.storage.lastZxid := by
  have consistent : Consistent s (es.filterMap Episode.handled) := by
    induction life with
    | nil => exact ⟨initial_reachable, .nil, by simp, by simp⟩
    | snoc init last ih =>
      rw [List.filterMap_append]
      exact ih.lives (inStep_of_life init) last
  exact ⟨consistent.ordered, consistent.bounded⟩

/-- The server dies behind the record of a second node. What it answers then is above what it
answered before. -/
theorem zxids_endure_crashed : ∃ (s : KeeperServer fun _ => 1) (es : List Episode),
    Run Lives (initial _) es s ∧
      (es.filterMap Episode.handled).map (·.result.response.zxid) = [2, 3] ∧
      [2, 3].Pairwise (· ≤ ·) := by
  let orders : HashOrders := ⟨.choice, .choice, .choice⟩
  let create : ServerEvent := .handle 2 1 (.create ⟨"/b", [], 0⟩)
  let get : ServerEvent := .handle 3 1 (.get ⟨"/b", false⟩)
  obtain ⟨out, dead, stopped, s, started, body, s', served⟩ : ∃ (out : Output)
      (dead : KeeperServer fun _ => 1),
      furnished.exec ⟨2, .syncFails, orders⟩ create = .done out dead ∧
      ∃ s : KeeperServer fun _ => 1, new _ dead.wal.segments (fun _ => orders) = .ok s ∧
        ∃ body s', s.exec (.working 2) get = .done (.applied ⟨⟨3, 3, .ok, body⟩, []⟩) s' :=
    ⟨_, _, rfl, _, rfl, _, _, rfl⟩
  have opens : (initial fun _ => 1).Lives
      (.serve (.working 0) (.createSession 5000) (.session 1)) _ := ⟨rfl, furnished_opened.1⟩
  have creates : ((initial fun _ => 1).next (.working 0, .createSession 5000)).Lives
      (.serve (.working 0) (.handle 1 1 (.create ⟨"/a", [], 0⟩))
        (.applied ⟨⟨1, 2, .ok, .create "/a"⟩, []⟩)) furnished := ⟨rfl, furnished_created.1⟩
  have crashes : furnished.Lives (.crash ⟨2, .syncFails, orders⟩ create fun _ => orders) s :=
    ⟨trivial, dead, .inl ⟨out, stopped⟩, started⟩
  have reads : s.Lives (.serve (.working 2) get (.applied ⟨⟨3, 3, .ok, body⟩, []⟩)) s' :=
    ⟨rfl, served⟩
  have life := (((Run.single opens).snoc creates).snoc crashes).snoc reads
  exact ⟨_, _, life, rfl, (zxids_endure life).1⟩

end KeeperServer
end TinyKeeper
