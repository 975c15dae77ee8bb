import TinyKeeper.KeeperServer.Chronicle
import TinyKeeper.KeeperServer.Zxids
import TinyKeeper.Storage.Timeline

/-! The stamps of the nodes over whole lifetimes. They stay in order as long as no start finds the
records of its log out of order, which a flush that is retried after it failed can leave behind. -/
namespace TinyKeeper

/-- A replay of records in order keeps the stamps in order. -/
theorem KeeperStorage.timeline_replay {st st' : KeeperStorage} {orders : ℕ → HashOrders}
    {records : List LogRecord} (h : Run (ReplaysRecord orders) st records st') (hl : st.Linked)
    (timeline : Timeline st.lastZxid st.map)
    (sorted : records.Pairwise fun r r' => r.index ≤ r'.index)
    (behind : ∀ r ∈ records, st.lastZxid ≤ r.index) : Timeline st'.lastZxid st'.map := by
  induction records generalizing st with
  | nil =>
    rw [h.nil_eq]
    exact timeline
  | cons r records ih =>
    obtain ⟨t, first, rest⟩ := Run.cons_iff.mp h
    obtain ⟨later, sorted⟩ := List.pairwise_cons.mp sorted
    have linked : (st.setLastZxid r.index).Linked := hl.of_map rfl
    have counter : t.lastZxid = r.index := Replays.lastZxid first
    refine ih rest (first.linked hl) ?_ sorted (fun r' mem => counter ▸ later r' mem)
    rw [counter]
    exact timeline.run (behind r (by simp)) (Replays.changes first linked)

namespace KeeperServer
variable {recordBytes : LogRecord → ℕ}

/-- The start finds the records of its log in the order of their indices. -/
def FindsOrderedLog (recordBytes : LogRecord → ℕ) : Happening → Prop
  | .start dir _ => (recordsIn recordBytes dir).Pairwise fun r r' => r.index ≤ r'.index
  | .serve _ _ => True

theorem timeline_of_new {dir : Segments LogRecord} {orders : ℕ → HashOrders}
    {s : KeeperServer recordBytes} (started : new recordBytes dir orders = .ok s)
    (sorted : (recordsIn recordBytes dir).Pairwise fun r r' => r.index ≤ r'.index) :
    Timeline s.storage.lastZxid s.storage.map :=
  KeeperStorage.timeline_replay (new_replays started) (KeeperStorage.new_linked 500)
    (Timeline.new 500) sorted (fun _ _ => Nat.zero_le _)

theorem Evolves.timeline {s s' : KeeperServer recordBytes} {h : Happening} (last : s.Evolves h s')
    (reachable : Reachable s) (timeline : Timeline s.storage.lastZxid s.storage.map)
    (ordered : FindsOrderedLog recordBytes h) : Timeline s'.storage.lastZxid s'.storage.map := by
  cases h with
  | start dir orders => exact timeline_of_new last ordered
  | serve env e =>
    obtain ⟨out, done⟩ := last
    obtain ⟨op, move, -⟩ := served_of_done done reachable.linked
    exact timeline.run move.lastZxid_le (exec_changes reachable.linked done)

/-- Over any lifetimes in which every start finds its log in order, the stamps are in order. -/
theorem timeline_of_run {hs : List Happening} {s : KeeperServer recordBytes}
    (run : Run Evolves (initial recordBytes) hs s)
    (ordered : ∀ x ∈ hs, FindsOrderedLog recordBytes x) :
    Reachable s ∧ Timeline s.storage.lastZxid s.storage.map := by
  induction run with
  | nil => exact ⟨initial_reachable, Timeline.new 500⟩
  | snoc _ last ih =>
    obtain ⟨reachable, timeline⟩ := ih fun x mem => ordered x (List.mem_append_left _ mem)
    exact ⟨last.reachable reachable, last.timeline reachable timeline (ordered _ (by simp))⟩

/-- The log of a server whose flushes succeed is always in order. -/
theorem timeline_of_life {es : List Episode} {s : KeeperServer recordBytes}
    (life : Run Lives (initial recordBytes) es s) :
    Timeline s.storage.lastZxid s.storage.map := by
  have sorted {dir : Segments LogRecord} {zxid : ℕ} (gapless : Gapless dir zxid) :
      (recordsIn recordBytes dir).Pairwise fun r r' => r.index ≤ r'.index := by
    have indices := List.pairwise_lt_range' (s := 1) (n := zxid)
    rw [← gapless.indices, List.pairwise_map] at indices
    rw [recordsIn_eq]
    exact indices.imp le_of_lt
  refine (life.invariant
    (fun s => s.InStep ∧ Timeline s.storage.lastZxid s.storage.map)
    ⟨initial_inStep, Timeline.new 500⟩ ?_).2
  rintro t x u ⟨inStep, timeline⟩ last
  refine ⟨inStep.lives last, ?_⟩
  cases x with
  | serve env e out =>
    have serves : t.Evolves (.serve env e) u := ⟨out, last.2⟩
    exact serves.timeline inStep.reachable timeline trivial
  | restart orders => exact timeline_of_new last (sorted inStep.gapless)
  | crash env e orders =>
    obtain ⟨reported, dead, stopped, started⟩ := last
    obtain ⟨-, zxid, gapless⟩ := inStep.dead reported stopped
    exact timeline_of_new started (sorted gapless)

/-- The step stamps what it changes with the zxid that it leaves behind, and that is a new one if
the tree changes. -/
structure OwnStamps (s s' : KeeperServer recordBytes) : Prop where
  advances : s'.storage.map ≠ s.storage.map → s.storage.lastZxid < s'.storage.lastZxid
  stamps : s.storage.StampedBy s'.storage s'.storage.lastZxid

/-- What the step changes gets a zxid of its own, above those of all changes before it. -/
structure OwnZxid (s s' : KeeperServer recordBytes) (changes : List Change) : Prop
    extends OwnStamps s s' where
  children : ∀ p n n', s.storage.map.get p = some n → s'.storage.map.get p = some n' →
    (∀ c ∈ changes, c.removes ≠ some p) → (∃ c ∈ changes, c.parent = some p) →
    n.stat.pzxid < n'.stat.pzxid

/-- The explicit end of a session whose index lists a path that can be deleted. -/
def ReapsUnnumbered (st : KeeperStorage) : ServerEvent → Prop
  | .handle _ id .close => ∃ p q name, st.sessionState.Owns id p ∧ st.Deletable p q name
  | _ => False

/-- A cleanup deletes nothing exactly if none of its paths can be deleted. -/
theorem cleared_eq_nil_iff {st : KeeperStorage} (hl : st.Linked) (paths : List String) :
    st.cleared paths = [] ↔ ∀ p ∈ paths, ∀ q name, ¬ st.Deletable p q name := by
  induction paths with
  | nil => simp [KeeperStorage.cleared]
  | cons path paths ih =>
    rw [KeeperStorage.cleared, List.forall_mem_cons]
    obtain ⟨q, name, hd, he⟩ | ⟨message, he, none⟩ := hl.delete_cases path
    · rw [he]
      exact iff_of_false (List.cons_ne_nil _ _) (fun all => all.1 q name hd)
    · rw [he]
      exact ih.trans (and_iff_right none).symm

theorem endChanges_eq_nil_iff {st : KeeperStorage} (hl : st.Linked) (orders : HashOrders)
    (id : SessionId) : endChanges st orders id = [] ↔
      ∀ p q name, st.sessionState.Owns id p → ¬ st.Deletable p q name := by
  have dropped : KeeperStorage.Linked { st with
      sessionState := (st.sessionState.closeSession orders id).1 } := hl.of_map rfl
  have same (p q name : String) : KeeperStorage.Deletable { st with
      sessionState := (st.sessionState.closeSession orders id).1 } p q name ↔
      st.Deletable p q name := ⟨fun h => ⟨h.split, h.name_ne, h.node⟩,
        fun h => ⟨h.split, h.name_ne, h.node⟩⟩
  rw [endChanges, List.map_eq_nil_iff, cleared_eq_nil_iff dropped]
  simp only [SessionState.mem_closeSession, same]
  exact ⟨fun all p q name owns => all p owns q name, fun all p owns q name => all p q name owns⟩

section Step
variable {s s' : KeeperServer recordBytes} {env : Env} {e : ServerEvent} {out : Output}

/-- A step changes nothing, or changes the tree under the next zxid, unless it is the explicit end
of a session that removes nodes. -/
theorem exec_counter (hl : s.storage.Linked) (done : s.exec env e = .done out s')
    (fine : ¬ ReapsUnnumbered s.storage e) (some : s.changes env e out ≠ []) :
    s'.storage.lastZxid = s.storage.lastZxid + 1 := by
  by_cases close : ∃ xid id, e = .handle xid id .close
  · obtain ⟨xid, id, rfl⟩ := close
    refine absurd ?_ some
    rw [changes, endChanges_eq_nil_iff hl]
    rw [ReapsUnnumbered] at fine
    push Not at fine
    exact fine
  · exact (exec_changed hl done).2 some fun xid id same => close ⟨xid, id, same⟩

/-- Such a step has a zxid of its own. -/
theorem ownStamps_of_exec (hl : s.storage.Linked) (done : s.exec env e = .done out s')
    (fine : ¬ ReapsUnnumbered s.storage e) : s.OwnStamps s' := by
  have path := exec_changes hl done
  refine ⟨fun moved => ?_, fun p n stored => stamped_of_run path stored⟩
  have some : s.changes env e out ≠ [] := by
    intro none
    rw [none] at path
    exact moved path.nil_eq
  rw [exec_counter hl done fine some]
  exact Nat.lt_succ_self _

/-- It is above the stamps below which it changes something, if these are not above the counter. -/
theorem ownZxid_of_exec (hl : s.storage.Linked)
    (timeline : Timeline s.storage.lastZxid s.storage.map) (done : s.exec env e = .done out s')
    (fine : ¬ ReapsUnnumbered s.storage e) : s.OwnZxid s' (s.changes env e out) := by
  refine ⟨ownStamps_of_exec hl done fine, fun p n n' stored after stays below => ?_⟩
  rw [pzxid_of_run (exec_changes hl done) stored stays below after]
  obtain ⟨c, mem, -⟩ := below
  rw [exec_counter hl done fine (List.ne_nil_of_mem mem)]
  exact Nat.lt_succ_of_le (timeline.ordered p n stored).pzxid_le

/-- The explicit end of a session removes its nodes under the zxid of an earlier change. -/
theorem not_ownStamps_of_close (hl : s.storage.Linked) {xid : Int32} {id : SessionId}
    (done : s.exec env (.handle xid id .close) = .done out s')
    (removes : s.changes env (.handle xid id .close) out ≠ []) :
    ¬ s.OwnStamps s' := by
  intro own
  have path := exec_changes hl done
  have counter : s'.storage.lastZxid = s.storage.lastZxid := by
    obtain ⟨r, -, handled⟩ := exec_handle done
    obtain ⟨st, ended, rfl⟩ := handle_close handled
    have same : st.lastZxid = s.storage.lastZxid := KeeperStorage.endSession_lastZxid ended
    exact same
  obtain ⟨c, rest, trace⟩ := List.exists_cons_of_ne_nil removes
  have removal (c : Change) (mem : c ∈ s.changes env (.handle xid id .close) out) :
      ∃ p, c = .removed p none := by
    obtain ⟨p, -, same⟩ := List.mem_map.mp mem
    exact ⟨p, same.symm⟩
  obtain ⟨p, rfl⟩ := removal c (by simp [trace])
  rw [trace] at path removal
  obtain ⟨t, first, later⟩ := Run.cons_iff.mp path
  have stays : ∀ c ∈ rest, c.creates ≠ some p := by
    intro c mem
    obtain ⟨q, rfl⟩ := removal c (by simp [mem])
    simp [Change.creates]
  have moved : s'.storage.map ≠ s.storage.map := by
    intro same
    have gone := first.removes_get rfl
    have after := absent_of_run later gone.2 stays
    rw [same] at after
    exact gone.1 after
  have advanced := own.advances moved
  omega

theorem not_ownStamps_of_reaps (hl : s.storage.Linked) (done : s.exec env e = .done out s')
    (reaps : ReapsUnnumbered s.storage e) : ¬ s.OwnStamps s' := by
  unfold ReapsUnnumbered at reaps
  split at reaps
  · refine not_ownStamps_of_close hl done fun none => ?_
    obtain ⟨p, q, name, owns, deletable⟩ := reaps
    exact (endChanges_eq_nil_iff hl env.orders _).mp none p q name owns deletable
  · exact reaps.elim

/-- A step has a zxid of its own unless it is the explicit end of a session that removes nodes. -/
theorem exec_ownStamps_iff (hl : s.storage.Linked) (done : s.exec env e = .done out s') :
    s.OwnStamps s' ↔ ¬ ReapsUnnumbered s.storage e :=
  ⟨fun own reaps => not_ownStamps_of_reaps hl done reaps own, ownStamps_of_exec hl done⟩

theorem exec_ownZxid_iff (hl : s.storage.Linked)
    (timeline : Timeline s.storage.lastZxid s.storage.map) (done : s.exec env e = .done out s') :
    s.OwnZxid s' (s.changes env e out) ↔ ¬ ReapsUnnumbered s.storage e :=
  ⟨fun own reaps => not_ownStamps_of_reaps hl done reaps own.toOwnStamps,
    ownZxid_of_exec hl timeline done⟩

end Step

/-- Over any lifetimes a step stamps its changes with a zxid of its own, exactly if it is not the
explicit end of a session that removes nodes; and if every start has found its log in order, that is
above the stamps of all changes before it. -/
theorem own_zxid_iff {hs : List Happening} {s s' : KeeperServer recordBytes}
    (run : Run Evolves (initial recordBytes) hs s) {env : Env} {e : ServerEvent} {out : Output}
    (done : s.exec env e = .done out s') :
    (s.OwnStamps s' ↔ ¬ ReapsUnnumbered s.storage e) ∧
      ((∀ x ∈ hs, FindsOrderedLog recordBytes x) →
        (s.OwnZxid s' (s.changes env e out) ↔ ¬ ReapsUnnumbered s.storage e)) := by
  have reachable := run.invariant Reachable initial_reachable fun _ _ _ h last => last.reachable h
  refine ⟨exec_ownStamps_iff reachable.linked done, fun ordered => ?_⟩
  exact exec_ownZxid_iff reachable.linked (timeline_of_run run ordered).2 done

/-- The first node of a server. -/
theorem own_zxid_created : ∃ (s' : KeeperServer (fun _ => 1)) (changes : List Change),
    s'.storage.map.get "/a" ≠ none ∧ (initial _).OwnZxid s' changes := by
  obtain ⟨out, s', n, done, stored⟩ : ∃ out s' n, (initial fun _ => 1).exec (.working 0)
      (.handle 1 1 (.create ⟨"/a", [], 0⟩)) = .done out s' ∧ s'.storage.map.get "/a" = some n :=
    ⟨_, _, _, rfl, rfl⟩
  obtain ⟨-, numbered⟩ := own_zxid_iff .nil done
  exact ⟨s', _, by simp [stored], (numbered (by simp)).mpr (fun reaps => reaps)⟩

/-- A session takes a lock and ends: the lock goes under the zxid under which it was made. -/
theorem close_reuses_zxid :
    ¬ ∀ hs (s s' : KeeperServer (fun _ => 1)) env e out, Run Evolves (initial _) hs s →
      s.exec env e = .done out s' → s.OwnZxid s' (s.changes env e out) := by
  intro all
  let opened := (initial fun _ => 1).next (.working 0, .createSession 5000)
  have first : (initial fun _ => 1).Evolves (.serve (.working 0) (.createSession 5000)) opened :=
    step_next initial_reachable.linked _ rfl
  have reachable := first.reachable initial_reachable
  let locked := opened.next (.working 1, .handle 1 1 (.create ⟨"/lock", [], 1⟩))
  have second : opened.Evolves (.serve (.working 1) (.handle 1 1 (.create ⟨"/lock", [], 1⟩)))
      locked := step_next reachable.linked _ rfl
  have run := (Run.single first).snoc second
  obtain ⟨reachable, timeline⟩ := timeline_of_run run (by simp [FindsOrderedLog])
  obtain ⟨out, done⟩ := step_next reachable.linked (.working 2, .handle 2 1 .close) rfl
  obtain ⟨n, stored, childless⟩ : ∃ n, locked.storage.map.get "/lock" = some n ∧
      n.children = ∅ := ⟨_, rfl, rfl⟩
  refine (exec_ownZxid_iff reachable.linked timeline done).mp (all _ _ _ _ _ _ run done) ?_
  exact ⟨"/lock", "/", "lock", ⟨_, rfl, by decide⟩, by decide, by decide, n, stored, childless⟩

end KeeperServer

namespace Chronicle
variable {recordBytes : LogRecord → ℕ} {h : Chronicle recordBytes}

/-- Over any lifetimes in which every start finds its log in order, the stamps of all nodes are in
order in every state; and over every step a node that is not removed keeps its origin, its stamps
do not go back, and its counters do not either before they have counted 2^31 changes. -/
theorem stat_timeline {hs : List KeeperServer.Happening}
    (run : Run Step (initial recordBytes) hs h)
    (ordered : ∀ x ∈ hs, KeeperServer.FindsOrderedLog recordBytes x) :
    Timeline h.server.storage.lastZxid h.server.storage.map ∧
    ∀ env e out s', h.server.exec env e = .done out s' → ∀ p n n',
      h.server.storage.map.get p = some n → s'.storage.map.get p = some n' →
      (∀ c ∈ h.server.changes env e out, c.removes ≠ some p) →
      n'.stat.czxid = n.stat.czxid ∧ n'.stat.ctime = n.stat.ctime ∧
      n'.stat.ephemeralOwner = n.stat.ephemeralOwner ∧
      n.stat.mzxid ≤ n'.stat.mzxid ∧ n.stat.pzxid ≤ n'.stat.pzxid ∧
      (dataChanges p (h.changes ++ h.server.changes env e out) < 2 ^ 31 →
        n.stat.version ≤ n'.stat.version) ∧
      (childChanges p (h.changes ++ h.server.changes env e out) < 2 ^ 31 →
        n.stat.cversion ≤ n'.stat.cversion) := by
  have sound := sound_of_run run
  have evolves : Run KeeperServer.Evolves (.initial recordBytes) (hs.map id) h.server :=
    run.map Chronicle.server id (fun _ _ _ last => last.evolves)
  rw [List.map_id] at evolves
  have timeline := (KeeperServer.timeline_of_run evolves ordered).2
  refine ⟨timeline, fun env e out s' done p n n' stored after stays => ?_⟩
  obtain ⟨op, move, -⟩ := KeeperServer.served_of_done done sound.reachable.linked
  have path := KeeperServer.exec_changes sound.reachable.linked done
  obtain ⟨k, there, evolves, made⟩ := evolves_of_run path stored stays
  cases after.symm.trans there
  obtain ⟨mzxid, pzxid⟩ := evolves.later (timeline.ordered p n stored) move.lastZxid_le
  obtain ⟨version, cversion⟩ := counted_of_run sound.leads p n stored
  obtain ⟨version', cversion'⟩ :=
    counted_of_run (sound.leads.trans (TreeStep.run_changes path)) p n' after
  refine ⟨evolves.czxid, evolves.ctime, evolves.owner, mzxid, pzxid, fun small => ?_,
    fun small => ?_⟩
  · rw [version, version']
    exact ofNat_le_ofNat (changesSince_le made) small
  · rw [cversion, cversion']
    exact ofNat_le_ofNat (changesSince_le made) small

/-- A node is made on a server that has just started. -/
theorem stat_timeline_created : ∃ h : Chronicle (fun _ => 1), ∃ n,
    h.server.storage.map.get "/a" = some n ∧
      Timeline h.server.storage.lastZxid h.server.storage.map := by
  obtain ⟨out, s, n, done, stored⟩ : ∃ out s n, (KeeperServer.initial fun _ => 1).exec
      (.working 0) (.handle 1 1 (.create ⟨"/a", [], 0⟩)) = .done out s ∧
      s.storage.map.get "/a" = some n := ⟨_, _, _, rfl, rfl⟩
  have step : Step (initial fun _ => 1) _ _ := .serve done
  refine ⟨_, n, stored, (stat_timeline (Run.single step) ?_).1⟩
  rintro x mem
  rw [List.mem_singleton.mp mem]
  trivial

end Chronicle

namespace KeeperServer

/-- Three flushes in a row fail after a part of the buffer was written. The restart replays the
records 1, 1, 2, 1, and its counter ends below the stamp of the root. -/
theorem retried_flushes_reorder :
    ¬ ∀ es (s s' : KeeperServer (fun _ => 1)) orders, Run Step (initial _) es s →
      new (fun _ => 1) s.wal.segments orders = .ok s' →
      Timeline s'.storage.lastZxid s'.storage.map := by
  intro all
  let failing (now : Int) (written : ℕ) : Env :=
    ⟨now, .writeFails written, ⟨.choice, .choice, .choice⟩⟩
  let opened := (initial fun _ => 1).next (failing 0 1, .createSession 5000)
  let written := opened.next (failing 1 2, .handle 1 1 (.set ⟨"/", [1], -1⟩))
  let again := written.next (failing 2 1, .createSession 5000)
  have first : (initial fun _ => 1).Step (failing 0 1, .createSession 5000) opened := ⟨_, rfl⟩
  have second : opened.Step (failing 1 2, .handle 1 1 (.set ⟨"/", [1], -1⟩)) written := ⟨_, rfl⟩
  have third : written.Step (failing 2 1, .createSession 5000) again := ⟨_, rfl⟩
  obtain ⟨s, n, started, stored, mzxid, counter⟩ : ∃ s n, new (fun _ => 1) again.wal.segments
      (fun _ => ⟨.choice, .choice, .choice⟩) = .ok s ∧ s.storage.map.get "/" = some n ∧
      n.stat.mzxid = 2 ∧ s.storage.lastZxid = 1 := ⟨_, _, rfl, rfl, rfl, rfl⟩
  have timeline := all _ again s _ (((Run.single first).snoc second).snoc third) started
  have bound := (timeline.ordered "/" n stored).mzxid_le
  omega

end KeeperServer
end TinyKeeper
