import TinyKeeper.KeeperServer.Changes
import TinyKeeper.KeeperServer.LogFiles

/-! The chronicle of a server: all changes of its tree since the tree was empty, those of the
replay at its start included. -/
namespace TinyKeeper

namespace KeeperStorage

/-- What the replay of one operation of a batch does to the tree. -/
def replayedMultiOperation (st : KeeperStorage) (timestamp : Int) (sessionId : SessionId) :
    MultiWalOperation → List Change
  | .create path data flags =>
    match st.create path data timestamp sessionId flags with
    | .ok created _ => [.created ⟨path, data, flags⟩ created]
    | _ => []
  | .set path _ => [.set path none]
  | .delete path => [.removed path none]

def replayedMulti (st : KeeperStorage) (timestamp : Int) (sessionId : SessionId) :
    List MultiWalOperation → List Change
  | [] => []
  | operation :: operations =>
    st.replayedMultiOperation timestamp sessionId operation ++
      match st.replayMultiOperation timestamp sessionId operation with
      | .ok st => st.replayedMulti timestamp sessionId operations
      | .error _ => []

/-- What the replay of an operation of the log does to the tree. -/
def replayedOperation (st : KeeperStorage) (orders : HashOrders) : WalOperation → List Change
  | .create path data timestamp flags sessionId =>
    match st.create path data timestamp sessionId flags with
    | .ok created _ => [.created ⟨path, data, flags⟩ created]
    | _ => []
  | .set path _ _ => [.set path none]
  | .delete path => [.removed path none]
  | .createSession _ _ => []
  | .closeSession sessionId => KeeperServer.endChanges st orders sessionId
  | .multi operations timestamp sessionId => st.replayedMulti timestamp sessionId operations

/-- What a replay does to the tree. -/
def replayedAll (orders : ℕ → HashOrders) (st : KeeperStorage) : List LogRecord → List Change
  | [] => []
  | r :: rs =>
    (st.setLastZxid r.index).replayedOperation (orders r.index) r.op ++
      match st.replayRecord (orders r.index) r with
      | .ok st => st.replayedAll orders rs
      | .error _ => []

variable {st st' : KeeperStorage}

theorem ReplayStep.changes {timestamp : Int} {sessionId : SessionId}
    {operation : MultiWalOperation} (h : ReplayStep timestamp sessionId st operation st')
    (hl : st.Linked) : Run (TreeStep st.lastZxid) st.map
      (st.replayedMultiOperation timestamp sessionId operation) st'.map := by
  cases h with
  | create done =>
    rw [replayedMultiOperation, done]
    exact Run.single (create_ok_change done)
  | set done =>
    obtain ⟨n, stored⟩ := set_ok_stored done
    exact Run.single (set_ok_change stored (by simp) done)
  | delete stored done =>
    rw [disowned_map]
    exact Run.single (hl.delete_ok_change stored (by simp) done)

theorem replayMulti_changes {timestamp : Int} {sessionId : SessionId}
    {operations : List MultiWalOperation}
    (h : Run (ReplayStep timestamp sessionId) st operations st') (hl : st.Linked) :
    Run (TreeStep st.lastZxid) st.map (st.replayedMulti timestamp sessionId operations)
      st'.map := by
  induction operations generalizing st with
  | nil =>
    rw [h.nil_eq]
    exact .nil
  | cons operation operations ih =>
    obtain ⟨t, first, rest⟩ := Run.cons_iff.mp h
    have later := ih rest (first.linked hl)
    rw [first.lastZxid] at later
    rw [replayedMulti, replayMultiOperation_iff.mpr first]
    exact (first.changes hl).trans later

theorem Replays.changes {orders : HashOrders} {op : WalOperation} (h : Replays orders st op st')
    (hl : st.Linked) :
    Run (TreeStep st.lastZxid) st.map (st.replayedOperation orders op) st'.map := by
  cases h with
  | create done =>
    rw [replayedOperation, done]
    exact Run.single (create_ok_change done)
  | set done =>
    obtain ⟨n, stored⟩ := set_ok_stored done
    exact Run.single (set_ok_change stored (by simp) done)
  | delete done =>
    obtain ⟨q, name, hd, -, -⟩ := KeeperStorage.delete_ok done
    obtain ⟨n, stored, -⟩ := hd.node
    exact Run.single (hl.delete_ok_change stored (by simp) done)
  | createSession sessionId timeoutMs => exact .nil
  | @closeSession sessionId _ deletes =>
    have dropped : Linked { st with
        sessionState := (st.sessionState.closeSession orders sessionId).1 } := hl.of_map rfl
    exact dropped.cleanup_changes (cleanup_of_deletes deletes)
  | multi path => exact replayMulti_changes path hl

end KeeperStorage

theorem KeeperStorage.replayAll_changes {st st' : KeeperStorage} {orders : ℕ → HashOrders}
    {records : List LogRecord} (h : Run (ReplaysRecord orders) st records st') (hl : st.Linked) :
    Run TreeChange st.map (st.replayedAll orders records) st'.map := by
  induction records generalizing st with
  | nil =>
    rw [h.nil_eq]
    exact .nil
  | cons r records ih =>
    obtain ⟨t, first, rest⟩ := Run.cons_iff.mp h
    have counted : (st.setLastZxid r.index).Linked := hl.of_map rfl
    have replayed : st.replayRecord (orders r.index) r = .ok t := replayOperation_iff.mpr first
    rw [replayedAll, replayed]
    exact (TreeStep.run_changes (Replays.changes first counted)).trans (ih rest (first.linked hl))

/-- A server, and what has happened to its tree since the tree was empty. -/
structure Chronicle (recordBytes : LogRecord → ℕ) where
  server : KeeperServer recordBytes
  changes : List Change

namespace Chronicle
variable {recordBytes : LogRecord → ℕ}

def initial (recordBytes : LogRecord → ℕ) : Chronicle recordBytes := ⟨.initial recordBytes, []⟩

/-- A start begins a new chronicle with what its replay does; a step goes on with the old one. -/
inductive Step (h : Chronicle recordBytes) :
    KeeperServer.Happening → Chronicle recordBytes → Prop
  | start {dir : Segments LogRecord} {orders : ℕ → HashOrders} {s : KeeperServer recordBytes}
      (started : KeeperServer.new recordBytes dir orders = .ok s) :
      Step h (.start dir orders)
        ⟨s, (KeeperStorage.new 500).replayedAll orders (KeeperServer.recordsIn recordBytes dir)⟩
  | serve {env : Env} {e : ServerEvent} {out : Output} {s : KeeperServer recordBytes}
      (done : h.server.exec env e = .done out s) :
      Step h (.serve env e) ⟨s, h.changes ++ h.server.changes env e out⟩

variable {h h' : Chronicle recordBytes} {happening : KeeperServer.Happening}

theorem Step.evolves (last : h.Step happening h') : h.server.Evolves happening h'.server := by
  cases last with
  | start started => exact started
  | serve done => exact ⟨_, done⟩

/-- The chronicle is of a server that can be in this state, and leads to its tree. -/
structure Sound (h : Chronicle recordBytes) : Prop where
  reachable : h.server.Reachable
  leads : Run TreeChange (KeeperStorage.new 500).map h.changes h.server.storage.map

theorem initial_sound : (initial recordBytes).Sound := ⟨KeeperServer.initial_reachable, .nil⟩

theorem Sound.step (sound : h.Sound) (last : h.Step happening h') : h'.Sound := by
  refine ⟨last.evolves.reachable sound.reachable, ?_⟩
  cases last with
  | start started =>
    exact KeeperStorage.replayAll_changes (KeeperServer.new_replays started)
      (KeeperStorage.new_linked 500)
  | serve done =>
    exact sound.leads.trans
      (TreeStep.run_changes (KeeperServer.exec_changes sound.reachable.linked done))

theorem sound_of_run {hs : List KeeperServer.Happening} (run : Run Step (initial recordBytes) hs h) :
    h.Sound :=
  run.invariant Sound initial_sound (fun _ _ _ sound last => sound.step last)

end Chronicle
end TinyKeeper
