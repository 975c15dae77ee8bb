import TinyKeeper.KeeperServer.Changes
import TinyKeeper.Lib.Versioned

/-! Version checks over interleaved requests. Every step changes the versions of the nodes in the
order of its successful operations, a batch one operation after another on its staged copy. -/
namespace TinyKeeper

abbrev VersionEvent := CellEvent String Int32

abbrev VersionStep := CellStep (κ := String) (0 : Int32) (· + 1)

namespace KeeperStorage
variable {st : KeeperStorage} {path : String}

def versions (st : KeeperStorage) (p : String) : Option Int32 :=
  (st.map.get p).map (·.stat.version)

theorem versions_of_stored {n : Node} (stored : st.map.get path = some n) :
    st.versions path = some n.stat.version := by
  rw [versions, stored]
  rfl

end KeeperStorage

/-- The versions of the nodes of a tree. -/
def versionsIn (m : Table String Node) (p : String) : Option Int32 :=
  (m.get p).map (·.stat.version)

/-- What a change of the tree is to the versions. -/
def Change.versionEvent : Change → VersionEvent
  | .created _ path => .created path
  | .set path expected => .set path expected
  | .removed path expected => .removed path expected
  | .checked path expected => .checked path expected

section Changes
variable {zxid : ℕ} {m m' : Table String Node} {c : Change}

theorem versionsIn_of_stored {path : String} {n : Node} (stored : m.get path = some n) :
    versionsIn m path = some n.stat.version := by
  rw [versionsIn, stored]
  rfl

/-- A change leaves the versions of the other nodes alone, also that of the parent. -/
theorem TreeStep.versionsIn_of_ne (h : TreeStep zxid m c m') {p : String}
    (creates : c.creates ≠ some p) (sets : c.sets ≠ some p) (removes : c.removes ≠ some p) :
    versionsIn m' p = versionsIn m p := by
  have step := h.node p
  unfold versionsIn
  generalize m.get p = o at step ⊢
  generalize m'.get p = o' at step ⊢
  cases step with
  | made this fresh => exact absurd this creates
  | set this data timestamp => exact absurd this sets
  | gone this => exact absurd this removes
  | linked below other name => rfl
  | unlinked below other name => rfl
  | same elsewhere creates sets removes => rfl

/-- A change of the tree changes the version of one node. -/
theorem TreeStep.versions (h : TreeStep zxid m c m') :
    VersionStep (versionsIn m) c.versionEvent (versionsIn m') := by
  have others (path : String) (here : ∀ p, c.creates = some p ∨ c.sets = some p ∨
      c.removes = some p → p = path) : versionsIn m' =
        Function.update (versionsIn m) path (versionsIn m' path) := by
    funext p
    by_cases same : p = path
    · rw [same, Function.update_self]
    · rw [Function.update_of_ne same]
      exact h.versionsIn_of_ne (fun c => same (here p (.inl c)))
        (fun c => same (here p (.inr (.inl c)))) (fun c => same (here p (.inr (.inr c))))
  cases h with
  | @created req path q name n node asked split name_ne parent persistent suffixed absent fresh =>
    have other : path ≠ q := (parentOf_ne split name_ne).symm
    have first : versionsIn ((m.insert path node).modify q (·.addChild name zxid)) path =
        some 0 := by
      rw [versionsIn, Table.get_modify_of_ne _ _ other, Table.get_insert_self, Option.map_some,
        fresh.version]
    rw [others path (by simp [Change.creates, Change.sets, Change.removes, eq_comm]), first]
    exact .created (by rw [versionsIn, absent]; rfl)
  | @set path expected n data timestamp stored met =>
    have next : versionsIn (m.modify path (·.setData data timestamp zxid)) path =
        some (n.stat.version + 1) := by
      rw [versionsIn, Table.get_modify_self, stored]
      rfl
    rw [others path (by simp [Change.creates, Change.sets, Change.removes, eq_comm]), next]
    exact .set (versionsIn_of_stored stored) met
  | @removed path q name expected n k stored met split name_ne parent leaf =>
    have other : path ≠ q := (parentOf_ne split name_ne).symm
    have none : versionsIn ((m.remove path).modify q (·.dropChild name zxid)) path = none := by
      rw [versionsIn, Table.get_modify_of_ne _ _ other, Table.get_remove_self]
      rfl
    rw [others path (by simp [Change.creates, Change.sets, Change.removes, eq_comm]), none]
    exact .removed (versionsIn_of_stored stored) met
  | checked stored met => exact .checked (versionsIn_of_stored stored) met

end Changes

/-- What a successful operation of a batch does to the versions. -/
def MultiOp.updates : MultiOp → MultiOpResponse → List VersionEvent
  | .check req, .check => [.checked req.path (expectedOf req.version)]
  | .set req, .set .. => [.set req.path (expectedOf req.version)]
  | .create _, .create path => [.created path]
  | .delete req, .delete => [.removed req.path (expectedOf req.version)]
  | _, _ => []

theorem MultiOp.updates_eq (op : MultiOp) (response : MultiOpResponse) :
    op.updates response = (op.changes response).map Change.versionEvent := by
  cases op <;> cases response <;> rfl

/-- What a request that got this reply did to the versions. The root is never removed. -/
def Request.updates (reply : Reply) : Request → List VersionEvent
  | .create _ =>
    match reply.body with
    | .create path => [.created path]
    | _ => []
  | .set req => if reply.err = .ok then [.set req.path (expectedOf req.version)] else []
  | .remove req =>
    if reply.err = .ok ∧ req.path ≠ "/" then [.removed req.path (expectedOf req.version)] else []
  | .multi ops =>
    match reply.body with
    | .multi responses => (ops.zip responses).flatMap fun (op, response) => op.updates response
    | _ => []
  | _ => []

theorem Request.updates_eq (reply : Reply) (req : Request) :
    req.updates reply = (req.changes reply).map Change.versionEvent := by
  cases req with
  | create req =>
    simp only [Request.updates, Request.changes]
    cases reply.body <;> rfl
  | set req =>
    simp only [Request.updates, Request.changes]
    split_ifs <;> rfl
  | remove req =>
    simp only [Request.updates, Request.changes]
    split_ifs <;> rfl
  | multi ops =>
    simp only [Request.updates, Request.changes]
    cases reply.body with
    | multi responses => simp only [MultiOp.updates_eq, List.map_flatMap]
    | _ => rfl
  | _ => rfl

namespace KeeperServer
variable {recordBytes : LogRecord → ℕ} (s : KeeperServer recordBytes) (env : Env)

/-- The nodes that the end of a session removes. -/
def endUpdates (tree : KeeperStorage) (orders : HashOrders) (id : SessionId) :
    List VersionEvent :=
  let (sessionState, paths) := tree.sessionState.closeSession orders id
  (KeeperStorage.cleared { tree with sessionState } paths).map (.removed · none)

/-- What a step does to the versions of the nodes, in order. -/
def updates (e : ServerEvent) (out : Output) : List VersionEvent :=
  match e with
  | .closeSession id => endUpdates s.storage.nextZxid env.orders id
  | .handle _ id .close => endUpdates s.storage env.orders id
  | .handle _ _ req =>
    match out with
    | .applied result => req.updates result.response
    | _ => []
  | _ => []

theorem endUpdates_eq (tree : KeeperStorage) (orders : HashOrders) (id : SessionId) :
    endUpdates tree orders id = (endChanges tree orders id).map Change.versionEvent := by
  simp only [endUpdates, endChanges, List.map_map]
  rfl

theorem updates_eq (e : ServerEvent) (out : Output) :
    s.updates env e out = (s.changes env e out).map Change.versionEvent := by
  cases e with
  | createSession timeoutMs => rfl
  | closeSession id => exact endUpdates_eq _ _ _
  | touch id => rfl
  | handle xid id req =>
    cases req with
    | close => exact endUpdates_eq _ _ _
    | _ =>
      cases out with
      | applied result => simp only [updates, changes, Request.updates_eq]
      | _ => rfl

variable {s env}

/-- The versions change in every step as its updates say. -/
theorem exec_updates (hl : s.storage.Linked) {e : ServerEvent} {out : Output}
    {s' : KeeperServer recordBytes} (done : s.exec env e = .done out s') :
    Run VersionStep s.storage.versions (s.updates env e out) s'.storage.versions := by
  rw [updates_eq]
  exact (exec_changes hl done).map versionsIn Change.versionEvent (fun _ _ _ step => step.versions)

/-- A server, and what has happened to the versions of its nodes since it first started. -/
structure History (recordBytes : LogRecord → ℕ) where
  server : KeeperServer recordBytes
  trace : List VersionEvent

namespace History

def initial (recordBytes : LogRecord → ℕ) : History recordBytes := ⟨.initial recordBytes, []⟩

def Step (h : History recordBytes) (x : Env × ServerEvent × Output) (h' : History recordBytes) :
    Prop :=
  h.server.exec x.1 x.2.1 = .done x.2.2 h'.server ∧
    h'.trace = h.trace ++ h.server.updates x.1 x.2.1 x.2.2

end History

/-- The sets that each node has seen since its creation, each with the version it expected. The
root is there from the start. -/
def setsAfter (trace : List VersionEvent) : String → Option (List (Option Int32)) :=
  livesAfter (fun p => if p = "/" then some [] else none) trace

theorem iterate_version (n : ℕ) : (· + 1)^[n] (0 : Int32) = Int32.ofNat n := by
  induction n with
  | zero => rfl
  | succ n ih =>
    rw [Function.iterate_succ_apply', ih, Int32.ofNat_add]
    rfl

/-- As long as there are less than 2^31 sets the version is their number. -/
theorem version_toInt {n : ℕ} (small : n < 2 ^ 31) : ((· + 1)^[n] (0 : Int32)).toInt = n := by
  rw [iterate_version, Int32.toInt_ofNat_of_lt small]

theorem initial_counts : Counts (0 : Int32) (· + 1)
    (fun p => if p = "/" then some [] else none)
    (initial recordBytes).storage.versions := by
  refine ⟨fun p => ?_, fun p seen life i e there => ?_⟩
  · by_cases root : p = "/"
    · subst root
      rfl
    · have absent : (initial recordBytes).storage.map.get p = none := by
        rw [initial, KeeperStorage.new_get, if_neg root]
      rw [if_neg root, KeeperStorage.versions, absent]
      rfl
  · split_ifs at life
    cases life
    cases there

/-- A history goes through its versions one by one. -/
theorem History.versions {xs : List (Env × ServerEvent × Output)} {h : History recordBytes}
    (run : Run Step (initial recordBytes) xs h) :
    h.server.storage.Linked ∧ Run VersionStep (KeeperServer.initial recordBytes).storage.versions
      h.trace h.server.storage.versions := by
  refine run.invariant (fun h => h.server.storage.Linked ∧
    Run VersionStep (KeeperServer.initial recordBytes).storage.versions h.trace
      h.server.storage.versions) ⟨KeeperStorage.new_linked 500, .nil⟩ ?_
  rintro h x h' ⟨linked, path⟩ ⟨done, grown⟩
  have step : h.server.Step (x.1, x.2.1) h'.server := ⟨x.2.2, done⟩
  rw [grown]
  exact ⟨step.linked linked, path.trans (exec_updates linked done)⟩

/-- Over any interleaving of requests: a node is stored as long as it is alive, its version is the
number of the sets since its creation, whatever was done under an expected version met that
version, and no two sets of a node expected the same one. -/
theorem no_lost_update {xs : List (Env × ServerEvent × Output)} {h : History recordBytes}
    (run : Run History.Step (.initial recordBytes) xs h) :
    (∀ p, h.server.storage.map.get p = none ↔ setsAfter h.trace p = none) ∧
    (∀ p n, h.server.storage.map.get p = some n →
      ∃ sets, setsAfter h.trace p = some sets ∧
        (sets.length < 2 ^ 31 → n.stat.version.toInt = sets.length)) ∧
    (∀ before x after, h.trace = before ++ x :: after → ∀ p e, x.Expects p e →
      ∃ sets, setsAfter before p = some sets ∧
        (sets.length < 2 ^ 31 → e.toInt = (sets.length : Int))) ∧
    ∀ before, before <+: h.trace → ∀ p sets, setsAfter before p = some sets →
      sets.length < 2 ^ 31 → ∀ e (i j : ℕ), sets[i]? = some (some e) → sets[j]? = some (some e) →
        i = j := by
  obtain ⟨-, path⟩ := History.versions run
  have counts := initial_counts.run path
  refine ⟨fun p => ?_, fun p n stored => ?_, ?_, ?_⟩
  · have version := counts.version p
    rw [← Option.map_eq_none_iff (f := fun n : Node => n.stat.version),
      ← Option.map_eq_none_iff
        (f := fun sets : List (Option Int32) => (· + 1)^[sets.length] (0 : Int32))]
    exact iff_of_eq (congrArg (· = none) version)
  · have version := counts.version p
    rw [KeeperStorage.versions_of_stored stored] at version
    obtain ⟨sets, life, same⟩ := Option.map_eq_some_iff.mp version.symm
    exact ⟨sets, life, fun small => same ▸ version_toInt small⟩
  · intro before x after split p e expects
    rw [split] at path
    obtain ⟨sets, life, rfl⟩ := initial_counts.expected_of_run path expects
    exact ⟨sets, life, version_toInt⟩
  · rintro before ⟨rest, split⟩ p sets life small e i j hi hj
    rw [← split] at path
    obtain ⟨v, init, -⟩ := path.append_split
    refine (initial_counts.run init).unique life ?_ hi hj
    intro i hi j hj same
    have left := version_toInt (hi.trans small)
    rw [same, version_toInt (hj.trans small)] at left
    omega

/-- A set under the version 0 of the root, and one under the version 1. -/
theorem no_lost_update_twice :
    ∃ h : History (fun _ => 1), h.trace = [.set "/" (some 0), .set "/" (some 1)] ∧
      ∀ n, h.server.storage.map.get "/" = some n → n.stat.version.toInt = 2 := by
  let first : ServerEvent := .handle 1 1 (.set ⟨"/", [1], 0⟩)
  let second : ServerEvent := .handle 2 1 (.set ⟨"/", [2], 1⟩)
  obtain ⟨out, s, done, updates, out', s', done', updates'⟩ : ∃ out s,
      (initial fun _ => 1).exec (.working 0) first = .done out s ∧
      (initial fun _ => 1).updates (.working 0) first out = [.set "/" (some 0)] ∧
      ∃ out' s', s.exec (.working 0) second = .done out' s' ∧
      s.updates (.working 0) second out' = [.set "/" (some 1)] :=
    ⟨_, _, rfl, rfl, _, _, rfl, rfl⟩
  have step : History.Step (.initial fun _ => 1) (.working 0, first, out)
      ⟨s, [.set "/" (some 0)]⟩ := ⟨done, updates.symm⟩
  have step' : History.Step ⟨s, [.set "/" (some 0)]⟩ (.working 0, second, out')
      ⟨s', [.set "/" (some 0)] ++ [.set "/" (some 1)]⟩ := ⟨done', by rw [updates']⟩
  obtain ⟨-, version, -⟩ := no_lost_update ((Run.single step).snoc step')
  refine ⟨⟨s', [.set "/" (some 0)] ++ [.set "/" (some 1)]⟩, rfl, fun n stored => ?_⟩
  obtain ⟨sets, life, count⟩ := version "/" n stored
  obtain rfl : [some 0, some 1] = sets := Option.some.inj life
  exact count (by decide)

end KeeperServer
end TinyKeeper
