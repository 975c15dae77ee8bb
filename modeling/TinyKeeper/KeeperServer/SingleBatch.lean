import TinyKeeper.KeeperServer.Writes

/-! A batch of one operation against the plain request. The handler of the batch and the three
handlers of the writes check in different orders and map errors differently; where they do not,
the two are the same up to timestamps. -/
namespace TinyKeeper

/-- The node without its timestamps. -/
def Node.untimed (n : Node) : Node := { n with stat := { n.stat with ctime := 0, mtime := 0 } }

/-- Why the tree refuses a create, with the code a batch answers. -/
inductive CreateRefused (st : KeeperStorage) (path : String) (flags : Int32) : ErrorCode → Prop
  | invalid (invalid : ∀ q c, parentOf path = some (q, c) → c = "") :
      CreateRefused st path flags .badArguments
  | orphan {q c : String} (split : parentOf path = some (q, c)) (named : c ≠ "")
      (missing : st.map.get q = none) : CreateRefused st path flags .noNode
  | underEphemeral {q c : String} {n : Node} (split : parentOf path = some (q, c)) (named : c ≠ "")
      (stored : st.map.get q = some n) (owned : n.stat.ephemeralOwner ≠ 0) :
      CreateRefused st path flags .noChildrenForEphemerals
  | taken {q c : String} {n : Node} (split : parentOf path = some (q, c)) (named : c ≠ "")
      (stored : st.map.get q = some n)
      (taken : st.map.get (createdPath path flags n.stat.cversion) ≠ none) :
      CreateRefused st path flags .nodeExists

namespace KeeperStorage
variable {st st' : KeeperStorage}

theorem create_refused {path message : String} {data : List UInt8} {timestamp : Int}
    {id : SessionId} {flags : Int32}
    (failed : st.create path data timestamp id flags = .err message) :
    CreateRefused st path flags (createErrorCode message) := by
  unfold create at failed
  cases split : splitPath path with
  | none =>
    simp only [split] at failed
    cases failed
    exact .invalid fun q c h => by simp [parentOf, split] at h
  | some pc =>
    obtain ⟨p, c⟩ := pc
    have computed : parentOf path = some (parentPath p, c) := by simp [parentOf, split]
    simp only [split] at failed
    by_cases named : c = ""
    · rw [if_pos named] at failed
      cases failed
      refine .invalid fun q d h => ?_
      exact (parentOf_det computed h).2.trans named
    rw [if_neg named] at failed
    cases stored : st.map.get (parentPath p) with
    | none =>
      simp only [stored] at failed
      cases failed
      exact .orphan computed named stored
    | some n =>
      simp only [stored] at failed
      by_cases owned : n.stat.ephemeralOwner = 0
      swap
      · rw [if_pos owned] at failed
        cases failed
        exact .underEphemeral computed named stored owned
      rw [if_neg (not_not.mpr owned)] at failed
      by_cases taken : st.map.contains (createdPath path flags n.stat.cversion) = true
      · rw [if_pos taken] at failed
        cases failed
        obtain ⟨m, there⟩ := (Table.contains_eq_true_iff _ _).mp taken
        exact .taken computed named stored (by simp [there])
      · rw [if_neg taken] at failed
        split at failed <;> cases failed

/-- Every stored node but the root has a parent that is not ephemeral. -/
theorem Linked.parent_persistent (hl : st.Linked) {p : String} {n : Node}
    (stored : st.map.get p = some n) (root : p ≠ "/") : ∃ q c m, parentOf p = some (q, c) ∧
      c ≠ "" ∧ st.map.get q = some m ∧ m.stat.ephemeralOwner = 0 := by
  obtain ⟨q, c, m, split, named, parent, listed⟩ := hl.parent p n stored root
  refine ⟨q, c, m, split, named, parent, ?_⟩
  by_contra owned
  have below : q ≠ "/" := by
    rintro rfl
    obtain ⟨r, there, unowned⟩ := hl.root
    cases parent.symm.trans there
    exact owned unowned
  have mem := listed below
  rw [hl.leaf q m parent owned] at mem
  exact absurd mem (Finset.notMem_empty c)

/-- The two agree on everything but the timestamps of the nodes. -/
structure SameButTime (st st' : KeeperStorage) : Prop where
  map : ∀ p, (st'.map.get p).map Node.untimed = (st.map.get p).map Node.untimed
  lastZxid : st'.lastZxid = st.lastZxid
  index : st'.sessionState.ephemerals = st.sessionState.ephemerals
  watches : st'.watchState = st.watchState

theorem SameButTime.refl (st : KeeperStorage) : st.SameButTime st := ⟨fun _ => rfl, rfl, rfl, rfl⟩

theorem SameButTime.fired (h : st.SameButTime st') (orders : HashOrders) (path : String)
    (event : WatchEventType) :
    (st.fired orders path event).SameButTime (st'.fired orders path event) :=
  ⟨h.map, h.lastZxid, h.index, by simp only [KeeperStorage.fired, h.watches]⟩

/-- The time of a create shows in its timestamps only. -/
theorem create_ok_at {path created : String} {data : List UInt8} {timestamp : Int}
    {id : SessionId} {flags : Int32}
    (done : st.create path data timestamp id flags = .ok created st') (timestamp' : Int) :
    ∃ st'', st.create path data timestamp' id flags = .ok created st'' ∧ st'.SameButTime st'' := by
  obtain ⟨q, name, hc, rfl⟩ := (create_ok_iff _ _ _ _ _ _ _ _).mp done
  refine ⟨_, (create_ok_iff _ _ _ _ _ _ _ _).mpr ⟨q, name, hc, rfl⟩, fun p => ?_, rfl, rfl, rfl⟩
  rw [get_afterCreate hc, get_afterCreate hc]
  split_ifs <;> rfl

theorem set_ok_at {path : String} {data : List UInt8} {timestamp : Int}
    (done : st.set path data timestamp = .ok () st') (timestamp' : Int) :
    ∃ st'', st.set path data timestamp' = .ok () st'' ∧ st'.SameButTime st'' := by
  obtain ⟨n, stored, result⟩ | ⟨-, result⟩ := st.set_eq path data timestamp
  · rw [result, Outcome.ok.injEq] at done
    obtain ⟨-, rfl⟩ := done
    refine ⟨_, set_of_stored stored data timestamp', fun p => ?_, rfl, rfl, rfl⟩
    rw [get_afterSet, get_afterSet, stored]
    split_ifs <;> rfl
  · rw [result] at done
    cases done

end KeeperStorage
/-- The plain request for an operation of a batch; a check has none. -/
def MultiOp.plain : MultiOp → Option Request
  | .create req => some (.create req)
  | .set req => some (.set req)
  | .delete req => some (.remove req)
  | .check _ => none

/-- The code of the response to one operation of a batch. -/
def MultiOpResponse.code : MultiOpResponse → ErrorCode
  | .error code => code
  | _ => .ok

/-- What a batch of its own makes of the operation is not what the plain request does: a create
finds its path stored, although the name that it will get is free; a create is logged and then
refused by the tree; the root is created or removed. -/
def Diverges (st : KeeperStorage) : MultiOp → Prop
  | .create req => req.path = "/" ∨
    (CreateChecked st req ∧ ∀ q name created, ¬ st.Creatable req.path req.flags q name created) ∨
    (st.map.get req.path ≠ none ∧ ∃ q name created,
      st.Creatable req.path req.flags q name created)
  | .delete req => req.path = "/" ∧ ∃ n, st.map.get "/" = some n ∧
    VersionOk req.version n.stat.version
  | _ => False

section Operations
variable {env env' : Env} {id : SessionId} {st u v : KeeperStorage} {op : MultiOp} {req : Request}
variable {code error : ErrorCode} {body : ReplyBody} {events events' : List WatchEvent}
variable {response : MultiOpResponse}

theorem MultiStep.code_eq {entry : MultiEntry} (h : MultiStep env id st entry u) :
    entry.2.1.code = .ok := by
  cases h <;> rfl

theorem Creatable.of_nextZxid {path created : String} {data : List UInt8} {timestamp : Int}
    {flags : Int32} (done : st.nextZxid.create path data timestamp id flags = .ok created u) :
    ∃ q name, st.Creatable path flags q name created := by
  obtain ⟨q, name, hc, -⟩ := (KeeperStorage.create_ok_iff _ _ _ _ _ _ _ _).mp done
  exact ⟨q, name, hc.split, hc.parent, hc.fresh, hc.createdSplit⟩

/-- A refused write that a batch carries out. -/
theorem diverges_of_fails_step (plain : op.plain = some req) (fails : WriteFails st req code)
    (step : MultiStep env id st.nextZxid (op, response, events) u) : Diverges st op := by
  cases step with
  | check stored version => cases plain
  | set stored version done updated =>
    cases plain
    exact absurd ⟨_, stored, version⟩ fails.not_passes
  | create done =>
    cases plain
    obtain ⟨q, name, hc⟩ := Creatable.of_nextZxid done
    obtain ⟨c, split, named⟩ := hc.split
    obtain ⟨n, parent, -⟩ := hc.parent
    cases fails with
    | createExists present => exact .inr (.inr ⟨present, q, name, _, hc⟩)
    | createInvalid absent invalid => exact absurd (invalid q c split) named
    | createOrphan absent split' named' missing =>
      cases split.symm.trans split'
      cases missing.symm.trans parent
  | delete stored version done =>
    cases plain
    obtain ⟨q, name, del, -⟩ := KeeperStorage.delete_ok done
    obtain ⟨n, stored', childless⟩ := del.node
    cases stored.symm.trans stored'
    exact absurd ⟨_, stored, version, childless⟩ fails.not_passes

/-- The reasons for a refusal exclude each other. -/
theorem CreateRefused.eq_badArguments {path : String} {flags : Int32}
    (refused : CreateRefused st path flags error)
    (invalid : ∀ q c, parentOf path = some (q, c) → c = "") : error = .badArguments := by
  cases refused with
  | invalid _ => rfl
  | orphan split named _ => exact absurd (invalid _ _ split) named
  | underEphemeral split named _ _ => exact absurd (invalid _ _ split) named
  | taken split named _ _ => exact absurd (invalid _ _ split) named

theorem CreateRefused.eq_noNode {path q c : String} {flags : Int32}
    (refused : CreateRefused st path flags error) (split : parentOf path = some (q, c))
    (named : c ≠ "") (missing : st.map.get q = none) : error = .noNode := by
  cases refused with
  | invalid invalid => exact absurd (invalid _ _ split) named
  | orphan _ _ _ => rfl
  | underEphemeral split' _ stored _ =>
    cases split.symm.trans split'
    cases missing.symm.trans stored
  | taken split' _ stored _ =>
    cases split.symm.trans split'
    cases missing.symm.trans stored

theorem CreateRefused.eq_nodeExists {path q c : String} {flags : Int32} {n : Node}
    (refused : CreateRefused st path flags error) (split : parentOf path = some (q, c))
    (named : c ≠ "") (stored : st.map.get q = some n) (unowned : n.stat.ephemeralOwner = 0) :
    error = .nodeExists := by
  cases refused with
  | invalid invalid => exact absurd (invalid _ _ split) named
  | orphan split' _ missing =>
    cases split.symm.trans split'
    cases missing.symm.trans stored
  | underEphemeral split' _ stored' owned =>
    cases split.symm.trans split'
    cases stored.symm.trans stored'
    exact absurd unowned owned
  | taken _ _ _ _ => rfl

theorem create_error_eq_iff (hl : st.Linked) {req : CreateRequest} {message : String}
    (fails : WriteFails st (.create req) code)
    (failed : st.nextZxid.create req.path req.data env.now id req.flags = .err message) :
    createErrorCode message = code ↔ ¬ Diverges st (.create req) := by
  have refused := KeeperStorage.create_refused failed
  have refuses (q name created : String) : ¬ st.Creatable req.path req.flags q name created :=
    not_creatable_of_err failed q name created
  cases fails with
  | createExists present =>
    obtain ⟨n, stored⟩ := Option.ne_none_iff_exists'.mp present
    by_cases root : req.path = "/"
    · -- the root has no name to be created under
      have code := refused.eq_badArguments fun q c split =>
        (parentOf_det parentOf_root (root ▸ split)).2
      exact iff_of_false (by simp [code]) (not_not.mpr (.inl root))
    obtain ⟨q, c, m, split, named, parent, unowned⟩ := hl.parent_persistent stored root
    refine iff_of_true (refused.eq_nodeExists split named parent unowned) ?_
    rintro (slash | ⟨checked, -⟩ | ⟨-, q, name, created, hc⟩)
    · exact root slash
    · exact present checked.absent
    · exact refuses q name created hc
  | createInvalid absent invalid =>
    refine iff_of_true (refused.eq_badArguments invalid) ?_
    rintro (root | ⟨checked, -⟩ | ⟨present, -⟩)
    · obtain ⟨r, there, -⟩ := hl.root
      rw [← root, absent] at there
      cases there
    · obtain ⟨q, c, split, named, -⟩ := checked.parent
      exact named (invalid q c split)
    · exact present absent
  | createOrphan absent split named missing =>
    refine iff_of_true (refused.eq_noNode split named missing) ?_
    rintro (root | ⟨checked, -⟩ | ⟨present, -⟩)
    · exact parentOf_ne_root split named root
    · obtain ⟨q, c, split', -, stored⟩ := checked.parent
      cases split.symm.trans split'
      exact stored missing
    · exact present absent

/-- A write that is refused either way gets the same code, unless it asks for the root. -/
theorem error_eq_iff (hl : st.Linked) (plain : op.plain = some req)
    (fails : WriteFails st req code) (refused : MultiFails env id st.nextZxid op error) :
    error = code ↔ ¬ Diverges st op := by
  cases refused with
  | checkMissing missing => cases plain
  | checkVersion stored version => cases plain
  | setMissing missing =>
    cases plain
    cases fails with
    | setMissing missing' => exact iff_of_true rfl (fun diverges => diverges)
    | setVersion stored version => cases missing.symm.trans stored
  | setVersion stored version =>
    cases plain
    cases fails with
    | setMissing missing => cases missing.symm.trans stored
    | setVersion stored' version' => exact iff_of_true rfl (fun diverges => diverges)
  | create failed =>
    cases plain
    exact create_error_eq_iff hl fails failed
  | deleteMissing missing =>
    cases plain
    cases fails with
    | deleteMissing missing' =>
      refine iff_of_true rfl ?_
      rintro ⟨root, n, stored, -⟩
      cases (root ▸ missing').symm.trans stored
    | deleteVersion stored version => cases missing.symm.trans stored
    | deleteNotEmpty stored version children => cases missing.symm.trans stored
  | deleteVersion stored version =>
    cases plain
    cases fails with
    | deleteMissing missing => cases missing.symm.trans stored
    | deleteVersion stored' version' =>
      refine iff_of_true rfl ?_
      rintro ⟨root, n, there, met⟩
      cases (root ▸ stored').symm.trans there
      exact version' met
    | deleteNotEmpty stored' version' children =>
      cases stored.symm.trans stored'
      exact absurd version' version
  | deleteRoot stored version root =>
    cases plain
    cases fails with
    | deleteMissing missing => cases missing.symm.trans stored
    | deleteVersion stored' version' =>
      cases stored.symm.trans stored'
      exact absurd version version'
    | deleteNotEmpty stored' version' children =>
      exact iff_of_false (by decide) (not_not.mpr ⟨root, _, root ▸ stored', version'⟩)
  | deleteNotEmpty stored version root children =>
    cases plain
    cases fails with
    | deleteMissing missing => cases missing.symm.trans stored
    | deleteVersion stored' version' =>
      cases stored.symm.trans stored'
      exact absurd version version'
    | deleteNotEmpty stored' version' children' =>
      exact iff_of_true rfl (fun diverges => root diverges.1)

/-- A write that is logged, and carried out by a batch. -/
theorem same_of_ends_step (orders : env'.orders = env.orders) (plain : op.plain = some req)
    (ends : WriteEnds env id st req code body events u)
    (step : MultiStep env' id st.nextZxid (op, response, events') v) :
    ¬ Diverges st op ∧ code = .ok ∧ events' = events ∧ u.SameButTime v := by
  cases step with
  | check stored version => cases plain
  | set stored version done updated =>
    cases plain
    cases ends with
    | set stored' version' done' updated' =>
      obtain ⟨w, again, same⟩ := KeeperStorage.set_ok_at done' env'.now
      cases done.symm.trans again
      rw [orders, same.watches]
      exact ⟨fun diverges => diverges, rfl, rfl, same.fired _ _ _⟩
  | @create t req path done =>
    cases plain
    obtain ⟨q, name, hc⟩ := Creatable.of_nextZxid done
    cases ends with
    | create checked done' =>
      obtain ⟨w, again, same⟩ := KeeperStorage.create_ok_at done' env'.now
      cases done.symm.trans again
      rw [orders, same.watches]
      refine ⟨?_, rfl, rfl, same.fired _ _ _⟩
      rintro (root | ⟨-, none⟩ | ⟨present, -⟩)
      · obtain ⟨c, split, named⟩ := hc.split
        exact parentOf_ne_root split named root
      · exact none q name path hc
      · exact present checked.absent
    | createFails checked failed => exact absurd hc (not_creatable_of_err failed q name path)
  | @delete t req n stored version done =>
    cases plain
    obtain ⟨q, name, del, -⟩ := KeeperStorage.delete_ok done
    have root := parentOf_ne_root del.split del.name_ne
    cases ends with
    | delete checked done' =>
      cases done.symm.trans done'
      have there : st.map.get req.path = some n := stored
      cases there.symm.trans checked.stored
      rw [orders]
      exact ⟨fun diverges => root diverges.1, rfl, rfl, .refl _⟩
    | deleteRoot checked slash => exact absurd slash root

/-- A write that is logged, and refused in a batch. -/
theorem diverges_of_ends_fails (plain : op.plain = some req)
    (ends : WriteEnds env id st req code body events u)
    (refused : MultiFails env' id st.nextZxid op error) : Diverges st op := by
  cases refused with
  | checkMissing missing => cases plain
  | checkVersion stored version => cases plain
  | setMissing missing =>
    cases plain
    obtain ⟨n, stored, -⟩ := ends.passes
    cases missing.symm.trans stored
  | setVersion stored version =>
    cases plain
    obtain ⟨n, stored', version'⟩ := ends.passes
    cases stored.symm.trans stored'
    exact absurd version' version
  | create failed =>
    cases plain
    exact .inr (.inl ⟨ends.passes, not_creatable_of_err failed⟩)
  | deleteMissing missing =>
    cases plain
    obtain ⟨n, checked⟩ := ends.passes
    cases missing.symm.trans checked.stored
  | deleteVersion stored version =>
    cases plain
    obtain ⟨n, checked⟩ := ends.passes
    cases stored.symm.trans checked.stored
    exact absurd checked.version version
  | deleteRoot stored version root =>
    cases plain
    exact ⟨root, _, root ▸ stored, version⟩
  | deleteNotEmpty stored version root children =>
    cases plain
    obtain ⟨n, checked⟩ := ends.passes
    cases stored.symm.trans checked.stored
    exact absurd checked.childless children

end Operations
namespace KeeperServer
variable {recordBytes : LogRecord → ℕ} {s : KeeperServer recordBytes} {env : Env}

/-- How a batch of one operation ends: it is refused, or logged and then published. -/
inductive SingleEnds (s : KeeperServer recordBytes) (env : Env) (xid : Int32) (id : SessionId)
    (op : MultiOp) : Exec (KeeperServer recordBytes) ApplyResult → Prop
  | refused {error : ErrorCode} (fails : MultiFails env id s.storage.nextZxid op error) :
      SingleEnds s env xid id op (.done ⟨s.reply xid .ok (.multi [.error error]), []⟩ s)
  | aborts {response : MultiOpResponse} {events : List WatchEvent} {st : KeeperStorage}
      {s₁ s' : KeeperServer recordBytes} {error : WalError}
      (step : MultiStep env id s.storage.nextZxid (op, response, events) st)
      (hlog : s.log env (.multi op.logged env.now id) = (s₁, .error error)) :
      SingleEnds s env xid id op (.abort s')
  | publishes {response : MultiOpResponse} {events : List WatchEvent} {st : KeeperStorage}
      {s₁ : KeeperServer recordBytes} {r : Reply}
      (step : MultiStep env id s.storage.nextZxid (op, response, events) st)
      (hlog : s.log env (.multi op.logged env.now id) = (s₁, .ok ()))
      (body : r.body = .multi [response]) :
      SingleEnds s env xid id op (.done ⟨r, events⟩ ⟨st, s₁.wal⟩)

theorem handleMulti_single (hl : s.storage.Linked) (xid : Int32) (id : SessionId) (op : MultiOp) :
    s.SingleEnds env xid id op (s.handle env xid id (.multi [op])) := by
  have ends : s.MultiEnds env xid id [op] (s.handleMulti env xid [op] id) :=
    handleMulti_ends hl xid [op] id
  have handled : s.handle env xid id (.multi [op]) = s.handleMulti env xid [op] id := rfl
  rw [handled]
  generalize s.handleMulti env xid [op] id = result at ends
  -- A run over one entry is one step.
  have only {entries : List MultiEntry} {st : KeeperStorage}
      (ops : entries.map Prod.fst = [op])
      (path : MultiRun env id s.storage.nextZxid entries st) :
      ∃ response events, entries = [(op, response, events)] ∧
        MultiStep env id s.storage.nextZxid (op, response, events) st := by
    obtain ⟨⟨op', response, events⟩, rfl, same⟩ := List.map_eq_singleton_iff.mp ops
    cases same
    obtain ⟨t, step, rest⟩ := Run.cons_iff.mp path
    cases rest.nil_eq
    exact ⟨response, events, rfl, step⟩
  generalize listed : [op] = ops at ends
  cases ends with
  | completes path hlog =>
    obtain ⟨response, events, rfl, step⟩ := only listed.symm path
    simp only [List.flatMap_cons, List.flatMap_nil, List.append_nil] at hlog ⊢
    exact .publishes step hlog rfl
  | aborts path hlog =>
    obtain ⟨response, events, rfl, step⟩ := only listed.symm path
    simp only [List.flatMap_cons, List.flatMap_nil, List.append_nil] at hlog
    exact .aborts step hlog
  | @fails entries st op' rest error path fails =>
    cases entries with
    | nil =>
      cases listed
      cases path.nil_eq
      exact .refused fails
    | cons entry entries =>
      have lengths := congrArg List.length listed
      simp at lengths

/-- Both executions end, with the same code for the operation and the same notifications, and
leave the same tree up to timestamps, the same zxid, index and watches. -/
def Agree (plain batch : Exec (KeeperServer recordBytes) ApplyResult) : Prop :=
  ∃ r t r' t' response, plain = .done r t ∧ batch = .done r' t' ∧
    r'.response.body = .multi [response] ∧ response.code = r.response.err ∧
    r'.watchEvents = r.watchEvents ∧ t.storage.SameButTime t'.storage

/-- The records of the operation are flushed, of the plain request and of the batch. -/
def Flushed (s : KeeperServer recordBytes) (env : Env) (now : Int) (id : SessionId)
    (op : MultiOp) (alone : WalOperation) : Prop :=
  (s.log env alone).2 = .ok () ∧
    (s.log { env with now } (.multi op.logged now id)).2 = .ok ()

theorem finish_lastZxid {xid : Int32} {op : WalOperation} {r r' : ApplyResult}
    {st : KeeperStorage} {t : KeeperServer recordBytes}
    (counted : st.lastZxid = s.storage.lastZxid + 1)
    (h : s.finish env xid op r st = .done r' t) : t.storage.lastZxid = s.storage.lastZxid + 1 := by
  rw [finish] at h
  obtain ⟨s₁, error, hlog, storage⟩ | ⟨s₁, hlog, -⟩ := s.log_cases env op
  · simp only [hlog] at h
    cases h
    rw [storage]
    rfl
  · simp only [hlog] at h
    cases h
    exact counted

/-- A write that is refused agrees with the batch unless the two diverge. -/
theorem agree_refused_iff (hl : s.storage.Linked) {env' : Env} {xid : Int32} {id : SessionId}
    {op : MultiOp} {req : Request} {code : ErrorCode} (plain : op.plain = some req)
    (fails : WriteFails s.storage req code) {batch : Exec (KeeperServer recordBytes) ApplyResult}
    (ends : s.SingleEnds env' xid id op batch) :
    Agree (s.refuse xid code) batch ↔ ¬ Diverges s.storage op := by
  cases ends with
  | @refused error fails' =>
    rw [← error_eq_iff hl plain fails fails']
    constructor
    · rintro ⟨r, t, r', t', response, ⟨⟩, ⟨⟩, ⟨⟩, same, -⟩
      exact same
    · rintro rfl
      exact ⟨_, _, _, _, _, rfl, rfl, rfl, rfl, rfl, .refl _⟩
  | aborts step hlog =>
    refine iff_of_false ?_ (not_not.mpr (diverges_of_fails_step plain fails step))
    rintro ⟨r, t, r', t', response, -, ⟨⟩, -⟩
  | publishes step hlog body =>
    refine iff_of_false ?_ (not_not.mpr (diverges_of_fails_step plain fails step))
    rintro ⟨r, t, r', t', response, ⟨⟩, ⟨⟩, body', same, -⟩
    cases body.symm.trans body'
    exact fails.code_ne.1 (same.symm.trans step.code_eq)

/-- A write that is logged agrees with the batch if the two do not diverge and both records are
flushed. -/
theorem agree_logged_iff {env' : Env} (orders : env'.orders = env.orders) {xid : Int32}
    {id : SessionId} {op : MultiOp} {req : Request} {alone : WalOperation}
    (plain : op.plain = some req) {code : ErrorCode} {body : ReplyBody} {events : List WatchEvent}
    {st : KeeperStorage} (written : WriteEnds env id s.storage req code body events st)
    {batch : Exec (KeeperServer recordBytes) ApplyResult}
    (ends : s.SingleEnds env' xid id op batch) :
    Agree (s.finish env xid alone ⟨⟨xid, st.lastZxid, code, body⟩, events⟩ st) batch ↔
      ¬ Diverges s.storage op ∧ (s.log env alone).2 = .ok () ∧
        (s.log env' (.multi op.logged env'.now id)).2 = .ok () := by
  cases ends with
  | refused fails =>
    refine iff_of_false ?_ (fun h => h.1 (diverges_of_ends_fails plain written fails))
    rintro ⟨r, t, r', t', response, finished, ⟨⟩, -, -, -, same⟩
    have counted := finish_lastZxid written.lastZxid finished
    rw [same.lastZxid] at counted
    exact absurd counted.symm (Nat.succ_ne_self _)
  | aborts step hlog =>
    refine iff_of_false ?_ ?_
    · rintro ⟨r, t, r', t', response, -, ⟨⟩, -⟩
    · rintro ⟨-, -, flushed⟩
      rw [hlog] at flushed
      cases flushed
  | publishes step hlog published =>
    obtain ⟨agrees, rfl, notified, same⟩ := same_of_ends_step orders plain written step
    rw [finish]
    obtain ⟨s₁, error, failed, -⟩ | ⟨s₁, flushed, -⟩ := s.log_cases env alone
    · simp only [failed]
      refine iff_of_false ?_ ?_
      · rintro ⟨r, t, r', t', response, ⟨⟩, ⟨⟩, published', differs, -⟩
        cases published.symm.trans published'
        cases step.code_eq.symm.trans differs
      · rintro ⟨-, flushed, -⟩
        cases flushed
    · simp only [flushed]
      refine iff_of_true ?_ ⟨agrees, trivial, by rw [hlog]⟩
      exact ⟨_, _, _, _, _, rfl, rfl, published, step.code_eq, notified, same⟩

/-- A batch of one operation, at whatever time, agrees with the plain request, unless one of them
is refused where the other is not, or for another reason; and what is logged has to be flushed. -/
theorem single_batch_agrees_iff (reachable : Reachable s) (now : Int) (xid : Int32)
    (id : SessionId) {op : MultiOp} {req : Request} {alone : WalOperation}
    (plain : op.plain = some req)
    (writes : (ServerEvent.handle xid id req).submits env.now = some alone) :
    Agree (s.handle env xid id req) (s.handle { env with now } xid id (.multi [op])) ↔
      ¬ Diverges s.storage op ∧ (Passes s.storage req → s.Flushed env now id op alone) := by
  have hl := reachable.linked
  have answers := s.handle_answers env hl writes
  have ends : s.SingleEnds { env with now } xid id op
      (s.handle { env with now } xid id (.multi [op])) := handleMulti_single hl xid id op
  have orders : ({ env with now } : Env).orders = env.orders := rfl
  generalize s.handle env xid id req = single at answers
  cases answers with
  | refused fails =>
    rw [agree_refused_iff hl plain fails ends]
    exact (and_iff_left (fun passes => absurd passes fails.not_passes)).symm
  | logged written =>
    rw [agree_logged_iff orders plain written ends]
    exact and_congr_right fun _ => ⟨fun both _ => both, fun flushed => flushed written.passes⟩

/-- A create in a batch that is served five seconds later. -/
theorem single_batch_agrees_created :
    Agree ((initial fun _ => 1).handle (.working 0) 1 1 (.create ⟨"/a", [], 0⟩))
      ((initial fun _ => 1).handle (.working 5000) 1 1 (.multi [.create ⟨"/a", [], 0⟩])) := by
  refine (single_batch_agrees_iff initial_reachable 5000 1 1 rfl rfl).mpr
    ⟨?_, fun _ => ⟨rfl, rfl⟩⟩
  rintro (root | ⟨-, none⟩ | ⟨present, -⟩)
  · exact absurd root (by decide)
  · exact none "/" "a" "/a" ⟨⟨"a", by decide, by decide⟩, ⟨{}, rfl, rfl, rfl⟩, rfl, by decide⟩
  · exact present (by decide)

/-- A create below an ephemeral node is refused with two different codes. -/
theorem single_batch_differs :
    ¬ ∀ (s : KeeperServer (fun _ => 1)) env xid id op req, Reachable s → op.plain = some req →
      Agree (s.handle env xid id req) (s.handle env xid id (.multi [op])) := by
  intro all
  have fresh : Reachable (initial fun _ => 1) := initial_reachable
  have opened := fresh.next (.working 0, .createSession 5000) rfl
  have locked := opened.next (.working 1, .handle 1 1 (.create ⟨"/lock", [], 1⟩)) rfl
  obtain ⟨r, t, r', t', response, plain, batch, body, code, -⟩ :=
    all _ (.working 2) 2 1 (.create ⟨"/lock/a", [], 0⟩) _ locked rfl
  cases plain
  cases batch
  cases body
  cases code

end KeeperServer
end TinyKeeper
