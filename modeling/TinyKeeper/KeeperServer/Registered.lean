import TinyKeeper.Changelog.Flush
import TinyKeeper.KeeperServer.Executions
import TinyKeeper.Registry

/-! The server keeps the registry: what it holds in its tree, and what it answers to every request
in every run of a lifetime, is what the registry allows. -/
namespace TinyKeeper

def Node.entry (n : Node) : Entry where
  data := n.data
  version := n.stat.version
  aversion := n.stat.aversion
  owner := n.stat.ephemeralOwner
  created := ⟨n.stat.czxid, n.stat.ctime⟩
  modified := ⟨n.stat.mzxid, n.stat.mtime⟩

theorem Node.entry_shows (n : Node) : n.entry.Shows n.stat := rfl

namespace KeeperStorage
variable {st st' : KeeperStorage} {path q name created p : String} {n : Node}
  {data : List UInt8} {timestamp : Int} {id : SessionId} {flags : Int32}

/-- The tree without its bookkeeping. -/
def registry (st : KeeperStorage) : Registry where
  entries p := (st.map.get p).map Node.entry
  below p := ((st.map.get p).map Node.children).getD ∅

theorem registry_of_stored (stored : st.map.get p = some n) :
    st.registry.entries p = some n.entry :=
  congrArg (Option.map Node.entry) stored

theorem below_of_stored (stored : st.map.get p = some n) : st.registry.below p = n.children :=
  congrArg (fun o : Option Node => (o.map Node.children).getD ∅) stored

@[simp] theorem registry_eq_none : st.registry.entries p = none ↔ st.map.get p = none :=
  Option.map_eq_none_iff

theorem below_of_missing (missing : st.map.get p = none) : st.registry.below p = ∅ :=
  congrArg (fun o : Option Node => (o.map Node.children).getD ∅) missing

theorem registry_afterCreate (hc : st.Creatable path flags q name created) :
    (st.afterCreate data timestamp id flags q name created).registry =
      st.registry.enter created q name
        (.made data (if isEphemeral flags then id else 0) ⟨st.lastZxid, timestamp⟩) := by
  obtain ⟨m, above, -⟩ := hc.parent
  ext p : 2
  · simp only [registry, Registry.enter, get_afterCreate hc]
    by_cases here : p = created
    · subst here
      rw [if_pos rfl, Function.update_self]
      rfl
    · rw [if_neg here, Function.update_of_ne here]
      split_ifs with parent
      · rw [parent, Option.map_map]
        rfl
      · rfl
  · simp only [registry, Registry.enter, get_afterCreate hc]
    by_cases here : p = created
    · subst here
      rw [if_pos rfl, Function.update_of_ne (hc.ne_created above).symm, hc.fresh]
      rfl
    · rw [if_neg here]
      by_cases parent : p = q
      · subst parent
        rw [if_pos rfl, Function.update_self, above]
        rfl
      · rw [if_neg parent, Function.update_of_ne parent]

theorem registry_afterSet (stored : st.map.get path = some n) :
    (st.afterSet path data timestamp).registry =
      st.registry.put path (n.entry.write data ⟨st.lastZxid, timestamp⟩) := by
  ext p : 2
  · simp only [registry, Registry.put, get_afterSet]
    by_cases here : p = path
    · subst here
      rw [if_pos rfl, Function.update_self, stored]
      rfl
    · rw [if_neg here, Function.update_of_ne here]
  · simp only [registry, Registry.put, get_afterSet]
    split_ifs with here
    · rw [here, Option.map_map]
      rfl
    · rfl

theorem registry_afterDelete (hd : st.Deletable path q name) :
    (st.afterDelete path q name).registry = st.registry.leave path q name := by
  have other := parentOf_ne hd.split hd.name_ne
  obtain ⟨m, stored, childless⟩ := hd.node
  ext p : 2
  · simp only [registry, Registry.leave, get_afterDelete hd]
    by_cases here : p = path
    · rw [if_pos here, here, Function.update_self]
      rfl
    · rw [if_neg here, Function.update_of_ne here]
      split_ifs with parent
      · rw [parent, Option.map_map]
        rfl
      · rfl
  · simp only [registry, Registry.leave, get_afterDelete hd]
    by_cases here : p = path
    · subst here
      rw [if_pos rfl, Function.update_of_ne other.symm, stored]
      exact childless.symm
    · rw [if_neg here]
      by_cases parent : p = q
      · subst parent
        rw [if_pos rfl, Function.update_self]
        cases st.map.get p <;> rfl
      · rw [if_neg parent, Function.update_of_ne parent]

theorem Indexed.owned_iff (hi : st.Indexed) :
    st.registry.Owned id p ↔ st.sessionState.Owns id p := by
  rw [hi id p, ownerOf_eq_some]
  constructor
  · rintro ⟨e, entry, positive, rfl⟩
    obtain ⟨n, stored, rfl⟩ := Option.map_eq_some_iff.mp entry
    exact ⟨positive, n, stored, rfl⟩
  · rintro ⟨positive, n, stored, rfl⟩
    exact ⟨n.entry, registry_of_stored stored, positive, rfl⟩

/-- The names that go with these paths. -/
theorem mem_lastNames {paths : Finset String} : name ∈ (childrenIn paths q).image lastName ↔
    ∃ path ∈ paths, parentOf path = some (q, name) := by
  simp only [Finset.mem_image, childrenIn, Finset.mem_filter]
  constructor
  · rintro ⟨path, ⟨mem, parent⟩, rfl⟩
    obtain ⟨⟨q', name⟩, split, rfl⟩ := Option.map_eq_some_iff.mp parent
    exact ⟨path, mem, by simp [lastName, split]⟩
  · rintro ⟨path, mem, split⟩
    exact ⟨path, ⟨mem, by simp [split]⟩, by simp [lastName, split]⟩

/-- The end of a session releases its entries, and no others. -/
theorem Linked.registry_ended (hl : st.Linked) (hi : st.Indexed) (orders : HashOrders)
    (id : SessionId) : (st.ended id).registry = st.registry.release id := by
  have reaps := hl.reaps_ended hi orders id
  have gone (p : String) (owned : st.registry.Owned id p) : (st.ended id).map.get p = none :=
    reaps.gone p (hi.owned_iff.mp owned)
  have kept (p : String) (other : ¬ st.registry.Owned id p) :=
    reaps.kept p (mt hi.owned_iff.mpr other)
  ext p : 2
  · change ((st.ended id).map.get p).map Node.entry = (st.registry.entries p).filter _
    by_cases owned : st.registry.Owned id p
    · rw [gone p owned]
      obtain ⟨e, entry, positive, rfl⟩ := owned
      rw [entry, Option.filter_some_neg (by simp [positive])]
      rfl
    · rw [kept p owned, Option.map_map]
      cases stored : st.map.get p with
      | none =>
        rw [registry_eq_none.mpr stored]
        rfl
      | some n =>
        have spared : n.entry.owner = 0 ∨ n.entry.owner ≠ id := by
          by_contra released
          obtain ⟨positive, same⟩ := not_or.mp released
          exact owned ⟨n.entry, registry_of_stored stored, positive, not_not.mp same⟩
        rw [registry_of_stored stored, Option.filter_some_pos (by simpa using spared)]
        rfl
  · by_cases owned : st.registry.Owned id p
    · rw [below_of_missing (gone p owned)]
      obtain ⟨e, entry, positive, -⟩ := owned
      obtain ⟨n, stored, rfl⟩ := Option.map_eq_some_iff.mp entry
      have childless := (below_of_stored stored).trans (hl.leaf p n stored positive)
      simp [Registry.release, childless]
    · cases stored : st.map.get p with
      | none =>
        have missing : (st.ended id).map.get p = none := by
          rw [kept p owned, stored]
          rfl
        simp [Registry.release, below_of_missing missing, below_of_missing stored]
      | some n =>
        have left := kept p owned
        rw [stored] at left
        rw [below_of_stored left]
        ext name
        have names : name ∈ (childrenIn (st.sessionState.owned id) p).image lastName ↔
            ∃ path, st.registry.Owned id path ∧ parentOf path = some (p, name) := by
          simp only [mem_lastNames, SessionState.mem_owned, hi.owned_iff]
        have goes : name ∈ (n.reap (childrenIn (st.sessionState.owned id) p) st.lastZxid).children ↔
            name ∈ n.children ∧ ¬ ∃ path, st.registry.Owned id path ∧
              parentOf path = some (p, name) := by
          rw [← names]
          exact Finset.mem_sdiff
        simp only [goes, Registry.release, below_of_stored stored, Finset.mem_filter, not_exists,
          not_and, ne_eq]

/-- The names in a node are those of registered children; below the root all of them. -/
theorem Linked.lists (hl : st.Linked) {path : String} {n : Node}
    (stored : st.map.get path = some n) :
    (∀ name ∈ n.children, st.registry.Child path name) ∧
      (path ≠ "/" → ∀ name, st.registry.Child path name → name ∈ n.children) := by
  constructor
  · intro name mem
    obtain ⟨p, present, parent, named⟩ := hl.listed path n name stored mem
    exact ⟨p, fun missing => present (registry_eq_none.mp missing), parent, named⟩
  · rintro below name ⟨p, present, parent, named⟩
    obtain ⟨m, stored'⟩ : ∃ m, st.map.get p = some m :=
      Option.ne_none_iff_exists'.mp fun missing => present (registry_eq_none.mpr missing)
    obtain ⟨q, c, above, parent', -, storedAbove, lists⟩ :=
      hl.parent p m stored' (parentOf_ne_root parent named)
    obtain ⟨rfl, rfl⟩ := parentOf_det parent parent'
    obtain rfl : above = n := Option.some.inj (storedAbove.symm.trans stored)
    exact lists below

theorem Linked.lists_sorted (hl : st.Linked) {path : String} {n : Node}
    (stored : st.map.get path = some n) :
    st.registry.Lists path (n.children.sort (· ≤ ·)) := by
  obtain ⟨child, all⟩ := hl.lists stored
  refine ⟨by rw [below_of_stored stored], ?_, ?_⟩
  · simpa using child
  · simpa using all

theorem numChildren_of_stored (stored : st.map.get p = some n) :
    st.registry.numChildren p = Int32.ofNat n.children.card := by
  rw [Registry.numChildren, below_of_stored stored]

end KeeperStorage

section Steps
variable {env : Env} {id : SessionId} {st st' : KeeperStorage}

theorem createdPath_names (req : CreateRequest) (n : Int32) :
    req.Names (createdPath req.path req.flags n) := by
  unfold CreateRequest.Names createdPath
  split_ifs
  · exact ⟨n, rfl⟩
  · rfl

/-- An operation of the reference run is a write in the registry. -/
theorem MultiStep.writes {entry : MultiEntry} (h : MultiStep env id st entry st')
    (hl : st.Linked) :
    Registry.Writes id st.registry (entry.1, entry.2.1) st'.registry := by
  cases h with
  | check stored version => exact .check (KeeperStorage.registry_of_stored stored) version
  | @set u req n n' stored version done updated =>
    rw [KeeperStorage.set_of_stored stored, Outcome.ok.injEq] at done
    obtain ⟨-, rfl⟩ := done
    obtain rfl : n' = n.setData req.data env.now st.lastZxid := by
      have lookup := KeeperStorage.get_afterSet st req.path req.data env.now req.path
      rw [if_pos rfl, show st.map.get req.path = some n from stored] at lookup
      exact Option.some.inj (updated.symm.trans lookup)
    have fired : (KeeperStorage.fired (st.afterSet req.path req.data env.now) env.orders req.path
        .changed).registry = (st.afterSet req.path req.data env.now).registry := rfl
    have count : Int32.ofNat (n.setData req.data env.now st.lastZxid).children.card =
        st.registry.numChildren req.path := (KeeperStorage.numChildren_of_stored stored).symm
    rw [fired, KeeperStorage.registry_afterSet stored, count]
    exact .set (KeeperStorage.registry_of_stored stored) version rfl
  | @create u req path done =>
    obtain ⟨q, name, hc, rfl⟩ := (st.create_ok_iff _ _ _ _ _ _ _).mp done
    obtain ⟨m, stored, lasting, named⟩ := hc.parent
    have fired : (KeeperStorage.fired (st.afterCreate req.data env.now id req.flags q name path)
      env.orders path .created).registry = (st.afterCreate req.data env.now id req.flags q name
        path).registry := rfl
    rw [fired, KeeperStorage.registry_afterCreate hc]
    refine .create ?_ (KeeperStorage.registry_eq_none.mpr hc.fresh) hc.createdSplit hc.name_ne
      (KeeperStorage.registry_of_stored stored) lasting
    rw [named]
    exact createdPath_names req _
  | @delete u req n stored version done =>
    obtain ⟨q, name, del, -, rfl⟩ := KeeperStorage.delete_ok done
    have fired : (((st.afterDelete req.path q name).disowned n.stat.ephemeralOwner req.path).fired
        env.orders req.path .deleted).registry = (st.afterDelete req.path q name).registry := by
      simp [KeeperStorage.registry, KeeperStorage.fired]
    rw [fired, KeeperStorage.registry_afterDelete del]
    obtain ⟨m, stored', childless⟩ := del.node
    have below := KeeperStorage.below_of_stored stored'
    have root := parentOf_ne_root del.split del.name_ne
    refine .delete (KeeperStorage.registry_of_stored stored) version del.split del.name_ne
      (fun child under => ?_) (below.trans childless)
    have listed := (hl.lists stored').2 root child under
    rw [childless] at listed
    cases listed

theorem MultiStep.answers {entry : MultiEntry} (h : MultiStep env id st.nextZxid entry st')
    (hl : st.Linked) (works : Bool) {req : Request} (write : req.write? = some entry.1) :
    Registry.Answers id works st.registry req .ok entry.2.1.plainBody st'.registry :=
  .wrote write (h.writes hl.nextZxid)

theorem MultiRun.writes {entries : List MultiEntry} (h : MultiRun env id st entries st')
    (hl : st.Linked) :
    Run (Registry.Writes id) st.registry (entries.map fun entry => (entry.1, entry.2.1))
      st'.registry := by
  induction h with
  | nil => exact .nil
  | snoc init last ih =>
    rw [List.map_append]
    exact ih.snoc (last.writes (MultiRun.linked init hl))

/-- A create that fails has a reason, and its code inside a batch tells it. -/
theorem create_err_refuses {req : CreateRequest} {timestamp : Int} {message : String}
    (failed : st.create req.path req.data timestamp id req.flags = .err message) :
    st.registry.Refuses (.create req) (createErrorCode message) := by
  unfold KeeperStorage.create at failed
  cases split : splitPath req.path with
  | none =>
    rw [split] at failed
    cases failed
    exact .malformed fun q name parent => by simp [parentOf, split] at parent
  | some pc =>
    obtain ⟨parent, childName⟩ := pc
    have computed : parentOf req.path = some (parentPath parent, childName) := by
      simp [parentOf, split]
    simp only [split] at failed
    by_cases empty : childName = ""
    · rw [if_pos empty] at failed
      cases failed
      exact .malformed fun q name other => (parentOf_det computed other).2.trans empty
    rw [if_neg empty] at failed
    cases stored : st.map.get (parentPath parent) with
    | none =>
      simp only [stored] at failed
      cases failed
      exact .orphan computed (KeeperStorage.registry_eq_none.mpr stored)
    | some above =>
      simp only [stored] at failed
      by_cases owned : above.stat.ephemeralOwner ≠ 0
      · rw [if_pos owned] at failed
        cases failed
        exact .underEphemeral computed (KeeperStorage.registry_of_stored stored) owned
      rw [if_neg owned] at failed
      by_cases taken : st.map.contains (createdPath req.path req.flags above.stat.cversion) = true
      · rw [if_pos taken] at failed
        cases failed
        obtain ⟨n, present⟩ := (Table.contains_eq_true_iff _ _).mp taken
        refine .taken (.inr (createdPath_names req above.stat.cversion)) ?_
        rw [KeeperStorage.registry_of_stored present]
        exact Option.some_ne_none _
      · rw [if_neg taken] at failed
        split at failed <;> cases failed

/-- An operation of a batch that fails is refused by the registry, with this code. -/
theorem MultiFails.refuses {op : MultiOp} {code : ErrorCode} (h : MultiFails env id st op code)
    (hl : st.Linked) : st.registry.Refuses op code := by
  have absent {p : String} (missing : st.traverse p = none) : st.registry.entries p = none :=
    KeeperStorage.registry_eq_none.mpr missing
  cases h with
  | checkMissing missing | setMissing missing | deleteMissing missing =>
    exact .absent rfl (absent missing)
  | checkVersion stored version | setVersion stored version | deleteVersion stored version =>
    exact .stale rfl (KeeperStorage.registry_of_stored stored) version
  | create failed => exact create_err_refuses failed
  | deleteRoot stored version root => exact .root root
  | deleteNotEmpty stored version root children =>
    obtain ⟨name, mem⟩ := Finset.nonempty_iff_ne_empty.mpr children
    have listed := KeeperStorage.below_of_stored stored
    exact .notEmpty (listed ▸ mem) ((hl.lists stored).1 name mem)

/-- So is a standalone write. -/
theorem WriteFails.refuses {req : Request} {code : ErrorCode} (h : WriteFails st req code)
    (hl : st.Linked) : ∃ op, req.write? = some op ∧ st.registry.Refuses op code := by
  have absent {p : String} (missing : st.map.get p = none) : st.registry.entries p = none :=
    KeeperStorage.registry_eq_none.mpr missing
  cases h with
  | @createExists req present =>
    exact ⟨_, rfl, .taken (.inl rfl) fun missing =>
      present (KeeperStorage.registry_eq_none.mp missing)⟩
  | createInvalid _ invalid => exact ⟨_, rfl, .malformed invalid⟩
  | createOrphan _ split named missing => exact ⟨_, rfl, .orphan split (absent missing)⟩
  | setMissing missing | deleteMissing missing => exact ⟨_, rfl, .absent rfl (absent missing)⟩
  | setVersion stored version | deleteVersion stored version =>
    exact ⟨_, rfl, .stale rfl (KeeperStorage.registry_of_stored stored) version⟩
  | deleteNotEmpty stored version children =>
    obtain ⟨name, mem⟩ := Finset.nonempty_iff_ne_empty.mpr children
    have listed := KeeperStorage.below_of_stored stored
    exact ⟨_, rfl, .notEmpty (listed ▸ mem) ((hl.lists stored).1 name mem)⟩

/-- A write that is logged is answered as the registry has it. -/
theorem WriteEnds.answers {req : Request} {code : ErrorCode} {body : ReplyBody}
    {events : List WatchEvent} (h : WriteEnds env id st req code body events st') (hl : st.Linked)
    (works : Bool) : Registry.Answers id works st.registry req code body st'.registry := by
  cases h with
  | create checked done =>
    have step : MultiStep env id st.nextZxid _ _ := .create done
    exact step.answers hl works rfl
  | @createFails req message checked failed =>
    have refuses : st.nextZxid.registry.Refuses (.create req) (createErrorCode message) :=
      create_err_refuses failed
    exact .failed refuses
  | set stored version done updated =>
    have step : MultiStep env id st.nextZxid _ _ := .set stored version done updated
    exact step.answers hl works rfl
  | @delete req n u checked done =>
    have step : MultiStep env id st.nextZxid _ _ := .delete checked.stored checked.version done
    exact step.answers hl works rfl
  | deleteRoot checked root =>
    exact .root root (KeeperStorage.registry_of_stored checked.stored) checked.version

end Steps

namespace KeeperServer
variable {recordBytes : LogRecord → ℕ} {s s' : KeeperServer recordBytes} {id : SessionId}

/-- The registry allows this answer. -/
def Registered (s : KeeperServer recordBytes) (works : Bool) (id : SessionId) (req : Request) :
    Exec (KeeperServer recordBytes) ApplyResult → Prop
  | .done r s' => Registry.Answers id works s.storage.registry req r.response.err r.response.body
      s'.storage.registry
  | _ => True

theorem fails_of_log {env : Env} {op : WalOperation} {s₁ : KeeperServer recordBytes}
    {error : WalError} (failed : s.log env op = (s₁, .error error)) :
    env.flush.works = false := by
  by_contra works
  have ok : (s.log env op).2 = .ok () :=
    WalStore.flush_of_works (Bool.eq_true_of_not_eq_false works)
  rw [failed] at ok
  cases ok

theorem Answers.registered {env : Env} {xid : Int32} {req : Request} {op : WalOperation}
    {result : Exec (KeeperServer recordBytes) ApplyResult}
    (h : s.Answers env xid id req op result) (hl : s.storage.Linked)
    (writes : ∃ op, req.write? = some op) : s.Registered env.flush.works id req result := by
  cases h with
  | refused fails =>
    obtain ⟨op, write, refuses⟩ := fails.refuses hl
    exact .refused write refuses
  | logged ends =>
    rw [finish]
    obtain ⟨s₁, error, hlog, storage⟩ | ⟨s₁, hlog, -⟩ := s.log_cases env op
    · rw [hlog]
      obtain ⟨op, write⟩ := writes
      have same : s₁.storage.registry = s.storage.registry := by
        rw [storage]
        rfl
      change Registry.Answers id _ s.storage.registry req .systemError .empty s₁.storage.registry
      rw [same]
      exact .unlogged write (fails_of_log hlog)
    · rw [hlog]
      exact ends.answers hl _

/-- A read of a registered path shows the entry. -/
theorem handleRead_registered {works : Bool} {req : Request} {read : ReadRequest} (xid : Int32)
    (t : WatchType) {body : Node → ReplyBody}
    (reads : req.reads? = some read.path)
    (shows : ∀ n, s.storage.map.get read.path = some n →
      s.storage.registry.Reads req .ok (body n)) :
    s.Registered works id req (s.handleRead xid read id t body) := by
  have registered : (if read.watch then { s with storage := { s.storage with
      watchState := s.storage.watchState.register id read.path t } } else s) =
        s.afterRead id read t := by
    unfold afterRead
    split_ifs <;> rfl
  unfold handleRead
  rw [registered]
  have looked : (s.afterRead id read t).storage.traverse read.path = s.storage.map.get read.path :=
    rfl
  simp only [looked]
  cases stored : s.storage.map.get read.path with
  | none => exact .read (.missing reads (KeeperStorage.registry_eq_none.mpr stored))
  | some n => exact .read (shows n stored)

theorem handle_registered (hl : s.storage.Linked) (hi : s.storage.Indexed) (env : Env)
    (xid : Int32) (req : Request) :
    s.Registered env.flush.works id req (s.handle env xid id req) := by
  cases req with
  | create req => exact (handle_answers s env hl rfl).registered hl ⟨_, rfl⟩
  | set req => exact (handle_answers s env hl rfl).registered hl ⟨_, rfl⟩
  | remove req => exact (handle_answers s env hl rfl).registered hl ⟨_, rfl⟩
  | get req =>
    refine handleRead_registered xid .watch rfl fun n stored => ?_
    rw [← KeeperStorage.numChildren_of_stored stored]
    exact .get (KeeperStorage.registry_of_stored stored) n.entry_shows
  | «exists» req =>
    refine handleRead_registered xid .watch rfl fun n stored => ?_
    rw [← KeeperStorage.numChildren_of_stored stored]
    exact .exists (KeeperStorage.registry_of_stored stored) n.entry_shows
  | list req =>
    refine handleRead_registered xid .listWatch rfl fun n stored => ?_
    rw [← KeeperStorage.numChildren_of_stored stored]
    exact .list (KeeperStorage.registry_of_stored stored) n.entry_shows (hl.lists_sorted stored)
  | simpleList req =>
    refine handleRead_registered xid .listWatch rfl fun n stored => ?_
    refine .simpleList ?_ (hl.lists_sorted stored)
    rw [KeeperStorage.registry_of_stored stored]
    exact Option.some_ne_none _
  | heartbeat => exact .heartbeat
  | close =>
    rw [handle, handleClose, hl.endSession_eq hi env.orders id]
    have released := hl.registry_ended hi env.orders id
    change Registry.Answers id _ s.storage.registry .close .ok .empty
      (s.storage.ended id).registry
    rw [released]
    exact .close
  | multi ops =>
    have ends : s.MultiEnds env xid id ops (s.handle env xid id (.multi ops)) :=
      handleMulti_ends hl xid ops id
    generalize s.handle env xid id (.multi ops) = result at ends
    cases ends with
    | @completes entries st s₁ path hlog =>
      have run := path.writes hl.nextZxid
      have answers : Registry.Answers id env.flush.works _ _ _ _ _ := .batch run
      rw [List.map_map, List.map_map] at answers
      exact answers
    | aborts path hlog => exact trivial
    | @fails entries st op rest error path fails =>
      have run := path.writes hl.nextZxid
      have answers : Registry.Answers id env.flush.works _ _ _ _ _ :=
        .rolledBack run (fails.refuses (path.linked hl.nextZxid)) rest
      rw [List.map_map, List.map_map] at answers
      have responses : rolledBack (entries.map (·.2.1)) error
          (entries.map Prod.fst ++ op :: rest).length =
            entries.map (fun _ => MultiOpResponse.error .ok) ++ .error error ::
              rest.map fun _ => .error .runtimeInconsistency := by
        rw [rolledBack_eq _ _ _ (by simp)]
        simp
      change Registry.Answers id _ s.storage.registry _ .ok (.multi (rolledBack _ _ _)) _
      rw [responses]
      exact answers
  | rejected => exact .rejected

end KeeperServer

/-- What a step of the server is for the registry. -/
def Executed.registered : Executed → Option Registry.Event
  | ⟨env, .handle _ id req, .applied r⟩ =>
    some (.served id env.flush.works req r.response.err r.response.body)
  | ⟨_, .closeSession id, _⟩ => some (.ended id)
  | _ => none

/-- The log can be written if the flush of the step returns `Ok`. -/
theorem Executed.registered_works (e : Executed) {a : Registry.Event}
    (works : e.env.flush.works = true) (label : e.registered = some a) : a.Works := by
  obtain ⟨env, event, output⟩ := e
  cases event with
  | handle xid id req =>
    cases output with
    | applied r =>
      cases label
      exact works
    | _ => cases label
  | closeSession id =>
    cases label
    trivial
  | _ => cases label

namespace KeeperServer
variable {recordBytes : LogRecord → ℕ} {s s' : KeeperServer recordBytes}

/-- One step of the server is one step of the registry, or none. -/
theorem Serves.registered {e : Executed} (serves : s.Serves e s') (hl : s.storage.Linked)
    (hi : s.storage.Indexed) :
    (∀ a, e.registered = some a → s.storage.registry.Step a s'.storage.registry) ∧
      (e.registered = none → s'.storage.registry = s.storage.registry) := by
  obtain ⟨env, event, output⟩ := e
  have done : s.exec env event = .done output s' := serves.1
  cases event with
  | createSession timeoutMs =>
    cases done
    exact ⟨fun a label => (by cases label), fun _ => rfl⟩
  | closeSession id =>
    have next : s.storage.nextZxid.Indexed := hi.congr (fun _ => rfl) rfl
    have ended := hl.nextZxid.endSession_eq next env.orders id
    have released := hl.nextZxid.registry_ended next env.orders id
    simp only [exec, closeSession, log_storage, ended, Exec.map, Exec.done.injEq] at done
    obtain ⟨rfl, rfl⟩ := done
    refine ⟨fun a label => ?_, fun label => (by cases label)⟩
    cases label
    change s.storage.registry.Step (.ended id) (s.storage.nextZxid.ended id).registry
    rw [released]
    exact .ended
  | touch id =>
    cases done
    exact ⟨fun a label => (by cases label), fun _ => rfl⟩
  | handle xid id req =>
    obtain ⟨r, rfl, handled⟩ := exec_handle done
    have registered : s.Registered env.flush.works id req (s.handle env xid id req) :=
      handle_registered hl hi env xid req
    rw [handled] at registered
    refine ⟨fun a label => ?_, fun label => (by cases label)⟩
    cases label
    exact .served registered

theorem initial_registry (recordBytes : LogRecord → ℕ) :
    (initial recordBytes).storage.registry = .initial := by
  have root (p : String) : (initial recordBytes).storage.map.get p =
      if p = "/" then some {} else none := KeeperStorage.new_get 500 p
  ext p : 2
  · simp only [KeeperStorage.registry, Registry.initial, root]
    split_ifs <;> rfl
  · simp only [KeeperStorage.registry, Registry.initial, root]
    split_ifs <;> rfl

/-- In every lifetime of the server, whatever the sessions ask for and however they end: what the
tree holds and what was answered are a run of the registry. -/
theorem keeps_registry {log : List Executed} (life : Run Serves (initial recordBytes) log s) :
    Run Registry.Step .initial (log.filterMap Executed.registered) s.storage.registry := by
  rw [← initial_registry recordBytes]
  refine life.refines (fun s => s.storage.registry) Executed.registered
    (fun s => s.storage.Linked ∧ s.storage.Indexed)
    ⟨initial_reachable.linked, KeeperStorage.new_indexed 500⟩ ?_ ?_ ?_
  · rintro s e s' ⟨hl, hi⟩ serves
    exact ⟨serves.step.linked hl, serves.indexed hl hi⟩
  · rintro s e s' a ⟨hl, hi⟩ serves label
    exact (serves.registered hl hi).1 a label
  · rintro s e s' ⟨hl, hi⟩ serves label
    exact (serves.registered hl hi).2 label

end KeeperServer
end TinyKeeper
