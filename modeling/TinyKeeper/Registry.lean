import Mathlib.Data.Finset.Sort
import Mathlib.Data.String.Basic
import Mathlib.Logic.Function.Basic
import TinyKeeper.Lib.Run
import TinyKeeper.Storage

/-! What the service is for: a registry of small values under paths, some of which last only as long
as the session that entered them. The registry says which answers a request may get and what it
leaves behind; how the server comes to its answers is not its business. -/
namespace TinyKeeper

/-- The zxid and the time of a change. -/
structure Stamp where
  zxid : ℕ
  time : Int

/-- What is registered under a path: the data, how often it was set, the session with which it ends,
or zero, and when it was made and last set. -/
structure Entry where
  data : List UInt8
  version : Int32
  aversion : Int32
  owner : SessionId
  created : Stamp
  modified : Stamp

namespace Entry

/-- A new entry. -/
def made (data : List UInt8) (owner : SessionId) (stamp : Stamp) : Entry :=
  ⟨data, 0, 0, owner, stamp, stamp⟩

def write (e : Entry) (data : List UInt8) (stamp : Stamp) : Entry :=
  { e with data := data, version := e.version + 1, modified := stamp }

/-- Version `-1` stands for any version. -/
def Admits (e : Entry) (version : Int32) : Prop := version = -1 ∨ version = e.version

/-- The statistics of the entry, for this count of the changes below it and this zxid of the last of
them. -/
def stat (e : Entry) (cversion : Int32) (pzxid : ℕ) : Stat where
  czxid := e.created.zxid
  mzxid := e.modified.zxid
  ctime := e.created.time
  mtime := e.modified.time
  version := e.version
  cversion := cversion
  aversion := e.aversion
  ephemeralOwner := e.owner
  pzxid := pzxid

/-- The statistics of a reply agree with the entry. -/
def Shows (e : Entry) (stat : Stat) : Prop := stat = e.stat stat.cversion stat.pzxid

end Entry

/-- What is registered, and the names that every path has below it. -/
@[ext]
structure Registry where
  entries : String → Option Entry
  below : String → Finset String

/-- The write that a request asks for, as an operation of a batch. -/
def Request.write? : Request → Option MultiOp
  | .create req => some (.create req)
  | .set req => some (.set req)
  | .remove req => some (.delete req)
  | _ => none

/-- The reply to such a request. -/
def MultiOpResponse.plainBody : MultiOpResponse → ReplyBody
  | .create path => .create path
  | .set stat dataLength numChildren => .stat stat dataLength numChildren
  | _ => .empty

/-- The path that a read is about. -/
def Request.reads? : Request → Option String
  | .get read | .exists read | .list read | .simpleList read => some read.path
  | _ => none

/-- The path and the version that an operation expects to find. -/
def MultiOp.expects : MultiOp → Option (String × Int32)
  | .create _ => none
  | .set req => some (req.path, req.version)
  | .delete req => some (req.path, req.version)
  | .check req => some (req.path, req.version)

/-- The path that a create makes, with some number behind it if it is sequential. -/
def CreateRequest.Names (req : CreateRequest) (path : String) : Prop :=
  if isSequential req.flags then ∃ n, path = req.path ++ formatSeq n else path = req.path

namespace Registry

/-- The registry of a server that was never used. -/
def initial : Registry where
  entries p := if p = "/" then some (.made [] 0 ⟨0, 0⟩) else none
  below _ := ∅

def Child (r : Registry) (path name : String) : Prop :=
  ∃ p, r.entries p ≠ none ∧ parentOf p = some (path, name) ∧ name ≠ ""

/-- A list of the names below a path. They are those of its children; the root may miss children
that are spelled with two slashes. -/
structure Lists (r : Registry) (path : String) (names : List String) : Prop where
  sorted : names = (r.below path).sort (· ≤ ·)
  child : ∀ name ∈ names, r.Child path name
  all : path ≠ "/" → ∀ name, r.Child path name → name ∈ names

def numChildren (r : Registry) (path : String) : Int32 := Int32.ofNat (r.below path).card

def put (r : Registry) (path : String) (e : Entry) : Registry :=
  { r with entries := Function.update r.entries path (some e) }

/-- An entry comes under `path`, the child `name` of `q`. -/
def enter (r : Registry) (path q name : String) (e : Entry) : Registry where
  entries := Function.update r.entries path (some e)
  below := Function.update r.below q (insert name (r.below q))

def leave (r : Registry) (path q name : String) : Registry where
  entries := Function.update r.entries path none
  below := Function.update r.below q ((r.below q).erase name)

/-- The entry ends with the session. -/
def Owned (r : Registry) (id : SessionId) (path : String) : Prop :=
  ∃ e, r.entries path = some e ∧ e.owner ≠ 0 ∧ e.owner = id

open Classical in
/-- The end of a session. -/
noncomputable def release (r : Registry) (id : SessionId) : Registry where
  entries p := (r.entries p).filter fun e => e.owner = 0 ∨ e.owner ≠ id
  below p := (r.below p).filter fun name =>
    ∀ path, r.Owned id path → parentOf path ≠ some (p, name)

/-- A write that is carried out for a session. -/
inductive Writes (id : SessionId) (r : Registry) : MultiOp × MultiOpResponse → Registry → Prop
  | create {req : CreateRequest} {path q name : String} {above : Entry} {stamp : Stamp}
      (names : req.Names path) (vacant : r.entries path = none)
      (parent : parentOf path = some (q, name)) (named : name ≠ "")
      (stored : r.entries q = some above) (lasting : above.owner = 0) :
      Writes id r (.create req, .create path)
        (r.enter path q name (.made req.data (if isEphemeral req.flags then id else 0) stamp))
  | set {req : SetDataRequest} {e : Entry} {stamp : Stamp} {stat : Stat}
      (stored : r.entries req.path = some e) (version : e.Admits req.version)
      (shows : (e.write req.data stamp).Shows stat) :
      Writes id r
        (.set req, .set stat (Int32.ofNat req.data.length) (r.numChildren req.path))
        (r.put req.path (e.write req.data stamp))
  | delete {req : DeleteRequest} {q name : String} {e : Entry}
      (stored : r.entries req.path = some e) (version : e.Admits req.version)
      (parent : parentOf req.path = some (q, name)) (named : name ≠ "")
      (leaf : ∀ name, ¬ r.Child req.path name) (childless : r.below req.path = ∅) :
      Writes id r (.delete req, .delete) (r.leave req.path q name)
  | check {req : CheckRequest} {e : Entry} (stored : r.entries req.path = some e)
      (version : e.Admits req.version) : Writes id r (.check req, .check) r

/-- The reasons for which a write is not carried out. -/
inductive Refuses (r : Registry) : MultiOp → ErrorCode → Prop
  | absent {op : MultiOp} {path : String} {version : Int32}
      (expects : op.expects = some (path, version)) (missing : r.entries path = none) :
      Refuses r op .noNode
  | stale {op : MultiOp} {path : String} {version : Int32} {e : Entry}
      (expects : op.expects = some (path, version)) (stored : r.entries path = some e)
      (other : ¬ e.Admits version) : Refuses r op .badVersion
  | notEmpty {req : DeleteRequest} {name : String} (listed : name ∈ r.below req.path)
      (child : r.Child req.path name) : Refuses r (.delete req) .notEmpty
  | root {req : DeleteRequest} (root : req.path = "/") : Refuses r (.delete req) .badArguments
  | malformed {req : CreateRequest}
      (nameless : ∀ q name, parentOf req.path = some (q, name) → name = "") :
      Refuses r (.create req) .badArguments
  | orphan {req : CreateRequest} {q name : String} (parent : parentOf req.path = some (q, name))
      (missing : r.entries q = none) : Refuses r (.create req) .noNode
  | taken {req : CreateRequest} {path : String} (spells : path = req.path ∨ req.Names path)
      (present : r.entries path ≠ none) : Refuses r (.create req) .nodeExists
  | underEphemeral {req : CreateRequest} {q name : String} {above : Entry}
      (parent : parentOf req.path = some (q, name)) (stored : r.entries q = some above)
      (owned : above.owner ≠ 0) : Refuses r (.create req) .noChildrenForEphemerals

/-- What a read shows. -/
inductive Reads (r : Registry) : Request → ErrorCode → ReplyBody → Prop
  | missing {req : Request} {path : String} (reads : req.reads? = some path)
      (missing : r.entries path = none) : Reads r req .noNode .empty
  | get {read : ReadRequest} {e : Entry} {stat : Stat} (stored : r.entries read.path = some e)
      (shows : e.Shows stat) :
      Reads r (.get read) .ok (.getData e.data stat (r.numChildren read.path))
  | exists {read : ReadRequest} {e : Entry} {stat : Stat} (stored : r.entries read.path = some e)
      (shows : e.Shows stat) :
      Reads r (.exists read) .ok
        (.stat stat (Int32.ofNat e.data.length) (r.numChildren read.path))
  | list {read : ReadRequest} {e : Entry} {names : List String} {stat : Stat}
      (stored : r.entries read.path = some e) (shows : e.Shows stat)
      (lists : r.Lists read.path names) :
      Reads r (.list read) .ok (.childrenAndStat names stat (Int32.ofNat e.data.length)
        (r.numChildren read.path))
  | simpleList {read : ReadRequest} {names : List String} (stored : r.entries read.path ≠ none)
      (lists : r.Lists read.path names) : Reads r (.simpleList read) .ok (.children names)

/-- What a request of a session may be answered, and what it leaves behind. `works` says that the
log can be written. -/
inductive Answers (id : SessionId) (works : Bool) (r : Registry) :
    Request → ErrorCode → ReplyBody → Registry → Prop
  | wrote {req : Request} {op : MultiOp} {response : MultiOpResponse} {r' : Registry}
      (write : req.write? = some op) (writes : Writes id r (op, response) r') :
      Answers id works r req .ok response.plainBody r'
  | refused {req : Request} {op : MultiOp} {code : ErrorCode} (write : req.write? = some op)
      (refuses : r.Refuses op code) : Answers id works r req code .empty r
  /-- A create that fails only when the tree is changed is answered with one code for all
  reasons. -/
  | failed {req : CreateRequest} {code : ErrorCode} (refuses : r.Refuses (.create req) code) :
      Answers id works r (.create req) .badArguments .empty r
  | unlogged {req : Request} {op : MultiOp} (write : req.write? = some op) (fails : works = false) :
      Answers id works r req .systemError .empty r
  /-- A remove of the root may be acknowledged, and does nothing. -/
  | root {req : DeleteRequest} {e : Entry} (root : req.path = "/")
      (stored : r.entries req.path = some e) (version : e.Admits req.version) :
      Answers id works r (.remove req) .ok .empty r
  | batch {entries : List (MultiOp × MultiOpResponse)} {r' : Registry}
      (path : Run (Writes id) r entries r') :
      Answers id works r (.multi (entries.map Prod.fst)) .ok (.multi (entries.map Prod.snd)) r'
  /-- One operation of a batch is refused, and the others do not count. -/
  | rolledBack {entries : List (MultiOp × MultiOpResponse)} {r' : Registry} {op : MultiOp}
      {code : ErrorCode} (path : Run (Writes id) r entries r') (refuses : r'.Refuses op code)
      (rest : List MultiOp) :
      Answers id works r (.multi (entries.map Prod.fst ++ op :: rest)) .ok
        (.multi (entries.map (fun _ => .error .ok) ++ .error code ::
          rest.map fun _ => .error .runtimeInconsistency)) r
  | read {req : Request} {code : ErrorCode} {body : ReplyBody} (reads : r.Reads req code body) :
      Answers id works r req code body r
  | close : Answers id works r .close .ok .empty (r.release id)
  | heartbeat : Answers id works r .heartbeat .ok .empty r
  | rejected : Answers id works r .rejected .badArguments .empty r

/-- What happens to the registry. -/
inductive Event
  | served (id : SessionId) (works : Bool) (req : Request) (code : ErrorCode) (body : ReplyBody)
  | ended (id : SessionId)

/-- The log could be written. -/
def Event.Works : Event → Prop
  | .served _ works _ _ _ => works = true
  | .ended _ => True

inductive Step (r : Registry) : Event → Registry → Prop
  | served {id : SessionId} {works : Bool} {req : Request} {code : ErrorCode} {body : ReplyBody}
      {r' : Registry} (answers : Answers id works r req code body r') :
      Step r (.served id works req code body) r'
  | ended {id : SessionId} : Step r (.ended id) (r.release id)

/-- What can become of the owners of the entries. -/
inductive Act
  | made (path : String) (owner : SessionId)
  | removed (path : String)
  | ended (id : SessionId)
  deriving DecidableEq

end Registry

/-- What an operation of a batch has done, by its response. -/
def MultiOp.acts (id : SessionId) : MultiOp → MultiOpResponse → List Registry.Act
  | .create req, .create path => [.made path (if isEphemeral req.flags then id else 0)]
  | .delete req, .delete => [.removed req.path]
  | _, _ => []

/-- What a request has done, by its reply. -/
def Request.acts (id : SessionId) (code : ErrorCode) (body : ReplyBody) :
    Request → List Registry.Act
  | .create req =>
    match body with
    | .create path => [.made path (if isEphemeral req.flags then id else 0)]
    | _ => []
  | .remove req => if code = .ok ∧ req.path ≠ "/" then [.removed req.path] else []
  | .close => [.ended id]
  | .multi ops =>
    match body with
    | .multi responses => (ops.zip responses).flatMap fun (op, response) => op.acts id response
    | _ => []
  | _ => []

namespace Registry

def Event.acts : Event → List Act
  | .served id _ req code body => req.acts id code body
  | .ended id => [.ended id]

/-- The act takes an entry of this owner out of the registry. -/
def Act.Frees (path : String) (owner : SessionId) (a : Act) : Prop :=
  a = .removed path ∨ (owner ≠ 0 ∧ a = .ended owner)

/-- The owners of all entries. -/
abbrev Owners := String → Option SessionId

inductive Move (o : Owners) : Act → Owners → Prop
  | made {path : String} {owner : SessionId} (vacant : o path = none) :
      Move o (.made path owner) (Function.update o path (some owner))
  | removed {path : String} : Move o (.removed path) (Function.update o path none)
  | ended {id : SessionId} :
      Move o (.ended id) fun p => (o p).filter fun owner => owner = 0 ∨ owner ≠ id

variable {r r' : Registry} {o o' : Owners} {id : SessionId} {path q name : String}
  {owner : SessionId} {e : Entry}

/-- An entry stays with its owner until an act frees it. -/
theorem Move.keeps {a : Act} (move : Move o a o') (held : o path = some owner)
    (kept : ¬ a.Frees path owner) : o' path = some owner := by
  cases move with
  | @made made _ vacant =>
    have other : path ≠ made := by
      rintro rfl
      rw [held] at vacant
      cases vacant
    rwa [Function.update_of_ne other]
  | @removed removed =>
    have other : path ≠ removed := by
      rintro rfl
      exact kept (.inl rfl)
    rwa [Function.update_of_ne other]
  | @ended id =>
    have spared : owner = 0 ∨ owner ≠ id := by
      by_contra released
      obtain ⟨positive, rfl⟩ := not_or.mp released |>.imp_right not_not.mp
      exact kept (.inr ⟨positive, rfl⟩)
    change (o path).filter _ = _
    rw [held, Option.filter_some_pos (by simpa using spared)]

/-- Between two makings of one path something frees it. -/
theorem freed_between {owner' : SessionId} {before between after : List Act}
    (run : Run Move o (before ++ .made path owner :: between ++ .made path owner' :: after) o') :
    ∃ a ∈ between, a.Frees path owner := by
  by_contra kept
  push Not at kept
  obtain ⟨t, init, rest⟩ := run.append_split
  obtain ⟨u, again, -⟩ := Run.cons_iff.mp rest
  obtain ⟨v, -, rest⟩ := init.append_split
  obtain ⟨w, makes, rest⟩ := Run.cons_iff.mp rest
  have made : w path = some owner := by
    cases makes
    exact Function.update_self _ _ _
  have held : t path = some owner := (rest.restrict kept).invariant (· path = some owner) made
    fun _ _ _ held last => last.1.keeps held last.2
  cases again with
  | made vacant =>
    rw [held] at vacant
    cases vacant

def owners (r : Registry) : Owners := fun p => (r.entries p).map Entry.owner

theorem owners_update (f : String → Option Entry) (below : String → Finset String)
    (path : String) (e : Option Entry) : owners ⟨Function.update f path e, below⟩ =
      Function.update (owners ⟨f, below⟩) path (e.map Entry.owner) := by
  funext p
  by_cases here : p = path
  · subst here
    simp [owners]
  · simp [owners, here]

theorem owners_enter : (r.enter path q name e).owners =
    Function.update r.owners path (some e.owner) := owners_update ..

theorem owners_leave : (r.leave path q name).owners = Function.update r.owners path none :=
  owners_update ..

/-- A set leaves the owner. -/
theorem owners_put {data : List UInt8} {stamp : Stamp} (stored : r.entries path = some e) :
    (r.put path (e.write data stamp)).owners = r.owners := by
  have same : r.owners path = some e.owner := by
    rw [owners, stored]
    rfl
  calc (r.put path (e.write data stamp)).owners
      = Function.update r.owners path (some e.owner) := owners_update ..
    _ = r.owners := by rw [← same, Function.update_eq_self]

theorem owners_release : (r.release id).owners =
    fun p => (r.owners p).filter fun owner => owner = 0 ∨ owner ≠ id := by
  funext p
  change ((r.entries p).filter _).map _ = ((r.entries p).map _).filter _
  cases r.entries p with
  | none => rfl
  | some e =>
    by_cases spared : e.owner = 0 ∨ e.owner ≠ id
    · rw [Option.filter_some_pos (by simpa using spared)]
      exact (Option.filter_some_pos (by simpa using spared)).symm
    · rw [Option.filter_some_neg (by simpa using spared)]
      exact (Option.filter_some_neg (by simpa using spared)).symm

theorem Writes.moves {entry : MultiOp × MultiOpResponse} (writes : Writes id r entry r') :
    Run Move r.owners (entry.1.acts id entry.2) r'.owners := by
  cases writes with
  | create names vacant parent named stored lasting =>
    rw [owners_enter]
    exact .single (.made (by rw [owners, vacant]; rfl))
  | set stored version shows =>
    rw [owners_put stored]
    exact .nil
  | delete stored version parent named leaf childless =>
    rw [owners_leave]
    exact .single .removed
  | check stored version => exact .nil

/-- A write by itself does what it does in a batch. -/
theorem Writes.acts {req : Request} {op : MultiOp} {response : MultiOpResponse}
    (writes : Writes id r (op, response) r') (write : req.write? = some op) :
    req.acts id .ok response.plainBody = op.acts id response := by
  cases req with
  | create req | set req =>
    cases write
    cases writes
    rfl
  | remove req =>
    cases write
    cases writes with
    | delete stored version parent named leaf childless =>
      exact if_pos ⟨rfl, parentOf_ne_root parent named⟩
  | _ => cases write

theorem Refuses.code_ne {op : MultiOp} {code : ErrorCode} (refuses : r.Refuses op code) :
    code ≠ .ok := by
  cases refuses <;> simp

/-- A write that is not carried out does nothing. -/
theorem acts_of_failed {req : Request} {op : MultiOp} {code : ErrorCode}
    (write : req.write? = some op) (failed : code ≠ .ok) : req.acts id code .empty = [] := by
  cases req with
  | remove req => exact if_neg fun done => failed done.1
  | create req | set req => rfl
  | _ => cases write

/-- Nor do the operations of a batch that fails. -/
theorem acts_of_errors {responses : List MultiOpResponse}
    (errors : ∀ response ∈ responses, ∃ code, response = .error code) (ops : List MultiOp)
    (code : ErrorCode) : (Request.multi ops).acts id code (.multi responses) = [] := by
  refine List.flatMap_eq_nil_iff.mpr ?_
  rintro ⟨op, response⟩ mem
  obtain ⟨code, rfl⟩ := errors response (List.of_mem_zip mem).2
  cases op <;> rfl

/-- Nor does a read. -/
theorem Reads.acts {req : Request} {code : ErrorCode} {body : ReplyBody}
    (reads : r.Reads req code body) : req.acts id code body = [] := by
  cases reads with
  | @missing req path reads missing =>
    cases req with
    | get | «exists» | list | simpleList => rfl
    | _ => cases reads
  | _ => rfl

theorem Answers.moves {works : Bool} {req : Request} {code : ErrorCode} {body : ReplyBody}
    (answers : Answers id works r req code body r') :
    Run Move r.owners (req.acts id code body) r'.owners := by
  cases answers with
  | wrote write writes =>
    rw [writes.acts write]
    exact writes.moves
  | refused write refuses =>
    rw [acts_of_failed write refuses.code_ne]
    exact .nil
  | failed refuses => exact .nil
  | unlogged write fails =>
    rw [acts_of_failed write (by simp)]
    exact .nil
  | root root stored version =>
    rw [Request.acts, if_neg fun removes => removes.2 root]
    exact .nil
  | @batch entries _ path =>
    have acts : (Request.multi (entries.map Prod.fst)).acts id .ok
        (.multi (entries.map Prod.snd)) = entries.flatMap fun entry => entry.1.acts id entry.2 := by
      simp only [Request.acts, List.zip_map', List.flatMap_map]
    rw [acts]
    exact path.expand owners _ fun _ _ _ writes => writes.moves
  | rolledBack path refuses rest =>
    rw [acts_of_errors]
    · exact .nil
    · simp only [List.mem_append, List.mem_map, List.mem_cons]
      rintro _ (⟨_, -, rfl⟩ | rfl | ⟨_, -, rfl⟩) <;> exact ⟨_, rfl⟩
  | read reads =>
    rw [reads.acts]
    exact .nil
  | close =>
    rw [owners_release]
    exact .single .ended
  | _ => exact .nil

/-- The registry does to the owners what its events say. -/
theorem Step.moves {e : Event} (step : r.Step e r') : Run Move r.owners e.acts r'.owners := by
  cases step with
  | served answers => exact answers.moves
  | ended =>
    rw [owners_release]
    exact .single .ended

theorem moves_of_run {events : List Event} (run : Run Step r events r') :
    Run Move r.owners (events.flatMap Event.acts) r'.owners :=
  run.expand owners Event.acts fun _ _ _ step => step.moves

end Registry
end TinyKeeper
