import Mathlib.Data.Nat.Notation

/-! The protocol data that the server computes with: node statistics, the parsed requests, and
the replies and notifications it hands to the connections. Counters that only a run of more than
2^63 steps could overflow are unbounded; the 32-bit fields keep their width and wrap. -/
namespace TinyKeeper

/-- A session identifier; zero stands for no session. -/
abbrev SessionId := Int

inductive ErrorCode
  | ok | systemError | runtimeInconsistency | badArguments | noNode | badVersion
  | noChildrenForEphemerals | nodeExists | notEmpty
  deriving DecidableEq, Repr

structure Stat where
  czxid : ℕ := 0
  mzxid : ℕ := 0
  ctime : Int := 0
  mtime : Int := 0
  version : Int32 := 0
  cversion : Int32 := 0
  aversion : Int32 := 0
  ephemeralOwner : SessionId := 0
  pzxid : ℕ := 0
  deriving DecidableEq, Repr

structure CreateRequest where
  path : String
  data : List UInt8
  flags : Int32
  deriving DecidableEq, Repr

structure SetDataRequest where
  path : String
  data : List UInt8
  version : Int32
  deriving DecidableEq, Repr

/-- A path and an expected version: the body of Remove, and of Check inside a batch. -/
structure VersionedRequest where
  path : String
  version : Int32
  deriving DecidableEq, Repr

abbrev DeleteRequest := VersionedRequest
abbrev CheckRequest := VersionedRequest

/-- A path and a watch flag: the body of Get, Exists, List and SimpleList. -/
structure ReadRequest where
  path : String
  watch : Bool
  deriving DecidableEq, Repr

inductive MultiOp
  | create (req : CreateRequest)
  | set (req : SetDataRequest)
  | delete (req : DeleteRequest)
  | check (req : CheckRequest)
  deriving DecidableEq, Repr

/-- A request after its header and body were parsed. `rejected` is a request that is answered
`BadArguments` without looking at the tree: its body does not parse, or its opcode is known but
has no handler. -/
inductive Request
  | create (req : CreateRequest)
  | get (req : ReadRequest)
  | set (req : SetDataRequest)
  | remove (req : DeleteRequest)
  | heartbeat
  | simpleList (req : ReadRequest)
  | list (req : ReadRequest)
  | exists (req : ReadRequest)
  | close
  | multi (ops : List MultiOp)
  | rejected
  deriving DecidableEq, Repr

inductive MultiOpResponse
  | create (path : String)
  | set (stat : Stat) (dataLength numChildren : Int32)
  | delete
  | check
  | error (code : ErrorCode)
  deriving DecidableEq, Repr

/-- What follows the reply header. -/
inductive ReplyBody
  | empty
  | create (path : String)
  | getData (data : List UInt8) (stat : Stat) (numChildren : Int32)
  | stat (stat : Stat) (dataLength numChildren : Int32)
  | children (names : List String)
  | childrenAndStat (names : List String) (stat : Stat) (dataLength numChildren : Int32)
  | multi (responses : List MultiOpResponse)
  deriving DecidableEq, Repr

structure Reply where
  xid : Int32
  zxid : ℕ
  err : ErrorCode
  body : ReplyBody := .empty
  deriving DecidableEq, Repr

inductive WatchEventType
  | created | deleted | changed | child
  deriving DecidableEq, Repr

structure WatchNotification where
  eventType : WatchEventType
  path : String
  deriving DecidableEq, Repr

end TinyKeeper
