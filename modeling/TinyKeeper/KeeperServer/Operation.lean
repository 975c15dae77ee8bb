import TinyKeeper.Changelog.Layout
import TinyKeeper.Protocol

/-! The operations of the log. The server's log is a store of whole records: an operation and its
index are serialized and read back as one unit. -/
namespace TinyKeeper

/-- One operation of a logged batch. Checks are not logged. -/
inductive MultiWalOperation
  | create (path : String) (data : List UInt8) (flags : Int32)
  | set (path : String) (data : List UInt8)
  | delete (path : String)
  deriving DecidableEq, Repr

inductive WalOperation
  | create (path : String) (data : List UInt8) (timestamp : Int) (flags : Int32)
      (sessionId : SessionId)
  | set (path : String) (data : List UInt8) (timestamp : Int)
  | delete (path : String)
  | createSession (sessionId : SessionId) (timeoutMs : Int)
  | closeSession (sessionId : SessionId)
  | multi (operations : List MultiWalOperation) (timestamp : Int) (sessionId : SessionId)
  deriving DecidableEq, Repr

structure LogRecord where
  index : ℕ
  op : WalOperation
  deriving DecidableEq, Repr

namespace LogRecord

/-- A log of whole records; `recordBytes` is the size of a record in its file. -/
def format (recordBytes : LogRecord → ℕ) : LogFormat LogRecord LogRecord LogRecord where
  encode r := [r]
  decode
    | [] => .ok none
    | r :: rest => .ok (some (r, rest))
  progress
    | r :: rest, _, _, h => by
      cases h
      exact Nat.lt_succ_self _
  index := index
  indexRead := index
  weight := recordBytes

theorem format_lawful (recordBytes : LogRecord → ℕ) :
    (format recordBytes).Lawful (fun _ => True) id where
  decode_nil := rfl
  decode_encode _ _ _ := rfl
  decode_cut r p _ pre ne := by
    obtain ⟨rest, split⟩ := pre
    cases p with
    | nil => rfl
    | cons q p =>
      refine absurd ?_ ne
      obtain ⟨rfl, nothing⟩ := List.cons.inj split
      rw [(List.append_eq_nil_iff.mp nothing).1]
      rfl

end LogRecord
end TinyKeeper
