import TinyKeeper.Protocol.ToBytes

/-! The bytes that a client sends for a batch, in the format of the protocol. The parser takes the
same operations back, and not a byte more. -/
namespace TinyKeeper

/-- An entry of the access list of a new node. The server skips it. -/
structure Acl where
  perms : Int32
  scheme : String
  id : String
  deriving DecidableEq

/-- An operation as a client sends it. -/
inductive SentOp
  | create (req : CreateRequest) (acls : List Acl)
  | set (req : SetDataRequest)
  | delete (req : DeleteRequest)
  | check (req : CheckRequest)
  deriving DecidableEq

/-! The format has no bytes for a length that does not fit its field. -/
namespace Jute

def length (n : ℕ) : Option (List UInt8) :=
  if n < 2 ^ 31 then some (i32ToBeBytes (Int32.ofNat n)) else none

def buffer (bytes : List UInt8) : Option (List UInt8) := do
  let length ← length bytes.length
  return length ++ bytes

def string (s : String) : Option (List UInt8) := buffer s.toUTF8.data.toList

def acls : List Acl → Option (List UInt8)
  | [] => some []
  | entry :: entries => do
    let scheme ← string entry.scheme
    let id ← string entry.id
    let rest ← acls entries
    return i32ToBeBytes entry.perms ++ (scheme ++ (id ++ rest))

def body : SentOp → Option (List UInt8)
  | .create req entries => do
    let path ← string req.path
    let data ← buffer req.data
    let count ← length entries.length
    let entries ← acls entries
    return path ++ (data ++ (count ++ (entries ++ i32ToBeBytes req.flags)))
  | .set req => do
    let path ← string req.path
    let data ← buffer req.data
    return path ++ (data ++ i32ToBeBytes req.version)
  | .delete req => do
    let path ← string req.path
    return path ++ i32ToBeBytes req.version
  | .check req => do
    let path ← string req.path
    return path ++ i32ToBeBytes req.version

end Jute

namespace SentOp

/-- What the server makes of the operation. -/
def op : SentOp → MultiOp
  | .create req _ => .create req
  | .set req => .set req
  | .delete req => .delete req
  | .check req => .check req

def opType : SentOp → Int32
  | .create _ _ => 1
  | .set _ => 5
  | .delete _ => 2
  | .check _ => 13

/-- Every string, buffer and list of the operation has a length that fits its field. -/
def Fits : SentOp → Prop
  | .create req entries => req.path.utf8ByteSize < 2 ^ 31 ∧ req.data.length < 2 ^ 31 ∧
      entries.length < 2 ^ 31 ∧
      ∀ entry ∈ entries, entry.scheme.utf8ByteSize < 2 ^ 31 ∧ entry.id.utf8ByteSize < 2 ^ 31
  | .set req => req.path.utf8ByteSize < 2 ^ 31 ∧ req.data.length < 2 ^ 31
  | .delete req => req.path.utf8ByteSize < 2 ^ 31
  | .check req => req.path.utf8ByteSize < 2 ^ 31

instance : DecidablePred Fits := fun sent =>
  match sent with
  | .create req entries => inferInstanceAs (Decidable (req.path.utf8ByteSize < 2 ^ 31 ∧
      req.data.length < 2 ^ 31 ∧ entries.length < 2 ^ 31 ∧
      ∀ entry ∈ entries, entry.scheme.utf8ByteSize < 2 ^ 31 ∧ entry.id.utf8ByteSize < 2 ^ 31))
  | .set req => inferInstanceAs
      (Decidable (req.path.utf8ByteSize < 2 ^ 31 ∧ req.data.length < 2 ^ 31))
  | .delete req => inferInstanceAs (Decidable (req.path.utf8ByteSize < 2 ^ 31))
  | .check req => inferInstanceAs (Decidable (req.path.utf8ByteSize < 2 ^ 31))

end SentOp

namespace Jute

/-- A header in front of each operation, and a last one that says that it is the last. -/
def multi : List SentOp → Option (List UInt8)
  | [] => some (MultiHeader.toBytes ⟨-1, true, -1⟩)
  | op :: ops => do
    let body ← body op
    let rest ← multi ops
    return MultiHeader.toBytes ⟨op.opType, false, -1⟩ ++ (body ++ rest)

variable {bytes : List UInt8}

theorem length_eq_some_iff {n : ℕ} :
    length n = some bytes ↔ n < 2 ^ 31 ∧ bytes = i32ToBeBytes (Int32.ofNat n) := by
  unfold length
  split_ifs with short
  · rw [Option.some.injEq]
    exact ⟨fun same => ⟨short, same.symm⟩, fun h => h.2.symm⟩
  · exact iff_of_false (fun none => nomatch none) (fun h => short h.1)

theorem buffer_eq_some_iff {field : List UInt8} : buffer field = some bytes ↔
    field.length < 2 ^ 31 ∧ bytes = i32ToBeBytes (Int32.ofNat field.length) ++ field := by
  simp only [buffer, Option.bind_eq_bind, Option.bind_eq_some_iff, length_eq_some_iff]
  constructor
  · rintro ⟨_, ⟨short, rfl⟩, same⟩
    exact ⟨short, (Option.some.inj same).symm⟩
  · rintro ⟨short, rfl⟩
    exact ⟨_, ⟨short, rfl⟩, rfl⟩

theorem string_eq_some_iff {s : String} :
    string s = some bytes ↔ s.utf8ByteSize < 2 ^ 31 ∧ bytes = encodeString s := by
  rw [string, buffer_eq_some_iff, toUTF8_length, encodeString]

end Jute

section Fields
variable {bytes : List UInt8}

theorem getField_takes {message : String} {field : List UInt8}
    (encoded : Jute.buffer field = some bytes) : (getField message).Takes bytes field := by
  obtain ⟨short, rfl⟩ := Jute.buffer_eq_some_iff.mp encoded
  exact (getI32_takes _).bind (Reader.takes_take (asUsize_ofNat short).symm)

theorem getString_takes {s : String} (encoded : Jute.string s = some bytes) :
    getPath.Takes bytes s := by
  obtain ⟨short, rfl⟩ := Jute.string_eq_some_iff.mp encoded
  exact getPath_takes short

/-- The access list is skipped entry by entry. -/
theorem skipAcl_takes {entries : List Acl} (encoded : Jute.acls entries = some bytes) :
    (skipAcl entries.length).Takes bytes () := by
  induction entries generalizing bytes with
  | nil =>
    obtain rfl : [] = bytes := Option.some.inj encoded
    exact Reader.takes_pure
  | cons entry entries ih =>
    simp only [Jute.acls, Option.bind_eq_bind, Option.bind_eq_some_iff] at encoded
    obtain ⟨scheme, hscheme, id, hid, rest, hrest, same⟩ := encoded
    obtain rfl := Option.some.inj same
    exact (getI32_takes entry.perms).bind <| (getField_takes hscheme).bind <|
      (getField_takes hid).bind (ih hrest)

end Fields

section Requests
variable {bytes : List UInt8}

theorem CreateRequest.fromBytes_takes {req : CreateRequest} {entries : List Acl}
    (encoded : Jute.body (.create req entries) = some bytes) :
    CreateRequest.fromBytes.Takes bytes req := by
  simp only [Jute.body, Option.bind_eq_bind, Option.bind_eq_some_iff] at encoded
  obtain ⟨path, hpath, data, hdata, count, hcount, acls, hacls, same⟩ := encoded
  obtain rfl := Option.some.inj same
  obtain ⟨short, rfl⟩ := Jute.length_eq_some_iff.mp hcount
  have number : (Int32.ofNat entries.length).toInt.toNat = entries.length := by
    rw [Int32.toInt_ofNat_of_lt (by simpa using short), Int.toNat_natCast]
  refine (getString_takes hpath).bind <| (getField_takes hdata).bind <|
    (getI32_takes (Int32.ofNat entries.length)).bind ?_
  rw [number]
  exact (skipAcl_takes hacls).bind (getI32_takes req.flags).map

theorem SetDataRequest.fromBytes_takes {req : SetDataRequest}
    (encoded : Jute.body (.set req) = some bytes) : SetDataRequest.fromBytes.Takes bytes req := by
  simp only [Jute.body, Option.bind_eq_bind, Option.bind_eq_some_iff] at encoded
  obtain ⟨path, hpath, data, hdata, same⟩ := encoded
  obtain rfl := Option.some.inj same
  exact (getString_takes hpath).bind <| (getField_takes hdata).bind (getI32_takes req.version).map

theorem DeleteRequest.fromBytes_takes {req : DeleteRequest}
    (encoded : Jute.body (.delete req) = some bytes) : DeleteRequest.fromBytes.Takes bytes req := by
  simp only [Jute.body, Option.bind_eq_bind, Option.bind_eq_some_iff] at encoded
  obtain ⟨path, hpath, same⟩ := encoded
  obtain rfl := Option.some.inj same
  exact (getString_takes hpath).bind (getI32_takes req.version).map

/-- The checks on what is left pass, as all of the request is there. -/
theorem CheckRequest.fromBytes_takes {req : CheckRequest}
    (encoded : Jute.body (.check req) = some bytes) : CheckRequest.fromBytes.Takes bytes req := by
  simp only [Jute.body, Option.bind_eq_bind, Option.bind_eq_some_iff] at encoded
  obtain ⟨path, hpath, same⟩ := encoded
  obtain rfl := Option.some.inj same
  obtain ⟨short, rfl⟩ := Jute.string_eq_some_iff.mp hpath
  have number : (Int32.ofNat req.path.utf8ByteSize).toInt = req.path.utf8ByteSize :=
    Int32.toInt_ofNat_of_lt (by simpa using short)
  have size := toUTF8_length req.path
  rw [encodeString, List.append_assoc]
  apply Reader.Takes.onCursor
  refine Reader.takes_remaining_bind fun n enough => ?_
  simp only [List.length_append, i32ToBeBytes_length, size] at enough
  refine Reader.takes_check_bind (by omega) ?_
  refine (getI32_takes (Int32.ofNat req.path.utf8ByteSize)).bind ?_
  rw [number]
  refine Reader.takes_check_bind (Int.natCast_nonneg _) ?_
  refine Reader.takes_remaining_bind fun m left => ?_
  simp only [List.length_append, i32ToBeBytes_length, size] at left
  refine Reader.takes_check_bind (by omega) ?_
  refine (Reader.takes_take size).bind ?_
  have utf8 := Reader.takes_ofOption (σ := UInt8) (ε := String) (fromUtf8_toUTF8 req.path)
  exact utf8.bind (getI32_takes req.version).map

theorem MultiHeader.fromBytes_takes (header : MultiHeader) :
    MultiHeader.fromBytes.Takes header.toBytes header := by
  have flag : (((if header.done then 1 else 0 : UInt8) = 1 : Prop) : Bool) = header.done := by
    cases header.done <;> rfl
  have valid : (if header.done then 1 else 0 : UInt8) = 0 ∨
      (if header.done then 1 else 0 : UInt8) = 1 := by
    cases header.done <;> decide
  have size := header.toBytes_length
  rw [MultiHeader.toBytes_fields] at size ⊢
  apply Reader.Takes.onCursor
  refine Reader.takes_remaining_bind fun n enough => ?_
  refine Reader.takes_check_bind (size ▸ enough) ?_
  refine (getI32_takes header.opType).bind <| (getU8_takes _).bind ?_
  refine Reader.takes_check_bind valid ?_
  rw [flag]
  exact (getI32_takes header.err).map

theorem MultiOp.fromBytes_takes {sent : SentOp} (encoded : Jute.body sent = some bytes) :
    (MultiOp.fromBytes sent.opType).Takes bytes sent.op := by
  cases sent with
  | create req entries => exact (CreateRequest.fromBytes_takes encoded).map
  | set req => exact (SetDataRequest.fromBytes_takes encoded).map
  | delete req => exact (DeleteRequest.fromBytes_takes encoded).map
  | check req => exact (CheckRequest.fromBytes_takes encoded).map

/-- The loop takes one operation after the other, up to the last header. -/
theorem multiOps_takes {ops : List SentOp} (encoded : Jute.multi ops = some bytes) {fuel : ℕ}
    (enough : ops.length < fuel) : (multiOps fuel).Takes bytes (ops.map SentOp.op) := by
  induction ops generalizing bytes fuel with
  | nil =>
    obtain rfl := Option.some.inj encoded
    obtain ⟨fuel, rfl⟩ : ∃ n, fuel = n + 1 := ⟨fuel - 1, by omega⟩
    have last : (multiOps (fuel + 1)).Takes (MultiHeader.toBytes ⟨-1, true, -1⟩ ++ []) [] :=
      (MultiHeader.fromBytes_takes ⟨-1, true, -1⟩).bind
        (Reader.takes_check_bind ⟨rfl, rfl⟩ Reader.takes_pure)
    rwa [List.append_nil] at last
  | cons sent ops ih =>
    obtain ⟨fuel, rfl⟩ : ∃ n, fuel = n + 1 := ⟨fuel - 1, by omega⟩
    simp only [Jute.multi, Option.bind_eq_bind, Option.bind_eq_some_iff] at encoded
    obtain ⟨body, hbody, rest, hrest, same⟩ := encoded
    obtain rfl := Option.some.inj same
    have later := ih hrest (Nat.lt_of_succ_lt_succ enough)
    refine (MultiHeader.fromBytes_takes ⟨sent.opType, false, -1⟩).bind ?_
    exact Reader.takes_check_bind rfl ((MultiOp.fromBytes_takes hbody).bind later.map)

end Requests

namespace Jute
variable {bytes : List UInt8}

theorem length_lt {ops : List SentOp} (encoded : multi ops = some bytes) :
    ops.length < bytes.length := by
  induction ops generalizing bytes with
  | nil =>
    obtain rfl := Option.some.inj encoded
    simp [MultiHeader.toBytes_length, MultiHeader.size]
  | cons sent ops ih =>
    simp only [multi, Option.bind_eq_bind, Option.bind_eq_some_iff] at encoded
    obtain ⟨body, -, rest, hrest, same⟩ := encoded
    obtain rfl := Option.some.inj same
    have later := ih hrest
    simp only [List.length_append, List.length_cons, MultiHeader.toBytes_length, MultiHeader.size]
    omega

theorem exists_string_iff (s : String) :
    (∃ bytes, string s = some bytes) ↔ s.utf8ByteSize < 2 ^ 31 := by
  simp only [string_eq_some_iff, exists_and_left, exists_eq, and_true]

theorem exists_buffer_iff (field : List UInt8) :
    (∃ bytes, buffer field = some bytes) ↔ field.length < 2 ^ 31 := by
  simp only [buffer_eq_some_iff, exists_and_left, exists_eq, and_true]

theorem exists_length_iff (n : ℕ) : (∃ bytes, length n = some bytes) ↔ n < 2 ^ 31 := by
  simp only [length_eq_some_iff, exists_and_left, exists_eq, and_true]

theorem exists_acls_iff (entries : List Acl) : (∃ bytes, acls entries = some bytes) ↔
    ∀ entry ∈ entries, entry.scheme.utf8ByteSize < 2 ^ 31 ∧ entry.id.utf8ByteSize < 2 ^ 31 := by
  induction entries with
  | nil => simp [acls]
  | cons entry entries ih =>
    rw [List.forall_mem_cons, ← ih, ← exists_string_iff, ← exists_string_iff]
    simp only [acls]
    cases string entry.scheme <;> cases string entry.id <;> cases acls entries <;> simp

theorem body_ne_none_iff (sent : SentOp) : body sent ≠ none ↔ sent.Fits := by
  rw [Option.ne_none_iff_exists']
  cases sent with
  | create req entries =>
    rw [SentOp.Fits, ← exists_string_iff, ← exists_buffer_iff, ← exists_length_iff,
      ← exists_acls_iff]
    simp only [body]
    cases string req.path <;> cases buffer req.data <;> cases length entries.length <;>
      cases acls entries <;> simp
  | set req =>
    rw [SentOp.Fits, ← exists_string_iff, ← exists_buffer_iff]
    simp only [body]
    cases string req.path <;> cases buffer req.data <;> simp
  | delete req | check req =>
    rw [SentOp.Fits, ← exists_string_iff]
    simp only [body]
    cases string req.path <;> simp

/-- Whatever fits its fields has an encoding. -/
theorem multi_ne_none_iff (ops : List SentOp) : multi ops ≠ none ↔ ∀ sent ∈ ops, sent.Fits := by
  induction ops with
  | nil => simp [multi]
  | cons sent ops ih =>
    rw [List.forall_mem_cons, ← body_ne_none_iff, ← ih, multi]
    cases body sent <;> cases multi ops <;> simp

end Jute

/-- The parser of a batch inverts the format of the protocol: whatever operations a client can
encode, and whatever follows them, it returns these operations and stops behind them. When it
gives up, the buffer is as it was. -/
theorem MultiRequest.fromBytes_multi :
    (∀ ops, Jute.multi ops ≠ none ↔ ∀ sent ∈ ops, sent.Fits) ∧
    (∀ ops bytes trailing, Jute.multi ops = some bytes →
      MultiRequest.fromBytes.Reads (bytes ++ trailing) (ops.map SentOp.op) trailing) ∧
    ∀ buf rest, MultiRequest.fromBytes buf = .ok (none, rest) → rest = buf := by
  refine ⟨Jute.multi_ne_none_iff, ?_, fun buf rest => Reader.onCursor_none⟩
  intro ops bytes trailing encoded
  apply Reader.Takes.onCursor
  refine Reader.takes_remaining_bind fun n enough => ?_
  exact multiOps_takes encoded ((Jute.length_lt encoded).trans_le enough)

/-- A batch with an access list, and a byte that is not part of it. -/
theorem MultiRequest.fromBytes_multi_acl : ∃ bytes,
    Jute.multi [.create ⟨"/a", [1], 0⟩ [⟨31, "world", "anyone"⟩], .check ⟨"/a", 0⟩] =
      some bytes ∧
    MultiRequest.fromBytes.Reads (bytes ++ [9]) [.create ⟨"/a", [1], 0⟩, .check ⟨"/a", 0⟩] [9] := by
  obtain ⟨encodes, reads, -⟩ := MultiRequest.fromBytes_multi
  obtain ⟨bytes, encoded⟩ := Option.ne_none_iff_exists'.mp ((encodes
    [.create ⟨"/a", [1], 0⟩ [⟨31, "world", "anyone"⟩], .check ⟨"/a", 0⟩]).mpr (by decide))
  exact ⟨bytes, encoded, reads _ bytes [9] encoded⟩

end TinyKeeper
