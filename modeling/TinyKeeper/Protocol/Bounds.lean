import TinyKeeper.Protocol.FromBytes

/-! Which bodies the parsers of the requests read without running past the end of the buffer: every
length they come to is followed by as many bytes. -/
namespace TinyKeeper
variable {buf rest : List UInt8} {α : Type}

/-- A field behind its length, and what follows it. -/
def FieldAt (buf field rest : List UInt8) : Prop :=
  ∃ length : List UInt8, length.length = 4 ∧ asUsize (i32FromBeBytes length) = field.length ∧
    buf = length ++ field ++ rest

/-- A number comes first. -/
def I32Then (P : Int32 → List UInt8 → Prop) (buf : List UInt8) : Prop :=
  ∃ bytes rest : List UInt8, bytes.length = 4 ∧ buf = bytes ++ rest ∧ P (i32FromBeBytes bytes) rest

/-- A whole field comes first. -/
def FieldThen (P : List UInt8 → Prop) (buf : List UInt8) : Prop :=
  ∃ field rest, FieldAt buf field rest ∧ P rest

/-- A whole path comes first. What follows it is not read if it is not UTF-8. -/
def PathThen (P : List UInt8 → Prop) (buf : List UInt8) : Prop :=
  ∃ field rest, FieldAt buf field rest ∧ (fromUtf8 field ≠ none → P rest)

def AtLeast (n : ℕ) (buf : List UInt8) : Prop := n ≤ buf.length

def AclsThen (P : List UInt8 → Prop) : ℕ → List UInt8 → Prop
  | 0 => P
  | n + 1 => I32Then fun _ => FieldThen (FieldThen (AclsThen P n))

/-- The bodies of a create. -/
def CreateFits : List UInt8 → Prop :=
  PathThen (FieldThen (I32Then fun aclCount => AclsThen (AtLeast 4) aclCount.toInt.toNat))

def SetFits : List UInt8 → Prop := PathThen (FieldThen (AtLeast 4))

def DeleteFits : List UInt8 → Prop := PathThen (AtLeast 4)

def ReadFits : List UInt8 → Prop := PathThen (AtLeast 1)

/-- The bodies of the operations of a batch. A check is read with care, and an unknown type is not
read at all. -/
def OpFits (opType : Int32) : List UInt8 → Prop :=
  match opType.toInt with
  | 1 => CreateFits
  | 5 => SetFits
  | 2 => DeleteFits
  | _ => fun _ => True

/-- The bodies of a batch: as long as operations follow, each of them fits. -/
inductive BatchFits : List UInt8 → Prop
  | stops {buf : List UInt8} (last : ∀ opType body,
      ¬ MultiHeader.fromBytes.Reads buf ⟨opType, false, -1⟩ body) : BatchFits buf
  | op {buf body : List UInt8} {opType : Int32}
      (header : MultiHeader.fromBytes.Reads buf ⟨opType, false, -1⟩ body)
      (fits : OpFits opType body)
      (later : ∀ op rest, (MultiOp.fromBytes opType).Reads body op rest → BatchFits rest) :
      BatchFits buf

/-- The bodies of the requests. -/
def BodyFits : OpCode → List UInt8 → Prop
  | .create => CreateFits
  | .set => SetFits
  | .remove => DeleteFits
  | .get | .exists | .list | .simpleList => ReadFits
  | .multi => BatchFits
  | _ => fun _ => True

theorem getI32_reads_iff {n : Int32} : getI32.Reads buf n rest ↔
    ∃ bytes : List UInt8, bytes.length = 4 ∧ buf = bytes ++ rest ∧ i32FromBeBytes bytes = n := by
  unfold getI32
  simp only [Reader.reads_bind_iff, Reader.reads_take_iff, Reader.reads_pure_iff]
  constructor
  · rintro ⟨bytes, middle, ⟨rfl, length⟩, same, rfl⟩
    exact ⟨bytes, length, rfl, same⟩
  · rintro ⟨bytes, length, rfl, same⟩
    exact ⟨bytes, rest, ⟨rfl, length⟩, same, rfl⟩

theorem getI32_safe_iff : getI32.Safe buf ↔ 4 ≤ buf.length := by
  simp [getI32, Reader.safe_bind_iff]

theorem getI32_bind_safe_iff {f : Int32 → FromBytes α} : (getI32 >>= f).Safe buf ↔
    I32Then (fun n rest => (f n).Safe rest) buf := by
  rw [Reader.safe_bind_of_total]
  · simp only [getI32_reads_iff, I32Then]
    constructor
    · rintro ⟨n, rest, ⟨bytes, four, split, rfl⟩, next⟩
      exact ⟨bytes, rest, four, split, next⟩
    · rintro ⟨bytes, rest, four, split, next⟩
      exact ⟨_, rest, ⟨bytes, four, split, rfl⟩, next⟩
  · intro safe
    have enough := getI32_safe_iff.mp safe
    exact ⟨_, buf.drop 4, getI32_reads_iff.mpr ⟨buf.take 4, List.length_take_of_le enough,
      (List.take_append_drop 4 buf).symm, rfl⟩⟩

/-- The last number of a request. -/
theorem i32Then_true : I32Then (fun _ _ => True) buf ↔ AtLeast 4 buf := by
  unfold I32Then AtLeast
  constructor
  · rintro ⟨bytes, rest, four, rfl, -⟩
    simp [four]
  · intro enough
    exact ⟨buf.take 4, buf.drop 4, List.length_take_of_le enough,
      (List.take_append_drop 4 buf).symm, trivial⟩

theorem getU8_pure_safe_iff {g : UInt8 → α} :
    (getU8 >>= fun b => pure (g b)).Safe buf ↔ AtLeast 1 buf := by
  simp [Reader.safe_bind_iff, getU8, AtLeast]

theorem getField_reads_iff {message : String} {field : List UInt8} :
    (getField message).Reads buf field rest ↔ FieldAt buf field rest := by
  unfold getField FieldAt
  simp only [Reader.reads_bind_iff, Reader.reads_take_iff, getI32_reads_iff]
  constructor
  · rintro ⟨n, middle, ⟨length, four, rfl, rfl⟩, rfl, same⟩
    exact ⟨length, four, same.symm, (List.append_assoc _ _ _).symm⟩
  · rintro ⟨length, four, same, rfl⟩
    exact ⟨_, field ++ rest, ⟨length, four, List.append_assoc _ _ _, rfl⟩, rfl, same.symm⟩

/-- Either a whole field comes first, or the parser runs past the end. -/
theorem getField_total {message : String} (safe : (getField message).Safe buf) :
    ∃ field rest, (getField message).Reads buf field rest := by
  unfold getField at safe ⊢
  obtain ⟨length, rest, four, rfl, enough⟩ := getI32_bind_safe_iff.mp safe
  obtain ⟨field, rest', reads⟩ := Reader.take_total enough
  exact ⟨field, rest', Reader.reads_bind_iff.mpr
    ⟨_, rest, getI32_reads_iff.mpr ⟨length, four, rfl, rfl⟩, reads⟩⟩

theorem getField_bind_safe_iff {message : String} {f : List UInt8 → FromBytes α} :
    (getField message >>= f).Safe buf ↔
      ∃ field rest, FieldAt buf field rest ∧ (f field).Safe rest := by
  rw [Reader.safe_bind_of_total getField_total]
  simp only [getField_reads_iff]

/-- The path is a field that is UTF-8. -/
theorem getPath_reads_iff {path : String} : getPath.Reads buf path rest ↔
    ∃ field, FieldAt buf field rest ∧ fromUtf8 field = some path := by
  unfold getPath FieldAt
  simp only [Reader.reads_bind_iff, Reader.reads_onCursor_iff, Reader.reads_take_iff,
    Reader.reads_ofOption_iff, getI32_reads_iff]
  constructor
  · rintro ⟨n, middle, ⟨length, four, rfl, rfl⟩, field, rest', ⟨rfl, same⟩, utf8, rfl⟩
    exact ⟨field, ⟨length, four, same.symm, (List.append_assoc _ _ _).symm⟩, utf8⟩
  · rintro ⟨field, ⟨length, four, same, rfl⟩, utf8⟩
    exact ⟨_, field ++ rest, ⟨length, four, List.append_assoc _ _ _, rfl⟩, field, rest,
      ⟨rfl, same.symm⟩, utf8, rfl⟩

theorem getPath_safe_iff : getPath.Safe buf ↔ ∃ field rest, FieldAt buf field rest := by
  have same : getPath.Safe buf ↔ (getField midBeyondLen).Safe buf := by
    unfold getPath getField
    simp only [Reader.safe_onCursor_iff, Reader.safe_bind_iff, Reader.safe_ofOption, implies_true,
      and_true]
  rw [same]
  constructor
  · intro safe
    obtain ⟨field, rest, reads⟩ := getField_total safe
    exact ⟨field, rest, getField_reads_iff.mp reads⟩
  · rintro ⟨field, rest, there⟩
    exact (getField_reads_iff.mpr there).safe

theorem FieldAt.unique {field field' rest' : List UInt8} (h : FieldAt buf field rest)
    (h' : FieldAt buf field' rest') : field = field' ∧ rest = rest' := by
  have reads : (getField midBeyondLen).Reads buf field rest := getField_reads_iff.mpr h
  exact reads.unique (getField_reads_iff.mpr h')

theorem getPath_bind_safe_iff {f : String → FromBytes α} {P : List UInt8 → Prop}
    (next : ∀ path rest, (f path).Safe rest ↔ P rest) :
    (getPath >>= f).Safe buf ↔ PathThen P buf := by
  rw [Reader.safe_bind_iff, getPath_safe_iff]
  constructor
  · rintro ⟨⟨field, rest, there⟩, safe⟩
    refine ⟨field, rest, there, fun utf8 => ?_⟩
    obtain ⟨path, utf8⟩ := Option.ne_none_iff_exists'.mp utf8
    exact (next path rest).mp (safe path rest (getPath_reads_iff.mpr ⟨field, there, utf8⟩))
  · rintro ⟨field, rest, there, fits⟩
    refine ⟨⟨field, rest, there⟩, fun path rest' reads => ?_⟩
    obtain ⟨field', there', utf8⟩ := getPath_reads_iff.mp reads
    obtain ⟨rfl, rfl⟩ := there.unique there'
    exact (next path rest).mpr (fits (by simp [utf8]))

theorem skipAcl_bind_safe_iff {f : Unit → FromBytes α} (n : ℕ) : (skipAcl n >>= f).Safe buf ↔
    AclsThen (fun rest => (f ()).Safe rest) n buf := by
  induction n generalizing buf with
  | zero => exact Iff.rfl
  | succ n ih =>
    rw [skipAcl]
    simp only [Reader.then_then, getI32_bind_safe_iff, getField_bind_safe_iff, ih]
    rfl

theorem CreateRequest.safe_iff : CreateRequest.fromBytes.Safe buf ↔ CreateFits buf := by
  unfold CreateRequest.fromBytes
  apply getPath_bind_safe_iff
  intro path rest
  simp only [getField_bind_safe_iff, getI32_bind_safe_iff, skipAcl_bind_safe_iff,
    Reader.safe_pure, i32Then_true]
  rfl

theorem SetDataRequest.safe_iff : SetDataRequest.fromBytes.Safe buf ↔ SetFits buf := by
  unfold SetDataRequest.fromBytes
  apply getPath_bind_safe_iff
  intro path rest
  simp only [getField_bind_safe_iff, getI32_bind_safe_iff, Reader.safe_pure, i32Then_true]
  rfl

theorem DeleteRequest.safe_iff : DeleteRequest.fromBytes.Safe buf ↔ DeleteFits buf := by
  unfold DeleteRequest.fromBytes
  apply getPath_bind_safe_iff
  intro path rest
  simp only [getI32_bind_safe_iff, Reader.safe_pure, i32Then_true]

theorem ReadRequest.safe_iff : ReadRequest.fromBytes.Safe buf ↔ ReadFits buf :=
  getPath_bind_safe_iff fun _ _ => getU8_pure_safe_iff

/-- The parser of a check looks at what is left before it reads. -/
theorem CheckRequest.safe (buf : List UInt8) : CheckRequest.fromBytes.Safe buf := by
  unfold CheckRequest.fromBytes
  simp only [Reader.safe_onCursor_iff, Reader.safe_remaining_bind_iff, Reader.safe_check_bind_iff]
  intro enough
  rw [Reader.safe_bind_iff]
  refine ⟨getI32_safe_iff.mpr enough, fun length rest reads => ?_⟩
  simp only [Reader.safe_remaining_bind_iff, Reader.safe_check_bind_iff, Reader.safe_take_bind_iff,
    Reader.safe_ofOption_bind_iff]
  intro nonneg fits
  refine ⟨by omega, fun field rest' split taken path utf8 => ?_⟩
  have left := congrArg List.length split
  rw [List.length_append] at left
  rw [Reader.safe_bind_iff]
  exact ⟨getI32_safe_iff.mpr (by omega), fun version rest reads => Reader.safe_pure⟩

theorem getI32_length {n : Int32} (reads : getI32.Reads buf n rest) :
    buf.length = rest.length + 4 := by
  obtain ⟨bytes, four, rfl, -⟩ := getI32_reads_iff.mp reads
  rw [List.length_append, four, Nat.add_comm]

theorem getU8_reads_iff {b : UInt8} : getU8.Reads buf b rest ↔ buf = b :: rest := by
  unfold getU8
  simp only [Reader.reads_bind_iff, Reader.reads_take_iff, Reader.reads_pure_iff,
    List.length_eq_one_iff]
  constructor
  · rintro ⟨_, middle, ⟨rfl, b', rfl⟩, rfl, rfl⟩
    rfl
  · rintro rfl
    exact ⟨[b], rest, ⟨rfl, b, rfl⟩, rfl, rfl⟩

theorem getU8_safe_iff : getU8.Safe buf ↔ 1 ≤ buf.length := by
  simp [getU8, Reader.safe_bind_iff]

theorem MultiHeader.safe (buf : List UInt8) : MultiHeader.fromBytes.Safe buf := by
  unfold MultiHeader.fromBytes MultiHeader.size
  simp only [Reader.safe_onCursor_iff, Reader.safe_remaining_bind_iff, Reader.safe_check_bind_iff]
  intro enough
  rw [Reader.safe_bind_iff]
  refine ⟨getI32_safe_iff.mpr (by omega), fun opType rest reads => ?_⟩
  have left := getI32_length reads
  rw [Reader.safe_bind_iff]
  refine ⟨getU8_safe_iff.mpr (by omega), fun done rest' reads' => ?_⟩
  rw [getU8_reads_iff] at reads'
  have left' := congrArg List.length reads'
  rw [List.length_cons] at left'
  rw [Reader.safe_check_bind_iff]
  intro valid
  rw [Reader.safe_bind_iff]
  exact ⟨getI32_safe_iff.mpr (by omega), fun err rest reads => Reader.safe_pure⟩

/-- A header takes nine bytes. -/
theorem MultiHeader.length {header : MultiHeader}
    (reads : MultiHeader.fromBytes.Reads buf header rest) : buf.length = rest.length + 9 := by
  unfold MultiHeader.fromBytes at reads
  simp only [Reader.reads_onCursor_iff, Reader.reads_bind_iff, Reader.reads_remaining_iff,
    Reader.reads_check_iff, Reader.reads_pure_iff, getU8_reads_iff] at reads
  obtain ⟨_, _, ⟨-, rfl⟩, _, _, ⟨-, rfl⟩, opType, middle, first, done, last, rfl, _, _, ⟨-, rfl⟩,
    err, _, second, -, rfl⟩ := reads
  have left := getI32_length first
  have left' := getI32_length second
  rw [List.length_cons] at left
  omega

theorem shrinks_getI32 : getI32.Shrinks := by
  intro buf n rest reads
  have left := getI32_length reads
  omega

theorem shrinks_getField (message : String) : (getField message).Shrinks :=
  Reader.shrinks_bind shrinks_getI32 fun _ => Reader.shrinks_take

theorem shrinks_getPath : getPath.Shrinks :=
  Reader.shrinks_bind shrinks_getI32 fun _ => Reader.shrinks_onCursor
    (Reader.shrinks_bind Reader.shrinks_take fun _ => Reader.shrinks_ofOption _)

theorem shrinks_skipAcl (n : ℕ) : (skipAcl n).Shrinks := by
  induction n with
  | zero => exact Reader.shrinks_pure
  | succ n ih =>
    exact Reader.shrinks_bind shrinks_getI32 fun _ =>
      Reader.shrinks_bind (shrinks_getField _) fun _ =>
        Reader.shrinks_bind (shrinks_getField _) fun _ => ih

theorem CreateRequest.shrinks : CreateRequest.fromBytes.Shrinks :=
  Reader.shrinks_bind shrinks_getPath fun _ =>
    Reader.shrinks_bind (shrinks_getField _) fun _ =>
      Reader.shrinks_bind shrinks_getI32 fun _ =>
        Reader.shrinks_bind (shrinks_skipAcl _) fun _ =>
          Reader.shrinks_bind shrinks_getI32 fun _ => Reader.shrinks_pure

theorem SetDataRequest.shrinks : SetDataRequest.fromBytes.Shrinks :=
  Reader.shrinks_bind shrinks_getPath fun _ =>
    Reader.shrinks_bind (shrinks_getField _) fun _ =>
      Reader.shrinks_bind shrinks_getI32 fun _ => Reader.shrinks_pure

theorem DeleteRequest.shrinks : DeleteRequest.fromBytes.Shrinks :=
  Reader.shrinks_bind shrinks_getPath fun _ =>
    Reader.shrinks_bind shrinks_getI32 fun _ => Reader.shrinks_pure

theorem CheckRequest.shrinks : CheckRequest.fromBytes.Shrinks :=
  Reader.shrinks_onCursor <| Reader.shrinks_bind Reader.shrinks_remaining fun _ =>
    Reader.shrinks_bind Reader.shrinks_check fun _ =>
      Reader.shrinks_bind shrinks_getI32 fun _ =>
        Reader.shrinks_bind Reader.shrinks_check fun _ =>
          Reader.shrinks_bind Reader.shrinks_remaining fun _ =>
            Reader.shrinks_bind Reader.shrinks_check fun _ =>
              Reader.shrinks_bind Reader.shrinks_take fun _ =>
                Reader.shrinks_bind (Reader.shrinks_ofOption _) fun _ =>
                  Reader.shrinks_bind shrinks_getI32 fun _ => Reader.shrinks_pure

theorem MultiOp.shrinks (opType : Int32) : (MultiOp.fromBytes opType).Shrinks := by
  unfold MultiOp.fromBytes
  split
  · exact Reader.shrinks_bind CreateRequest.shrinks fun _ => Reader.shrinks_pure
  · exact Reader.shrinks_bind SetDataRequest.shrinks fun _ => Reader.shrinks_pure
  · exact Reader.shrinks_bind DeleteRequest.shrinks fun _ => Reader.shrinks_pure
  · exact Reader.shrinks_bind CheckRequest.shrinks fun _ => Reader.shrinks_pure
  · exact Reader.shrinks_fail

theorem MultiOp.safe_iff (opType : Int32) :
    (MultiOp.fromBytes opType).Safe buf ↔ OpFits opType buf := by
  unfold MultiOp.fromBytes OpFits
  generalize opType.toInt = t
  split
  · exact Reader.safe_bind_pure_iff.trans CreateRequest.safe_iff
  · exact Reader.safe_bind_pure_iff.trans SetDataRequest.safe_iff
  · exact Reader.safe_bind_pure_iff.trans DeleteRequest.safe_iff
  · exact iff_of_true (Reader.safe_bind_pure_iff.mpr (CheckRequest.safe buf)) trivial
  · split
    · contradiction
    · contradiction
    · contradiction
    · exact iff_of_true Reader.safe_fail trivial

/-- The loop runs past the end exactly if one of the operations it gets to does. -/
theorem multiOps_safe_iff {fuel : ℕ} (enough : buf.length ≤ fuel) :
    (multiOps fuel).Safe buf ↔ BatchFits buf := by
  induction fuel generalizing buf with
  | zero =>
    refine iff_of_true Reader.safe_fail (.stops fun opType body header => ?_)
    have left := MultiHeader.length header
    omega
  | succ fuel ih =>
    have later {opType : Int32} {body rest : List UInt8} {op : MultiOp}
        (header : MultiHeader.fromBytes.Reads buf ⟨opType, false, -1⟩ body)
        (read : (MultiOp.fromBytes opType).Reads body op rest) : rest.length ≤ fuel := by
      have left := MultiHeader.length header
      have left' := MultiOp.shrinks opType body op rest read
      omega
    rw [multiOps, Reader.safe_bind_iff]
    constructor
    · rintro ⟨-, next⟩
      by_cases follows : ∃ opType body, MultiHeader.fromBytes.Reads buf ⟨opType, false, -1⟩ body
      · obtain ⟨opType, body, header⟩ := follows
        have safe := next _ body header
        simp only [Bool.false_eq_true, if_false, Reader.safe_check_bind_iff, forall_const] at safe
        rw [Reader.safe_bind_iff] at safe
        refine .op header ((MultiOp.safe_iff opType).mp safe.1) fun op rest read => ?_
        have loop := (Reader.safe_bind_iff.mp (safe.2 op rest read)).1
        exact (ih (later header read)).mp loop
      · push Not at follows
        exact .stops follows
    · intro fits
      refine ⟨MultiHeader.safe buf, fun header body reads => ?_⟩
      obtain ⟨opType, done, err⟩ := header
      cases done with
      | true =>
        simp only [if_true]
        exact Reader.safe_check_bind_iff.mpr fun _ => Reader.safe_pure
      | false =>
        simp only [Bool.false_eq_true, if_false]
        rw [Reader.safe_check_bind_iff]
        rintro rfl
        rw [Reader.safe_bind_iff]
        cases fits with
        | stops last => exact absurd reads (last opType body)
        | @op _ body' opType' header fits later' =>
          obtain ⟨same, rfl⟩ := reads.unique header
          cases same
          refine ⟨(MultiOp.safe_iff opType).mpr fits, fun op rest read => ?_⟩
          rw [Reader.safe_bind_pure_iff]
          exact (ih (later header read)).mpr (later' op rest read)

theorem MultiRequest.safe_iff : MultiRequest.fromBytes.Safe buf ↔ BatchFits buf := by
  unfold MultiRequest.fromBytes
  rw [Reader.safe_onCursor_iff, Reader.safe_remaining_bind_iff]
  exact multiOps_safe_iff (Nat.le_refl _)

/-- The body of a request is parsed without a panic exactly if it fits. -/
theorem Request.safe_iff (opcode : OpCode) :
    (Request.fromBytes opcode).Safe buf ↔ BodyFits opcode buf := by
  cases opcode with
  | create => exact Reader.safe_bind_pure_iff.trans CreateRequest.safe_iff
  | set => exact Reader.safe_bind_pure_iff.trans SetDataRequest.safe_iff
  | remove => exact Reader.safe_bind_pure_iff.trans DeleteRequest.safe_iff
  | get => exact Reader.safe_bind_pure_iff.trans ReadRequest.safe_iff
  | «exists» => exact Reader.safe_bind_pure_iff.trans ReadRequest.safe_iff
  | list => exact Reader.safe_bind_pure_iff.trans ReadRequest.safe_iff
  | simpleList => exact Reader.safe_bind_pure_iff.trans ReadRequest.safe_iff
  | multi => exact Reader.safe_bind_pure_iff.trans MultiRequest.safe_iff
  | heartbeat => exact iff_of_true Reader.safe_pure trivial
  | close => exact iff_of_true Reader.safe_pure trivial
  | _ => exact iff_of_true Reader.safe_fail trivial

end TinyKeeper
