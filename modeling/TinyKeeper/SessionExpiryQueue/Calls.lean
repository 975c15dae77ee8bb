import Mathlib.Algebra.Order.Group.Unbundled.Int
import Mathlib.Data.List.Nodup
import TinyKeeper.SessionExpiryQueue

/-! What the expiry queue holds after any calls of `touch` and `remove`, as long as no time
overflows. -/
namespace TinyKeeper

/-- A call that changes an expiry queue. -/
inductive QueueCall
  | touch (id : SessionId) (timeoutMs now : Int)
  | remove (id : SessionId)
  deriving DecidableEq

namespace QueueCall

def session : QueueCall → SessionId
  | .touch id _ _ => id
  | .remove id => id

/-- The deadline of a touch is not before the epoch. -/
def Valid : QueueCall → Prop
  | .touch _ timeoutMs now => 0 ≤ now + timeoutMs
  | .remove _ => True

instance : DecidablePred Valid := fun call =>
  match call with
  | .touch _ timeoutMs now => inferInstanceAs (Decidable (0 ≤ now + timeoutMs))
  | .remove _ => .isTrue trivial

/-- The last call about the session was a touch that asked for this deadline. -/
def Asked (calls : List QueueCall) (id : SessionId) (due : Int) : Prop :=
  ∃ before after timeoutMs now, calls = before ++ .touch id timeoutMs now :: after ∧
    due = now + timeoutMs ∧ ∀ call ∈ after, call.session ≠ id

theorem not_asked_nil (id : SessionId) (due : Int) : ¬ Asked [] id due := by
  rintro ⟨before, after, timeoutMs, now, none, -⟩
  simp at none

/-- A touch replaces what its session asked for, and a remove drops it. -/
theorem asked_snoc_iff (calls : List QueueCall) (call : QueueCall) (id : SessionId) (due : Int) :
    Asked (calls ++ [call]) id due ↔
      (∃ timeoutMs now, call = .touch id timeoutMs now ∧ due = now + timeoutMs) ∨
        (Asked calls id due ∧ call.session ≠ id) := by
  constructor
  · rintro ⟨before, after, timeoutMs, now, split, asks, quiet⟩
    obtain rfl | ⟨after, last, rfl⟩ := after.eq_nil_or_concat'
    · obtain ⟨-, rfl⟩ := List.append_singleton_inj.mp split
      exact .inl ⟨timeoutMs, now, rfl, asks⟩
    · rw [← List.cons_append, ← List.append_assoc] at split
      obtain ⟨front, rfl⟩ := List.append_singleton_inj.mp split
      refine .inr ⟨⟨before, after, timeoutMs, now, front, asks, ?_⟩, quiet call (by simp)⟩
      intro c mem
      exact quiet c (List.mem_append_left _ mem)
  · rintro (⟨timeoutMs, now, rfl, asks⟩ | ⟨⟨before, after, timeoutMs, now, rfl, asks, quiet⟩, other⟩)
    · exact ⟨calls, [], timeoutMs, now, rfl, asks, by simp⟩
    · refine ⟨before, after ++ [call], timeoutMs, now, by simp, asks, ?_⟩
      intro c mem
      obtain mem | mem := List.mem_append.mp mem
      · exact quiet c mem
      · rw [List.mem_singleton.mp mem]
        exact other

@[simp] theorem asked_snoc_touch (calls : List QueueCall) (id id' : SessionId)
    (timeoutMs now due : Int) :
    Asked (calls ++ [.touch id timeoutMs now]) id' due ↔
      if id' = id then due = now + timeoutMs else Asked calls id' due := by
  rw [asked_snoc_iff]
  by_cases same : id' = id
  · subst same
    simp [session]
  · simp [session, same, Ne.symm same]

@[simp] theorem asked_snoc_remove (calls : List QueueCall) (id id' : SessionId) (due : Int) :
    Asked (calls ++ [.remove id]) id' due ↔ id' ≠ id ∧ Asked calls id' due := by
  rw [asked_snoc_iff]
  simp [session, and_comm, eq_comm]

end QueueCall

/-- The time rounded up to the interval. -/
def IsRoundedUp (interval due d : Int) : Prop := interval ∣ d ∧ due ≤ d ∧ d < due + interval

instance (interval due d : Int) : Decidable (IsRoundedUp interval due d) :=
  inferInstanceAs (Decidable (interval ∣ d ∧ due ≤ d ∧ d < due + interval))

theorem IsRoundedUp.unique {interval due d d' : Int} (h : IsRoundedUp interval due d)
    (h' : IsRoundedUp interval due d') : d = d' := by
  obtain ⟨multiple, lower, upper⟩ := h
  obtain ⟨multiple', lower', upper'⟩ := h'
  have close : |d - d'| < interval := abs_lt.mpr ⟨by omega, by omega⟩
  have := Int.eq_zero_of_abs_lt_dvd (Int.dvd_sub multiple multiple') close
  omega

namespace SessionExpiryQueue

/-- From the epoch on, the truncating division of `i64` rounds up. -/
theorem bucketKey_isRoundedUp {intervalMs timeoutMs now : Int} (positive : 0 < intervalMs)
    (valid : 0 ≤ now + timeoutMs) :
    IsRoundedUp intervalMs (now + timeoutMs) (bucketKey intervalMs timeoutMs now) := by
  have nonneg : 0 ≤ now + timeoutMs + intervalMs - 1 := by omega
  rw [bucketKey, Int.tdiv_eq_ediv_of_nonneg nonneg]
  have split := Int.mul_ediv_add_emod (now + timeoutMs + intervalMs - 1) intervalMs
  have low := Int.emod_nonneg (now + timeoutMs + intervalMs - 1) positive.ne'
  have high := Int.emod_lt_of_pos (now + timeoutMs + intervalMs - 1) positive
  rw [Int.mul_comm] at split
  exact ⟨Int.dvd_mul_left _ _, by omega, by omega⟩

/-- No bucket is empty. -/
def Filled (buckets : BTreeMap Int (Finset SessionId)) : Prop :=
  ∀ d bucket, buckets.get? d = some bucket → bucket.Nonempty

theorem Filled.dropFromBucket {buckets : BTreeMap Int (Finset SessionId)} (h : Filled buckets)
    (old : Int) (id : SessionId) :
    Filled (SessionExpiryQueue.dropFromBucket buckets old id) := by
  intro d bucket found
  unfold SessionExpiryQueue.dropFromBucket at found
  cases held : buckets.get? old with
  | none =>
    rw [held] at found
    exact h d bucket found
  | some members =>
    simp only [held] at found
    split_ifs at found with emptied
    · rw [BTreeMap.get?_remove] at found
      split_ifs at found
      exact h d bucket found
    · rw [BTreeMap.get?_insert] at found
      split_ifs at found
      · cases found
        exact Finset.nonempty_iff_ne_empty.mpr emptied
      · exact h d bucket found

theorem Filled.addToBucket {buckets : BTreeMap Int (Finset SessionId)} (h : Filled buckets)
    (key : Int) (id : SessionId) : Filled (SessionExpiryQueue.addToBucket buckets key id) := by
  intro d bucket found
  rw [SessionExpiryQueue.addToBucket, BTreeMap.get?_insert] at found
  split_ifs at found
  · cases found
    exact Finset.insert_nonempty id _
  · exact h d bucket found

theorem touch_filled {q : SessionExpiryQueue} (h : Filled q.expiryToSessions) (id : SessionId)
    (timeoutMs now : Int) : Filled (q.touch id timeoutMs now).expiryToSessions := by
  simp only [touch]
  apply Filled.addToBucket
  cases q.sessionToExpiry.get id with
  | none => exact h
  | some old => exact h.dropFromBucket old id

theorem remove_filled {q : SessionExpiryQueue} (h : Filled q.expiryToSessions) (id : SessionId) :
    Filled (q.remove id).1.expiryToSessions := by
  unfold remove
  cases q.sessionToExpiry.get id with
  | none => exact h
  | some old => exact h.dropFromBucket old id

@[simp] theorem remove_intervalMs (q : SessionExpiryQueue) (id : SessionId) :
    (q.remove id).1.intervalMs = q.intervalMs := by
  unfold remove
  cases q.sessionToExpiry.get id <;> rfl

/-- A session is in one bucket, so no list of whole buckets repeats it. -/
theorem getExpired_nodup {q : SessionExpiryQueue} (h : q.Mirrored) (order : HashOrder SessionId)
    (now : Int) : (q.getExpired order now).Nodup := by
  rw [getExpired, List.nodup_flatMap]
  refine ⟨fun e _ => order.nodup e.2, ?_⟩
  have apart : (q.expiryToSessions.upTo now).Pairwise (fun a b => a.1 < b.1) :=
    q.expiryToSessions.sorted.filter _
  refine apart.imp_of_mem ?_
  intro a b ha hb lt id hida hidb
  have deadline (e : Int × Finset SessionId) (mem : e ∈ q.expiryToSessions.upTo now)
      (inside : id ∈ order.list e.2) : q.sessionToExpiry.get id = some e.1 := by
    have stored := (q.expiryToSessions.mem_upTo now e.1 e.2).mp mem
    exact (h id e.1).mpr ⟨e.2, stored.1, (order.mem_list e.2 id).mp inside⟩
  have same := (deadline a ha hida).symm.trans (deadline b hb hidb)
  exact lt.ne (Option.some.inj same)

def perform (q : SessionExpiryQueue) : QueueCall → SessionExpiryQueue
  | .touch id timeoutMs now => q.touch id timeoutMs now
  | .remove id => (q.remove id).1

/-- The queue after the calls, in order. -/
def performAll (intervalMs : Int) (calls : List QueueCall) : SessionExpiryQueue :=
  calls.foldl perform (new intervalMs)

theorem performAll_snoc (intervalMs : Int) (calls : List QueueCall) (call : QueueCall) :
    performAll intervalMs (calls ++ [call]) = (performAll intervalMs calls).perform call := by
  simp [performAll]

/-- What the queue says after some calls. -/
structure Keeps (q : SessionExpiryQueue) (intervalMs : Int) (calls : List QueueCall) : Prop where
  interval : q.intervalMs = intervalMs
  mirrored : q.Mirrored
  filled : Filled q.expiryToSessions
  deadline : ∀ id d, q.sessionToExpiry.get id = some d ↔
    ∃ due, QueueCall.Asked calls id due ∧ IsRoundedUp intervalMs due d

theorem Keeps.touch {q : SessionExpiryQueue} {intervalMs : Int} {calls : List QueueCall}
    (h : q.Keeps intervalMs calls) (positive : 0 < intervalMs) (id : SessionId)
    {timeoutMs now : Int} (valid : 0 ≤ now + timeoutMs) :
    (q.touch id timeoutMs now).Keeps intervalMs (calls ++ [.touch id timeoutMs now]) where
  interval := h.interval
  mirrored := touch_mirrored h.mirrored id timeoutMs now
  filled := touch_filled h.filled id timeoutMs now
  deadline id' d := by
    have rounded := bucketKey_isRoundedUp positive valid
    rw [touch_get, h.interval]
    by_cases same : id' = id
    · simp only [if_pos same, QueueCall.asked_snoc_touch, Option.some.injEq, exists_eq_left]
      constructor
      · rintro rfl
        exact rounded
      · exact rounded.unique
    · simp only [if_neg same, QueueCall.asked_snoc_touch]
      exact h.deadline id' d

theorem Keeps.remove {q : SessionExpiryQueue} {intervalMs : Int} {calls : List QueueCall}
    (h : q.Keeps intervalMs calls) (id : SessionId) :
    (q.remove id).1.Keeps intervalMs (calls ++ [.remove id]) where
  interval := (q.remove_intervalMs id).trans h.interval
  mirrored := remove_mirrored h.mirrored id
  filled := remove_filled h.filled id
  deadline id' d := by
    rw [remove_get]
    by_cases same : id' = id
    · simp [same]
    · simpa [same] using h.deadline id' d

theorem performAll_keeps {intervalMs : Int} (positive : 0 < intervalMs) (calls : List QueueCall)
    (valid : ∀ call ∈ calls, call.Valid) :
    (performAll intervalMs calls).Keeps intervalMs calls := by
  induction calls using List.reverseRecOn with
  | nil =>
    refine ⟨rfl, new_mirrored intervalMs, ?_, ?_⟩
    · intro d bucket found
      simp [performAll, new] at found
    · intro id d
      simp [performAll, new, QueueCall.not_asked_nil]
  | append_singleton calls call ih =>
    have before := ih (fun c mem => valid c (by simp [mem]))
    have now := valid call (by simp)
    rw [performAll_snoc]
    cases call with
    | touch id timeoutMs time => exact before.touch positive id now
    | remove id => exact before.remove id

/-- After any calls both maps say the same, each session with a deadline is in one bucket, and no
bucket is empty. A session has a deadline exactly when it was touched after its last remove: the
time the latest touch asked for, rounded up to the interval. `getExpired` lists exactly the
sessions whose deadline has come, each once. -/
theorem performAll_deadlines {intervalMs : Int} (positive : 0 < intervalMs)
    (calls : List QueueCall) (valid : ∀ call ∈ calls, call.Valid) :
    (performAll intervalMs calls).Mirrored ∧
    (∀ id, (∃ d, (performAll intervalMs calls).sessionToExpiry.get id = some d) →
      ∃! d, ∃ bucket, (performAll intervalMs calls).expiryToSessions.get? d = some bucket ∧
        id ∈ bucket) ∧
    Filled (performAll intervalMs calls).expiryToSessions ∧
    (∀ id d, (performAll intervalMs calls).sessionToExpiry.get id = some d ↔
      ∃ due, QueueCall.Asked calls id due ∧ IsRoundedUp intervalMs due d) ∧
    ∀ order now, ((performAll intervalMs calls).getExpired order now).Nodup ∧
      ∀ id, id ∈ (performAll intervalMs calls).getExpired order now ↔
        ∃ due d, QueueCall.Asked calls id due ∧ IsRoundedUp intervalMs due d ∧ d ≤ now := by
  have keeps := performAll_keeps positive calls valid
  refine ⟨keeps.mirrored, ?_, keeps.filled, keeps.deadline, ?_⟩
  · rintro id ⟨d, has⟩
    refine ⟨d, (keeps.mirrored id d).mp has, ?_⟩
    intro d' inside
    have has' := (keeps.mirrored id d').mpr inside
    exact Option.some.inj (has'.symm.trans has)
  · intro order now
    refine ⟨getExpired_nodup keeps.mirrored order now, ?_⟩
    intro id
    rw [mem_getExpired keeps.mirrored]
    constructor
    · rintro ⟨d, has, passed⟩
      obtain ⟨due, asked, rounded⟩ := (keeps.deadline id d).mp has
      exact ⟨due, d, asked, rounded, passed⟩
    · rintro ⟨due, d, asked, rounded, passed⟩
      exact ⟨d, (keeps.deadline id d).mpr ⟨due, asked, rounded⟩, passed⟩

/-- The second touch of a session moves its deadline. -/
theorem performAll_deadlines_touched_again :
    (performAll 10 [.touch 1 5 0, .touch 2 7 1, .touch 1 5 16]).Mirrored ∧ ∀ order,
      1 ∉ (performAll 10 [.touch 1 5 0, .touch 2 7 1, .touch 1 5 16]).getExpired order 29 ∧
        1 ∈ (performAll 10 [.touch 1 5 0, .touch 2 7 1, .touch 1 5 16]).getExpired order 30 := by
  obtain ⟨mirrored, -, -, -, expired⟩ := performAll_deadlines (by decide : (0 : Int) < 10)
    [.touch 1 5 0, .touch 2 7 1, .touch 1 5 16] (by decide)
  have asked (due : Int) :
      QueueCall.Asked [.touch 1 5 0, .touch 2 7 1, .touch 1 5 16] 1 due ↔ due = 21 := by
    have last := QueueCall.asked_snoc_touch [.touch 1 5 0, .touch 2 7 1] 1 1 5 16 due
    simpa using last
  refine ⟨mirrored, fun order => ?_⟩
  rw [(expired order 29).2 1, (expired order 30).2 1]
  constructor
  · rintro ⟨due, d, ask, rounded, early⟩
    obtain rfl := (asked due).mp ask
    have : d = 30 := rounded.unique (by decide)
    omega
  · exact ⟨21, 30, (asked 21).mpr rfl, by decide, le_rfl⟩

end SessionExpiryQueue
end TinyKeeper
