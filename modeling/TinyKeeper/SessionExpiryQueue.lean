import Mathlib.Data.Int.Order.Basic
import Mathlib.Data.Finset.Basic
import TinyKeeper.Protocol
import TinyKeeper.Lib.BTreeMap
import TinyKeeper.Lib.Table

/-! The expiry queue: a deadline for every session, and the sessions of every deadline. -/
namespace TinyKeeper

structure SessionExpiryQueue where
  sessionToExpiry : Table SessionId Int
  expiryToSessions : BTreeMap Int (Finset SessionId)
  intervalMs : Int

namespace SessionExpiryQueue

def new (intervalMs : Int) : SessionExpiryQueue := ⟨.empty, .empty, intervalMs⟩

/-- Take a session out of the bucket of its old deadline; an emptied bucket is removed. -/
def dropFromBucket (buckets : BTreeMap Int (Finset SessionId)) (oldExpiry : Int) (id : SessionId) :
    BTreeMap Int (Finset SessionId) :=
  match buckets.get? oldExpiry with
  | none => buckets
  | some bucket =>
    if bucket.erase id = ∅ then buckets.remove oldExpiry
    else buckets.insert oldExpiry (bucket.erase id)

/-- Put a session into the bucket of a deadline. -/
def addToBucket (buckets : BTreeMap Int (Finset SessionId)) (expiry : Int) (id : SessionId) :
    BTreeMap Int (Finset SessionId) :=
  buckets.insert expiry (insert id ((buckets.get? expiry).getD ∅))

/-- The deadline rounded up to the interval, with the truncating division of `i64`. -/
def bucketKey (intervalMs timeoutMs now : Int) : Int :=
  ((now + timeoutMs + intervalMs - 1).tdiv intervalMs) * intervalMs

def touch (q : SessionExpiryQueue) (id : SessionId) (timeoutMs now : Int) : SessionExpiryQueue :=
  let buckets :=
    match q.sessionToExpiry.get id with
    | some oldExpiry => dropFromBucket q.expiryToSessions oldExpiry id
    | none => q.expiryToSessions
  let key := bucketKey q.intervalMs timeoutMs now
  { q with
    expiryToSessions := addToBucket buckets key id
    sessionToExpiry := q.sessionToExpiry.insert id key }

/-- The flag says whether the session had a deadline. -/
def remove (q : SessionExpiryQueue) (id : SessionId) : SessionExpiryQueue × Bool :=
  match q.sessionToExpiry.get id with
  | none => (q, false)
  | some oldExpiry =>
    ({ q with
      expiryToSessions := dropFromBucket q.expiryToSessions oldExpiry id
      sessionToExpiry := q.sessionToExpiry.remove id }, true)

/-- The sessions whose deadline is at most `now`, bucket by bucket; within a bucket in the order
of the hash set. -/
def getExpired (q : SessionExpiryQueue) (order : HashOrder SessionId) (now : Int) :
    List SessionId :=
  (q.expiryToSessions.upTo now).flatMap fun e => order.list e.2

/-- Both maps describe one relation: a session is in a bucket exactly when the bucket's key is
its deadline. -/
def Mirrored (q : SessionExpiryQueue) : Prop :=
  ∀ id d, q.sessionToExpiry.get id = some d ↔
    ∃ bucket, q.expiryToSessions.get? d = some bucket ∧ id ∈ bucket

theorem mem_dropFromBucket (buckets : BTreeMap Int (Finset SessionId)) (old d : Int)
    (id id' : SessionId) :
    (∃ b, (dropFromBucket buckets old id).get? d = some b ∧ id' ∈ b) ↔
      (∃ b, buckets.get? d = some b ∧ id' ∈ b) ∧ ¬ (d = old ∧ id' = id) := by
  unfold dropFromBucket
  cases h : buckets.get? old with
  | none =>
    simp only
    constructor
    · rintro ⟨b, hb, hm⟩
      refine ⟨⟨b, hb, hm⟩, ?_⟩
      rintro ⟨rfl, _⟩
      simp [h] at hb
    · exact And.left
  | some bucket =>
    simp only
    by_cases hd : d = old
    · subst hd
      split_ifs with he
      · have hsub : id' ∈ bucket → id' = id := fun hm => by
          by_contra hne
          have : id' ∈ bucket.erase id := Finset.mem_erase.mpr ⟨hne, hm⟩
          simp [he] at this
        simpa [BTreeMap.get?_remove, h] using hsub
      · simp [BTreeMap.get?_insert, h, and_comm]
    · split_ifs <;> simp [BTreeMap.get?_remove, BTreeMap.get?_insert, hd]

theorem mem_addToBucket (buckets : BTreeMap Int (Finset SessionId)) (key d : Int)
    (id id' : SessionId) :
    (∃ b, (addToBucket buckets key id).get? d = some b ∧ id' ∈ b) ↔
      (∃ b, buckets.get? d = some b ∧ id' ∈ b) ∨ (d = key ∧ id' = id) := by
  unfold addToBucket
  rw [BTreeMap.get?_insert]
  by_cases hd : d = key
  · subst hd
    cases h : buckets.get? d <;> simp [or_comm]
  · simp [hd]

theorem new_mirrored (intervalMs : Int) : (new intervalMs).Mirrored := by
  intro id d
  simp [new]

theorem touch_mirrored {q : SessionExpiryQueue} (h : q.Mirrored) (id : SessionId)
    (timeoutMs now : Int) : (q.touch id timeoutMs now).Mirrored := by
  intro id' d
  have hfun : ∀ d', (∃ b, q.expiryToSessions.get? d' = some b ∧ id ∈ b) →
      q.sessionToExpiry.get id = some d' := fun d' hb => (h id d').mpr hb
  simp only [touch, Table.get_insert]
  rw [mem_addToBucket]
  by_cases hid : id' = id
  · subst hid
    simp only [if_true, Option.some.injEq, and_true]
    cases ho : q.sessionToExpiry.get id' with
    | none =>
      have hnone : ¬ ∃ b, q.expiryToSessions.get? d = some b ∧ id' ∈ b := fun hb => by
        simp [hfun d hb] at ho
      simp only [hnone, false_or]
      exact eq_comm
    | some old =>
      simp only
      rw [mem_dropFromBucket]
      constructor
      · exact fun hk => .inr hk.symm
      · rintro (⟨hb, hne⟩ | hk)
        · have := hfun d hb
          rw [ho, Option.some.injEq] at this
          exact absurd ⟨this.symm, rfl⟩ hne
        · exact hk.symm
  · simp only [hid, if_false, and_false, or_false]
    cases q.sessionToExpiry.get id with
    | none => exact h id' d
    | some old =>
      simp only
      rw [mem_dropFromBucket]
      simp [hid, h id' d]

theorem remove_mirrored {q : SessionExpiryQueue} (h : q.Mirrored) (id : SessionId) :
    (q.remove id).1.Mirrored := by
  intro id' d
  unfold remove
  cases ho : q.sessionToExpiry.get id with
  | none => exact h id' d
  | some old =>
    simp only [Table.get_remove]
    rw [mem_dropFromBucket, ← h id' d]
    by_cases hid : id' = id
    · subst hid
      simp only [if_true, ho, Option.some.injEq, and_true]
      constructor
      · intro hf; contradiction
      · rintro ⟨rfl, hne⟩
        exact absurd rfl hne
    · simp [hid]

theorem touch_get (q : SessionExpiryQueue) (id id' : SessionId) (timeoutMs now : Int) :
    (q.touch id timeoutMs now).sessionToExpiry.get id' =
      if id' = id then some (bucketKey q.intervalMs timeoutMs now)
      else q.sessionToExpiry.get id' := by
  simp [touch, Table.get_insert]

theorem remove_get (q : SessionExpiryQueue) (id id' : SessionId) :
    (q.remove id).1.sessionToExpiry.get id' =
      if id' = id then none else q.sessionToExpiry.get id' := by
  unfold remove
  cases ho : q.sessionToExpiry.get id with
  | none =>
    by_cases hid : id' = id
    · subst hid; simp [ho]
    · simp [hid]
  | some old => simp [Table.get_remove]

/-- Exactly the sessions with a deadline that has passed are listed. -/
theorem mem_getExpired {q : SessionExpiryQueue} (h : q.Mirrored) (order : HashOrder SessionId)
    (now : Int) (id : SessionId) :
    id ∈ q.getExpired order now ↔ ∃ d, q.sessionToExpiry.get id = some d ∧ d ≤ now := by
  simp only [getExpired, List.mem_flatMap, Prod.exists, BTreeMap.mem_upTo, order.mem_list]
  constructor
  · rintro ⟨d, bucket, ⟨hb, hd⟩, hm⟩
    exact ⟨d, (h id d).mpr ⟨bucket, hb, hm⟩, hd⟩
  · rintro ⟨d, hs, hd⟩
    obtain ⟨bucket, hb, hm⟩ := (h id d).mp hs
    exact ⟨d, bucket, ⟨hb, hd⟩, hm⟩

end SessionExpiryQueue
end TinyKeeper
