import Mathlib.Data.Finset.Basic
import Mathlib.Data.Finset.Dedup
import Mathlib.Data.List.TakeWhile
import Mathlib.Logic.Function.Basic
import Mathlib.Logic.Relation

/-! A fair read-write lock: its waiters form one queue that nobody overtakes, so that a reader
waits behind a writer that asked before it. A writer gives the lock back in the step that it gets
it. -/
namespace TinyKeeper
variable {α : Type*}

inductive Access
  | read | write
  deriving DecidableEq, Repr

/-- What a task has to do with a lock. -/
inductive Stand
  | idle
  | asks (m : Access)
  | holds
  deriving DecidableEq, Repr

/-- The readers that hold the lock, and the tasks that wait for it. -/
structure RwLock (α : Type*) where
  readers : Finset α
  queue : List (α × Access)

namespace RwLock

def free : RwLock α := ⟨∅, []⟩

def ask (l : RwLock α) (a : α) (m : Access) : RwLock α :=
  { l with queue := l.queue ++ [(a, m)] }

/-- A writer at the head of the queue has had its turn. -/
def pass (l : RwLock α) : RwLock α := { l with queue := l.queue.tail }

/-- The lock is as the tasks see it. -/
structure Agrees (l : RwLock α) (stand : α → Stand) : Prop where
  asks : ∀ a m, (a, m) ∈ l.queue ↔ stand a = .asks m
  holds : ∀ a, a ∈ l.readers ↔ stand a = .holds
  nodup : (l.queue.map Prod.fst).Nodup

variable {l : RwLock α} {stand : α → Stand} {a b : α} {m : Access} {rest : List (α × Access)}

theorem free_agrees (idle : ∀ a, stand a = .idle) : (free : RwLock α).Agrees stand := by
  refine ⟨fun a m => ?_, fun a => ?_, List.nodup_nil⟩
  · simp [free, idle a]
  · simp [free, idle a]

/-- Only those that ask stand in the queue. -/
theorem Agrees.not_mem_queue (h : l.Agrees stand) (other : ∀ m, stand a ≠ .asks m) :
    a ∉ l.queue.map Prod.fst := by
  intro mem
  obtain ⟨⟨a, m⟩, listed, rfl⟩ := List.mem_map.mp mem
  exact other m ((h.asks a m).mp listed)

/-- The head of the queue stands in it once. -/
theorem Agrees.head_split (h : l.Agrees stand) (head : l.queue = (a, m) :: rest) :
    stand a = .asks m ∧ (rest.map Prod.fst).Nodup ∧
      ∀ b m', (b, m') ∈ rest ↔ b ≠ a ∧ stand b = .asks m' := by
  have nodup := h.nodup
  rw [head, List.map_cons, List.nodup_cons] at nodup
  have asks (b : α) (m' : Access) : (b, m') = (a, m) ∨ (b, m') ∈ rest ↔ stand b = .asks m' := by
    rw [← h.asks, head, List.mem_cons]
  refine ⟨(asks a m).mp (.inl rfl), nodup.2, fun b m' => ⟨fun mem => ⟨?_, ?_⟩, ?_⟩⟩
  · rintro rfl
    exact nodup.1 (List.mem_map.mpr ⟨_, mem, rfl⟩)
  · exact (asks b m').mp (.inr mem)
  · rintro ⟨other, stands⟩
    exact ((asks b m').mpr stands).resolve_left fun same => other (congrArg Prod.fst same)

section Order
variable [DecidableEq α]

/-- A reader at the head of the queue gets the lock. -/
def acquire (l : RwLock α) (a : α) : RwLock α := ⟨insert a l.readers, l.queue.tail⟩

def release (l : RwLock α) (a : α) : RwLock α := { l with readers := l.readers.erase a }

/-- The tasks in the queue that asked before `a`. -/
def earlier (l : RwLock α) (a : α) : List α := (l.queue.map Prod.fst).takeWhile (· ≠ a)

/-- All that have the lock before `a`, once it waits. -/
def ahead (l : RwLock α) (a : α) : Finset α := l.readers ∪ (l.earlier a).toFinset

/-- `a` cannot get the lock before `b` has moved on. -/
inductive Waits (l : RwLock α) (a b : α) : Prop
  | queued {m : Access} (asks : (a, m) ∈ l.queue) (earlier : b ∈ l.earlier a)
  | excluded (asks : (a, .write) ∈ l.queue) (holds : b ∈ l.readers)

namespace Agrees

theorem ask (h : l.Agrees stand) (idle : stand a = .idle) :
    (l.ask a m).Agrees (Function.update stand a (.asks m)) := by
  have absent : a ∉ l.queue.map Prod.fst := h.not_mem_queue (by simp [idle])
  refine ⟨fun b m' => ?_, fun b => ?_, ?_⟩
  · rw [RwLock.ask, List.mem_append, List.mem_singleton, h.asks, Prod.mk.injEq]
    by_cases here : b = a
    · subst here
      simp [idle, eq_comm]
    · simp [here]
  · rw [RwLock.ask, h.holds]
    by_cases here : b = a
    · subst here
      simp [idle]
    · simp [here]
  · rw [RwLock.ask, List.map_append]
    refine List.nodup_append.mpr ⟨h.nodup, by simp, ?_⟩
    rintro c mem d last rfl
    rw [List.map_singleton, List.mem_singleton] at last
    rw [last] at mem
    exact absent mem

theorem acquire (h : l.Agrees stand) (head : l.queue = (a, .read) :: rest) :
    (l.acquire a).Agrees (Function.update stand a .holds) := by
  obtain ⟨stands, nodup, others⟩ := h.head_split head
  have tail : (l.acquire a).queue = rest := by rw [RwLock.acquire, head, List.tail_cons]
  refine ⟨fun b m' => ?_, fun b => ?_, ?_⟩
  · rw [tail, others]
    by_cases here : b = a
    · simp [here]
    · simp [here]
  · rw [RwLock.acquire, Finset.mem_insert, h.holds]
    by_cases here : b = a
    · simp [here]
    · simp [here]
  · rwa [tail]

theorem pass (h : l.Agrees stand) (head : l.queue = (a, m) :: rest) :
    l.pass.Agrees (Function.update stand a .idle) := by
  obtain ⟨stands, nodup, others⟩ := h.head_split head
  have tail : l.pass.queue = rest := by rw [RwLock.pass, head, List.tail_cons]
  refine ⟨fun b m' => ?_, fun b => ?_, ?_⟩
  · rw [tail, others]
    by_cases here : b = a
    · simp [here]
    · simp [here]
  · rw [RwLock.pass, h.holds]
    by_cases here : b = a
    · simp [here, stands]
    · simp [here]
  · rwa [tail]

theorem release (h : l.Agrees stand) (holds : stand a = .holds) :
    (l.release a).Agrees (Function.update stand a .idle) := by
  refine ⟨fun b m' => ?_, fun b => ?_, h.nodup⟩
  · rw [RwLock.release, h.asks]
    by_cases here : b = a
    · simp [here, holds]
    · simp [here]
  · rw [RwLock.release, Finset.mem_erase, h.holds]
    by_cases here : b = a
    · simp [here]
    · simp [here]

/-- A task that has nothing to do with the lock is ahead of nobody. -/
theorem not_mem_ahead (h : l.Agrees stand) (idle : stand b = .idle) : b ∉ l.ahead a := by
  rw [ahead, Finset.mem_union, List.mem_toFinset, not_or]
  refine ⟨fun mem => ?_, fun mem => ?_⟩
  · have holds := (h.holds b).mp mem
    rw [idle] at holds
    cases holds
  · refine h.not_mem_queue (a := b) (by simp [idle]) ?_
    exact (List.takeWhile_subset _) mem

end Agrees

theorem takeWhile_append_of_mem {as : List α} (mem : a ∈ as) (bs : List α) :
    (as ++ bs).takeWhile (· ≠ a) = as.takeWhile (· ≠ a) := by
  induction as with
  | nil => cases mem
  | cons c as ih =>
    by_cases here : c = a
    · simp [here]
    · have later := (List.mem_cons.mp mem).resolve_left (Ne.symm here)
      rw [List.cons_append, List.takeWhile_cons_of_pos (by simpa using here),
        List.takeWhile_cons_of_pos (by simpa using here), ih later]

/-- Who asks later is not ahead. -/
theorem ahead_ask (mem : a ∈ l.queue.map Prod.fst) : (l.ask b m).ahead a = l.ahead a := by
  rw [ahead, ahead, earlier, earlier, ask, List.map_append, takeWhile_append_of_mem mem]

theorem ahead_acquire_subset (head : l.queue = (b, .read) :: rest) (other : b ≠ a) :
    (l.acquire b).ahead a ⊆ l.ahead a := by
  intro c mem
  simp only [ahead, earlier, acquire, head, List.tail_cons, List.map_cons, Finset.mem_union,
    Finset.mem_insert, List.mem_toFinset] at mem ⊢
  rw [List.takeWhile_cons_of_pos (by simpa using other), List.mem_cons]
  tauto

theorem ahead_pass_subset (head : l.queue = (b, m) :: rest) (other : b ≠ a) :
    l.pass.ahead a ⊆ l.ahead a := by
  intro c mem
  simp only [ahead, earlier, pass, head, List.tail_cons, List.map_cons, Finset.mem_union,
    List.mem_toFinset] at mem ⊢
  rw [List.takeWhile_cons_of_pos (by simpa using other), List.mem_cons]
  tauto

theorem ahead_release_subset : (l.release b).ahead a ⊆ l.ahead a :=
  Finset.union_subset_union_left (Finset.erase_subset _ _)

/-- The place of a task in the order in which the lock is given away. -/
def rank (l : RwLock α) (a : α) : ℕ :=
  if a ∈ l.readers then 0 else (l.queue.map Prod.fst).idxOf a + 1

theorem idxOf_lt_of_mem_takeWhile {as : List α} (mem : b ∈ as.takeWhile (· ≠ a)) :
    as.idxOf b < as.idxOf a := by
  induction as with
  | nil => cases mem
  | cons c as ih =>
    by_cases here : c = a
    · simp [here] at mem
    · rw [List.takeWhile_cons_of_pos (by simpa using here), List.mem_cons] at mem
      rw [List.idxOf_cons_ne _ here]
      by_cases first : b = c
      · rw [first, List.idxOf_cons_self]
        exact Nat.succ_pos _
      · rw [List.idxOf_cons_ne _ (Ne.symm first)]
        exact Nat.succ_lt_succ (ih (mem.resolve_left first))

theorem Waits.rank_lt (h : l.Waits a b) (agrees : l.Agrees stand) : l.rank b < l.rank a := by
  have outside {m : Access} (asks : (a, m) ∈ l.queue) : a ∉ l.readers := by
    rw [agrees.holds, (agrees.asks a m).mp asks]
    simp
  cases h with
  | queued asks earlier =>
    rw [rank, rank, if_neg (outside asks)]
    have lt := idxOf_lt_of_mem_takeWhile earlier
    split_ifs <;> omega
  | excluded asks holds =>
    rw [rank, rank, if_neg (outside asks), if_pos holds]
    exact Nat.succ_pos _

/-- The waiting for one such lock makes no cycle. -/
theorem waits_acyclic (agrees : l.Agrees stand) (a : α) : ¬ Relation.TransGen l.Waits a a := by
  have lt {a b : α} (path : Relation.TransGen l.Waits a b) : l.rank b < l.rank a := by
    induction path with
    | single last => exact last.rank_lt agrees
    | tail _ last ih => exact (last.rank_lt agrees).trans ih
  exact fun cycle => Nat.lt_irrefl _ (lt cycle)

end Order
end RwLock
end TinyKeeper
