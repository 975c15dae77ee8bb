import TinyKeeper.KeeperServer.LogFiles

/-! Writes that are refused because a flush failed. The live tree does without them, so a replay
must not meet their records. -/
namespace TinyKeeper
namespace KeeperServer
variable {recordBytes : LogRecord → ℕ}

/-- A server with the records of the writes it answered with `SystemError`. It no longer runs once
the failed flush of a batch has stopped the process. -/
structure Refusals (recordBytes : LogRecord → ℕ) where
  server : KeeperServer recordBytes
  refused : List LogRecord
  running : Bool

/-- The record of a write that is answered with `SystemError`. -/
def refusedBy (s : KeeperServer recordBytes) (env : Env) (e : ServerEvent) (out : Output) :
    List LogRecord :=
  if out.err = some .systemError then (e.submits env.now).toList.map s.fresh else []

namespace Refusals
variable {l l' : Refusals recordBytes} {x : Env × ServerEvent}

def initial (recordBytes : LogRecord → ℕ) : Refusals recordBytes :=
  ⟨.initial recordBytes, [], true⟩

inductive Step (l : Refusals recordBytes) (x : Env × ServerEvent) : Refusals recordBytes → Prop
  | done {out : Output} {s' : KeeperServer recordBytes} (running : l.running = true)
      (done : l.server.exec x.1 x.2 = .done out s') :
      Step l x ⟨s', l.refused ++ l.server.refusedBy x.1 x.2 out, true⟩
  | stopped {s' : KeeperServer recordBytes} (running : l.running = true)
      (stops : l.server.exec x.1 x.2 = .abort s') : Step l x ⟨s', l.refused, false⟩

/-- The flush of the step puts the record of a refused write into the file: one that still waits
in the buffer, or its own, when it fails behind the write. -/
def Leaks (l : Refusals recordBytes) (x : Env × ServerEvent) : Prop :=
  ∃ op, Appends x.1 l.server.storage x.2 op ∧
    ∃ r ∈ x.1.flush.reaches (l.server.wal.writer.buf ++ [l.server.fresh op]),
      r ∈ l.refused ∨ (r = l.server.fresh op ∧ x.2.submits x.1.now = some op ∧
        (l.server.wal.append (l.server.fresh op)).FailsIn x.1.flush)

/-- No refused write is in the log that a replay reads. -/
def Clean (l : Refusals recordBytes) : Prop :=
  ∀ r ∈ l.refused, r ∉ KeeperServer.recordsIn recordBytes l.server.wal.segments

end Refusals

/-- Every record in the files and in the buffer was appended under a past zxid. -/
structure Accounted (s : KeeperServer recordBytes) : Prop where
  linked : s.storage.Linked
  tidy : s.Tidy
  past : ∀ r ∈ recordsOf s.wal.segments.entries ++ s.wal.writer.buf,
    r.index ≤ s.storage.lastZxid

theorem initial_accounted : (initial recordBytes).Accounted := by
  have none : recordsOf (initial recordBytes).wal.segments.entries ++
      (initial recordBytes).wal.writer.buf = [] := rfl
  refine ⟨KeeperStorage.new_linked 500, initial_tidy, ?_⟩
  rw [none]
  simp

section Step
variable {s s' : KeeperServer recordBytes} {env : Env} {e : ServerEvent} {out : Output}
variable {op : Option WalOperation}

theorem Accounted.step (h : s.Accounted)
    (move : Transition env s.storage e op out.watchEvents s'.storage)
    (journal : s.Journal env e out op s') : s'.Accounted := by
  refine ⟨move.linked h.linked, h.tidy.step move journal, ?_⟩
  obtain ⟨-, wal⟩ | ⟨op', -, wal, counted⟩ := journal.wal move
  · rw [wal]
    intro r mem
    exact (h.past r mem).trans move.lastZxid_le
  · have counter : s'.storage.lastZxid = s.storage.lastZxid + 1 := by
      obtain rfl | ⟨-, storage⟩ := counted
      · exact move.lastZxid_logged
      · rw [storage]
        rfl
    have waiting : ∀ r ∈ s.wal.writer.buf ++ [s.fresh op'],
        r.index ≤ s.storage.lastZxid + 1 := by
      intro r mem
      obtain mem | mem := List.mem_append.mp mem
      · exact (h.past r (List.mem_append_right _ mem)).trans (Nat.le_succ _)
      · rw [List.mem_singleton.mp mem]
        exact le_refl _
    obtain ⟨-, records⟩ := h.tidy.log env op'
    rw [wal, counter, records, log_buf]
    intro r mem
    obtain mem | mem := List.mem_append.mp mem
    · obtain mem | mem := List.mem_append.mp mem
      · exact (h.past r (List.mem_append_left _ mem)).trans (Nat.le_succ _)
      · exact waiting r ((env.flush.reaches_prefix _).subset mem)
    · split_ifs at mem
      · cases mem
      · exact waiting r mem

/-- Only a write whose flush failed is answered with `SystemError`. -/
theorem mem_refusedBy (journal : s.Journal env e out op s') {r : LogRecord}
    (mem : r ∈ s.refusedBy env e out) :
    ∃ op' error, e.submits env.now = some op' ∧ Appends env s.storage e op' ∧
      s.log env op' = (s', .error error) ∧ r = s.fresh op' := by
  unfold refusedBy at mem
  cases journal with
  | quiet wal unsaid calm =>
    rw [if_neg calm] at mem
    cases mem
  | flushed done wal calm =>
    rw [if_neg calm] at mem
    cases mem
  | @refused op' error _ submits appends failed told =>
    rw [if_pos told, submits] at mem
    exact ⟨op', error, submits, appends, failed, List.mem_singleton.mp mem⟩
  | ignored session wal =>
    have none : e.submits env.now = none := by
      obtain ⟨timeoutMs, rfl⟩ | ⟨id, rfl⟩ := session <;> rfl
    rw [none] at mem
    split_ifs at mem
    · cases mem
    · cases mem

end Step

namespace Refusals
variable {l l' : Refusals recordBytes} {x : Env × ServerEvent}

/-- What a flush writes for a step that leaks nothing is no refused write. -/
theorem Clean.log (clean : l.Clean) (tidy : l.server.Tidy) (tight : ¬ l.Leaks x)
    {op : WalOperation} (appends : Appends x.1 l.server.storage x.2 op) :
    ∀ r ∈ l.refused, r ∉ recordsOf (l.server.log x.1 op).1.wal.segments.entries := by
  intro r refused mem
  obtain ⟨-, records⟩ := tidy.log x.1 op
  rw [records] at mem
  obtain mem | mem := List.mem_append.mp mem
  · exact clean r refused ((recordsIn_eq _).symm ▸ mem)
  · exact tight ⟨op, appends, r, mem, .inl refused⟩

theorem Clean.step (clean : l.Clean) (accounted : l.server.Accounted) (last : l.Step x l')
    (tight : ¬ l.Leaks x) : l'.Clean := by
  intro r refused
  rw [recordsIn_eq]
  cases last with
  | @done out s' running done =>
    obtain ⟨op, move, journal⟩ := served_of_done done accounted.linked
    have earlier : ∀ r ∈ l.refused, r ∉ recordsOf s'.wal.segments.entries := by
      obtain ⟨-, wal⟩ | ⟨op', appends, wal, -⟩ := journal.wal move
      · intro r refused mem
        rw [wal] at mem
        exact clean r refused ((recordsIn_eq _).symm ▸ mem)
      · rw [wal]
        exact clean.log accounted.tidy tight appends
    obtain refused | own := List.mem_append.mp refused
    · exact earlier r refused
    · obtain ⟨op', error, submits, appends, failed, rfl⟩ := mem_refusedBy journal own
      have flushed := l.server.log_flushed x.1 op'
      obtain ⟨-, records⟩ := accounted.tidy.log x.1 op'
      rw [failed] at records flushed
      rw [records]
      intro mem
      obtain mem | mem := List.mem_append.mp mem
      · have past := accounted.past _ (List.mem_append_left _ mem)
        exact absurd past (Nat.not_succ_le_self _)
      · exact tight ⟨op', appends, _, mem, .inr ⟨rfl, submits, flushed.failsIn_of_error⟩⟩
  | stopped running stops =>
    obtain ⟨xid, id, ops, operations, s₁, error, -, appends, failed, rfl⟩ :=
      served_of_abort stops accounted.linked
    have kept := clean.log accounted.tidy tight appends
    rw [failed] at kept
    exact kept r refused

theorem initial_clean : (initial recordBytes).Clean := fun _ refused _ => by cases refused

/-- In a run in which no step leaks, no write that was answered with `SystemError` is ever in the
log that a replay reads. -/
theorem refused_never_logged {xs : List (Env × ServerEvent)}
    (run : Run (fun l x l' => Step l x l' ∧ ¬ l.Leaks x) (initial recordBytes) xs l) :
    ∀ r ∈ l.refused, r ∉ recordsIn recordBytes l.server.wal.segments := by
  have sound : (l.running = true → l.server.Accounted) ∧ l.Clean := by
    refine run.invariant (fun l => (l.running = true → l.server.Accounted) ∧ l.Clean)
      ⟨fun _ => initial_accounted, initial_clean⟩ ?_
    rintro t x u ⟨accounted, clean⟩ ⟨last, tight⟩
    cases last with
    | @done out s' running done =>
      obtain ⟨op, move, journal⟩ := served_of_done done (accounted running).linked
      exact ⟨fun _ => (accounted running).step move journal,
        clean.step (accounted running) (.done running done) tight⟩
    | stopped running stops =>
      exact ⟨fun halted => absurd halted Bool.false_ne_true,
        clean.step (accounted running) (.stopped running stops) tight⟩
  exact sound.2

/-- A fresh server opens a session. -/
theorem initial_opens (timeoutMs : Int) : Step (initial fun _ => 1)
    (.working 0, .createSession timeoutMs)
    ⟨(KeeperServer.initial fun _ => 1).next (.working 0, .createSession timeoutMs), [], true⟩ := by
  have done : (KeeperServer.initial fun _ => 1).exec (.working 0) (.createSession timeoutMs) =
      .done (.session 1)
        ((KeeperServer.initial fun _ => 1).next (.working 0, .createSession timeoutMs)) := rfl
  exact Step.done (l := initial fun _ => 1) (x := (.working 0, .createSession timeoutMs)) rfl done

/-- A create whose flush cannot write anything is refused, and is not in the log. -/
theorem refused_never_logged_unwritten :
    ∃ l : Refusals (fun _ => 1), l.refused.length = 1 ∧
      ∀ r ∈ l.refused, r ∉ recordsIn (fun _ => 1) l.server.wal.segments := by
  let first : Env × ServerEvent := (.working 0, .createSession 5000)
  let second : Env × ServerEvent :=
    (⟨1, .writeFails 0, ⟨.choice, .choice, .choice⟩⟩, .handle 1 1 (.create ⟨"/a", [], 0⟩))
  let opened := (KeeperServer.initial fun _ => 1).next first
  have opens : Step (initial fun _ => 1) first ⟨opened, [], true⟩ := initial_opens 5000
  obtain ⟨out, s, refuses, record⟩ : ∃ out s, opened.exec second.1 second.2 = .done out s ∧
      (opened.refusedBy second.1 second.2 out).length = 1 := ⟨_, _, rfl, rfl⟩
  have closed : ¬ (initial fun _ => 1).Leaks first := by
    rintro ⟨op, -, r, -, old | ⟨-, submits, -⟩⟩
    · cases old
    · cases submits
  have unwritten : ¬ Leaks ⟨opened, [], true⟩ second := by
    rintro ⟨op, -, r, mem, -⟩
    cases mem
  have run : Run (fun l x l' => Step l x l' ∧ ¬ l.Leaks x) (initial fun _ => 1) [first, second]
      ⟨s, opened.refusedBy second.1 second.2 out, true⟩ :=
    (Run.single ⟨opens, closed⟩).snoc ⟨Step.done rfl refuses, unwritten⟩
  exact ⟨_, record, refused_never_logged run⟩

/-- A create is written and then not synced: it is refused, and a replay makes the node. -/
theorem refused_create_logged :
    ¬ ∀ xs (l : Refusals (fun _ => 1)), Run Step (initial _) xs l →
      ∀ r ∈ l.refused, r ∉ recordsIn (fun _ => 1) l.server.wal.segments := by
  intro all
  let first : Env × ServerEvent := (.working 0, .createSession 5000)
  let second : Env × ServerEvent :=
    (⟨1, .syncFails, ⟨.choice, .choice, .choice⟩⟩, .handle 1 1 (.create ⟨"/a", [], 0⟩))
  let opened := (KeeperServer.initial fun _ => 1).next first
  have opens : Step (initial fun _ => 1) first ⟨opened, [], true⟩ := initial_opens 5000
  obtain ⟨out, s, refuses, refused, logged⟩ : ∃ out s,
      opened.exec second.1 second.2 = .done out s ∧
      opened.refusedBy second.1 second.2 out = [⟨2, .create "/a" [] 1 0 1⟩] ∧
      recordsIn (fun _ => 1) s.wal.segments =
        [⟨1, .createSession 1 5000⟩, ⟨2, .create "/a" [] 1 0 1⟩] := ⟨_, _, rfl, rfl, rfl⟩
  have run := (Run.single opens).snoc (Step.done rfl refuses)
  refine all _ _ run ⟨2, .create "/a" [] 1 0 1⟩ ?_ ?_
  · simp [refused]
  · simp [logged]

end Refusals
end KeeperServer
end TinyKeeper
