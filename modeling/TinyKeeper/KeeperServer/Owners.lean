import TinyKeeper.KeeperServer.Sessions

/-! Owners of ephemeral nodes. Every owner is an open session as long as no session makes an
ephemeral node after its end; the handlers do not look whether the session is still open. -/
namespace TinyKeeper
namespace KeeperStorage
variable {st st' : KeeperStorage}

/-- Every ephemeral node has a live owner. -/
def OwnersOpen (st : KeeperStorage) : Prop :=
  ∀ id p, id ≠ 0 → st.ownerOf p = some id → st.sessionState.IsOpen id

theorem new_ownersOpen (intervalMs : Int) : (new intervalMs).OwnersOpen := by
  intro id p hid owner
  obtain ⟨n, hn, ho⟩ := (ownerOf_eq_some _ p id).mp owner
  rw [new_get] at hn
  split_ifs at hn
  cases hn
  exact absurd ho.symm hid

/-- No new owner, and no session less. -/
theorem OwnersOpen.mono (h : st.OwnersOpen)
    (owners : ∀ id p, id ≠ 0 → st'.ownerOf p = some id → st.ownerOf p = some id)
    (sessions : ∀ id, st.sessionState.IsOpen id → st'.sessionState.IsOpen id) :
    st'.OwnersOpen :=
  fun id p hid owner => sessions id (h id p hid (owners id p hid owner))

theorem OwnersOpen.ended (h : st.OwnersOpen) (hi : st.Indexed) (id : SessionId) :
    (st.ended id).OwnersOpen := by
  intro id' p hid owner
  rw [ownerOf_ended hi] at owner
  split_ifs at owner with own
  refine (SessionState.isOpen_without _ _ _).mpr ⟨h id' p hid owner, ?_⟩
  rintro rfl
  exact own ⟨hid, owner⟩

end KeeperStorage

/-- A batch leaves behind an ephemeral node that it made. -/
def LeavesEphemeral (entries : List MultiEntry) (p : String) : Prop :=
  ∃ before req events after, entries = before ++ (.create req, .create p, events) :: after ∧
    isEphemeral req.flags = true ∧
    ∀ entry ∈ after, ∀ gone : DeleteRequest, entry.1 = .delete gone → gone.path ≠ p

theorem LeavesEphemeral.snoc {entries : List MultiEntry} {p : String}
    (h : LeavesEphemeral entries p) {entry : MultiEntry}
    (stays : ∀ gone : DeleteRequest, entry.1 = .delete gone → gone.path ≠ p) :
    LeavesEphemeral (entries ++ [entry]) p := by
  obtain ⟨before, req, events, after, rfl, flag, kept⟩ := h
  refine ⟨before, req, events, after ++ [entry], by simp, flag, ?_⟩
  intro other mem
  obtain mem | mem := List.mem_append.mp mem
  · exact kept other mem
  · rw [List.mem_singleton.mp mem]
    exact stays

theorem leavesEphemeral_singleton {entry : MultiEntry} {p : String}
    (h : LeavesEphemeral [entry] p) : ∃ req, entry.1 = .create req ∧ isEphemeral req.flags = true := by
  obtain ⟨before, req, events, after, split, flag, -⟩ := h
  cases before with
  | nil =>
    cases split
    exact ⟨req, rfl, flag⟩
  | cons other before =>
    have := congrArg List.length split
    simp at this

section Steps
variable {env : Env} {sessionId : SessionId} {st st' : KeeperStorage}

/-- The owner of a node after a batch owned it before, unless the batch made the node. -/
theorem MultiRun.ownerOf {entries : List MultiEntry} (h : MultiRun env sessionId st entries st')
    {p : String} {id : SessionId} (hid : id ≠ 0) (owner : st'.ownerOf p = some id) :
    st.ownerOf p = some id ∨ id = sessionId ∧ LeavesEphemeral entries p := by
  induction h with
  | nil => exact .inl owner
  | @snoc entries t entry u _ last ih =>
    have earlier (owner : t.ownerOf p = some id)
        (stays : ∀ gone : DeleteRequest, entry.1 = .delete gone → gone.path ≠ p) :
        st.ownerOf p = some id ∨ id = sessionId ∧ LeavesEphemeral (entries ++ [entry]) p :=
      (ih owner).imp_right fun made => ⟨made.1, made.2.snoc stays⟩
    cases last with
    | check => exact earlier owner (fun _ h => by cases h)
    | set stored version done updated =>
      have same := KeeperStorage.set_ok_ownerOf done p
      exact earlier (same.symm.trans owner) (fun _ h => by cases h)
    | @create _ req path done =>
      have now := (KeeperStorage.create_ok_ownerOf done p).symm.trans owner
      by_cases here : p = path
      · subst here
        rw [if_pos rfl, Option.some.injEq] at now
        by_cases flag : isEphemeral req.flags = true
        · rw [if_pos flag] at now
          exact .inr ⟨now.symm, entries, req, _, [], rfl, flag, by simp⟩
        · rw [if_neg flag] at now
          exact absurd now.symm hid
      · rw [if_neg here] at now
        exact earlier now (fun _ h => by cases h)
    | @delete _ req n stored version done =>
      have map : ∀ t : KeeperStorage, ((t.disowned n.stat.ephemeralOwner req.path).fired
          env.orders req.path .deleted).ownerOf p = t.ownerOf p := by
        intro t
        simp [KeeperStorage.ownerOf, KeeperStorage.fired]
      have now := (KeeperStorage.delete_ok_ownerOf done p).symm.trans ((map _).symm.trans owner)
      by_cases here : p = req.path
      · rw [if_pos here] at now
        cases now
      · rw [if_neg here] at now
        exact earlier now (fun gone h => by cases h; exact Ne.symm here)

theorem MultiRun.ownersOpen {entries : List MultiEntry}
    (h : MultiRun env sessionId st entries st') (alive : st.OwnersOpen)
    (fine : st.sessionState.IsOpen sessionId ∨ ∀ p, ¬ LeavesEphemeral entries p) :
    st'.OwnersOpen := by
  intro id p hid owner
  rw [h.sameSessions.isOpen id]
  obtain before | ⟨rfl, left⟩ := h.ownerOf hid owner
  · exact alive id p hid before
  · exact fine.resolve_right (fun none => none p left)

/-- The step takes the branch that makes an ephemeral node for a session that is not open. -/
def Orphans (env : Env) (st : KeeperStorage) : ServerEvent → Prop
  | .handle _ id (.create req) =>
    ¬ st.sessionState.IsOpen id ∧ isEphemeral req.flags = true ∧ CreateChecked st req ∧
      ∃ q name created, st.Creatable req.path req.flags q name created
  | .handle _ id (.multi ops) =>
    ¬ st.sessionState.IsOpen id ∧ ∃ entries st' p, MultiRun env id st.nextZxid entries st' ∧
      entries.map Prod.fst = ops ∧ LeavesEphemeral entries p
  | _ => False

theorem Transition.ownersOpen {e : ServerEvent} {op : Option WalOperation}
    {events : List WatchEvent} (h : Transition env st e op events st') (hl : st.Linked)
    (hi : st.Indexed) (alive : st.OwnersOpen) (fine : ¬ Orphans env st e) : st'.OwnersOpen := by
  have next : st.nextZxid.Indexed := hi.congr (fun _ => rfl) rfl
  have aliveNext : st.nextZxid.OwnersOpen := alive
  cases h with
  | createSession timeoutMs =>
    refine alive.mono (fun _ _ _ owner => owner) ?_
    rintro id ⟨t, ht⟩
    by_cases new : id = st.sessionState.nextSessionId
    · exact ⟨timeoutMs, by simp [SessionState.createSession, new]⟩
    · exact ⟨t, by simpa [SessionState.createSession, new] using ht⟩
  | closeSession ended =>
    cases ended.symm.trans (hl.nextZxid.endSession_eq next env.orders _)
    exact aliveNext.ended next _
  | touch id =>
    refine alive.mono (fun _ _ _ owner => owner) ?_
    simp only [SessionState.touchSession]
    split <;> exact fun _ isOpen => isOpen
  | unchanged => exact alive
  | unflushed failed => exact alive
  | @create xid id req path u checked done =>
    refine MultiRun.ownersOpen (Run.single (.create done)) aliveNext ?_
    by_cases isOpen : st.sessionState.IsOpen id
    · exact .inl isOpen
    · refine .inr fun p left => fine ⟨isOpen, ?_⟩
      obtain ⟨_, same, flag⟩ := leavesEphemeral_singleton left
      cases same
      obtain ⟨q, name, hc, -⟩ := (KeeperStorage.create_ok_iff _ _ _ _ _ _ _ _).mp done
      exact ⟨flag, checked, q, name, path, hc.split, hc.parent, hc.fresh, hc.createdSplit⟩
  | createFails checked failed => exact alive
  | @set xid id req n u stored version done =>
    have storedNext : st.nextZxid.traverse req.path = some n := stored
    obtain ⟨n', updated⟩ := KeeperStorage.set_ok_traverse done
    have single : MultiStep env id st.nextZxid _ _ := .set storedNext version done updated
    refine MultiRun.ownersOpen (Run.single single) aliveNext ?_
    refine .inr fun p left => ?_
    obtain ⟨_, same, -⟩ := leavesEphemeral_singleton left
    cases same
  | @delete xid id req n u checked done =>
    have storedNext : st.nextZxid.traverse req.path = some n := checked.stored
    have single : MultiStep env id st.nextZxid _ _ := .delete storedNext checked.version done
    refine MultiRun.ownersOpen (Run.single single) aliveNext ?_
    refine .inr fun p left => ?_
    obtain ⟨_, same, -⟩ := leavesEphemeral_singleton left
    cases same
  | deleteRoot checked root => exact alive
  | read path t => exact alive
  | close ended =>
    cases ended.symm.trans (hl.endSession_eq hi env.orders _)
    exact alive.ended hi _
  | @multi xid id entries _ path =>
    refine path.ownersOpen aliveNext ?_
    by_cases isOpen : st.sessionState.IsOpen id
    · exact .inl isOpen
    · exact .inr fun p left => fine ⟨isOpen, entries, st', p, path, rfl, left⟩

end Steps

namespace KeeperServer
variable {recordBytes : LogRecord → ℕ} {s : KeeperServer recordBytes}
variable {es : List (Env × ServerEvent)}

/-- In a lifetime in which no session makes an ephemeral node once it is not open, every owner of
an ephemeral node is open. -/
theorem owners_open_of_no_orphans
    (life : Run (fun s e s' => LifeStep s e s' ∧ ¬ Orphans e.1 s.storage e.2)
      (initial recordBytes) es s) : s.storage.OwnersOpen := by
  have keeps : s.storage.Linked ∧ s.storage.Indexed ∧ s.storage.OwnersOpen := by
    refine life.invariant
      (fun s => s.storage.Linked ∧ s.storage.Indexed ∧ s.storage.OwnersOpen)
      ⟨KeeperStorage.new_linked 500, KeeperStorage.new_indexed 500,
        KeeperStorage.new_ownersOpen 500⟩ ?_
    rintro s e s' ⟨hl, hi, alive⟩ ⟨last, fine⟩
    obtain ⟨out, op, -, move, -⟩ := last.2.transition hl
    exact ⟨last.2.linked hl, last.indexed hl hi, move.ownersOpen hl hi alive fine⟩
  exact keeps.2.2

/-- A lock taken by an open session. -/
theorem owners_open_of_lock :
    ∃ s : KeeperServer (fun _ => 1), s.storage.ownerOf "/lock" = some 1 ∧ s.storage.OwnersOpen := by
  let first : Env × ServerEvent := (.working 0, .createSession 5000)
  let second : Env × ServerEvent := (.working 1, .handle 1 1 (.create ⟨"/lock", [], 1⟩))
  have linked : (initial fun _ => 1).storage.Linked := KeeperStorage.new_linked 500
  have opens : LifeStep (initial fun _ => 1) first _ := ⟨trivial, step_next linked _ rfl⟩
  have locks : LifeStep _ second _ :=
    ⟨⟨by decide, by decide⟩, step_next (opens.2.linked linked) _ rfl⟩
  have life : Run (fun s e s' => LifeStep s e s' ∧ ¬ Orphans e.1 s.storage e.2)
      (initial fun _ => 1) _ _ :=
    (Run.single ⟨opens, id⟩).snoc ⟨locks, fun orphans => orphans.1 ⟨5000, rfl⟩⟩
  exact ⟨_, rfl, owners_open_of_no_orphans life⟩

/-- A request of a session that has expired takes a lock that nobody will release. -/
theorem late_create_orphans :
    ¬ ∀ es (s : KeeperServer (fun _ => 1)), Lifetime es s → s.storage.OwnersOpen := by
  intro all
  have fresh : Lifetime [] (initial fun _ => 1) := .nil
  have opened := fresh.next (e := (.working 0, .createSession 5000)) trivial rfl
  have closed := opened.next (e := (.working 5500, .closeSession 1)) trivial rfl
  have late := closed.next (e := (.working 5501, .handle 1 1 (.create ⟨"/lock", [], 1⟩)))
    ⟨by decide, by decide⟩ rfl
  obtain ⟨t, ht⟩ := all _ _ late 1 "/lock" (by decide) rfl
  cases ht

end KeeperServer
end TinyKeeper
