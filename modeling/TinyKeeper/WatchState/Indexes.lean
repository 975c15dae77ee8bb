import TinyKeeper.WatchState

/-! The forward maps and the reverse map say the same, whatever is registered, cleared or fired. -/
namespace TinyKeeper
namespace WatchState
variable {ws : WatchState}

/-- The session stands in a forward map, or is a key of the reverse map. -/
def Mentions (ws : WatchState) (id : SessionId) : Prop :=
  (∃ t p, ws.Registered t p id) ∨ ws.sessionsAndWatchers.get id ≠ none

/-- Every registration stands in the reverse map. -/
def Mirrored (ws : WatchState) : Prop :=
  ∀ t p id, ws.Registered t p id → ws.Recorded id ⟨p, t⟩

/-- No set of sessions in a forward map is empty. -/
def Filled (ws : WatchState) : Prop :=
  ∀ t p sessions, (ws.forwardMap t).get p = some sessions → sessions.Nonempty

/-- The reverse map lists exactly what the forward maps hold. -/
structure Consistent (ws : WatchState) : Prop where
  same : ∀ t p id, ws.Registered t p id ↔ ws.Recorded id ⟨p, t⟩
  filled : ws.Filled

theorem Consistent.mirrored (h : ws.Consistent) : ws.Mirrored :=
  fun t p id => (h.same t p id).mp

/-- No session is added to an index. -/
structure Shrinks (ws ws' : WatchState) : Prop where
  forward : ∀ t p id, ws'.Registered t p id → ws.Registered t p id
  reverse : ∀ id, ws'.sessionsAndWatchers.get id ≠ none → ws.sessionsAndWatchers.get id ≠ none

theorem Shrinks.refl (ws : WatchState) : ws.Shrinks ws := ⟨fun _ _ _ h => h, fun _ h => h⟩

theorem Shrinks.trans {ws₁ ws₂ ws₃ : WatchState} (h : ws₁.Shrinks ws₂) (h' : ws₂.Shrinks ws₃) :
    ws₁.Shrinks ws₃ :=
  ⟨fun t p id r => h.forward t p id (h'.forward t p id r), fun id k => h.reverse id (h'.reverse id k)⟩

theorem Shrinks.mentions {ws' : WatchState} (h : ws.Shrinks ws') {id : SessionId}
    (m : ws'.Mentions id) : ws.Mentions id := by
  obtain ⟨t, p, registered⟩ | key := m
  · exact .inl ⟨t, p, h.forward t p id registered⟩
  · exact .inr (h.reverse id key)

theorem Mirrored.mentions_iff (h : ws.Mirrored) (id : SessionId) :
    ws.Mentions id ↔ ws.sessionsAndWatchers.get id ≠ none := by
  constructor
  · rintro (⟨t, p, registered⟩ | key)
    · obtain ⟨infos, found, -⟩ := h t p id registered
      simp [found]
    · exact key
  · exact .inr

theorem new_forwardMap (t : WatchType) : WatchState.new.forwardMap t = .empty := by
  cases t <;> rfl

theorem new_consistent : WatchState.new.Consistent where
  same t p id := by
    unfold Registered Recorded
    rw [new_forwardMap]
    simp [new]
  filled t p sessions found := by
    rw [new_forwardMap] at found
    cases found

theorem new_mirrored : WatchState.new.Mirrored := new_consistent.mirrored

theorem not_mentions_new (id : SessionId) : ¬ WatchState.new.Mentions id := by
  rw [new_mirrored.mentions_iff]
  simp [WatchState.new]

section Register
variable (ws : WatchState) (id : SessionId) (path : String) (t : WatchType)

theorem mentions_register : (ws.register id path t).Mentions id :=
  .inl ⟨t, path, ws.register_self id path t⟩

theorem key_register {id' : SessionId} (other : id' ≠ id) :
    (ws.register id path t).sessionsAndWatchers.get id' = ws.sessionsAndWatchers.get id' := by
  simp [register, other]

end Register

theorem Filled.register (h : ws.Filled) (id : SessionId) (path : String) (t : WatchType) :
    (ws.register id path t).Filled := by
  intro t' p sessions found
  simp only [WatchState.register, forwardMap_reverse, forwardMap_setForwardMap] at found
  split_ifs at found
  · rw [Table.get_insert] at found
    split_ifs at found
    · cases found
      exact Finset.insert_nonempty _ _
    · exact h t p sessions found
  · exact h t' p sessions found

theorem Mirrored.register (h : ws.Mirrored) (id : SessionId) (path : String) (t : WatchType) :
    (ws.register id path t).Mirrored := by
  intro t' p id' registered
  rw [recorded_register_iff]
  obtain ⟨rfl, rfl, rfl⟩ | before := (registered_register_iff ..).mp registered
  · exact .inl ⟨rfl, rfl⟩
  · exact .inr (h t' p id' before)

theorem Consistent.register (h : ws.Consistent) (id : SessionId) (path : String) (t : WatchType) :
    (ws.register id path t).Consistent where
  same t' p id' := by
    rw [registered_register_iff, recorded_register_iff, h.same, WatchInfo.mk.injEq]
    tauto
  filled := h.filled.register id path t

section Fire
variable (ws : WatchState) (orders : HashOrders)

theorem key_fireOneshot (lookup : String) (event : WatchEventType) (np : String) (t : WatchType)
    (id : SessionId) : (ws.fireOneshot orders lookup event np t).1.sessionsAndWatchers.get id = none ↔
      ws.sessionsAndWatchers.get id = none := by
  have erased (fired : List SessionId) (r : Table SessionId (Finset WatchInfo)) :
      (fired.foldl (fun reverse id => reverse.modify id (·.erase ⟨lookup, t⟩)) r).get id = none ↔
        r.get id = none := by
    induction fired generalizing r with
    | nil => rfl
    | cons x fired ih =>
      rw [List.foldl_cons, ih, Table.get_modify]
      split_ifs with here
      · rw [Option.map_eq_none_iff, here]
      · rfl
  unfold fireOneshot
  split
  · rfl
  · simp only [sessionsAndWatchers_setForwardMap]
    exact erased _ _

variable {ws} in
theorem Filled.fireOneshot (h : ws.Filled) (lookup : String) (event : WatchEventType)
    (np : String) (t : WatchType) : (ws.fireOneshot orders lookup event np t).1.Filled := by
  unfold WatchState.fireOneshot
  split
  · exact h
  · intro t' p sessions found
    simp only [forwardMap_reverse, forwardMap_setForwardMap] at found
    split_ifs at found
    · rw [Table.get_remove] at found
      split_ifs at found
      exact h t p sessions found
    · exact h t' p sessions found

/-- What each draining keeps a firing keeps. -/
theorem fire_induction (I : WatchState → Prop) (start : I ws)
    (step : ∀ ws' lookup event t, I ws' → I (ws'.fireOneshot orders lookup event lookup t).1)
    (path : String) (event : WatchEventType) : I (ws.fire orders path event).1 := by
  have data := step ws path event .watch start
  unfold fire
  rw [splitPath_parent]
  cases event with
  | changed => exact data
  | child => exact data
  | created =>
    cases (parentOf path).map Prod.fst with
    | none => exact data
    | some parent => exact step _ parent .child .listWatch data
  | deleted =>
    have node := step _ path .child .listWatch data
    cases (parentOf path).map Prod.fst with
    | none => exact node
    | some parent => exact step _ parent .child .listWatch node

theorem shrinks_fire (path : String) (event : WatchEventType) :
    ws.Shrinks (ws.fire orders path event).1 := by
  refine ⟨(ws.fire_le orders path event).1, fun id => ?_⟩
  refine ws.fire_induction orders (fun ws' => ws'.sessionsAndWatchers.get id ≠ none →
    ws.sessionsAndWatchers.get id ≠ none) (fun key => key) ?_ path event
  intro ws' lookup event t before key
  exact before (fun none => key ((ws'.key_fireOneshot orders lookup event lookup t id).mpr none))

variable {ws}

theorem Mirrored.fire (h : ws.Mirrored) (path : String) (event : WatchEventType) :
    (ws.fire orders path event).1.Mirrored := by
  intro t p id registered
  have drains := ws.fire_drains orders path event
  obtain ⟨before, kept⟩ := (drains.forward t p id).mp registered
  exact (drains.reverse t p id).mpr ⟨h t p id before, fun drained => kept drained.2⟩

theorem Consistent.recorded_fire_iff (h : ws.Consistent) (path : String) (event : WatchEventType)
    (t : WatchType) (p : String) (id : SessionId) :
    (ws.fire orders path event).1.Recorded id ⟨p, t⟩ ↔
      ws.Recorded id ⟨p, t⟩ ∧ ¬ Triggers path event t p := by
  rw [(ws.fire_drains orders path event).reverse, h.same]
  tauto

theorem Consistent.fire (h : ws.Consistent) (path : String) (event : WatchEventType) :
    (ws.fire orders path event).1.Consistent where
  same t p id := by
    rw [h.recorded_fire_iff, (ws.fire_drains orders path event).forward, h.same]
  filled := ws.fire_induction orders Filled h.filled
    (fun _ lookup event t before => before.fireOneshot orders lookup event lookup t) path event

end Fire

section Clear
variable (orders : HashOrders)

/-- In a mirrored state a session is cleared from everything it is registered for. -/
theorem Mirrored.registered_clear_iff (h : ws.Mirrored) (id : SessionId) (t : WatchType)
    (p : String) (id' : SessionId) :
    (ws.clear orders id).Registered t p id' ↔ ws.Registered t p id' ∧ id' ≠ id := by
  rw [WatchState.registered_clear_iff]
  refine and_congr_right fun registered => not_congr ⟨And.left, ?_⟩
  rintro rfl
  exact ⟨rfl, h t p id' registered⟩

/-- After its watches are dropped the session stands in no index. -/
theorem Mirrored.not_mentions_clear (h : ws.Mirrored) (id : SessionId) :
    ¬ (ws.clear orders id).Mentions id := by
  rintro (⟨t, p, registered⟩ | key)
  · exact ((h.registered_clear_iff orders id t p id).mp registered).2 rfl
  · rw [clear_reverse, Table.get_remove_self] at key
    exact key rfl

theorem shrinks_clear (ws : WatchState) (id : SessionId) : ws.Shrinks (ws.clear orders id) := by
  refine ⟨fun t p id' => ws.clear_le orders id, ?_⟩
  intro id' key
  rw [clear_reverse, Table.get_remove] at key
  split_ifs at key with here
  · exact absurd rfl key
  · exact key

theorem Mirrored.clear (h : ws.Mirrored) (id : SessionId) : (ws.clear orders id).Mirrored := by
  intro t p id' registered
  obtain ⟨before, other⟩ := (h.registered_clear_iff orders id t p id').mp registered
  exact (ws.recorded_clear_iff orders id id' ⟨p, t⟩).mpr ⟨h t p id' before, other⟩

/-- An emptied set is taken out of its map. -/
theorem Filled.clear (h : ws.Filled) (id : SessionId) : (ws.clear orders id).Filled := by
  have dropped (infos : List WatchInfo) (ws : WatchState) (h : ws.Filled) :
      (infos.foldl (fun ws info => ws.setForwardMap info.watchType
        (dropWatcher (ws.forwardMap info.watchType) info.path id)) ws).Filled := by
    induction infos generalizing ws with
    | nil => exact h
    | cons info infos ih =>
      apply ih
      intro t p sessions found
      rw [forwardMap_setForwardMap] at found
      split_ifs at found with kind
      · subst kind
        unfold dropWatcher at found
        simp only at found
        split_ifs at found with emptied
        · rw [Table.get_remove] at found
          split_ifs at found with here
          rw [Table.get_modify_of_ne _ _ here] at found
          exact h _ p sessions found
        · by_cases here : p = info.path
          · subst here
            rw [found] at emptied
            exact Finset.nonempty_iff_ne_empty.mpr fun empty => emptied (congrArg some empty)
          · rw [Table.get_modify_of_ne _ _ here] at found
            exact h _ p sessions found
      · exact h t p sessions found
  unfold WatchState.clear
  split
  · exact h
  · apply dropped
    intro t p sessions found
    rw [forwardMap_reverse] at found
    exact h t p sessions found

theorem Consistent.clear (h : ws.Consistent) (id : SessionId) :
    (ws.clear orders id).Consistent where
  same t p id' := by
    rw [h.mirrored.registered_clear_iff, recorded_clear_iff, h.same]
  filled := h.filled.clear orders id

end Clear
end WatchState
end TinyKeeper
