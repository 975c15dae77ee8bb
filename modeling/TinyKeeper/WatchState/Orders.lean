import TinyKeeper.WatchState

/-! The order in which a hash set is iterated does not show in the watches: firing and clearing
leave the same state behind in any order, and the same notifications but for their order. -/
namespace TinyKeeper.WatchState

/-- What a path keeps of its watchers when one of them is dropped. -/
theorem get_dropWatcher (forward : Table String (Finset SessionId)) (path : String)
    (id : SessionId) (p : String) : (dropWatcher forward path id).get p =
      if p = path then ((forward.get path).map (·.erase id)).filter (· ≠ ∅) else forward.get p := by
  unfold dropWatcher
  by_cases here : p = path
  · subst here
    cases stored : forward.get p with
    | none => simp [stored]
    | some sessions =>
      by_cases last : sessions.erase id = ∅ <;> simp [stored, last, Option.filter_some]
  · simp only [if_neg here]
    split_ifs <;> simp [here]

theorem dropWatcher_comm (forward : Table String (Finset SessionId)) (p q : String)
    (id : SessionId) :
    dropWatcher (dropWatcher forward p id) q id = dropWatcher (dropWatcher forward q id) p id := by
  by_cases same : p = q
  · rw [same]
  · ext1; funext path
    simp only [get_dropWatcher]
    by_cases here : path = p
    · subst here
      simp [same]
    · simp [here, Ne.symm same]

theorem setForwardMap_comm (ws : WatchState) {t t' : WatchType} (other : t ≠ t')
    (m m' : Table String (Finset SessionId)) :
    (ws.setForwardMap t m).setForwardMap t' m' = (ws.setForwardMap t' m').setForwardMap t m := by
  cases t <;> cases t' <;> first | rfl | exact absurd rfl other

theorem setForwardMap_setForwardMap (ws : WatchState) (t : WatchType)
    (m m' : Table String (Finset SessionId)) :
    (ws.setForwardMap t m).setForwardMap t m' = ws.setForwardMap t m' := by
  cases t <;> rfl

variable (ws : WatchState) (o o' : HashOrders)

theorem clear_orders (id : SessionId) : ws.clear o id = ws.clear o' id := by
  unfold clear
  cases ws.sessionsAndWatchers.get id with
  | none => rfl
  | some infos =>
    refine o.watches.foldl_eq o'.watches infos ?_ _
    intro ws info info'
    by_cases same : info.watchType = info'.watchType
    · simp only [same, forwardMap_setForwardMap, if_pos, setForwardMap_setForwardMap]
      rw [dropWatcher_comm]
    · simp only [forwardMap_setForwardMap, if_neg same, if_neg (Ne.symm same)]
      exact setForwardMap_comm ws same _ _

theorem fireOneshot_orders (lookup : String) (event : WatchEventType) (np : String)
    (t : WatchType) :
    (ws.fireOneshot o lookup event np t).1 = (ws.fireOneshot o' lookup event np t).1 ∧
      (ws.fireOneshot o lookup event np t).2.Perm (ws.fireOneshot o' lookup event np t).2 := by
  unfold fireOneshot
  cases (ws.forwardMap t).get lookup with
  | none => exact ⟨rfl, .refl _⟩
  | some sessions =>
    have drained (reverse : Table SessionId (Finset WatchInfo)) :
        (o.sessions.list sessions).foldl
            (fun reverse id => reverse.modify id (·.erase ⟨lookup, t⟩)) reverse =
          (o'.sessions.list sessions).foldl
            (fun reverse id => reverse.modify id (·.erase ⟨lookup, t⟩)) reverse :=
      o.sessions.foldl_eq _ _ (fun reverse id id' => reverse.modify_comm id id' _) _
    refine ⟨?_, (o.sessions.perm o'.sessions sessions).map _⟩
    simp only [drained]

theorem fire_orders (path : String) (event : WatchEventType) :
    (ws.fire o path event).1 = (ws.fire o' path event).1 ∧
      (ws.fire o path event).2.Perm (ws.fire o' path event).2 := by
  have data := ws.fireOneshot_orders o o' path event path .watch
  unfold fire
  generalize ws.fireOneshot o path event path .watch = fired at data ⊢
  generalize ws.fireOneshot o' path event path .watch = fired' at data ⊢
  obtain ⟨ws₁, events⟩ := fired
  obtain ⟨_, events'⟩ := fired'
  obtain ⟨rfl, perm⟩ := data
  -- The firings that follow start from one state.
  cases event with
  | changed | child => exact ⟨rfl, perm⟩
  | created =>
    cases (splitPath path).map fun pc => parentPath pc.1 with
    | none => exact ⟨rfl, perm⟩
    | some parent =>
      obtain ⟨same, perm'⟩ := ws₁.fireOneshot_orders o o' parent .child parent .listWatch
      exact ⟨same, perm.append perm'⟩
  | deleted =>
    have ofNode := ws₁.fireOneshot_orders o o' path .child path .listWatch
    simp only
    generalize ws₁.fireOneshot o path .child path .listWatch = fired at ofNode ⊢
    generalize ws₁.fireOneshot o' path .child path .listWatch = fired' at ofNode ⊢
    obtain ⟨ws₂, events₂⟩ := fired
    obtain ⟨_, events₂'⟩ := fired'
    obtain ⟨rfl, perm₂⟩ := ofNode
    cases (splitPath path).map fun pc => parentPath pc.1 with
    | none => exact ⟨rfl, perm.append perm₂⟩
    | some parent =>
      obtain ⟨same, perm'⟩ := ws₂.fireOneshot_orders o o' parent .child parent .listWatch
      exact ⟨same, (perm.append perm₂).append perm'⟩

end TinyKeeper.WatchState
