import Mathlib.Data.Finset.Basic
import TinyKeeper.Protocol
import TinyKeeper.Path
import TinyKeeper.Lib.Table

/-! Watch registrations: five forward maps from paths to sessions, one reverse map from sessions
to what they watch, and the one-shot firing that drains both. -/
namespace TinyKeeper

inductive WatchType
  | watch | listWatch | persistentWatch | persistentListWatch | persistentRecursiveWatch
  deriving DecidableEq, Repr

structure WatchInfo where
  path : String
  watchType : WatchType
  deriving DecidableEq, Repr

structure WatchEvent where
  sessionId : SessionId
  payload : WatchNotification
  deriving DecidableEq, Repr

/-- The iteration orders of the hash sets met during one call. -/
structure HashOrders where
  paths : HashOrder String
  sessions : HashOrder SessionId
  watches : HashOrder WatchInfo

structure WatchState where
  watches : Table String (Finset SessionId)
  listWatches : Table String (Finset SessionId)
  persistentWatches : Table String (Finset SessionId)
  persistentListWatches : Table String (Finset SessionId)
  persistentRecursiveWatches : Table String (Finset SessionId)
  sessionsAndWatchers : Table SessionId (Finset WatchInfo)

namespace WatchState

def new : WatchState := ⟨.empty, .empty, .empty, .empty, .empty, .empty⟩

def forwardMap (ws : WatchState) : WatchType → Table String (Finset SessionId)
  | .watch => ws.watches
  | .listWatch => ws.listWatches
  | .persistentWatch => ws.persistentWatches
  | .persistentListWatch => ws.persistentListWatches
  | .persistentRecursiveWatch => ws.persistentRecursiveWatches

def setForwardMap (ws : WatchState) (t : WatchType) (m : Table String (Finset SessionId)) :
    WatchState :=
  match t with
  | .watch => { ws with watches := m }
  | .listWatch => { ws with listWatches := m }
  | .persistentWatch => { ws with persistentWatches := m }
  | .persistentListWatch => { ws with persistentListWatches := m }
  | .persistentRecursiveWatch => { ws with persistentRecursiveWatches := m }

@[simp] theorem forwardMap_setForwardMap (ws : WatchState) (t t' : WatchType)
    (m : Table String (Finset SessionId)) :
    (ws.setForwardMap t m).forwardMap t' = if t' = t then m else ws.forwardMap t' := by
  cases t <;> cases t' <;> rfl

@[simp] theorem setForwardMap_forwardMap (ws : WatchState) (t : WatchType) :
    ws.setForwardMap t (ws.forwardMap t) = ws := by
  cases t <;> rfl

@[simp] theorem sessionsAndWatchers_setForwardMap (ws : WatchState) (t : WatchType)
    (m : Table String (Finset SessionId)) :
    (ws.setForwardMap t m).sessionsAndWatchers = ws.sessionsAndWatchers := by
  cases t <;> rfl

@[simp] theorem forwardMap_reverse (ws : WatchState) (r : Table SessionId (Finset WatchInfo))
    (t : WatchType) : ({ ws with sessionsAndWatchers := r }).forwardMap t = ws.forwardMap t := by
  cases t <;> rfl

def register (ws : WatchState) (sessionId : SessionId) (path : String) (t : WatchType) :
    WatchState :=
  let forward := ws.forwardMap t
  let ws := ws.setForwardMap t
    (forward.insert path (insert sessionId ((forward.get path).getD ∅)))
  { ws with
    sessionsAndWatchers := ws.sessionsAndWatchers.insert sessionId
      (insert ⟨path, t⟩ ((ws.sessionsAndWatchers.get sessionId).getD ∅)) }

/-- Remove one session from the watchers of a path; an emptied set is removed. -/
def dropWatcher (forward : Table String (Finset SessionId)) (path : String)
    (sessionId : SessionId) : Table String (Finset SessionId) :=
  let forward := forward.modify path (·.erase sessionId)
  if forward.get path = some ∅ then forward.remove path else forward

def clear (ws : WatchState) (orders : HashOrders) (sessionId : SessionId) : WatchState :=
  match ws.sessionsAndWatchers.get sessionId with
  | none => ws
  | some infos =>
    (orders.watches.list infos).foldl
      (fun ws info => ws.setForwardMap info.watchType
        (dropWatcher (ws.forwardMap info.watchType) info.path sessionId))
      { ws with sessionsAndWatchers := ws.sessionsAndWatchers.remove sessionId }

/-- Drain the one-shot watches of one kind at `lookupPath`. -/
def fireOneshot (ws : WatchState) (orders : HashOrders) (lookupPath : String)
    (event : WatchEventType) (notificationPath : String) (t : WatchType) :
    WatchState × List WatchEvent :=
  match (ws.forwardMap t).get lookupPath with
  | none => (ws, [])
  | some sessions =>
    let fired := orders.sessions.list sessions
    let ws := ws.setForwardMap t ((ws.forwardMap t).remove lookupPath)
    ({ ws with
        sessionsAndWatchers := fired.foldl
          (fun reverse id => reverse.modify id (·.erase ⟨lookupPath, t⟩)) ws.sessionsAndWatchers },
      fired.map fun id => ⟨id, ⟨event, notificationPath⟩⟩)

def fire (ws : WatchState) (orders : HashOrders) (path : String) (event : WatchEventType) :
    WatchState × List WatchEvent :=
  let (ws, data) := ws.fireOneshot orders path event path .watch
  let parent := (splitPath path).map fun pc => parentPath pc.1
  match event with
  | .changed => (ws, data)
  | .created =>
    match parent with
    | none => (ws, data)
    | some parent =>
      let (ws, ofParent) := ws.fireOneshot orders parent .child parent .listWatch
      (ws, data ++ ofParent)
  | .deleted =>
    let (ws, ofNode) := ws.fireOneshot orders path .child path .listWatch
    match parent with
    | none => (ws, data ++ ofNode)
    | some parent =>
      let (ws, ofParent) := ws.fireOneshot orders parent .child parent .listWatch
      (ws, data ++ ofNode ++ ofParent)
  | .child => (ws, data)

/-- Session `id` stands in the forward map of kind `t` at `path`. -/
def Registered (ws : WatchState) (t : WatchType) (path : String) (id : SessionId) : Prop :=
  ∃ sessions, (ws.forwardMap t).get path = some sessions ∧ id ∈ sessions

instance (ws : WatchState) (t : WatchType) (path : String) (id : SessionId) :
    Decidable (Registered ws t path id) :=
  match found : (ws.forwardMap t).get path with
  | none => .isFalse (by simp [Registered, found])
  | some sessions => decidable_of_iff (id ∈ sessions) (by simp [Registered, found])

/-- The reverse map lists `info` for session `id`. -/
def Recorded (ws : WatchState) (id : SessionId) (info : WatchInfo) : Prop :=
  ∃ infos, ws.sessionsAndWatchers.get id = some infos ∧ info ∈ infos

theorem foldl_erase_get (fired : List SessionId) (info : WatchInfo)
    (r : Table SessionId (Finset WatchInfo)) (id : SessionId) (i : WatchInfo) :
    (∃ infos, (fired.foldl (fun reverse id => reverse.modify id (·.erase info)) r).get id =
        some infos ∧ i ∈ infos) ↔
      (∃ infos, r.get id = some infos ∧ i ∈ infos) ∧ ¬ (i = info ∧ id ∈ fired) := by
  induction fired generalizing r with
  | nil => simp
  | cons x fired ih =>
    rw [List.foldl_cons, ih]
    by_cases hx : id = x
    · subst hx
      cases h : r.get id with
      | none => simp [h]
      | some infos =>
        simp only [Table.get_modify_self, h, Option.map_some, Option.some.injEq, exists_eq_left',
          Finset.mem_erase, List.mem_cons, true_or, and_true]
        tauto
    · simp [hx]

theorem fireOneshot_registered (ws : WatchState) (orders : HashOrders) (lookup : String)
    (event : WatchEventType) (np : String) (t t' : WatchType) (p : String) (id : SessionId) :
    Registered (ws.fireOneshot orders lookup event np t).1 t' p id ↔
      Registered ws t' p id ∧ ¬ (t' = t ∧ p = lookup) := by
  unfold fireOneshot Registered
  cases h : (ws.forwardMap t).get lookup with
  | none =>
    simp only
    constructor
    · rintro ⟨s, hs, hm⟩
      refine ⟨⟨s, hs, hm⟩, ?_⟩
      rintro ⟨rfl, rfl⟩
      simp [h] at hs
    · exact And.left
  | some sessions =>
    simp only [forwardMap_reverse, forwardMap_setForwardMap]
    by_cases ht : t' = t
    · subst ht
      by_cases hp : p = lookup
      · subst hp; simp
      · simp [hp]
    · simp [ht]

theorem mem_fireOneshot_events (ws : WatchState) (orders : HashOrders) (lookup : String)
    (event : WatchEventType) (np : String) (t : WatchType) (e : WatchEvent) :
    e ∈ (ws.fireOneshot orders lookup event np t).2 ↔
      Registered ws t lookup e.sessionId ∧ e.payload = ⟨event, np⟩ := by
  unfold fireOneshot Registered
  cases h : (ws.forwardMap t).get lookup with
  | none => simp
  | some sessions =>
    simp only [List.mem_map, orders.sessions.mem_list, Option.some.injEq]
    constructor
    · rintro ⟨id, hm, rfl⟩
      exact ⟨⟨sessions, rfl, hm⟩, rfl⟩
    · rintro ⟨⟨_, rfl, hm⟩, hp⟩
      refine ⟨e.sessionId, hm, ?_⟩
      rw [← hp]

theorem fireOneshot_recorded (ws : WatchState) (orders : HashOrders) (lookup : String)
    (event : WatchEventType) (np : String) (t : WatchType) (id : SessionId) (info : WatchInfo) :
    Recorded (ws.fireOneshot orders lookup event np t).1 id info ↔
      Recorded ws id info ∧ ¬ (info = ⟨lookup, t⟩ ∧ Registered ws t lookup id) := by
  unfold fireOneshot Recorded Registered
  cases h : (ws.forwardMap t).get lookup with
  | none => simp
  | some sessions =>
    simp only [sessionsAndWatchers_setForwardMap]
    rw [foldl_erase_get]
    simp [orders.sessions.mem_list]

/-- The registrations that the removal of the node at `path` triggers. -/
def DeletionWatch (path : String) (t : WatchType) (p : String) : Prop :=
  (t = .watch ∧ p = path) ∨ (t = .listWatch ∧ p = path) ∨
    (t = .listWatch ∧ ∃ name, parentOf path = some (p, name))

/-- What a session is told about a registration that a removal triggers. -/
def deletionEvent (t : WatchType) (p : String) (id : SessionId) : WatchEvent :=
  ⟨id, ⟨if t = .watch then .deleted else .child, p⟩⟩

theorem splitPath_parent (path : String) :
    ((splitPath path).map fun pc => parentPath pc.1) = (parentOf path).map Prod.fst := by
  simp [parentOf, Function.comp_def]

theorem parentOf_map_fst (path p : String) :
    (parentOf path).map Prod.fst = some p ↔ ∃ name, parentOf path = some (p, name) := by
  simp [Option.map_eq_some_iff]

/-- The registrations that an event at `path` triggers: the data watches on the path, the list
watches on the parent when the node comes or goes, and those on the path when it goes. -/
def Triggers (path : String) (event : WatchEventType) (t : WatchType) (p : String) : Prop :=
  (t = .watch ∧ p = path) ∨ (t = .listWatch ∧ event = .deleted ∧ p = path) ∨
    (t = .listWatch ∧ (event = .created ∨ event = .deleted) ∧
      ∃ name, parentOf path = some (p, name))

theorem triggers_deleted_iff (path : String) (t : WatchType) (p : String) :
    Triggers path .deleted t p ↔ DeletionWatch path t p := by
  simp [Triggers, DeletionWatch]

/-- What a session is told about a registration that an event triggers. -/
def told (event : WatchEventType) (r : SessionId × WatchInfo) : WatchEvent :=
  ⟨r.1, ⟨if r.2.watchType = .watch then event else .child, r.2.path⟩⟩

/-- One event for each registration of some kinds and paths, and none of them is left in either
index; all others are. -/
structure Drains (ws ws' : WatchState) (event : WatchEventType)
    (which : WatchType → String → Prop) (events : List WatchEvent) : Prop where
  told : ∃ drained : List (SessionId × WatchInfo), drained.Nodup ∧
    (∀ id p t, (id, ⟨p, t⟩) ∈ drained ↔ Registered ws t p id ∧ which t p) ∧
    events = drained.map (told event)
  forward : ∀ t p id, Registered ws' t p id ↔ Registered ws t p id ∧ ¬ which t p
  reverse : ∀ t p id, Recorded ws' id ⟨p, t⟩ ↔
    Recorded ws id ⟨p, t⟩ ∧ ¬ (Registered ws t p id ∧ which t p)

namespace Drains
variable {ws ws₁ ws₂ : WatchState} {event : WatchEventType}
  {which which' : WatchType → String → Prop} {events events' : List WatchEvent}

theorem congr (h : Drains ws ws₁ event which events) (same : ∀ t p, which t p ↔ which' t p) :
    Drains ws ws₁ event which' events := by
  obtain rfl : which = which' := funext fun t => funext fun p => propext (same t p)
  exact h

/-- What the second firing drains the first has left, so nothing is told twice. -/
theorem append (h : Drains ws ws₁ event which events) (h' : Drains ws₁ ws₂ event which' events') :
    Drains ws ws₂ event (fun t p => which t p ∨ which' t p) (events ++ events') where
  told := by
    obtain ⟨drained, nodup, mem, rfl⟩ := h.told
    obtain ⟨drained', nodup', mem', rfl⟩ := h'.told
    refine ⟨drained ++ drained', List.nodup_append'.mpr ⟨nodup, nodup', ?_⟩, ?_, by simp⟩
    · rintro ⟨id, p, t⟩ first second
      have gone := ((h.forward t p id).mp ((mem' id p t).mp second).1).2
      exact gone ((mem id p t).mp first).2
    · intro id p t
      rw [List.mem_append, mem, mem', h.forward]
      tauto
  forward t p id := by
    rw [h'.forward, h.forward]
    tauto
  reverse t p id := by
    rw [h'.reverse, h.reverse, h.forward]
    tauto

end Drains

section Fire
variable (ws : WatchState) (orders : HashOrders)

theorem fireOneshot_drains (lookup : String) (event event' : WatchEventType) (t : WatchType)
    (kind : event' = if t = .watch then event else .child) :
    Drains ws (ws.fireOneshot orders lookup event' lookup t).1 event
      (fun t' p => t' = t ∧ p = lookup) (ws.fireOneshot orders lookup event' lookup t).2 where
  told := by
    subst kind
    unfold fireOneshot Registered
    cases found : (ws.forwardMap t).get lookup with
    | none =>
      refine ⟨[], List.nodup_nil, ?_, rfl⟩
      rintro id p t'
      refine iff_of_false (List.not_mem_nil) ?_
      rintro ⟨⟨sessions, stored, -⟩, rfl, rfl⟩
      simp [found] at stored
    | some sessions =>
      refine ⟨(orders.sessions.list sessions).map (fun id => (id, ⟨lookup, t⟩)), ?_, ?_, ?_⟩
      · exact (orders.sessions.nodup sessions).map fun a b same => congrArg Prod.fst same
      · intro id p t'
        simp only [List.mem_map, orders.sessions.mem_list, Prod.mk.injEq, WatchInfo.mk.injEq]
        constructor
        · rintro ⟨_, mem, rfl, rfl, rfl⟩
          exact ⟨⟨sessions, found, mem⟩, rfl, rfl⟩
        · rintro ⟨⟨_, stored, mem⟩, rfl, rfl⟩
          obtain rfl := Option.some.inj (found.symm.trans stored)
          exact ⟨id, mem, rfl, rfl, rfl⟩
      · rw [List.map_map]
        rfl
  forward t' p id := fireOneshot_registered ws orders lookup event' lookup t t' p id
  reverse t' p id := by
    rw [fireOneshot_recorded, WatchInfo.mk.injEq]
    constructor
    · rintro ⟨recorded, kept⟩
      refine ⟨recorded, ?_⟩
      rintro ⟨registered, rfl, rfl⟩
      exact kept ⟨⟨rfl, rfl⟩, registered⟩
    · rintro ⟨recorded, kept⟩
      refine ⟨recorded, ?_⟩
      rintro ⟨⟨rfl, rfl⟩, registered⟩
      exact kept ⟨registered, rfl, rfl⟩

/-- Firing drains what the event triggers, even where the parent of a path is the path. -/
theorem fire_drains (path : String) (event : WatchEventType) :
    Drains ws (ws.fire orders path event).1 event (Triggers path event)
      (ws.fire orders path event).2 := by
  have data := ws.fireOneshot_drains orders path event event .watch rfl
  have children {ws' : WatchState} {which : WatchType → String → Prop} {events : List WatchEvent}
      (h : Drains ws ws' event which events) (lookup : String) :=
    h.append (ws'.fireOneshot_drains orders lookup event .child .listWatch rfl)
  have parent (p q : String) (h : (parentOf path).map Prod.fst = some q) :
      (∃ name, parentOf path = some (p, name)) ↔ p = q := by
    rw [← parentOf_map_fst, h, Option.some.injEq]
    exact eq_comm
  have orphan (p : String) (h : (parentOf path).map Prod.fst = none) :
      ¬ ∃ name, parentOf path = some (p, name) := by
    rw [← parentOf_map_fst, h]
    exact Option.some_ne_none p |>.symm
  unfold fire
  rw [splitPath_parent]
  cases event with
  | changed => exact data.congr fun t p => by simp [Triggers]
  | child => exact data.congr fun t p => by simp [Triggers]
  | created =>
    cases found : (parentOf path).map Prod.fst with
    | none => exact data.congr fun t p => by simp only [Triggers, orphan p found]; simp
    | some q =>
      refine (children data q).congr fun t p => ?_
      simp only [Triggers, parent p q found]
      simp
  | deleted =>
    cases found : (parentOf path).map Prod.fst with
    | none =>
      refine (children data path).congr fun t p => ?_
      simp only [Triggers, orphan p found]
      simp
    | some q =>
      refine (children (children data path) q).congr fun t p => ?_
      simp only [Triggers, parent p q found]
      simp [or_assoc]

variable (path : String)

/-- Firing never adds a registration, in either index. -/
theorem fire_le (event : WatchEventType) :
    (∀ t p id, Registered (ws.fire orders path event).1 t p id → Registered ws t p id) ∧
    (∀ id info, Recorded (ws.fire orders path event).1 id info → Recorded ws id info) := by
  have drains := ws.fire_drains orders path event
  constructor
  · intro t p id registered
    exact ((drains.forward t p id).mp registered).1
  · intro id info recorded
    exact ((drains.reverse info.watchType info.path id).mp recorded).1

/-- A deletion consumes exactly the registrations it triggers. -/
theorem fire_deleted_registered (t : WatchType) (p : String) (id : SessionId) :
    Registered (ws.fire orders path .deleted).1 t p id ↔
      Registered ws t p id ∧ ¬ DeletionWatch path t p := by
  rw [← triggers_deleted_iff]
  exact (ws.fire_drains orders path .deleted).forward t p id

/-- A deletion tells every session about every registration it triggers. -/
theorem deletionEvent_mem_fire (t : WatchType) (p : String) (id : SessionId)
    (hw : DeletionWatch path t p) (hr : Registered ws t p id) :
    deletionEvent t p id ∈ (ws.fire orders path .deleted).2 := by
  obtain ⟨drained, -, mem, events⟩ := (ws.fire_drains orders path .deleted).told
  rw [events, List.mem_map]
  exact ⟨_, (mem id p t).mpr ⟨hr, (triggers_deleted_iff path t p).mpr hw⟩, rfl⟩

/-- The reverse index forgets every registration that a deletion triggers. -/
theorem fire_deleted_recorded (t : WatchType) (p : String) (id : SessionId)
    (hw : DeletionWatch path t p) (hr : Registered ws t p id) :
    ¬ Recorded (ws.fire orders path .deleted).1 id ⟨p, t⟩ := by
  intro recorded
  have kept := ((ws.fire_drains orders path .deleted).reverse t p id).mp recorded
  exact kept.2 ⟨hr, (triggers_deleted_iff path t p).mpr hw⟩

/-- A change is told once. -/
theorem not_registered_fire_changed (id : SessionId) :
    ¬ Registered (ws.fire orders path .changed).1 .watch path id := by
  intro registered
  have kept := ((ws.fire_drains orders path .changed).forward .watch path id).mp registered
  exact kept.2 (.inl ⟨rfl, rfl⟩)

/-- Only sessions with a registration are told. -/
theorem registered_of_mem_fire (event : WatchEventType) {e : WatchEvent}
    (mem : e ∈ (ws.fire orders path event).2) : ∃ t p, Registered ws t p e.sessionId := by
  obtain ⟨drained, -, triggered, events⟩ := (ws.fire_drains orders path event).told
  rw [events, List.mem_map] at mem
  obtain ⟨⟨id, p, t⟩, inside, rfl⟩ := mem
  exact ⟨t, p, ((triggered id p t).mp inside).1⟩

end Fire

section Register
variable (ws : WatchState) (id : SessionId) (path : String) (t : WatchType)

/-- A registration is for the session that makes it, at the path it reads. -/
theorem registered_register_iff (t' : WatchType) (p : String) (id' : SessionId) :
    Registered (ws.register id path t) t' p id' ↔
      (t' = t ∧ p = path ∧ id' = id) ∨ Registered ws t' p id' := by
  unfold register Registered
  simp only [forwardMap_reverse, forwardMap_setForwardMap]
  by_cases kind : t' = t
  · subst kind
    rw [if_pos rfl, Table.get_insert]
    by_cases here : p = path
    · subst here
      -- the session is the new one, or stood in the set that was there
      cases (ws.forwardMap t').get p <;> simp
    · simp [here]
  · simp [kind]

theorem recorded_register_iff (id' : SessionId) (info : WatchInfo) :
    Recorded (ws.register id path t) id' info ↔
      (id' = id ∧ info = ⟨path, t⟩) ∨ Recorded ws id' info := by
  unfold register Recorded
  simp only [sessionsAndWatchers_setForwardMap, Table.get_insert]
  by_cases here : id' = id
  · subst here
    cases ws.sessionsAndWatchers.get id' <;> simp
  · simp [here]

theorem register_self : Registered (ws.register id path t) t path id :=
  (registered_register_iff ..).mpr (.inl ⟨rfl, rfl, rfl⟩)

/-- A registration that stands in both indexes is not made again. -/
theorem register_of_registered (registered : Registered ws t path id)
    (recorded : Recorded ws id ⟨path, t⟩) : ws.register id path t = ws := by
  obtain ⟨sessions, found, mem⟩ := registered
  obtain ⟨infos, listed, mem'⟩ := recorded
  unfold register
  simp only [found, listed, Option.getD_some, Finset.insert_eq_of_mem mem,
    Finset.insert_eq_of_mem mem', sessionsAndWatchers_setForwardMap,
    Table.insert_of_get_eq _ _ _ found, Table.insert_of_get_eq _ _ _ listed]
  rw [setForwardMap_forwardMap]

variable {ws id path t} in
theorem registered_of_register {id' : SessionId} {t' : WatchType} {p : String} (other : id' ≠ id)
    (h : Registered (ws.register id path t) t' p id') : Registered ws t' p id' :=
  ((registered_register_iff ..).mp h).resolve_left (fun new => other new.2.2)

end Register

/-- A change is told to the sessions that watch the path: to one, if only one does. -/
theorem fire_changed_eq (ws : WatchState) (orders : HashOrders) {path : String} {id : SessionId}
    (registered : Registered ws .watch path id)
    (only : ∀ id', Registered ws .watch path id' → id' = id) :
    (ws.fire orders path .changed).2 = [⟨id, ⟨.changed, path⟩⟩] := by
  obtain ⟨sessions, found, mem⟩ := registered
  have single : sessions = {id} :=
    Finset.eq_singleton_iff_unique_mem.mpr ⟨mem, fun id' mem' => only id' ⟨sessions, found, mem'⟩⟩
  have fired : (ws.fire orders path .changed).2 =
      (ws.fireOneshot orders path .changed path .watch).2 := rfl
  rw [fired, fireOneshot]
  simp only [found, single, orders.sessions.list_singleton, List.map_singleton]

/-- So it is to the only watcher there is. -/
theorem fire_registered (orders : HashOrders) (path : String) (id : SessionId) :
    ((WatchState.new.register id path .watch).fire orders path .changed).2 =
      [⟨id, ⟨.changed, path⟩⟩] := by
  refine fire_changed_eq _ _ (register_self ..) fun id' watches => ?_
  obtain ⟨-, -, same⟩ | ⟨sessions, found, -⟩ := (registered_register_iff ..).mp watches
  · exact same
  · simp [new, forwardMap] at found

section Clear

/-- Dropping a watcher takes this session off this path. -/
theorem mem_dropWatcher (forward : Table String (Finset SessionId)) (path p : String)
    (id id' : SessionId) :
    (∃ sessions, (dropWatcher forward path id).get p = some sessions ∧ id' ∈ sessions) ↔
      (∃ sessions, forward.get p = some sessions ∧ id' ∈ sessions) ∧ ¬ (p = path ∧ id' = id) := by
  have erased : (∃ sessions, (forward.modify path (·.erase id)).get p = some sessions ∧
      id' ∈ sessions) ↔
        (∃ sessions, forward.get p = some sessions ∧ id' ∈ sessions) ∧ ¬ (p = path ∧ id' = id) := by
    rw [Table.get_modify]
    by_cases here : p = path
    · subst here
      cases forward.get p <;> simp [and_comm]
    · simp [here]
  unfold dropWatcher
  simp only
  split_ifs with emptied
  · rw [← erased, Table.get_remove]
    by_cases here : p = path
    · subst here
      rw [if_pos rfl, emptied]
      simp
    · simp [here]
  · exact erased

variable (ws : WatchState) (orders : HashOrders) (id : SessionId)

/-- The loop of `clear` takes the session off everything in its list. -/
theorem registered_foldl_drop_iff (infos : List WatchInfo) (t : WatchType) (p : String)
    (id' : SessionId) :
    Registered (infos.foldl (fun ws info => ws.setForwardMap info.watchType
      (dropWatcher (ws.forwardMap info.watchType) info.path id)) ws) t p id' ↔
      Registered ws t p id' ∧ ¬ (id' = id ∧ ⟨p, t⟩ ∈ infos) := by
  induction infos generalizing ws with
  | nil => simp
  | cons info infos ih =>
    obtain ⟨path, t₁⟩ := info
    rw [List.foldl_cons, ih, List.mem_cons, WatchInfo.mk.injEq]
    have first : Registered (ws.setForwardMap t₁ (dropWatcher (ws.forwardMap t₁) path id)) t p id' ↔
        Registered ws t p id' ∧ ¬ (t = t₁ ∧ p = path ∧ id' = id) := by
      unfold Registered
      rw [forwardMap_setForwardMap]
      by_cases kind : t = t₁
      · subst kind
        rw [if_pos rfl, mem_dropWatcher]
        simp
      · simp [kind]
    rw [first]
    tauto

theorem foldl_drop_reverse (infos : List WatchInfo) :
    (infos.foldl (fun ws info => ws.setForwardMap info.watchType
      (dropWatcher (ws.forwardMap info.watchType) info.path id)) ws).sessionsAndWatchers =
      ws.sessionsAndWatchers := by
  induction infos generalizing ws with
  | nil => rfl
  | cons info infos ih => rw [List.foldl_cons, ih, sessionsAndWatchers_setForwardMap]

/-- What the reverse map does not list for the session stays. -/
theorem registered_clear_iff (t : WatchType) (p : String) (id' : SessionId) :
    Registered (ws.clear orders id) t p id' ↔
      Registered ws t p id' ∧ ¬ (id' = id ∧ Recorded ws id ⟨p, t⟩) := by
  unfold clear Recorded
  cases found : ws.sessionsAndWatchers.get id with
  | none => simp
  | some infos =>
    simp only [registered_foldl_drop_iff, orders.watches.mem_list, Option.some.injEq,
      exists_eq_left']
    unfold Registered
    rw [forwardMap_reverse]

theorem clear_reverse :
    (ws.clear orders id).sessionsAndWatchers = ws.sessionsAndWatchers.remove id := by
  unfold clear
  cases found : ws.sessionsAndWatchers.get id with
  | none => exact (Table.remove_of_get_none _ _ found).symm
  | some infos => exact foldl_drop_reverse _ id _

theorem recorded_clear_iff (id' : SessionId) (info : WatchInfo) :
    Recorded (ws.clear orders id) id' info ↔ Recorded ws id' info ∧ id' ≠ id := by
  unfold Recorded
  rw [clear_reverse, Table.get_remove]
  by_cases here : id' = id
  · simp [here]
  · simp [here]

/-- Dropping the watches of a session adds none. -/
theorem clear_le {t : WatchType} {p : String} {id' : SessionId}
    (h : Registered (ws.clear orders id) t p id') : Registered ws t p id' :=
  ((registered_clear_iff ..).mp h).1

end Clear

end WatchState
end TinyKeeper
