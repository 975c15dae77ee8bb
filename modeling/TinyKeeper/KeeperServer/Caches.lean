import TinyKeeper.KeeperServer.Registered
import TinyKeeper.KeeperServer.WatchCalls

/-! What watches are for: a client may keep what it has read with a watch. Until it is told, the
answer is still right, unless a session has ended with which the node lasts. -/
namespace TinyKeeper

/-- The statistics differ at most in what they say of the changes below the node. -/
def Stat.SameNode (stat stat' : Stat) : Prop :=
  stat' = { stat with cversion := stat'.cversion, pzxid := stat'.pzxid }

/-- Two replies to a read agree in what a watch of it tells of: all that they say of the node
itself, or, if they list it, the names below it and their number. -/
inductive ReplyBody.Same : ReplyBody → ReplyBody → Prop
  | empty : Same .empty .empty
  | getData {data : List UInt8} {stat stat' : Stat} {numChildren numChildren' : Int32}
      (node : stat.SameNode stat') :
      Same (.getData data stat numChildren) (.getData data stat' numChildren')
  | stat {stat stat' : Stat} {dataLength numChildren numChildren' : Int32}
      (node : stat.SameNode stat') :
      Same (.stat stat dataLength numChildren) (.stat stat' dataLength numChildren')
  | children {names : List String} : Same (.children names) (.children names)
  | childrenAndStat {names : List String} {stat stat' : Stat}
      {dataLength dataLength' numChildren : Int32} :
      Same (.childrenAndStat names stat dataLength numChildren)
        (.childrenAndStat names stat' dataLength' numChildren)

theorem Entry.Shows.sameNode {e : Entry} {stat stat' : Stat} (shows : e.Shows stat)
    (shows' : e.Shows stat') : stat.SameNode stat' := by
  rw [Stat.SameNode, shows]
  exact shows'

namespace Registry
variable {r r' r'' : Registry} {id : SessionId} {works : Bool} {p path q name : String}
  {t : WatchType} {e : Entry}

/-- Later the registry still shows what a watch of this kind on `p` stands for: the entry, or that
there is one, with these names below it. -/
def Keeps (r : Registry) (p : String) (t : WatchType) (r' : Registry) : Prop :=
  match t with
  | .watch => r'.entries p = r.entries p
  | .listWatch => (r.entries p ≠ none → r'.entries p ≠ none) ∧ r'.below p = r.below p
  | _ => True

theorem Keeps.refl (r : Registry) (p : String) (t : WatchType) : r.Keeps p t r := by
  cases t with
  | watch => exact (rfl : r.entries p = r.entries p)
  | listWatch => exact ⟨id, rfl⟩
  | _ => trivial

theorem Keeps.trans (h : r.Keeps p t r') (h' : r'.Keeps p t r'') : r.Keeps p t r'' := by
  cases t with
  | watch => exact Eq.trans (b := r'.entries p) h' h
  | listWatch => exact ⟨h'.1 ∘ h.1, h'.2.trans h.2⟩
  | _ => trivial

/-- A change that triggers no such watch is not seen through it. -/
theorem keeps_enter (parent : parentOf path = some (q, name))
    (untouched : ¬ WatchState.Triggers path .created t p) :
    r.Keeps p t (r.enter path q name e) := by
  cases t with
  | watch =>
    have other : p ≠ path := fun here => untouched (.inl ⟨rfl, here⟩)
    exact Function.update_of_ne other _ _
  | listWatch =>
    have other : p ≠ q := by
      rintro rfl
      exact untouched (.inr (.inr ⟨rfl, .inl rfl, name, parent⟩))
    refine ⟨fun present => ?_, Function.update_of_ne other _ _⟩
    by_cases here : p = path
    · simp [enter, here]
    · simpa [enter, here] using present
  | _ => trivial

theorem keeps_leave (parent : parentOf path = some (q, name))
    (untouched : ¬ WatchState.Triggers path .deleted t p) :
    r.Keeps p t (r.leave path q name) := by
  cases t with
  | watch =>
    have other : p ≠ path := fun here => untouched (.inl ⟨rfl, here⟩)
    exact Function.update_of_ne other _ _
  | listWatch =>
    have above : p ≠ q := by
      rintro rfl
      exact untouched (.inr (.inr ⟨rfl, .inr rfl, name, parent⟩))
    have other : p ≠ path := fun here => untouched (.inr (.inl ⟨rfl, rfl, here⟩))
    exact ⟨fun present => by simpa [leave, other] using present, Function.update_of_ne above _ _⟩
  | _ => trivial

theorem keeps_put (untouched : ¬ WatchState.Triggers path .changed t p) :
    r.Keeps p t (r.put path e) := by
  cases t with
  | watch =>
    have other : p ≠ path := fun here => untouched (.inl ⟨rfl, here⟩)
    exact Function.update_of_ne other _ _
  | listWatch =>
    refine ⟨fun present => ?_, rfl⟩
    by_cases here : p = path
    · simp [put, here]
    · simpa [put, here] using present
  | _ => trivial

/-- The firings of a write tell of all that it changes. -/
theorem Writes.keeps {entry : MultiOp × MultiOpResponse} (writes : Writes id r entry r')
    (untouched : ∀ path event,
      .fire path event ∈ (entry.1.changes entry.2).filterMap Change.firing →
        ¬ WatchState.Triggers path event t p) : r.Keeps p t r' := by
  cases writes with
  | @create req path q name above stamp names vacant parent named stored lasting =>
    exact keeps_enter parent (untouched path .created (by simp [MultiOp.changes, Change.firing]))
  | @set req e stamp stat stored version shows =>
    exact keeps_put (untouched req.path .changed (by simp [MultiOp.changes, Change.firing]))
  | @delete req q name e stored version parent named leaf childless =>
    exact keeps_leave parent
      (untouched req.path .deleted (by simp [MultiOp.changes, Change.firing]))
  | check stored version => exact .refl r p t

/-- The calls of a write that was carried out are the firings of it. -/
theorem Writes.watchCalls {req : Request} {op : MultiOp} {response : MultiOpResponse}
    (writes : Writes id r (op, response) r') (write : req.write? = some op) (xid : Int32)
    (zxid : ℕ) :
    (op.changes response).filterMap Change.firing ⊆
      req.watchCalls id ⟨xid, zxid, .ok, response.plainBody⟩ := by
  cases req with
  | create req | set req | remove req =>
    cases write
    cases writes
    simp [MultiOp.changes, Change.firing, Request.watchCalls, Request.changes,
      MultiOpResponse.plainBody]
  | _ => cases write

theorem watchCalls_batch (id : SessionId) (entries : List (MultiOp × MultiOpResponse)) (xid : Int32)
    (zxid : ℕ) :
    (Request.multi (entries.map Prod.fst)).watchCalls id
        ⟨xid, zxid, .ok, .multi (entries.map Prod.snd)⟩ =
      (entries.flatMap fun entry => entry.1.changes entry.2).filterMap Change.firing := by
  simp only [Request.watchCalls, Request.changes, List.zip_map', List.flatMap_map]

/-- So do the calls of a request, but for the end of a session. -/
theorem Answers.keeps {req : Request} {reply : Reply}
    (answers : Answers id works r req reply.err reply.body r')
    (untouched : ∀ path event, .fire path event ∈ req.watchCalls id reply →
      ¬ WatchState.Triggers path event t p)
    (ends : req = .close → r.Keeps p t (r.release id)) : r.Keeps p t r' := by
  obtain ⟨xid, zxid, code, body⟩ := reply
  cases answers with
  | wrote write writes =>
    exact writes.keeps fun path event fires =>
      untouched path event (writes.watchCalls write xid zxid fires)
  | @batch entries r' run =>
    rw [watchCalls_batch] at untouched
    have each : ∀ entry ∈ entries, ∀ path event,
        .fire path event ∈ (entry.1.changes entry.2).filterMap Change.firing →
          ¬ WatchState.Triggers path event t p := by
      intro entry mem path event fires
      refine untouched path event ?_
      rw [List.filterMap_flatMap]
      exact List.mem_flatMap.mpr ⟨entry, mem, fires⟩
    exact (run.restrict each).invariant (r.Keeps p t) (.refl r p t)
      fun _ _ _ kept last => kept.trans (last.1.keeps last.2)
  | close => exact ends rfl
  | _ => exact .refl r p t

/-- A reply that lasts as long as what its watch stands for: not that there is nothing to list. -/
def Guarded (code : ErrorCode) : Request → Prop
  | .get _ | .exists _ => True
  | .list _ | .simpleList _ => code = .ok
  | _ => False

theorem Lists.same {names names' : List String} (lists : r.Lists p names)
    (lists' : r'.Lists p names') (below : r'.below p = r.below p) : names' = names := by
  rw [lists'.sorted, lists.sorted, below]

/-- What is kept is shown again. -/
theorem Reads.same {req : Request} {code code' : ErrorCode} {body body' : ReplyBody}
    (reads : r.Reads req code body) (again : r'.Reads req code' body')
    (guarded : Guarded code req) (asks : req.watch? = some (p, t)) (keeps : r.Keeps p t r') :
    code' = code ∧ body.Same body' := by
  obtain ⟨rfl, read, asked, rfl⟩ | ⟨rfl, read, asked, rfl⟩ := Request.watch?_cases asks
  · have same : r'.entries read.path = r.entries read.path := keeps
    obtain rfl | rfl := asked
    · cases reads with
      | missing looks missing =>
        cases looks
        cases again with
        | missing => exact ⟨rfl, .empty⟩
        | get stored shows => cases (same.trans missing).symm.trans stored
      | get stored shows =>
        cases again with
        | missing looks missing =>
          cases looks
          cases (same.trans stored).symm.trans missing
        | get stored' shows' =>
          cases (same.trans stored).symm.trans stored'
          exact ⟨rfl, .getData (shows.sameNode shows')⟩
    · cases reads with
      | missing looks missing =>
        cases looks
        cases again with
        | missing => exact ⟨rfl, .empty⟩
        | «exists» stored shows => cases (same.trans missing).symm.trans stored
      | «exists» stored shows =>
        cases again with
        | missing looks missing =>
          cases looks
          cases (same.trans stored).symm.trans missing
        | «exists» stored' shows' =>
          cases (same.trans stored).symm.trans stored'
          exact ⟨rfl, .stat (shows.sameNode shows')⟩
  · obtain ⟨present, below⟩ := keeps
    have count : r'.numChildren read.path = r.numChildren read.path := by
      rw [numChildren, below, numChildren]
    obtain rfl | rfl := asked
    · have ok : code = .ok := guarded
      cases reads with
      | missing looks missing => cases ok
      | list stored shows lists =>
        cases again with
        | missing looks missing =>
          cases looks
          exact absurd missing (present (stored ▸ Option.some_ne_none _))
        | list stored' shows' lists' =>
          rw [lists.same lists' below, count]
          exact ⟨rfl, .childrenAndStat⟩
    · have ok : code = .ok := guarded
      cases reads with
      | missing looks missing => cases ok
      | simpleList stored lists =>
        cases again with
        | missing looks missing =>
          cases looks
          exact absurd missing (present stored)
        | simpleList stored' lists' =>
          rw [lists.same lists' below]
          exact ⟨rfl, .children⟩

theorem Answers.reads {req : Request} {code : ErrorCode} {body : ReplyBody}
    (answers : Answers id works r req code body r') (asks : req.watch? = some (p, t)) :
    r.Reads req code body := by
  cases req with
  | get read | «exists» read | list read | simpleList read =>
    cases answers with
    | read reads => exact reads
    | wrote write | refused write | unlogged write => cases write
  | _ => cases asks

/-- The session with which the event ends. -/
def Event.ends : Event → Option SessionId
  | .served id _ .close _ _ => some id
  | .served _ _ _ _ _ => none
  | .ended id => some id

/-- Nothing that a watch of this kind on `p` stands for ends with a session. -/
def Spared (r : Registry) (p : String) (t : WatchType) (a : Event) : Prop :=
  ∀ id ∈ a.ends, r.Keeps p t (r.release id)

end Registry

namespace KeeperServer
variable {recordBytes : LogRecord → ℕ} {s s' s₀ s₁ : KeeperServer recordBytes} {p : String}
  {t : WatchType} {e : Executed}

def Spares (p : String) (t : WatchType) (s : KeeperServer recordBytes) (e : Executed)
    (s' : KeeperServer recordBytes) : Prop :=
  s.Serves e s' ∧ ∀ a ∈ e.registered, s.storage.registry.Spared p t a

theorem Spares.keeps (spares : Spares p t s e s') (hl : s.storage.Linked) (hi : s.storage.Indexed)
    (untouched : ∀ path event, .fire path event ∈ e.watchCalls →
      ¬ WatchState.Triggers path event t p) :
    s.storage.registry.Keeps p t s'.storage.registry := by
  obtain ⟨serves, spared⟩ := spares
  obtain ⟨seen, unseen⟩ := serves.registered hl hi
  cases label : e.registered with
  | none =>
    rw [unseen label]
    exact .refl _ p t
  | some a =>
    have step := seen a label
    have spared := spared a label
    obtain ⟨env, event, output⟩ := e
    cases event with
    | handle xid id req =>
      cases output with
      | applied r =>
        cases label
        cases step with
        | served answers =>
          refine answers.keeps untouched fun close => spared id ?_
          rw [close]
          rfl
      | _ => cases label
    | closeSession id =>
      cases label
      generalize s'.storage.registry = r' at step ⊢
      cases step
      exact spared id rfl
    | _ => cases label

theorem kept_of_life {log : List Executed} (life : Run Serves (initial recordBytes) log s) :
    s.storage.Linked ∧ s.storage.Indexed :=
  life.invariant (fun s => s.storage.Linked ∧ s.storage.Indexed)
    ⟨initial_reachable.linked, KeeperStorage.new_indexed 500⟩
    fun _ _ _ h serves => ⟨serves.step.linked h.1, serves.indexed h.1 h.2⟩

/-- A read with a watch leaves all as it is. -/
theorem Serves.reads (serves : s.Serves e s') (hl : s.storage.Linked) (hi : s.storage.Indexed)
    {h : Handled} (handled : e.handled = some h) (asks : h.request.watch? = some (p, t)) :
    s.storage.registry.Keeps p t s'.storage.registry ∧
      s.storage.registry.Reads h.request h.result.response.err h.result.response.body := by
  obtain ⟨env, event, output⟩ := e
  cases event with
  | handle xid id req =>
    cases output with
    | applied r =>
      cases handled
      cases (serves.registered hl hi).1 _ rfl with
      | served answers =>
        refine ⟨answers.keeps ?_ fun close => ?_, answers.reads asks⟩
        · rw [Request.watchCalls_of_watch? _ _ _ asks]
          simp
        · rw [close] at asks
          cases asks
    | _ => cases handled
  | _ => cases handled

/-- A read is always answered, from the registry. -/
theorem exec_read (hl : s.storage.Linked) (hi : s.storage.Indexed) {req : Request}
    (asks : req.watch? = some (p, t)) (env : Env) (xid : Int32) (id : SessionId) :
    ∃ r s', s.exec env (.handle xid id req) = .done (.applied r) s' ∧
      s.storage.registry.Reads req r.response.err r.response.body := by
  have done : ∃ r s', s.handle env xid id req = .done r s' := by
    cases req with
    | get read | «exists» read | list read | simpleList read =>
      obtain ⟨code, answer, done, -⟩ := s.handleRead_done xid id read _ _
      exact ⟨_, _, done⟩
    | _ => cases asks
  obtain ⟨r, s', handled⟩ := done
  have registered : s.Registered env.flush.works id req (s.handle env xid id req) :=
    handle_registered hl hi env xid req
  rw [handled] at registered
  have answers : Registry.Answers id env.flush.works s.storage.registry req r.response.err
    r.response.body s'.storage.registry := registered
  refine ⟨r, s', ?_, answers.reads asks⟩
  rw [exec, handled]
  rfl

/-- As long as the session of a watch is not told, nothing is fired that triggers the watch. -/
theorem untouched_of_untold (reachable : Reachable s₀) {later : List Executed}
    (run : Run Executes s₀ (e :: later) s) {h : Handled} (handled : e.handled = some h)
    (asks : h.request.watch? = some (p, t))
    (stays : ∀ h' ∈ later.filterMap Executed.handled, h'.session = h.session →
      h'.request ≠ .close)
    (untold : ∀ event ∈ later.flatMap fun e => e.output.watchEvents, ¬ event.Tells h.session p t) :
    ∀ e ∈ later, ∀ path event, .fire path event ∈ e.watchCalls →
      ¬ WatchState.Triggers path event t p := by
  intro e' mem path event fires triggers
  obtain ⟨ws, consistent, registered, lives, calls⟩ := watch_calls reachable run handled asks stays
  obtain ⟨told, inside, tells⟩ := calls.fulfils consistent (fun c mem => watchCalls_plain mem)
    lives registered (List.mem_flatMap.mpr ⟨e', mem, fires⟩) triggers
  exact untold told inside tells

theorem keeps_of_spares {later : List Executed} (run : Run (Spares p t) s₁ later s)
    (kept : s₁.storage.Linked ∧ s₁.storage.Indexed)
    (untouched : ∀ e ∈ later, ∀ path event, .fire path event ∈ e.watchCalls →
      ¬ WatchState.Triggers path event t p) :
    s₁.storage.registry.Keeps p t s.storage.registry := by
  obtain ⟨-, -, keeps⟩ := (run.restrict untouched).invariant
    (fun s => s.storage.Linked ∧ s.storage.Indexed ∧
      s₁.storage.registry.Keeps p t s.storage.registry)
    ⟨kept.1, kept.2, .refl _ p t⟩
    fun u e' v h last => ⟨last.1.1.step.linked h.1, last.1.1.indexed h.1 h.2.1,
      h.2.2.trans (last.1.keeps h.1 h.2.1 last.2)⟩
  exact keeps

/-- A client that has read with a watch, and has not been told since, knows what is there now: if it
asked again, it would get the answer that it has, up to what the watch does not tell of. What ends
with a session is the exception. -/
theorem cache_coherent {before later : List Executed}
    (life : Run Serves (initial recordBytes) (before ++ [e]) s₁) {h : Handled}
    (handled : e.handled = some h) (asks : h.request.watch? = some (p, t))
    (run : Run (Spares p t) s₁ later s)
    (stays : ∀ h' ∈ later.filterMap Executed.handled, h'.session = h.session →
      h'.request ≠ .close)
    (untold : ∀ event ∈ later.flatMap fun e => e.output.watchEvents, ¬ event.Tells h.session p t) :
    s₁.storage.registry.Keeps p t s.storage.registry ∧
      (Registry.Guarded h.result.response.err h.request → ∀ env xid, ∃ r s',
        s.exec env (.handle xid h.session h.request) = .done (.applied r) s' ∧
          r.response.err = h.result.response.err ∧
          h.result.response.body.Same r.response.body) := by
  obtain ⟨s₀, init, reads⟩ := life.snoc_split
  have executes : Run Executes (initial recordBytes) before s₀ := init.mono fun _ _ _ h => h.1
  have reachable := (consistent_of_run initial_reachable executes).reachable
  have goes : Run Executes s₀ (e :: later) s :=
    Run.cons_iff.mpr ⟨s₁, reads.1, run.mono fun _ _ _ h => h.1.1⟩
  have untouched := untouched_of_untold reachable goes handled asks stays untold
  have keeps := keeps_of_spares run (kept_of_life life) untouched
  obtain ⟨hl, hi⟩ := kept_of_life init
  obtain ⟨same, shown⟩ := reads.reads hl hi handled asks
  refine ⟨keeps, fun guarded env xid => ?_⟩
  obtain ⟨hl, hi⟩ := run.invariant (fun s => s.storage.Linked ∧ s.storage.Indexed)
    (kept_of_life life) fun _ _ _ h last => ⟨last.1.step.linked h.1, last.1.indexed h.1 h.2⟩
  obtain ⟨r, s', done, again⟩ := exec_read hl hi asks env xid h.session
  exact ⟨r, s', done, shown.same again guarded asks (same.trans keeps)⟩

/-- A node is made below the root, and the root is as its watcher has read it. -/
theorem cache_coherent_created : ∃ (s s' : KeeperServer fun _ => 1) (reply : Reply)
    (r : ApplyResult), reply.err = .ok ∧ s.storage.map.get "/a" ≠ none ∧
      s.exec (.working 2) (.handle 3 1 (.get ⟨"/", true⟩)) = .done (.applied r) s' ∧
      r.response.err = .ok ∧ reply.body.Same r.response.body := by
  obtain ⟨opened, opens, next, r, v, watches, next', ok, r', s, creates, quiet, n, made⟩ :
      ∃ opened, (initial fun _ => 1).exec (.working 0) (.createSession 5000) =
        .done (.session 1) opened ∧ opened.storage.sessionState.nextSessionId = 2 ∧
      ∃ r v, opened.exec (.working 0) (.handle 1 1 (.get ⟨"/", true⟩)) = .done (.applied r) v ∧
        v.storage.sessionState.nextSessionId = 2 ∧ r.response.err = .ok ∧
      ∃ r' s, v.exec (.working 1) (.handle 2 1 (.create ⟨"/a", [], 0⟩)) = .done (.applied r') s ∧
        r'.watchEvents = [] ∧ ∃ n, s.storage.map.get "/a" = some n :=
    ⟨_, rfl, rfl, _, _, rfl, rfl, rfl, _, _, rfl, rfl, _, rfl⟩
  let e : Executed := ⟨.working 0, .handle 1 1 (.get ⟨"/", true⟩), .applied r⟩
  let e' : Executed := ⟨.working 1, .handle 2 1 (.create ⟨"/a", [], 0⟩), .applied r'⟩
  have issued (u : KeeperServer fun _ => 1) (next : u.storage.sessionState.nextSessionId = 2) :
      u.storage.sessionState.Issued 1 := ⟨by decide, by rw [next]; decide⟩
  have first : (initial fun _ => 1).Serves ⟨.working 0, .createSession 5000, .session 1⟩ opened :=
    ⟨opens, trivial⟩
  have reads : opened.Serves e v := ⟨watches, issued opened next⟩
  have writes : Spares "/" .watch v e' s := by
    refine ⟨⟨creates, issued v next'⟩, ?_⟩
    rintro _ ⟨⟩ _ ⟨⟩
  obtain ⟨-, coherent⟩ := cache_coherent ((Run.single first).snoc reads) rfl rfl
    (p := "/") (t := .watch) (.single writes) (by
      intro h mem _
      cases List.mem_singleton.mp mem
      simp) (by simp [e', Output.watchEvents, quiet])
  obtain ⟨again, s', done, same, agrees⟩ := coherent trivial (.working 2) 3
  exact ⟨s, s', r.response, again, ok, by simp [made], done, same.trans ok, agrees⟩

end KeeperServer
end TinyKeeper
