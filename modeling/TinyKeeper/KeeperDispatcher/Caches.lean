import TinyKeeper.KeeperDispatcher.Watches
import TinyKeeper.KeeperServer.Caches

/-! What a client of the service may keep: the answer to a read with a watch is right as long as no
notification about it has been sent or is under way. -/
namespace TinyKeeper

/-- The session with which the node lasts that the reply is about, if it says so. -/
def ReplyBody.owner? : ReplyBody → Option SessionId
  | .getData _ shown _ | .stat shown _ _ => some shown.ephemeralOwner
  | _ => none

namespace Registry
variable {r r' : Registry} {id x : SessionId} {read : ReadRequest} {code : ErrorCode}
  {body : ReplyBody}

/-- The reply to a read of an entry names its owner. -/
theorem Reads.owner {req : Request} (shown : r.Reads req code body)
    (reads : req = .get read ∨ req = .exists read) {e : Entry}
    (stored : r.entries read.path = some e) : body.owner? = some e.owner := by
  obtain rfl | rfl := reads
  · cases shown with
    | missing looks missing =>
      cases looks
      cases stored.symm.trans missing
    | get stored' shows =>
      cases stored'.symm.trans stored
      exact congrArg (fun stat : Stat => some stat.ephemeralOwner) shows
  · cases shown with
    | missing looks missing =>
      cases looks
      cases stored.symm.trans missing
    | «exists» stored' shows =>
      cases stored'.symm.trans stored
      exact congrArg (fun stat : Stat => some stat.ephemeralOwner) shows

/-- The end of a session that does not own the entry leaves it. -/
theorem keeps_release {p : String}
    (other : ∀ e, r.entries p = some e → e.owner = 0 ∨ e.owner ≠ x) :
    r.Keeps p .watch (r.release x) := by
  change (r.entries p).filter _ = r.entries p
  cases stored : r.entries p with
  | none => rfl
  | some e => simpa using other e stored

end Registry

namespace KeeperServer
variable {recordBytes : LogRecord → ℕ} {s s₁ : KeeperServer recordBytes} {p : String}

/-- Sessions that end do not take a node with them that none of them owns. -/
theorem spares_of_owner {later : List Executed} (run : Run Serves s₁ later s)
    (kept : s₁.storage.Linked ∧ s₁.storage.Indexed)
    (untouched : ∀ e ∈ later, ∀ path event, .fire path event ∈ e.watchCalls →
      ¬ WatchState.Triggers path event .watch p)
    (others : ∀ e ∈ later, ∀ a ∈ e.registered, ∀ x ∈ a.ends, ∀ entry,
      s₁.storage.registry.entries p = some entry → entry.owner = 0 ∨ entry.owner ≠ x) :
    Run (Spares p .watch) s₁ later s := by
  induction run with
  | nil => exact .nil
  | @snoc later u e v init last ih =>
    have inits {Q : Executed → Prop} (all : ∀ e' ∈ later ++ [e], Q e') : ∀ e' ∈ later, Q e' :=
      fun e' mem => all e' (List.mem_append_left _ mem)
    have before := ih (inits untouched) (inits others)
    have same : u.storage.registry.entries p = s₁.storage.registry.entries p :=
      keeps_of_spares before kept (inits untouched)
    refine before.snoc ⟨last, fun a label x ends => Registry.keeps_release fun entry stored => ?_⟩
    exact others e (by simp) a label x ends entry (same.symm.trans stored)

end KeeperServer

namespace Service
variable {recordBytes : LogRecord → ℕ} {s : Service recordBytes} {as : List Action}

/-- The answer of a read with a watch is the one that the session would get now, up to what it says
of the changes below the node, as long as nothing that was fired for it since is on the socket of
the session, in its channel or in a dispatch, the session has not closed and its loop runs, and the
session that the answer names as the owner has not ended. -/
theorem cached_read_right (run : Run Step (initial recordBytes) as s)
    {before later : List Executed} {e : Executed}
    (explains : Explains (.initial recordBytes) as s (before ++ e :: later)) {h : Handled}
    (handled : e.handled = some h) {read : ReadRequest}
    (reads : h.request = .get read ∨ h.request = .exists read) (watch : read.watch = true)
    (stays : ∀ h' ∈ later.filterMap Executed.handled, h'.session = h.session →
      h'.request ≠ .close) (runs : ¬ (s.phase h.session).Out)
    (untold : ∀ notice ∈ s.notices h.session,
      (before.filterMap Executed.handled).length < notice.turn →
        ¬ notice.payload.About read.path .watch)
    (unsent : ∀ x d, (s.phase x).dispatch = some d →
      (before.filterMap Executed.handled).length < d.turn →
        ∀ event ∈ d.events, ¬ event.Tells h.session read.path .watch)
    (outlives : ∀ e ∈ later, ∀ a ∈ e.registered, ∀ x ∈ a.ends, x = 0 ∨
      h.result.response.body.owner? ≠ some x) (env : Env) (xid : Int32) :
    ∃ r server, s.server.exec env (.handle xid h.session h.request) = .done (.applied r) server ∧
      r.response.err = h.result.response.err ∧
      h.result.response.body.Same r.response.body := by
  have asks : h.request.watch? = some (read.path, .watch) := by
    obtain asked | asked := reads <;> simp [asked, Request.watch?, watch]
  have split : before ++ e :: later = (before ++ [e]) ++ later := by simp
  have turns : ((before ++ [e]).filterMap Executed.handled).length =
      (before.filterMap Executed.handled).length + 1 := by
    simp [handled]
  -- The session was not told by anything that the log has behind the read.
  have quiet : ∀ event ∈ later.flatMap fun e => e.output.watchEvents,
      ¬ event.Tells h.session read.path .watch := by
    intro event fired tells
    rw [← tells.1] at runs untold
    obtain ⟨notice, inside, later, same⟩ | ⟨x, d, carried, later, mem⟩ :=
      fired_reaches initial_started run (split ▸ explains) fired runs
    · exact untold notice inside (by omega) (same ▸ tells.2)
    · exact unsent x d carried (by omega) event mem tells
  obtain ⟨s₁, life, rest⟩ := (split ▸ explains.run).append_split
  obtain ⟨s₀, init, reading⟩ := life.snoc_split
  have executes : Run KeeperServer.Executes (.initial recordBytes) before s₀ :=
    init.mono fun _ _ _ h => h.1
  have reachable :=
    (KeeperServer.consistent_of_run KeeperServer.initial_reachable executes).reachable
  have goes : Run KeeperServer.Executes s₀ (e :: later) s.server :=
    Run.cons_iff.mpr ⟨s₁, reading.1, rest.mono fun _ _ _ h => h.1⟩
  have untouched := KeeperServer.untouched_of_untold reachable goes handled asks stays quiet
  have kept := KeeperServer.kept_of_life life
  obtain ⟨hl, hi⟩ := KeeperServer.kept_of_life init
  obtain ⟨same, shown⟩ := reading.reads hl hi handled asks
  have spares := KeeperServer.spares_of_owner rest kept untouched
    fun e' mem a label x ends entry stored => by
      have named := shown.owner reads (Eq.trans (Eq.symm same) stored)
      obtain rfl | other := outlives e' mem a label x ends
      · exact em _
      · exact .inr fun here => other (here ▸ named)
  have keeps := same.trans (KeeperServer.keeps_of_spares spares kept untouched)
  obtain ⟨hl, hi⟩ := KeeperServer.kept_of_life explains.run
  obtain ⟨r, server, done, again⟩ := KeeperServer.exec_read hl hi asks env xid h.session
  refine ⟨r, server, done, shown.same again ?_ asks keeps⟩
  obtain asked | asked := reads <;> simp [asked, Registry.Guarded]

/-- A client reads the root with a watch, and makes a node below it. -/
theorem initial_guarded : ∃ (as : List Action) (s : Service fun _ => 1) (r r' : Reply),
    Run Step (initial fun _ => 1) as s ∧
    s.phase = Function.update (fun _ => .absent) 1 .selecting ∧
    s.socket 1 = [.reply 0 r, .reply 1 r'] ∧ s.channel 1 = [] ∧
    s.history = [⟨1, .get ⟨"/", true⟩, []⟩, ⟨1, .create ⟨"/a", [], 0⟩, []⟩] ∧
    r.body.owner? = some 0 := by
  obtain ⟨server, opens, touched, touch, r, served, watches, quiet, owner, touched', touch', r',
      served', makes, quiet'⟩ :
      ∃ server, (KeeperServer.initial fun _ => 1).exec (.working 0) (.createSession 1000) =
        .done (.session 1) server ∧
      ∃ touched, server.exec (.working 0) (.touch 1) = .done .touched touched ∧
      ∃ r served, touched.exec (.working 0) (.handle 7 1 (.get ⟨"/", true⟩)) =
        .done (.applied r) served ∧ r.watchEvents = [] ∧ r.response.body.owner? = some 0 ∧
      ∃ touched', served.exec (.working 0) (.touch 1) = .done .touched touched' ∧
      ∃ r' served', touched'.exec (.working 0) (.handle 8 1 (.create ⟨"/a", [], 0⟩)) =
        .done (.applied r') served' ∧ r'.watchEvents = [] :=
    ⟨_, rfl, _, rfl, _, _, rfl, rfl, rfl, _, rfl, _, _, rfl, rfl⟩
  obtain ⟨as, as', s, s', connects, goes, phase, socket, channel, history⟩ := initial_turns opens
    touch watches touch' makes (by simp) (by simp) quiet (by simp [quiet']) (by simp [quiet'])
  rw [quiet'] at channel history
  exact ⟨_, s', r.response, r'.response, connects.trans goes, phase, socket, channel, history,
    owner⟩

/-- What the client has read of the root is right, although the root has a child now. -/
theorem cached_read_right_root : ∃ (s : Service fun _ => 1) (r r' : Reply) (r'' : ApplyResult)
    (server : KeeperServer fun _ => 1), s.socket 1 = [.reply 0 r, .reply 1 r'] ∧
      s.server.exec (.working 0) (.handle 9 1 (.get ⟨"/", true⟩)) =
        .done (.applied r'') server ∧ r''.response.err = r.err ∧
      r.body.Same r''.response.body := by
  obtain ⟨as, s, r, r', run, phase, socket, channel, history, owner⟩ := initial_guarded
  obtain ⟨log, explains⟩ := initial_started.explained run
  obtain ⟨before, e, later, h, h', rfl, at_e, first, at_later, second, rfl, -⟩ :=
    explains.two_turns history rfl socket
  have session : h.session = 1 := congrArg Turn.session first
  have request : h.request = .get ⟨"/", true⟩ := congrArg Turn.request first
  have request' : h'.request = .create ⟨"/a", [], 0⟩ := congrArg Turn.request second
  have nothing : s.notices 1 = [] := by simp [notices, socket, channel, Frame.notice?]
  have idle (x : SessionId) : (s.phase x).dispatch = none := by
    rw [phase]
    by_cases here : x = 1
    · rw [here, Function.update_self]
      rfl
    · rw [Function.update_of_ne here]
      rfl
  have asked : h.request = .get ⟨"/", true⟩ ∨ h.request = .exists ⟨"/", true⟩ := .inl request
  have right := cached_read_right run explains at_e asked rfl
    (fun h'' mem _ => by
      rw [at_later, List.mem_singleton] at mem
      simp [mem, request'])
    (by simp [session, phase, Phase.Out]) (by simp [session, nothing])
    (fun x d carried => by rw [idle] at carried; cases carried)
    (fun _ _ _ _ x _ => by
      rw [owner]
      by_cases zero : x = 0
      · exact .inl zero
      · exact .inr fun here => zero (Option.some.inj here).symm)
  obtain ⟨r'', server, done, same, agrees⟩ := right (.working 0) 9
  rw [session, request] at done
  exact ⟨s, _, _, r'', server, socket, done, same, agrees⟩

end Service
end TinyKeeper
