import FeoxServer.Network.Sessions
import FeoxServer.Network.Transcripts

/-!
# Queuing without effect

A queued command is not executed, and `DISCARD` drops it.  What remains is
compared with a session that ends its chunk at `MULTI`.
-/

namespace FeoxServer

open Foundation Prog

namespace Command

/-- The name that a `CLIENT SETNAME` gives. -/
def givenName : Command -> Option String
  | .client subcommand (name :: _) =>
      if toUppercase subcommand = "SETNAME" then some (fromUtf8Lossy name)
      else none
  | _ => none

/-- The name that the last `CLIENT SETNAME` gives. -/
def lastName (cmds : List Command) : Option String :=
  (cmds.filterMap givenName).getLast?

theorem lastName_append (before after : List Command) :
    lastName (before ++ after) = (lastName after).or (lastName before) := by
  rw [lastName, List.filterMap_append, List.getLast?_append]
  rfl

theorem lastName_singleton (cmd : Command) : lastName [cmd] = cmd.givenName := by
  unfold lastName
  cases h : cmd.givenName <;> simp [h]

end Command

/-- The commands among some frames. -/
def Replies.commands (replies : Replies) : List Command :=
  replies.filterMap fun r => (Command.fromResp r.1).toOption

theorem Replies.commands_append (before after : Replies) :
    Replies.commands (before ++ after) = before.commands ++ after.commands :=
  List.filterMap_append

namespace Connection

theorem noteClientName_given (c : Connection) (cmd : Command) :
    c.noteClientName cmd =
      { c with clientName := cmd.givenName.or c.clientName } := by
  cases cmd with
  | client subcommand args =>
      cases args with
      | nil => rfl
      | cons name rest =>
          simp only [noteClientName, Command.givenName]
          split <;> rfl
  | _ => rfl

/-!
# Frames that only queue
-/

variable {fuel : Nat} {T : Service Call Answer}

/-- The same as far as the service and the registry of clients can see, except
for the name and the number of commands. -/
structure Alike (c c' : Connection) : Prop where
  connectionId : c'.connectionId = c.connectionId
  authenticated : c'.authenticated = c.authenticated
  subscriptionCount : c'.subscriptionCount = c.subscriptionCount
  flags : c'.flags = c.flags

theorem Alike.refl (c : Connection) : Alike c c :=
  ⟨rfl, rfl, rfl, rfl⟩

theorem Alike.trans {c c1 c2 : Connection} (h : Alike c c1) (h' : Alike c1 c2) :
    Alike c c2 where
  connectionId := h'.connectionId.trans h.connectionId
  authenticated := h'.authenticated.trans h.authenticated
  subscriptionCount := h'.subscriptionCount.trans h.subscriptionCount
  flags := h'.flags.trans h.flags

/-- A frame answered `QUEUED` in a transaction makes no call and changes no more
than the queue and the name. -/
theorem run_queued {c c' : Connection} {v : RespValue} {flow : Flow}
    {s s' : T.State} (hqueuing : c.transactionState = .queuing)
    (hflow : flow.isQueued = true)
    (hrun : (c.processFrame fuel v).run T s = some ((c', flow), s')) :
    exists cmd, Command.fromResp v = .ok cmd ∧ s' = s ∧ flow.ops = [] ∧
      Alike c c' ∧ c'.transactionState = .queuing ∧
      c'.clientName = cmd.givenName.or c.clientName := by
  rcases run_processFrame.mp hrun with ⟨c1, hframe, rfl⟩
  rw [frameFlow_eq] at hframe
  cases hroute : c.route v with
  | fast f =>
      rw [hroute] at hframe
      rcases (run_bind_eq_some _).mp hframe with ⟨r, s1, _, hdone⟩
      cases hdone
      cases hflow
  | invalid e | quit | refused =>
      rw [hroute] at hframe
      cases hframe
      cases hflow
  | dispatched cmd =>
      rw [hroute] at hframe
      have hdispatched := dispatched_of_route hroute
      simp only [noteClientName_given] at hframe
      have hstate : ({ c.countCommand with
          clientName := cmd.givenName.or c.countCommand.clientName } :
            Connection).transactionState = .queuing := hqueuing
      cases step_dispatch hdispatched.parsed hdispatched.open_ hframe with
      | kept _ _ _ hquiet =>
          rw [hquiet hqueuing] at hflow
          cases hflow
      | begun _ hidle => exact absurd hqueuing hidle
      | queued hcmd hordinary =>
          rw [hdispatched.parsed] at hcmd
          cases hcmd
          rw [dispatch_ordinary hordinary, if_pos hstate] at hframe
          cases hframe
          exact ⟨cmd, hdispatched.parsed, rfl, rfl, ⟨rfl, rfl, rfl, rfl⟩,
            hqueuing, rfl⟩
      | ended _ hquiet =>
          rw [hquiet] at hflow
          cases hflow

theorem run_discard {c c' : Connection} {v : RespValue} {flow : Flow}
    {s s' : T.State} (hqueuing : c.transactionState = .queuing)
    (hcmd : Command.fromResp v = .ok .discard)
    (hrun : (c.processFrame fuel v).run T s = some ((c', flow), s')) :
    s' = s ∧ flow.ops = [] ∧ Alike c c' ∧ c'.clientName = c.clientName := by
  have hslow : c.fastPath v = none := fastPath_eq_none hcmd fun f => by
    cases f <;> simp [FastCommand.command]
  have hroute := route_of_slow hslow hcmd
  rw [if_neg (by simp)] at hroute
  split at hroute
  · rcases run_of_refused hroute hrun with ⟨rfl, rfl, rfl⟩
    exact ⟨rfl, rfl, ⟨rfl, rfl, rfl, rfl⟩, rfl⟩
  · rcases run_processFrame.mp hrun with ⟨c1, hframe, rfl⟩
    rw [frameFlow_eq, hroute] at hframe
    have hstate : ¬ c.countCommand.transactionState ≠ .queuing :=
      not_not.mpr hqueuing
    change (dispatch fuel c.countCommand .discard).run T s = _ at hframe
    rw [dispatch, discard, if_neg hstate] at hframe
    cases hframe
    exact ⟨rfl, rfl, ⟨rfl, rfl, rfl, rfl⟩, rfl⟩

/-!
# The end of a chunk
-/

theorem alike_confirmAll (messages : List PubSubMessage) {c c1 : Connection}
    (h : Alike c c1) :
    Alike (c.confirmAll messages) (c1.confirmAll messages) ∧
      (c1.confirmAll messages).clientName = c1.clientName := by
  induction messages generalizing c c1 with
  | nil => exact ⟨h, rfl⟩
  | cons message messages ih =>
      have hcount : forall count, Alike (c.setSubscriptionCount count)
          (c1.setSubscriptionCount count) := fun count =>
        ⟨h.connectionId, h.authenticated, rfl,
          by simp only [setSubscriptionCount, h.flags]⟩
      have hconfirm : Alike (c.confirm message) (c1.confirm message) ∧
          (c1.confirm message).clientName = c1.clientName := by
        cases message with
        | subscribe _ count | unsubscribe _ count | psubscribe _ count
        | punsubscribe _ count =>
            have hc := hcount count
            exact ⟨⟨hc.connectionId, hc.authenticated, hc.subscriptionCount,
              hc.flags⟩, rfl⟩
        | _ =>
            exact ⟨⟨h.connectionId, h.authenticated, h.subscriptionCount,
              h.flags⟩, rfl⟩
      rcases ih hconfirm.1 with ⟨halike, hname⟩
      exact ⟨halike, hname.trans hconfirm.2⟩

theorem connectionId_handleOperations (threadId : ThreadId) (ops : List PubSubOp)
    (c : Connection) (st : PubSubState) :
    (handleOperations threadId ops c st).2.1.connectionId = c.connectionId := by
  rcases handleOperations_eq threadId ops c st with ⟨_, _, _, _, heq⟩
  rw [heq]

theorem alike_handleOperations (threadId : ThreadId) (ops : List PubSubOp)
    {c c1 : Connection} (st : PubSubState) (h : Alike c c1) :
    Alike (handleOperations threadId ops c st).2.1
        (handleOperations threadId ops c1 st).2.1 ∧
      (handleOperations threadId ops c1 st).2.2 =
        (handleOperations threadId ops c st).2.2 ∧
      (handleOperations threadId ops c1 st).2.1.clientName = c1.clientName := by
  induction ops generalizing c c1 st with
  | nil => exact ⟨h, rfl, rfl⟩
  | cons op ops ih =>
      have hop :
          Alike (handlePubsubOperation st c.connectionId op c threadId).2.1
            (handlePubsubOperation st c1.connectionId op c1 threadId).2.1 ∧
          (handlePubsubOperation st c1.connectionId op c1 threadId).2.2 =
            (handlePubsubOperation st c.connectionId op c threadId).2.2 ∧
          (handlePubsubOperation st c1.connectionId op c1
            threadId).2.1.clientName = c1.clientName := by
        rw [h.connectionId]
        cases op with
        | subscribe names | unsubscribe names | psubscribe names
        | punsubscribe names =>
            exact ⟨(alike_confirmAll _ h).1, rfl, (alike_confirmAll _ h).2⟩
        | _ =>
            exact ⟨⟨h.connectionId, h.authenticated, h.subscriptionCount,
              h.flags⟩, rfl, rfl⟩
      rcases hop with ⟨halike, hstate, hname⟩
      have hrest := ih (handlePubsubOperation st c.connectionId op c
        threadId).2.2 halike
      simp only [handleOperations]
      rw [hstate]
      exact ⟨hrest.1, hrest.2.1, hrest.2.2.trans hname⟩

end Connection

/-!
# Sessions that agree
-/

namespace Session

variable {S : FeoxStore} {P : Platform} {fuel : Nat} {threadId : ThreadId}

/-- The same world and service and alike connections; of the entry of the
connection in the registry of clients, something is forgotten. -/
structure Agree (forget : ClientInfo -> ClientInfo) (a b : Session S P) :
    Prop where
  store : b.shared.world.store = a.shared.world.store
  platform : b.shared.world.platform = a.shared.world.platform
  watch : b.shared.world.watch = a.shared.world.watch
  tracker : b.shared.world.tracker = a.shared.world.tracker
  pubsub : b.shared.pubsub = a.shared.pubsub
  others : forall id, id ≠ a.connection.connectionId ->
    b.shared.world.clients.lookup id = a.shared.world.clients.lookup id
  entry : (b.shared.world.clients.lookup a.connection.connectionId).map forget =
    (a.shared.world.clients.lookup a.connection.connectionId).map forget
  alike : a.connection.Alike b.connection

theorem Agree.refl (forget : ClientInfo -> ClientInfo) (a : Session S P) :
    Agree forget a a :=
  ⟨rfl, rfl, rfl, rfl, rfl, fun _ _ => rfl, rfl, .refl _⟩

theorem Agree.trans {forget : ClientInfo -> ClientInfo} {a b d : Session S P}
    (h : Agree forget a b) (h' : Agree forget b d) : Agree forget a d where
  store := h'.store.trans h.store
  platform := h'.platform.trans h.platform
  watch := h'.watch.trans h.watch
  tracker := h'.tracker.trans h.tracker
  pubsub := h'.pubsub.trans h.pubsub
  others id hid := by
    have hid' : id ≠ b.connection.connectionId := by
      rw [h.alike.connectionId]
      exact hid
    exact (h'.others id hid').trans (h.others id hid)
  entry := by
    have hentry := h'.entry
    rw [h.alike.connectionId] at hentry
    exact hentry.trans h.entry
  alike := h.alike.trans h'.alike

theorem clientName_finish (ses : Session S P) :
    (ses.finish threadId).connection.clientName = ses.connection.clientName :=
  (Connection.alike_handleOperations threadId ses.ops ses.shared.pubsub
    (.refl ses.connection)).2.2

theorem connectionId_step {ses ses' : Session S P} {input : Input} {replies : Replies}
    (hstep : ses.step fuel threadId input = some (ses', replies)) :
    ses'.connection.connectionId = ses.connection.connectionId := by
  cases input with
  | received data =>
      rcases (ses.connection.feed data).clearWritten_eq with
        ⟨buffer, position, hclear⟩
      rw [step, hclear] at hstep
      cases hstep
      rfl
  | frame parser v =>
      rcases Option.map_eq_some_iff.mp hstep with ⟨⟨ses1, flow⟩, hframe, heq⟩
      cases heq
      rcases frame_eq_some.mp hframe with ⟨c, world, hrun, heq⟩
      rw [heq]
      exact (Connection.run_anything (Connection.processFrame_lasting fuel
        { ses.connection with parser := parser } v) hrun).connectionId
  | finished =>
      cases hstep
      exact Connection.connectionId_handleOperations threadId ses.ops ses.connection
        ses.shared.pubsub
  | sent n =>
      cases hstep
      rfl

theorem clients_finish (ses : Session S P) :
    (ses.finish threadId).shared.world.clients =
      ses.shared.world.clients.update (ses.finish threadId).connection := rfl

theorem agree_finish {ses ses' : Session S P}
    (hshared : ses'.shared = ses.shared) (hops : ses'.ops = ses.ops)
    (halike : ses.connection.Alike ses'.connection) :
    Agree ClientInfo.anonymous (ses.finish threadId) (ses'.finish threadId) := by
  rcases Connection.alike_handleOperations threadId ses.ops ses.shared.pubsub
    halike with ⟨hafter, hpubsub, _⟩
  have halike' : (ses.finish threadId).connection.Alike
      (ses'.finish threadId).connection := by
    unfold finish Shared.finishRead
    rw [hshared, hops]
    exact ⟨hafter.connectionId, hafter.authenticated, hafter.subscriptionCount,
      hafter.flags⟩
  have hworld : forall id,
      (ses'.finish threadId).shared.world.clients.lookup id =
        (ses.shared.world.clients.update
          (ses'.finish threadId).connection).lookup id := by
    intro id
    rw [clients_finish, hshared]
  refine ⟨?_, ?_, ?_, ?_, ?_, ?_, ?_, halike'⟩
  · exact congrArg (fun sh => sh.world.store) hshared
  · exact congrArg (fun sh => sh.world.platform) hshared
  · exact congrArg (fun sh => sh.world.watch) hshared
  · exact congrArg (fun sh => sh.world.tracker) hshared
  · unfold finish Shared.finishRead
    rw [hshared, hops]
    exact hpubsub
  · intro id hid
    have hid' : id ≠ (ses'.finish threadId).connection.connectionId := by
      rw [halike'.connectionId]
      exact hid
    rw [hworld, clients_finish, ClientRegistry.lookup_update, if_neg hid',
      ClientRegistry.lookup_update, if_neg hid]
  · rw [hworld, clients_finish, ClientRegistry.lookup_update,
      if_pos halike'.connectionId.symm, ClientRegistry.lookup_update,
      if_pos rfl, Option.map_map, Option.map_map]
    congr 1
    funext info
    simp only [Function.comp, ClientInfo.anonymous, ClientRegistry.updated,
      halike'.flags]

theorem agree_finish_finish (ses : Session S P) :
    Agree ClientInfo.anonymous (ses.finish threadId)
      ((ses.finish threadId).finish threadId) := by
  refine ⟨rfl, rfl, rfl, rfl, rfl, ?_, ?_, ⟨rfl, rfl, rfl, rfl⟩⟩
  · intro id hid
    exact (ClientRegistry.lookup_update _ _ _).trans (if_neg hid)
  · rw [clients_finish, ClientRegistry.lookup_update, if_pos (by rfl),
      Option.map_map, clients_finish, ClientRegistry.lookup_update, if_pos rfl,
      Option.map_map, Option.map_map]
    rfl

theorem name_of_finish {ses : Session S P} {info : ClientInfo}
    (h : (ses.finish threadId).shared.world.clients.lookup
      (ses.finish threadId).connection.connectionId = some info) :
    info.name = (ses.finish threadId).connection.clientName := by
  rw [clients_finish, ClientRegistry.lookup_update, if_pos rfl] at h
  rcases Option.map_eq_some_iff.mp h with ⟨info', _, rfl⟩
  rfl

/-- Nothing but the number of commands differs, as far as it is seen outside
the connection or in its metadata. -/
structure Undisturbed (a b : Session S P) : Prop where
  agree : Agree ClientInfo.uncounted a b
  name : b.connection.clientName = a.connection.clientName

theorem undisturbed_finish_iff {ses ses' : Session S P}
    (h : Agree ClientInfo.anonymous (ses.finish threadId)
      (ses'.finish threadId)) :
    Undisturbed (ses.finish threadId) (ses'.finish threadId) <->
      ses'.connection.clientName = ses.connection.clientName := by
  constructor
  · intro hundisturbed
    have hname := hundisturbed.name
    rwa [clientName_finish, clientName_finish] at hname
  · intro hname
    have hnames : (ses'.finish threadId).connection.clientName =
        (ses.finish threadId).connection.clientName := by
      rw [clientName_finish, clientName_finish, hname]
    refine ⟨{ h with entry := ?_ }, hnames⟩
    have hentry := h.entry
    cases hafter : (ses'.finish threadId).shared.world.clients.lookup
        (ses.finish threadId).connection.connectionId with
    | none =>
        rw [hafter] at hentry
        rw [Option.map_eq_none_iff.mp hentry.symm]
    | some info' =>
        rw [hafter] at hentry
        rcases Option.map_eq_some_iff.mp hentry.symm with ⟨info, hbefore, heq⟩
        have hown := name_of_finish hbefore
        rw [← h.alike.connectionId] at hafter
        have hown' := name_of_finish hafter
        have hsame : info.uncounted = info'.uncounted := by
          simp only [ClientInfo.anonymous, ClientInfo.mk.injEq] at heq
          simp only [ClientInfo.uncounted, ClientInfo.mk.injEq]
          exact ⟨heq.1, by rw [hown, hown', hnames], heq.2.2⟩
        rw [hbefore, Option.map_some, Option.map_some, hsame]

/-!
# Runs that only queue
-/

/-- What inputs in a transaction come to as long as all frames are answered
`QUEUED`. -/
structure Queued (threadId : ThreadId) (ses ses' : Session S P)
    (replies : Replies) : Prop where
  queuing : ses'.connection.transactionState = .queuing
  agree : Agree ClientInfo.anonymous (ses.finish threadId)
    (ses'.finish threadId)
  name : ses'.connection.clientName =
    (Command.lastName replies.commands).or ses.connection.clientName

theorem queued_step {ses ses' : Session S P} {input : Input} {replies : Replies}
    (hqueuing : ses.connection.transactionState = .queuing)
    (hstep : ses.step fuel threadId input = some (ses', replies))
    (hqueued : forall reply, reply ∈ replies -> reply.2.isQueued = true) :
    Queued threadId ses ses' replies := by
  cases input with
  | received data =>
      rcases (ses.connection.feed data).clearWritten_eq with
        ⟨buffer, position, hclear⟩
      rw [step, hclear] at hstep
      cases hstep
      exact ⟨hqueuing, agree_finish rfl rfl ⟨rfl, rfl, rfl, rfl⟩, rfl⟩
  | frame parser v =>
      rcases Option.map_eq_some_iff.mp hstep with ⟨⟨ses1, flow⟩, hframe, heq⟩
      cases heq
      rcases frame_eq_some.mp hframe with ⟨c, world, hrun, rfl⟩
      rcases Connection.run_queued
        (c := { ses.connection with parser := parser }) hqueuing
        (hqueued (v, flow) List.mem_cons_self) hrun with
        ⟨cmd, hcmd, rfl, hops, halike, hstate, hname⟩
      refine ⟨hstate, agree_finish rfl ?_ ?_, ?_⟩
      · simp [hops]
      · exact ⟨halike.connectionId, halike.authenticated,
          halike.subscriptionCount, halike.flags⟩
      · have hcommands : Replies.commands [(v, flow)] = [cmd] := by
          simp [Replies.commands, hcmd, Except.toOption]
        rw [hcommands, Command.lastName_singleton]
        exact hname
  | finished =>
      cases hstep
      refine ⟨?_, agree_finish_finish ses, clientName_finish ses⟩
      exact (Connection.sameTransaction_handleOperations threadId ses.ops
        ses.connection ses.shared.pubsub).state.trans hqueuing
  | sent n =>
      cases hstep
      exact ⟨hqueuing, agree_finish rfl rfl ⟨rfl, rfl, rfl, rfl⟩, rfl⟩

theorem queued_run {inputs : List Input} {ses ses' : Session S P}
    {replies : Replies} (hqueuing : ses.connection.transactionState = .queuing)
    (hrun : run fuel threadId inputs ses = some (ses', replies))
    (hqueued : forall reply, reply ∈ replies -> reply.2.isQueued = true) :
    Queued threadId ses ses' replies := by
  induction inputs generalizing ses replies with
  | nil =>
      cases hrun
      exact ⟨hqueuing, .refl _ _, rfl⟩
  | cons input inputs ih =>
      rcases run_cons_eq_some.mp hrun with
        ⟨ses1, first, later, hstep, hrest, rfl⟩
      have hfirst := queued_step hqueuing hstep fun reply hmem =>
        hqueued reply (List.mem_append_left _ hmem)
      have hlater := ih hfirst.queuing hrest fun reply hmem =>
        hqueued reply (List.mem_append_right _ hmem)
      refine ⟨hlater.queuing, hfirst.agree.trans hlater.agree, ?_⟩
      rw [hlater.name, hfirst.name, Replies.commands_append,
        Command.lastName_append, Option.or_assoc]

/-- Queuing commands and dropping them leaves no trace exactly if no `CLIENT
SETNAME` among them changes the name of the connection: the last one, if there
is one, gives the name that the connection had at `MULTI`.  Both sessions are
looked at behind the ends of their chunks. -/
theorem queuing_undisturbed_iff {inputs : List Input} {ses ses1 ses' : Session S P}
    {replies : Replies} {parser : RespParser} {v : RespValue} {flow : Flow}
    (hqueuing : ses.connection.transactionState = .queuing)
    (hrun : run fuel threadId inputs ses = some (ses1, replies))
    (hqueued : forall reply, reply ∈ replies -> reply.2.isQueued = true)
    (hcmd : Command.fromResp v = .ok .discard)
    (hdiscard : ses1.frame fuel parser v = some (ses', flow)) :
    Undisturbed (ses.finish threadId) (ses'.finish threadId) <->
      forall name, Command.lastName replies.commands = some name ->
        ses.connection.clientName = some name := by
  have hrunning := queued_run hqueuing hrun hqueued
  rcases frame_eq_some.mp hdiscard with ⟨c, world, hframe, rfl⟩
  rcases Connection.run_discard
    (c := { ses1.connection with parser := parser }) hrunning.queuing hcmd
    hframe with
    ⟨rfl, hops, halike, hname⟩
  have hagree : Agree ClientInfo.anonymous (ses1.finish threadId)
      (finish threadId ⟨c, ses1.shared, ses1.ops ++ flow.ops⟩) :=
    agree_finish rfl (by simp [hops]) ⟨halike.connectionId,
      halike.authenticated, halike.subscriptionCount, halike.flags⟩
  rw [undisturbed_finish_iff (hrunning.agree.trans hagree)]
  change c.clientName = _ <-> _
  rw [hname]
  change ses1.connection.clientName = _ <-> _
  rw [hrunning.name]
  cases Command.lastName replies.commands with
  | none => simp
  | some name => simp [eq_comm]

def fresh : Session mapStore idlePlatform :=
  let (c, sh) :=
    Connection.freshShared.accept 0 { requirepass := none } none 0 0
  { connection := c, shared := sh, ops := [] }

/-- Chunks sent over a new connection; its name and the one in the registry of
clients, and what has been written. -/
def nameAfter (chunks : List (List (List String))) :
    Option (Option String × Option (Option String) × Bytes) :=
  (fresh.shared.readAll 0 0 (chunks.map Connection.requests)
      fresh.connection).map fun r =>
    (r.1.clientName,
      (r.2.world.clients.getClient r.1.connectionId).map ClientInfo.name,
      r.1.writeBuffer)

/-- A name that is queued and dropped stays. -/
theorem queued_name_stays :
    nameAfter [[["MULTI"]]] = some (none, some none, asBytes "+OK\r\n") ∧
      nameAfter [[["MULTI"]], [["CLIENT", "SETNAME", "x"]], [["DISCARD"]]] =
        some (some "x", some (some "x"),
          asBytes "+OK\r\n+QUEUED\r\n+OK\r\n") := by
  decide +kernel

theorem queuing_undisturbed_iff_renamed :
    exists before ses replies ses1 ses' flow,
      run 0 0 [.frame .new (Connection.request ["CLIENT", "SETNAME", "web"]), .finished,
          .frame .new (Connection.request ["MULTI"])] fresh = some (ses, before) ∧
      ses.connection.clientName = some "web" ∧
      run 0 0 [.frame .new (Connection.request ["SET", "k", "v"]),
          .frame .new (Connection.request ["CLIENT", "SETNAME", "api"]), .finished,
          .frame .new (Connection.request ["CLIENT", "SETNAME", "web"])] ses =
        some (ses1, replies) ∧
      replies.length = 3 ∧
      ses1.frame 0 .new (Connection.request ["DISCARD"]) = some (ses', flow) ∧
      Undisturbed (ses.finish 0) (ses'.finish 0) := by
  have hscript : exists before ses replies ses1 ses' flow,
      run 0 0 [.frame .new (Connection.request ["CLIENT", "SETNAME", "web"]), .finished,
          .frame .new (Connection.request ["MULTI"])] fresh = some (ses, before) ∧
      run 0 0 [.frame .new (Connection.request ["SET", "k", "v"]),
          .frame .new (Connection.request ["CLIENT", "SETNAME", "api"]), .finished,
          .frame .new (Connection.request ["CLIENT", "SETNAME", "web"])] ses =
        some (ses1, replies) ∧
      ses1.frame 0 .new (Connection.request ["DISCARD"]) = some (ses', flow) ∧
      ses.connection.transactionState = .queuing ∧
      ses.connection.clientName = some "web" ∧
      replies.map Prod.fst = [Connection.request ["SET", "k", "v"],
        Connection.request ["CLIENT", "SETNAME", "api"],
        Connection.request ["CLIENT", "SETNAME", "web"]] ∧
      replies.map Prod.snd = List.replicate 3 (.reply (.simpleString (asBytes "QUEUED"))) := by
    exact ⟨_, _, _, _, _, _, rfl, rfl, rfl, rfl, rfl, rfl, rfl⟩
  rcases hscript with ⟨before, ses, replies, ses1, ses', flow, hmulti, hrun, hdiscard,
    hqueuing, hname, hsent, hreplies⟩
  have hqueued : forall reply, reply ∈ replies -> reply.2.isQueued = true := by
    intro reply hmem
    have hanswer := List.mem_map_of_mem (f := Prod.snd) hmem
    rw [hreplies] at hanswer
    rw [List.eq_of_mem_replicate hanswer]
    decide
  have hlast : Command.lastName replies.commands = some "web" := by
    have hcommands : replies.commands =
        (replies.map Prod.fst).filterMap fun v => (Command.fromResp v).toOption := by
      rw [List.filterMap_map]
      rfl
    rw [hcommands, hsent]
    decide +kernel
  have hlength : replies.length = 3 := by
    rw [← List.length_map Prod.snd, hreplies]
    rfl
  refine ⟨before, ses, replies, ses1, ses', flow, hmulti, hname, hrun, hlength,
    hdiscard, ?_⟩
  refine (queuing_undisturbed_iff hqueuing hrun hqueued (by rfl) hdiscard).mpr ?_
  intro name hgiven
  rw [hlast] at hgiven
  rw [hname, hgiven]

end Session

end FeoxServer
