import FeoxServer.Network.Queuing
import FeoxServer.Protocol.ExecutorWorlds

/-!
# Transactions and direct execution

Commands sent in a transaction are compared with the same commands sent
directly, both in any chunks.
-/

namespace FeoxServer

open Foundation Prog

namespace Flow

/-- The reply that a frame writes. -/
def value : Flow -> Option RespValue
  | fast r => some r.toResp
  | reply r => some r
  | _ => none

end Flow

theorem FastCommand.run_bind_toResp (f : FastCommand) (fuel : Nat)
    (x : CommandExecutor) :
    (f.run >>= fun r => pure r.toResp) =
      CommandExecutor.respond fuel x f.command := by
  cases f with
  | set key value =>
      refine congrArg (Prog.ask _) (funext fun r => ?_)
      cases r <;> rfl
  | get key =>
      refine congrArg (Prog.ask _) (funext fun r => ?_)
      cases r with
      | ok value => rfl
      | error e =>
          change Prog.done (FastReply.toResp
              (if e.keyNotFound then .nil else .failed e)) =
            Prog.done (if e.keyNotFound then .bulkString none
              else CommandExecutor.storeError e)
          split <;> rfl

/-- The operations that some frames leave to the service. -/
def Replies.ops (replies : Replies) : List PubSubOp :=
  replies.flatMap fun r => r.2.ops

theorem Replies.ops_append (before after : Replies) :
    Replies.ops (before ++ after) = before.ops ++ after.ops :=
  List.flatMap_append

namespace Connection

variable {fuel : Nat} {T : Service Call Answer}

/-- What executing a command leaves of a connection. -/
structure Kept (c c' : Connection) : Prop extends Alike c c' where
  authRequired : c'.authRequired = c.authRequired
  transactionState : c'.transactionState = c.transactionState
  executor : exists n, c'.executor = c.executor.counting n

theorem Kept.refl (c : Connection) : Kept c c :=
  ⟨.refl c, rfl, rfl, _, rfl⟩

theorem Kept.trans {c c1 c2 : Connection} (h : Kept c c1) (h' : Kept c1 c2) :
    Kept c c2 where
  toAlike := h.toAlike.trans h'.toAlike
  authRequired := h'.authRequired.trans h.authRequired
  transactionState := h'.transactionState.trans h.transactionState
  executor := by
    rcases h.executor with ⟨n, hn⟩
    rcases h'.executor with ⟨n', hn'⟩
    exact ⟨n', by rw [hn', hn]; rfl⟩

/-!
# Commands sent directly
-/

/-- The commands that the executor deals with, and `AUTH` where no password is
set. -/
def Transferable (config : Config) (cmd : Command) : Prop :=
  cmd.isPubsubCommand = false ∧
    forall password, cmd = .auth password -> config.requirepass = none

theorem run_execute {x x' : CommandExecutor} {cmd : Command} {r : RespValue}
    {s s' : T.State}
    (hrun : (x.execute fuel cmd).run T s = some ((r, x'), s')) :
    exists n, (CommandExecutor.respond fuel (x.counting n) cmd).run T s =
        some (r, s') ∧ x' = x.counting n := by
  rcases (run_bind_eq_some _).mp hrun with ⟨r1, s1, hrespond, hdone⟩
  cases hdone
  exact ⟨_, hrespond, rfl⟩

theorem run_answer {c c' : Connection} {cmd : Command} {flow : Flow}
    {s s' : T.State} (hauthenticated : c.authenticated = true)
    (hconfig : c.authRequired = c.executor.config.authRequired)
    (hcmd : Transferable c.executor.config cmd)
    (hrun : (answer fuel c cmd).run T s = some ((c', flow), s')) :
    exists r n, flow = .reply r ∧ Kept c c' ∧ c'.clientName = c.clientName ∧
      (CommandExecutor.respond fuel (c.executor.counting n) cmd).run T s =
        some (r, s') := by
  unfold answer at hrun
  split at hrun
  · rename_i password
    have hnone := hcmd.2 password rfl
    have hrequired : c.authRequired = false := by
      rw [hconfig, Config.authRequired, hnone]
      rfl
    rw [auth, hrequired] at hrun
    cases hrun
    refine ⟨_, 0, rfl, .refl c, rfl, ?_⟩
    simp [CommandExecutor.respond, CommandExecutor.counting, hnone]
  · rw [hauthenticated, hcmd.1] at hrun
    rcases (run_bind_eq_some _).mp hrun with ⟨⟨r, x⟩, s1, hexecute, hdone⟩
    rcases run_execute hexecute with ⟨n, hrespond, hx⟩
    cases hdone
    exact ⟨r, n, rfl, ⟨⟨rfl, rfl, rfl, rfl⟩, rfl, rfl, n, hx⟩, rfl, hrespond⟩

theorem run_direct {c c' : Connection} {v : RespValue} {cmd : Command}
    {flow : Flow} {s s' : T.State} (hauthenticated : c.authenticated = true)
    (hmode : c.subscriptionCount = 0) (hidle : c.transactionState = .none)
    (hconfig : c.authRequired = c.executor.config.authRequired)
    (hparsed : Command.fromResp v = .ok cmd)
    (hordinary : cmd.isTransactionCommand = false) (hquit : cmd ≠ .quit)
    (hcmd : Transferable c.executor.config cmd)
    (hrun : (c.processFrame fuel v).run T s = some ((c', flow), s')) :
    exists r n, flow.value = some r ∧ flow.ops = [] ∧ Kept c c' ∧
      c'.clientName = cmd.givenName.or c.clientName ∧
      (CommandExecutor.respond fuel (c.executor.counting n) cmd).run T s =
        some (r, s') := by
  rcases run_processFrame.mp hrun with ⟨c1, hframe, rfl⟩
  rw [frameFlow_eq] at hframe
  cases hfast : c.fastPath v with
  | some f =>
      have hroute : c.route v = .fast f := by rw [route, hfast]
      rw [hroute] at hframe
      rcases (run_bind_eq_some _).mp hframe with ⟨r, s1, hf, hdone⟩
      cases hdone
      rw [fromResp_of_fastCommand (fastCommand_of_fastPath hfast).2] at hparsed
      cases hparsed
      refine ⟨r.toResp, 0, rfl, rfl, ⟨⟨rfl, rfl, rfl, rfl⟩, rfl, rfl, _, rfl⟩,
        ?_, ?_⟩
      · cases f <;> rfl
      · rw [← f.run_bind_toResp]
        exact (run_bind_eq_some _).mpr ⟨r, s', hf, rfl⟩
  | none =>
      have hroute := route_of_slow hfast hparsed
      have hgate : c.isInPubsubMode = false := by
        simp [isInPubsubMode, hmode]
      rw [if_neg hquit, hgate, Bool.false_and, if_neg Bool.false_ne_true]
        at hroute
      rw [hroute] at hframe
      simp only [noteClientName_given] at hframe
      have hstate : ({ c.countCommand with
          clientName := cmd.givenName.or c.countCommand.clientName } :
            Connection).transactionState ≠ .queuing := by
        change c.transactionState ≠ .queuing
        rw [hidle]
        rintro ⟨⟩
      rw [dispatch_ordinary hordinary, if_neg hstate] at hframe
      rcases run_answer (c := { c.countCommand with
          clientName := cmd.givenName.or c.countCommand.clientName })
        hauthenticated hconfig hcmd hframe with
        ⟨r, n, rfl, hkept, hname, hrespond⟩
      exact ⟨r, n, rfl, rfl, ⟨⟨hkept.connectionId, hkept.authenticated,
        hkept.subscriptionCount, hkept.flags⟩, hkept.authRequired,
        hkept.transactionState, hkept.executor⟩, hname, hrespond⟩

end Connection

/-!
# Names over the chunks
-/

/-- The frames among some inputs. -/
def Input.frames (inputs : List Input) : List RespValue :=
  inputs.filterMap fun
    | .frame _ v => some v
    | _ => none

/-- The commands among some inputs. -/
def Input.commands (inputs : List Input) : List Command :=
  (Input.frames inputs).filterMap fun v => (Command.fromResp v).toOption

/-- The name of a connection and the one in the registry of clients. -/
structure Names where
  current : Option String
  registered : Option String

namespace Names

/-- A `CLIENT SETNAME` names the connection, and the end of a chunk takes its
name over into the registry. -/
def after (names : Names) : Input -> Names
  | .frame _ v =>
      match Command.fromResp v with
      | .ok cmd => { names with current := cmd.givenName.or names.current }
      | .error _ => names
  | .finished => { names with registered := names.current }
  | .received _ | .sent _ => names

/-- No frame shows another name than it would with `name` in the registry. -/
def Show (name : Option String) : List Input -> Names -> Prop
  | [], _ => True
  | .frame parser v :: inputs, names =>
      (forall cmd, Command.fromResp v = .ok cmd ->
        cmd.shown name = cmd.shown names.registered) ∧
      Show name inputs (names.after (.frame parser v))
  | input :: inputs, names => Show name inputs (names.after input)

end Names

namespace Session

variable {S : FeoxStore} {P : Platform} {fuel : Nat} {threadId : ThreadId}

/-- A connection that started as `c`.  What is left to the service does not
subscribe it. -/
structure At (threadId : ThreadId) (c : Connection) (names : Names)
    (ses : Session S P) : Prop where
  alike : c.Alike ses.connection
  authRequired : ses.connection.authRequired = c.authRequired
  executor : exists n, ses.connection.executor = c.executor.counting n
  settled : c.Alike (ses.finish threadId).connection
  name : ses.connection.clientName = names.current
  entry : exists info,
    ses.shared.world.clients.lookup c.connectionId = some info ∧
      info.name = names.registered ∧ info.flags = c.flags

def pubsubBehind (threadId : ThreadId) (ses : Session S P) : PubSubState :=
  (ses.finish threadId).shared.pubsub

/-- What inputs without a frame leave as it is. -/
structure Aside (threadId : ThreadId) (own : Nat) (ses ses' : Session S P) :
    Prop where
  world : World.Related own ses.shared.world ses'.shared.world
  pubsub : ses'.pubsubBehind threadId = ses.pubsubBehind threadId
  transaction : ses.connection.SameTransaction ses'.connection

theorem finish_alike (threadId : ThreadId) (ses ses' : Session S P)
    (hpubsub : ses'.shared.pubsub = ses.shared.pubsub)
    (hops : ses'.ops = ses.ops)
    (halike : ses.connection.Alike ses'.connection) :
    (ses.finish threadId).connection.Alike (ses'.finish threadId).connection ∧
      ses'.pubsubBehind threadId = ses.pubsubBehind threadId := by
  rcases Connection.alike_handleOperations threadId ses.ops ses.shared.pubsub
    halike with ⟨hafter, hsame, _⟩
  unfold pubsubBehind finish Shared.finishRead
  rw [hpubsub, hops]
  exact ⟨⟨hafter.connectionId, hafter.authenticated, hafter.subscriptionCount,
    hafter.flags⟩, hsame⟩

theorem finish_finish (ses : Session S P) :
    (ses.finish threadId).connection.Alike
        ((ses.finish threadId).finish threadId).connection ∧
      (ses.finish threadId).pubsubBehind threadId =
        ses.pubsubBehind threadId :=
  ⟨⟨rfl, rfl, rfl, rfl⟩, rfl⟩

theorem finish_connection (threadId : ThreadId) (ses : Session S P) :
    exists count flags pending buffer,
      (ses.finish threadId).connection =
        { ses.connection with
          subscriptionCount := count
          flags := flags
          pendingPubsubMessages := pending
          writeBuffer := buffer } := by
  rcases handleOperations_eq threadId ses.ops ses.connection ses.shared.pubsub
    with ⟨count, flags, pending, buffer, heq⟩
  refine ⟨count, flags, [], writeRespValues buffer
    (pending.map PubSubMessage.toResp), ?_⟩
  unfold finish Shared.finishRead
  simp only [heq]
  rfl

theorem At.update {c c1 : Connection} {names : Names} {ses : Session S P}
    (h : At threadId c names ses) (halike : c.Alike c1) :
    ClientRegistry.Related c.connectionId ses.shared.world.clients
      (ses.shared.world.clients.update c1) := by
  rcases h.entry with ⟨info, hinfo, _, hflags⟩
  refine ⟨?_, ?_, ?_⟩
  · unfold ClientRegistry.update
    split
    · exact AList.keys_replace _ _ _
    · rfl
  · intro id
    rw [ClientRegistry.lookup_update]
    split
    · rename_i hid
      rw [hid, halike.connectionId, hinfo]
      simp only [Option.map_some, ClientInfo.anonymous, ClientRegistry.updated,
        halike.flags, hflags]
    · rfl
  · intro id hid
    rw [ClientRegistry.lookup_update, if_neg]
    rw [halike.connectionId]
    exact hid

theorem At.touch {c c1 : Connection} {names : Names} {ses : Session S P}
    (h : At threadId c names ses) (halike : ses.connection.Alike c1)
    (hrequired : c1.authRequired = ses.connection.authRequired)
    (hexecutor : c1.executor = ses.connection.executor)
    (hname : c1.clientName = ses.connection.clientName)
    (htransaction : ses.connection.SameTransaction c1) :
    At threadId c names { ses with connection := c1 } ∧
      Aside threadId c.connectionId ses { ses with connection := c1 } := by
  rcases finish_alike threadId ses { ses with connection := c1 } rfl rfl halike
    with ⟨hafter, hpubsub⟩
  exact ⟨⟨h.alike.trans halike, hrequired.trans h.authRequired,
    hexecutor ▸ h.executor, h.settled.trans hafter, hname.trans h.name, h.entry⟩,
    .refl _ _, hpubsub, htransaction⟩

theorem At.finish {c : Connection} {names : Names} {ses : Session S P}
    (h : At threadId c names ses) :
    At threadId c (names.after .finished) (ses.finish threadId) ∧
      Aside threadId c.connectionId ses (ses.finish threadId) := by
  rcases finish_connection threadId ses with
    ⟨count, flags, pending, buffer, heq⟩
  have hname : (ses.finish threadId).connection.clientName = names.current := by
    rw [heq]
    exact h.name
  refine ⟨⟨h.settled, ?_, ?_, h.settled.trans (finish_finish ses).1, hname, ?_⟩,
    ⟨rfl, rfl, rfl, rfl, ?_⟩, (finish_finish ses).2, ?_⟩
  · rw [heq]
    exact h.authRequired
  · rw [heq]
    exact h.executor
  · rcases h.entry with ⟨info, hinfo, _, _⟩
    refine ⟨ClientRegistry.updated info (ses.finish threadId).connection, ?_,
      hname, h.settled.flags⟩
    rw [clients_finish, ClientRegistry.lookup_update,
      if_pos h.settled.connectionId.symm, hinfo]
    rfl
  · exact h.update h.settled
  · rw [heq]
    exact ⟨rfl, rfl, rfl⟩

theorem step_aside {c : Connection} {names : Names} {ses ses' : Session S P}
    {input : Input} {replies : Replies} (h : At threadId c names ses)
    (hinput : forall parser v, input ≠ .frame parser v)
    (hstep : ses.step fuel threadId input = some (ses', replies)) :
    replies = [] ∧ At threadId c (names.after input) ses' ∧
      Aside threadId c.connectionId ses ses' := by
  cases input with
  | received data =>
      rcases (ses.connection.feed data).clearWritten_eq with
        ⟨buffer, position, hclear⟩
      rw [step, hclear] at hstep
      cases hstep
      exact ⟨rfl, h.touch ⟨rfl, rfl, rfl, rfl⟩ rfl rfl rfl ⟨rfl, rfl, rfl⟩⟩
  | frame parser v => exact absurd rfl (hinput parser v)
  | finished =>
      cases hstep
      exact ⟨rfl, h.finish⟩
  | sent n =>
      cases hstep
      exact ⟨rfl, h.touch ⟨rfl, rfl, rfl, rfl⟩ rfl rfl rfl ⟨rfl, rfl, rfl⟩⟩

theorem step_of_aside (fuel : Nat) (threadId : ThreadId) (ses : Session S P)
    {input : Input}
    (hinput : forall parser v, input ≠ .frame parser v) :
    exists ses' replies, ses.step fuel threadId input = some (ses', replies) := by
  cases input with
  | frame parser v => exact absurd rfl (hinput parser v)
  | received data | finished | sent n => exact ⟨_, _, rfl⟩

/-!
# Sending directly
-/

def Answers (S : FeoxStore) (P : Platform) (reply : RespValue × Flow)
    (result : RespValue) : Prop :=
  exists cmd r, Command.fromResp reply.1 = .ok cmd ∧ reply.2.value = some r ∧
    CommandExecutor.Matches S P cmd r result

/-- The commands that can stand in a transaction. -/
def Ordinary (v : RespValue) (cmd : Command) : Prop :=
  Command.fromResp v = .ok cmd ∧ cmd.isTransactionCommand = false ∧ cmd ≠ .quit

/-- An authenticated connection without subscriptions, as the server sets it
up. -/
structure Served (c : Connection) : Prop where
  authenticated : c.authenticated = true
  unsubscribed : c.subscriptionCount = 0
  config : c.authRequired = c.executor.config.authRequired
  registry : c.executor.clientOps.hasRegistry = true
  client : c.executor.connectionId = some c.connectionId

theorem frame_lockstep {c : Connection} {names : Names} {ses ses' : Session S P}
    {parser : RespParser} {v : RespValue} {cmd : Command} {flow : Flow}
    {x : CommandExecutor} {w : World S P} {name : Option String}
    (hc : Served c) (h : At threadId c names ses) (hidle : ses.connection.transactionState = .none)
    (hcmd : Ordinary v cmd)
    (htransferable : Connection.Transferable c.executor.config cmd)
    (hx : exists n, x = c.executor.counting n)
    (hw : World.Related c.connectionId ses.shared.world w)
    (hname : (w.clients.lookup c.connectionId).map ClientInfo.name = some name)
    (hframe : ses.frame fuel parser v = some (ses', flow)) :
    exists result x' w',
      (x.execute fuel cmd).run (server S P) w = some ((result, x'), w') ∧
      (exists n, x' = c.executor.counting n) ∧
      World.Related c.connectionId ses'.shared.world w' ∧
      w'.clients = w.clients ∧
      At threadId c (names.after (.frame parser v)) ses' ∧
      ses'.pubsubBehind threadId = ses.pubsubBehind threadId ∧ flow.ops = [] ∧
      ses'.connection.transactionState = .none ∧
      (Answers S P (v, flow) result <->
        cmd.shown name = cmd.shown names.registered) := by
  rcases frame_eq_some.mp hframe with ⟨c', world, hrun, rfl⟩
  rcases h.executor with ⟨n, hn⟩
  rcases hx with ⟨m, rfl⟩
  have hconfig : ses.connection.authRequired =
      ses.connection.executor.config.authRequired := by
    rw [h.authRequired, hn]
    exact hc.config
  have hallowed : Connection.Transferable ses.connection.executor.config cmd := by
    rw [hn]
    exact htransferable
  rcases Connection.run_direct
    (c := { ses.connection with parser := parser })
    (h.alike.authenticated.trans hc.authenticated)
    (h.alike.subscriptionCount.trans hc.unsubscribed) hidle hconfig hcmd.1
    hcmd.2.1 hcmd.2.2 hallowed hrun with
    ⟨r, k, hvalue, hops, hkept, hcurrent, hrespond⟩
  change (CommandExecutor.respond fuel (ses.connection.executor.counting k)
    cmd).run (server S P) ses.shared.world = some (r, world) at hrespond
  rw [hn] at hrespond
  rcases h.entry with ⟨info, hinfo, hregistered, hflags⟩
  have hown : (ses.shared.world.clients.lookup c.connectionId).map
      ClientInfo.name = some names.registered := by
    rw [hinfo, ← hregistered]
    rfl
  rcases CommandExecutor.respond_related (x := c.executor.counting k)
    hc.registry hc.client hw hown hname (m + 1) hrespond with
    ⟨result, w', hresult, hrelated, hclients, hclients', hiff⟩
  have halike : ses.connection.Alike c' := ⟨hkept.connectionId,
    hkept.authenticated, hkept.subscriptionCount, hkept.flags⟩
  rcases finish_alike threadId ses
    ⟨c', { ses.shared with world := world }, ses.ops ++ flow.ops⟩ rfl
    (by rw [hops, List.append_nil]) halike with ⟨hafter, hpubsub⟩
  refine ⟨result, c.executor.counting (m + 1), w', ?_, ⟨m + 1, rfl⟩, hrelated,
    hclients', ?_, hpubsub, hops, hkept.transactionState.trans hidle, ?_⟩
  · exact (run_bind_eq_some _).mpr ⟨result, w', hresult, rfl⟩
  · have hnames : names.after (.frame parser v) =
        { names with current := cmd.givenName.or names.current } := by
      rw [Names.after, hcmd.1]
    rw [hnames]
    refine ⟨h.alike.trans halike, hkept.authRequired.trans h.authRequired, ?_,
      h.settled.trans hafter, ?_, info, ?_, hregistered, hflags⟩
    · rcases hkept.executor with ⟨j, hj⟩
      exact ⟨j, hj.trans (by
        change ses.connection.executor.counting j = _
        rw [hn]
        rfl)⟩
    · rw [← h.name]
      exact hcurrent
    · change world.clients.lookup c.connectionId = some info
      rw [hclients]
      exact hinfo
  · rw [← hiff]
    constructor
    · rintro ⟨cmd', r', hparsed, hvalue', hmatches⟩
      rw [hcmd.1] at hparsed
      rw [hvalue] at hvalue'
      cases hparsed
      cases hvalue'
      exact hmatches
    · exact fun hmatches => ⟨cmd, r, hcmd.1, hvalue, hmatches⟩

theorem Input.frames_cons_frame (parser : RespParser) (v : RespValue)
    (inputs : List Input) :
    Input.frames (.frame parser v :: inputs) = v :: Input.frames inputs := rfl

theorem Input.frames_cons_aside {input : Input}
    (hinput : forall parser v, input ≠ .frame parser v) (inputs : List Input) :
    Input.frames (input :: inputs) = Input.frames inputs := by
  cases input with
  | frame parser v => exact absurd rfl (hinput parser v)
  | received data | finished | sent n => rfl

theorem Names.show_cons_aside {input : Input}
    (hinput : forall parser v, input ≠ .frame parser v) (name : Option String)
    (inputs : List Input) (names : Names) :
    Names.Show name (input :: inputs) names <->
      Names.Show name inputs (names.after input) := by
  cases input with
  | frame parser v => exact absurd rfl (hinput parser v)
  | received data | finished | sent n => rfl

theorem run_lockstep {c : Connection} {names : Names} {ses ses' : Session S P}
    {inputs : List Input} {replies : Replies} {x : CommandExecutor}
    {w : World S P} {name : Option String} (hc : Served c) (h : At threadId c names ses)
    (hidle : ses.connection.transactionState = .none)
    (hinputs : forall v, v ∈ Input.frames inputs -> exists cmd, Ordinary v cmd ∧
      Connection.Transferable c.executor.config cmd)
    (hx : exists n, x = c.executor.counting n)
    (hw : World.Related c.connectionId ses.shared.world w)
    (hname : (w.clients.lookup c.connectionId).map ClientInfo.name = some name)
    (hrun : run fuel threadId inputs ses = some (ses', replies)) :
    exists results w',
      Connection.Results (server S P) fuel x w replies.commands results w' ∧
      World.Related c.connectionId ses'.shared.world w' ∧
      ses'.pubsubBehind threadId = ses.pubsubBehind threadId ∧
      replies.ops = [] ∧
      (List.Forall₂ (Answers S P) replies results <-> names.Show name inputs) := by
  induction inputs generalizing names ses replies x w with
  | nil =>
      cases hrun
      exact ⟨[], w, .nil, hw, rfl, rfl, iff_of_true .nil trivial⟩
  | cons input inputs ih =>
      rcases run_cons_eq_some.mp hrun with
        ⟨ses1, first, later, hstep, hrest, rfl⟩
      by_cases hframe : exists parser v, input = .frame parser v
      · rcases hframe with ⟨parser, v, rfl⟩
        rw [Input.frames_cons_frame] at hinputs
        rcases hinputs v List.mem_cons_self with ⟨cmd, hcmd, htransferable⟩
        rcases Option.map_eq_some_iff.mp hstep with ⟨⟨ses2, flow⟩, hone, heq⟩
        cases heq
        rcases frame_lockstep hc h hidle hcmd htransferable hx hw hname hone with
          ⟨result, x1, w1, hexecute, hx1, hw1, hclients, hat, hpubsub, hflow, hidle1,
            hiff⟩
        rcases ih hat hidle1 (fun v' hv' => hinputs v' (List.mem_cons_of_mem _ hv'))
          hx1 hw1 (hclients ▸ hname) hrest with
          ⟨results, w', hresults, hw', hpubsub', hops, hlater⟩
        refine ⟨result :: results, w', ?_, hw', hpubsub'.trans hpubsub, ?_, ?_⟩
        · have hcommands : Replies.commands [(v, flow)] = [cmd] := by
            simp [Replies.commands, hcmd.1, Except.toOption]
          rw [Replies.commands_append, hcommands]
          exact .cons hexecute hresults
        · rw [Replies.ops_append, hops]
          simp [Replies.ops, hflow]
        · rw [List.singleton_append, List.forall₂_cons, hiff, hlater, Names.Show]
          refine and_congr_left fun _ => ⟨fun hshown cmd' hparsed => ?_,
            fun hshown => hshown cmd hcmd.1⟩
          rw [hcmd.1] at hparsed
          cases hparsed
          exact hshown
      · have haside : forall parser v, input ≠ .frame parser v :=
          fun parser v heq => hframe ⟨parser, v, heq⟩
        rw [Input.frames_cons_aside haside] at hinputs
        rcases step_aside h haside hstep with ⟨rfl, hat, hrest'⟩
        rcases ih hat (hrest'.transaction.state.trans hidle) hinputs hx
          (hrest'.world.symm.trans hw) hname hrest with
          ⟨results, w', hresults, hw', hpubsub', hops, hlater⟩
        rw [List.nil_append, Names.show_cons_aside haside]
        exact ⟨results, w', hresults, hw', hpubsub'.trans hrest'.pubsub, hops,
          hlater⟩

end Session

end FeoxServer
