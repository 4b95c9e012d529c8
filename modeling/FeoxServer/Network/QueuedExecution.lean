import FeoxServer.Network.DirectExecution

/-!
# Executing a transaction

`MULTI`, some commands and `EXEC` in any chunks are compared with the same
commands sent directly.
-/

namespace FeoxServer

open Foundation Prog

namespace Connection

variable {fuel : Nat} {T : Service Call Answer}

theorem fastPath_queuing {c : Connection} (v : RespValue)
    (h : c.transactionState = .queuing) : c.fastPath v = none := by
  rw [fastPath, h, if_neg]
  exact fun heq => nomatch heq

theorem route_unsubscribed {c : Connection} {v : RespValue} {cmd : Command}
    (hmode : c.subscriptionCount = 0) (hslow : c.fastPath v = none)
    (hcmd : Command.fromResp v = .ok cmd) (hquit : cmd ≠ .quit) :
    c.route v = .dispatched cmd := by
  have hgate : c.isInPubsubMode = false := by
    simp [isInPubsubMode, hmode]
  rw [route_of_slow hslow hcmd, if_neg hquit, hgate, Bool.false_and,
    if_neg Bool.false_ne_true]

theorem run_multi (fuel : Nat) {c : Connection} {v : RespValue} {s : T.State}
    (hmode : c.subscriptionCount = 0) (hidle : c.transactionState = .none)
    (hcmd : Command.fromResp v = .ok .multi) :
    (c.processFrame fuel v).run T s =
      some ((({ c.countCommand with
          transactionState := .queuing
          queuedCommands := [] } : Connection).write ok.bytes, ok), s) := by
  have hslow : c.fastPath v = none := fastPath_eq_none hcmd fun f => by
    cases f <;> simp [FastCommand.command]
  have hnot : ¬ c.countCommand.transactionState = .queuing := by
    change ¬ c.transactionState = .queuing
    rw [hidle]
    rintro ⟨⟩
  refine run_processFrame.mpr ⟨_, ?_, rfl⟩
  rw [frameFlow_eq, route_unsubscribed hmode hslow hcmd (by simp)]
  change (dispatch fuel c.countCommand .multi).run T s = _
  rw [dispatch, beginTransaction, if_neg hnot]
  rfl

theorem run_queuing (fuel : Nat) {c : Connection} {v : RespValue}
    {cmd : Command} {s : T.State} (hmode : c.subscriptionCount = 0)
    (hqueuing : c.transactionState = .queuing)
    (hcmd : Command.fromResp v = .ok cmd) (hquit : cmd ≠ .quit)
    (hordinary : cmd.isTransactionCommand = false) :
    (c.processFrame fuel v).run T s =
      some ((({ c.countCommand with
          clientName := cmd.givenName.or c.clientName
          queuedCommands := c.queuedCommands ++ [cmd] } : Connection).write
            (asBytes "+QUEUED\r\n"),
        .reply (.simpleString (asBytes "QUEUED"))), s) := by
  refine run_processFrame.mpr ⟨{ c.countCommand with
    clientName := cmd.givenName.or c.clientName
    queuedCommands := c.queuedCommands ++ [cmd] }, ?_, rfl⟩
  have hstate : ({ c.countCommand with
      clientName := cmd.givenName.or c.countCommand.clientName } :
        Connection).transactionState = .queuing := hqueuing
  rw [frameFlow_eq, route_unsubscribed hmode (fastPath_queuing v hqueuing) hcmd
    hquit]
  simp only [noteClientName_given]
  rw [dispatch_ordinary hordinary, if_pos hstate]
  rfl

theorem run_unwatched_exec {c : Connection} {v : RespValue}
    {s s' : T.State} {results : List RespValue}
    (hmode : c.subscriptionCount = 0)
    (hqueuing : c.transactionState = .queuing) (hwatched : c.watchedKeys = ∅)
    (hcmd : Command.fromResp v = .ok .exec)
    (hresults : Results T fuel c.executor s c.queuedCommands results s') :
    exists x, (c.processFrame fuel v).run T s =
      some ((({ c.countCommand.endTransaction with executor := x } :
          Connection).write (Flow.reply (.array (some results))).bytes,
        .reply (.array (some results))), s') := by
  have hstate : ¬ c.countCommand.transactionState ≠ .queuing :=
    not_not.mpr hqueuing
  have hversions : c.countCommand.watchedVersions = [] := by
    change c.watchedVersions = []
    rw [watchedVersions, hwatched]
    rfl
  rcases executeAll_of_results hresults [] with ⟨x, hall⟩
  refine ⟨x, run_processFrame.mpr ⟨_, ?_, rfl⟩⟩
  rw [frameFlow_eq,
    route_unsubscribed hmode (fastPath_queuing v hqueuing) hcmd (by simp)]
  change (exec fuel c.countCommand).run T s = _
  rw [exec, if_neg hstate, hversions]
  exact (run_bind_eq_some _).mpr ⟨true, s, rfl,
    (run_bind_eq_some _).mpr ⟨(results, x), s', hall, rfl⟩⟩

/-!
# Commands that the executor turns away
-/

def turnedAway : Command -> String
  | .auth _ => "-ERR AUTH failed"
  | _ => "-ERR Pub/Sub commands should be handled in connection layer"

theorem turnedAway_cases {config : Config} {cmd : Command}
    (h : ¬ Transferable config cmd) :
    (exists password, cmd = .auth password) ∨
      cmd.isPubsubCommand = true ∧ turnedAway cmd =
        "-ERR Pub/Sub commands should be handled in connection layer" := by
  cases cmd with
  | auth password => exact Or.inl ⟨password, rfl⟩
  | subscribe names | unsubscribe names | psubscribe names
  | punsubscribe names | publish channel message | pubSub subcommand args =>
      exact Or.inr ⟨rfl, rfl⟩
  | _ => exact absurd ⟨rfl, fun _ heq => by cases heq⟩ h

theorem respond_turnedAway {x : CommandExecutor} {cmd : Command}
    (h : ¬ Transferable x.config cmd) :
    CommandExecutor.respond fuel x cmd = pure (.error (turnedAway cmd)) := by
  cases cmd with
  | auth password =>
      have hset : x.config.requirepass ≠ none :=
        fun hnone => h ⟨rfl, fun _ _ => hnone⟩
      simp [CommandExecutor.respond, turnedAway, hset]
  | subscribe names | unsubscribe names | psubscribe names
  | punsubscribe names | publish channel message | pubSub subcommand args => rfl
  | _ => exact absurd ⟨rfl, fun _ heq => by cases heq⟩ h

theorem value_error_ne {a b : String} (h : a ≠ b) :
    (error a).value ≠ some (.error b) := by
  intro heq
  injection heq with herror
  injection herror with htext
  exact h htext

theorem value_pubsub_ne (cmd : Command) :
    (pubsub cmd).value ≠ some (.error
      "-ERR Pub/Sub commands should be handled in connection layer") := by
  unfold pubsub
  split
  · exact fun heq => nomatch heq
  · split
    · refine value_error_ne fun htext => ?_
      have hhead := congrArg (fun s => s.toList.head?) htext
      simp at hhead
    · exact value_error_ne (by decide)

theorem value_auth_ne (c : Connection) (password : Bytes) :
    (c.auth password).2.value ≠ some (.error "-ERR AUTH failed") := by
  unfold auth
  split
  · exact value_error_ne (by decide)
  · split
    · exact fun heq => nomatch heq
    · exact value_error_ne (by decide)

theorem value_answer_ne {config : Config} {c c' : Connection} {cmd : Command}
    {flow : Flow} {s s' : T.State} (hcmd : ¬ Transferable config cmd)
    (hrun : (answer fuel c cmd).run T s = some ((c', flow), s')) :
    flow.value ≠ some (.error (turnedAway cmd)) := by
  rcases turnedAway_cases hcmd with ⟨password, rfl⟩ | ⟨hpubsub, htext⟩
  · rw [← (Prod.mk.inj (run_done_eq_some.mp hrun).1).2]
    exact value_auth_ne c password
  · have hanswer : answer fuel c cmd =
        pure (c, if c.authenticated then pubsub cmd
          else error "-NOAUTH Authentication required.") := by
      unfold answer
      cases cmd with
      | subscribe names | unsubscribe names | psubscribe names
      | punsubscribe names | publish channel message | pubSub subcommand args =>
          cases c.authenticated <;> rfl
      | _ => cases hpubsub
    rw [hanswer] at hrun
    cases hrun
    rw [htext]
    split
    · exact value_pubsub_ne cmd
    · exact value_error_ne (by decide)

/-- No frame replies what the executor replies to a command that it does not
deal with. -/
theorem value_ne_turnedAway {config : Config} {c c' : Connection} {v : RespValue}
    {cmd : Command} {flow : Flow} {s s' : T.State}
    (hparsed : Command.fromResp v = .ok cmd)
    (hordinary : cmd.isTransactionCommand = false) (hquit : cmd ≠ .quit)
    (hcmd : ¬ Transferable config cmd)
    (hrun : (c.processFrame fuel v).run T s = some ((c', flow), s')) :
    flow.value ≠ some (.error (turnedAway cmd)) := by
  have hslow : c.fastPath v = none := fastPath_eq_none hparsed fun f hf => by
    subst hf
    cases f <;> exact hcmd ⟨rfl, fun _ heq => nomatch heq⟩
  have hroute := route_of_slow hslow hparsed
  rw [if_neg hquit] at hroute
  split at hroute
  · rcases run_of_refused hroute hrun with ⟨rfl, _, _⟩
    rcases turnedAway_cases hcmd with ⟨password, rfl⟩ | ⟨_, htext⟩
    · exact value_error_ne (b := "-ERR AUTH failed") (by decide)
    · rw [htext]
      exact value_error_ne (by decide)
  · rcases run_processFrame.mp hrun with ⟨c1, hframe, rfl⟩
    rw [frameFlow_eq, hroute] at hframe
    simp only [noteClientName_given, dispatch_ordinary hordinary] at hframe
    split at hframe
    · cases hframe
      exact fun heq => nomatch heq
    · exact value_answer_ne hcmd hframe

theorem eq_of_matches {S : FeoxStore} {P : Platform} {config : Config}
    {cmd : Command} {r r' : RespValue} (hcmd : ¬ Transferable config cmd)
    (h : CommandExecutor.Matches S P cmd r r') : r = r' := by
  cases cmd with
  | info sectionName => exact absurd ⟨rfl, fun _ heq => nomatch heq⟩ hcmd
  | _ => exact h.symm

theorem Results.cons_inv {x : CommandExecutor} {s s' : T.State} {cmd : Command}
    {cmds : List Command} {results : List RespValue}
    (h : Results T fuel x s (cmd :: cmds) results s') :
    exists r x1 s1 rest, results = r :: rest ∧
      (x.execute fuel cmd).run T s = some ((r, x1), s1) ∧
      Results T fuel x1 s1 cmds rest s' := by
  cases h with
  | cons hcmd hrest => exact ⟨_, _, _, _, rfl, hcmd, hrest⟩

theorem Results.eq_of {x : CommandExecutor} {s s1 s2 : T.State}
    {cmds : List Command} {results results' : List RespValue}
    (h : Results T fuel x s cmds results s1)
    (h' : Results T fuel x s cmds results' s2) : results = results' := by
  rcases executeAll_of_results h [] with ⟨x1, hrun⟩
  rcases executeAll_of_results h' [] with ⟨x2, hrun'⟩
  rw [hrun] at hrun'
  cases hrun'
  rfl

end Connection

namespace Session

variable {S : FeoxStore} {P : Platform} {fuel : Nat} {threadId : ThreadId}

/-- A session in a transaction that watches nothing. -/
structure InTransaction (threadId : ThreadId) (c : Connection) (names : Names)
    (queue : List Command) (ses : Session S P) : Prop where
  start : At threadId c names ses
  state : ses.connection.transactionState = .queuing
  queue : ses.connection.queuedCommands = queue
  watched : ses.connection.watchedKeys = ∅

/-- Nothing outside the connection is different, except for its entry in the
registry of clients. -/
structure Idle (threadId : ThreadId) (own : Nat) (ses ses' : Session S P) :
    Prop where
  world : World.Related own ses.shared.world ses'.shared.world
  pubsub : ses'.pubsubBehind threadId = ses.pubsubBehind threadId

theorem Idle.trans {own : Nat} {ses ses1 ses2 : Session S P}
    (h : Idle threadId own ses ses1) (h' : Idle threadId own ses1 ses2) :
    Idle threadId own ses ses2 :=
  ⟨h.world.trans h'.world, h'.pubsub.trans h.pubsub⟩

theorem At.idle {c : Connection} {names : Names} {ses : Session S P}
    (h : At threadId c names ses) (c1 : Connection) (name : Option String)
    (halike : ses.connection.Alike c1)
    (hrequired : c1.authRequired = ses.connection.authRequired)
    (hexecutor : c1.executor = ses.connection.executor)
    (hname : c1.clientName = name) :
    At threadId c { names with current := name }
        (⟨c1, ses.shared, ses.ops ++ []⟩ : Session S P) ∧
      Idle threadId c.connectionId ses ⟨c1, ses.shared, ses.ops ++ []⟩ := by
  rcases finish_alike threadId ses ⟨c1, ses.shared, ses.ops ++ []⟩ rfl
    (List.append_nil _) halike with ⟨hafter, hpubsub⟩
  exact ⟨⟨h.alike.trans halike, hrequired.trans h.authRequired,
    hexecutor ▸ h.executor, h.settled.trans hafter, hname, h.entry⟩,
    .refl _ _, hpubsub⟩

theorem frame_queued (fuel : Nat) {c : Connection} {names : Names} {queue : List Command}
    {ses : Session S P} {v : RespValue} {cmd : Command} (hc : Served c)
    (h : InTransaction threadId c names queue ses) (hcmd : Ordinary v cmd)
    (parser : RespParser) :
    exists ses' flow, ses.frame fuel parser v = some (ses', flow) ∧
      flow.ops = [] ∧
      InTransaction threadId c (names.after (.frame parser v)) (queue ++ [cmd])
        ses' ∧
      Idle threadId c.connectionId ses ses' := by
  have hrun := Connection.run_queuing fuel (s := ses.shared.world)
    (T := server S P) (c := { ses.connection with parser := parser })
    (h.start.alike.subscriptionCount.trans hc.unsubscribed) h.state hcmd.1
    hcmd.2.2 hcmd.2.1
  have hnames : names.after (.frame parser v) =
      { names with current := cmd.givenName.or names.current } := by
    rw [Names.after, hcmd.1]
  rcases h.start.idle
    (({ ({ ses.connection with parser := parser } : Connection).countCommand with
      clientName := cmd.givenName.or ses.connection.clientName
      queuedCommands := ses.connection.queuedCommands ++ [cmd] } :
        Connection).write (asBytes "+QUEUED\r\n")) (cmd.givenName.or names.current)
    ⟨rfl, rfl, rfl, rfl⟩ rfl rfl (by rw [← h.start.name]; rfl) with ⟨hat, hidle⟩
  refine ⟨_, _, frame_eq_some.mpr ⟨_, _, hrun, rfl⟩, rfl, ?_, hidle⟩
  rw [hnames]
  exact ⟨hat, h.state, congrArg (· ++ [cmd]) h.queue, h.watched⟩

theorem Input.commands_cons {parser : RespParser} {v : RespValue} {cmd : Command}
    (hcmd : Command.fromResp v = .ok cmd) (inputs : List Input) :
    Input.commands (.frame parser v :: inputs) = cmd :: Input.commands inputs := by
  rw [Input.commands, Input.frames_cons_frame, List.filterMap_cons, hcmd]
  rfl

theorem step_of_frame (threadId : ThreadId) {ses ses' : Session S P} {parser : RespParser}
    {v : RespValue} {flow : Flow}
    (hframe : ses.frame fuel parser v = some (ses', flow)) :
    ses.step fuel threadId (.frame parser v) = some (ses', [(v, flow)]) := by
  rw [step, hframe]
  rfl

theorem run_queued (fuel : Nat) (inputs : List Input) {c : Connection}
    {names : Names} {queue : List Command} {ses : Session S P} (hc : Served c)
    (h : InTransaction threadId c names queue ses)
    (hinputs : forall v, v ∈ Input.frames inputs -> exists cmd, Ordinary v cmd) :
    exists ses' replies, run fuel threadId inputs ses = some (ses', replies) ∧
      replies.ops = [] ∧
      InTransaction threadId c (inputs.foldl Names.after names)
        (queue ++ Input.commands inputs) ses' ∧
      Idle threadId c.connectionId ses ses' := by
  induction inputs generalizing names queue ses with
  | nil =>
      refine ⟨ses, [], rfl, rfl, ?_, .refl _ _, rfl⟩
      rw [Input.commands, Input.frames, List.filterMap_nil, List.filterMap_nil,
        List.append_nil]
      exact h
  | cons input inputs ih =>
      by_cases hframe : exists parser v, input = .frame parser v
      · rcases hframe with ⟨parser, v, rfl⟩
        rw [Input.frames_cons_frame] at hinputs
        rcases hinputs v List.mem_cons_self with ⟨cmd, hcmd⟩
        rcases frame_queued fuel hc h hcmd parser with
          ⟨ses1, flow, hone, hflow, hin, hidle⟩
        rcases ih hin (fun v' hv' => hinputs v' (List.mem_cons_of_mem _ hv')) with
          ⟨ses', replies, hrun, hops, hin', hidle'⟩
        refine ⟨ses', [(v, flow)] ++ replies, run_cons_eq_some.mpr ⟨ses1, _, _,
          step_of_frame threadId hone, hrun, rfl⟩, ?_, ?_, hidle.trans hidle'⟩
        · rw [Replies.ops_append, hops]
          simp [Replies.ops, hflow]
        · rw [Input.commands_cons hcmd.1, List.append_cons]
          exact hin'
      · have haside : forall parser v, input ≠ .frame parser v :=
          fun parser v heq => hframe ⟨parser, v, heq⟩
        rw [Input.frames_cons_aside haside] at hinputs
        rcases step_of_aside fuel threadId ses haside with
          ⟨ses1, first, hstep⟩
        rcases step_aside h.start haside hstep with ⟨rfl, hat, hkept⟩
        have hin : InTransaction threadId c (names.after input) queue ses1 :=
          ⟨hat, hkept.transaction.state.trans h.state,
            hkept.transaction.queue.trans h.queue,
            hkept.transaction.watched.trans h.watched⟩
        rcases ih hin hinputs with ⟨ses', replies, hrun, hops, hin', hidle'⟩
        refine ⟨ses', replies, run_cons_eq_some.mpr ⟨ses1, [], replies, hstep, hrun,
          rfl⟩, hops, ?_, Idle.trans ⟨hkept.world, hkept.pubsub⟩ hidle'⟩
        rw [Input.commands, Input.frames_cons_aside haside]
        exact hin'

theorem run_begun (fuel : Nat) {c : Connection} {names : Names}
    {ses : Session S P} {inputs : List Input} {v : RespValue} {vs : List RespValue} (hc : Served c)
    (h : At threadId c names ses)
    (hidle : ses.connection.transactionState = .none)
    (hwatched : ses.connection.watchedKeys = ∅)
    (hmulti : Command.fromResp v = .ok .multi)
    (hframes : Input.frames inputs = v :: vs)
    (hordinary : forall v', v' ∈ vs -> exists cmd, Ordinary v' cmd) :
    exists ses' replies, run fuel threadId inputs ses = some (ses', replies) ∧
      replies.ops = [] ∧
      InTransaction threadId c (inputs.foldl Names.after names)
        (vs.filterMap fun v' => (Command.fromResp v').toOption) ses' ∧
      Idle threadId c.connectionId ses ses' := by
  induction inputs generalizing names ses with
  | nil => cases hframes
  | cons input inputs ih =>
      by_cases hframe : exists parser v', input = .frame parser v'
      · rcases hframe with ⟨parser, v', rfl⟩
        rw [Input.frames_cons_frame] at hframes
        cases hframes
        have hrun := Connection.run_multi fuel (s := ses.shared.world)
          (T := server S P) (c := { ses.connection with parser := parser })
          (h.alike.subscriptionCount.trans hc.unsubscribed) hidle hmulti
        have hnames : names.after (.frame parser v) = names := by
          rw [Names.after, hmulti]
          rfl
        rcases h.idle
          (({ ({ ses.connection with parser := parser } :
              Connection).countCommand with
            transactionState := .queuing
            queuedCommands := [] } : Connection).write Connection.ok.bytes)
          names.current ⟨rfl, rfl, rfl, rfl⟩ rfl rfl h.name with ⟨hat, hsame⟩
        have hone := step_of_frame threadId
          (frame_eq_some.mpr ⟨_, _, hrun, rfl⟩)
        rcases run_queued fuel inputs hc
          ⟨hat, rfl, rfl, hwatched⟩ hordinary with
          ⟨ses', replies, hrest, hops, hin, hidle'⟩
        refine ⟨ses', _, run_cons_eq_some.mpr ⟨_, _, replies, hone, hrest, rfl⟩,
          hops, ?_, hsame.trans hidle'⟩
        rw [List.foldl_cons, hnames]
        exact hin
      · have haside : forall parser v, input ≠ .frame parser v :=
          fun parser v heq => hframe ⟨parser, v, heq⟩
        rw [Input.frames_cons_aside haside] at hframes
        rcases step_of_aside fuel threadId ses haside with
          ⟨ses1, first, hstep⟩
        rcases step_aside h haside hstep with ⟨rfl, hat, hkept⟩
        rcases ih hat (hkept.transaction.state.trans hidle)
          (hkept.transaction.watched.trans hwatched) hframes with
          ⟨ses', replies, hrun, hops, hin, hidle'⟩
        exact ⟨ses', replies, run_cons_eq_some.mpr ⟨ses1, [], replies, hstep, hrun,
          rfl⟩, hops, hin, Idle.trans ⟨hkept.world, hkept.pubsub⟩ hidle'⟩

theorem replies_of_run {inputs : List Input} {ses ses' : Session S P}
    {replies : Replies}
    (hrun : run fuel threadId inputs ses = some (ses', replies)) :
    replies.map Prod.fst = Input.frames inputs := by
  induction inputs generalizing ses replies with
  | nil =>
      cases hrun
      rfl
  | cons input inputs ih =>
      rcases run_cons_eq_some.mp hrun with
        ⟨ses1, first, later, hstep, hrest, rfl⟩
      rw [List.map_append, ih hrest]
      cases input with
      | frame parser v =>
          rcases Option.map_eq_some_iff.mp hstep with ⟨⟨ses2, flow⟩, _, heq⟩
          cases heq
          rfl
      | received data | finished | sent n =>
          cases hstep
          rfl

theorem commands_of_run {inputs : List Input} {ses ses' : Session S P}
    {replies : Replies}
    (hrun : run fuel threadId inputs ses = some (ses', replies)) :
    replies.commands = Input.commands inputs := by
  rw [Input.commands, ← replies_of_run hrun, List.filterMap_map]
  rfl

theorem transferable_of_answers {inputs : List Input} {ses ses' : Session S P}
    {replies : Replies} {x : CommandExecutor} {w w' : World S P}
    {results : List RespValue}
    (hinputs : forall v, v ∈ Input.frames inputs -> exists cmd, Ordinary v cmd)
    (hrun : run fuel threadId inputs ses = some (ses', replies))
    (hresults : Connection.Results (server S P) fuel x w replies.commands results
      w')
    (hanswers : List.Forall₂ (Answers S P) replies results) :
    forall cmd, cmd ∈ replies.commands -> Connection.Transferable x.config cmd := by
  induction inputs generalizing ses replies x w results with
  | nil =>
      cases hrun
      exact fun cmd hmem => absurd hmem List.not_mem_nil
  | cons input inputs ih =>
      rcases run_cons_eq_some.mp hrun with
        ⟨ses1, first, later, hstep, hrest, rfl⟩
      by_cases hframe : exists parser v, input = .frame parser v
      · rcases hframe with ⟨parser, v, rfl⟩
        rw [Input.frames_cons_frame] at hinputs
        rcases hinputs v List.mem_cons_self with ⟨cmd, hcmd⟩
        rcases Option.map_eq_some_iff.mp hstep with ⟨⟨ses2, flow⟩, hone, heq⟩
        cases heq
        rcases frame_eq_some.mp hone with ⟨c', world, hprocess, _⟩
        have hcommands : Replies.commands [(v, flow)] = [cmd] := by
          simp [Replies.commands, hcmd.1, Except.toOption]
        rw [Replies.commands_append, hcommands, List.singleton_append]
          at hresults ⊢
        rcases hresults.cons_inv with ⟨result, x1, w1, rest, rfl, hexecute, hrest'⟩
        rcases List.forall₂_cons.mp hanswers with ⟨hanswer, hanswers'⟩
        rcases Connection.run_execute hexecute with ⟨n, hrespond, rfl⟩
        intro cmd' hmem
        rcases List.mem_cons.mp hmem with rfl | hmem
        · by_contra haway
          rw [Connection.respond_turnedAway (x := x.counting n) haway] at hrespond
          cases hrespond
          rcases hanswer with ⟨cmd1, r, hparsed, hvalue, hmatches⟩
          rw [hcmd.1] at hparsed
          cases hparsed
          refine Connection.value_ne_turnedAway hcmd.1 hcmd.2.1 hcmd.2.2 haway
            hprocess ?_
          rw [hvalue, Connection.eq_of_matches haway hmatches]
        · exact ih (fun v' hv' => hinputs v' (List.mem_cons_of_mem _ hv')) hrest
            hrest' hanswers' cmd' hmem
      · have haside : forall parser v, input ≠ .frame parser v :=
          fun parser v heq => hframe ⟨parser, v, heq⟩
        rw [Input.frames_cons_aside haside] at hinputs
        have hnone : first = [] := by
          have hmap := replies_of_run (run_cons_eq_some.mpr
            ⟨ses1, first, [], hstep, rfl, rfl⟩ : run fuel threadId [input] ses = _)
          rw [Input.frames_cons_aside haside] at hmap
          simpa [Input.frames] using hmap
        subst hnone
        exact ih hinputs hrest hresults hanswers

/-!
# The two ways compared
-/

/-- The name of the connection and the one in its entry. -/
def names (ses : Session S P) : Names where
  current := ses.connection.clientName
  registered :=
    (ses.shared.world.clients.lookup ses.connection.connectionId).bind
      ClientInfo.name

/-- An authenticated connection without subscriptions, transaction and watched
keys; what the chunk has left to the service does not subscribe it. -/
structure Ready (threadId : ThreadId) (ses : Session S P) : Prop where
  registered : Registered ses
  authenticated : ses.connection.authenticated = true
  unsubscribed : ses.connection.subscriptionCount = 0
  settled : ses.connection.Alike (ses.finish threadId).connection
  idle : ses.connection.transactionState = .none
  unwatched : ses.connection.watchedKeys = ∅

theorem Ready.served {ses : Session S P} (h : Ready threadId ses) :
    Served ses.connection :=
  ⟨h.authenticated, h.unsubscribed, h.registered.config, h.registered.registry,
    h.registered.client⟩

theorem Ready.at {ses : Session S P} (h : Ready threadId ses) :
    At threadId ses.connection ses.names ses := by
  rcases h.registered.entry with ⟨info, hinfo, hflags⟩
  refine ⟨.refl _, rfl, ⟨_, rfl⟩, h.settled, rfl, info, hinfo, ?_, hflags⟩
  rw [names, hinfo]
  rfl

/-- `MULTI`, the commands and `EXEC` do what the commands do when sent directly:
the same store, watch registry, tracker and service, the same operations left to
the service, and results that agree with the replies. -/
def EqualsDirect (fuel : Nat) (threadId : ThreadId) (ses : Session S P)
    (before : List Input) (parser : RespParser) (v : RespValue)
    (direct : Session S P) (replies : Replies) : Prop :=
  exists ses1 queued ses' results,
    run fuel threadId before ses = some (ses1, queued) ∧
    ses1.frame fuel parser v = some (ses', .reply (.array (some results))) ∧
    ses'.shared.world.store = direct.shared.world.store ∧
    ses'.shared.world.watch = direct.shared.world.watch ∧
    ses'.shared.world.tracker = direct.shared.world.tracker ∧
    ses'.pubsubBehind threadId = direct.pubsubBehind threadId ∧
    queued.ops = replies.ops ∧
    List.Forall₂ (Answers S P) replies results

theorem frame_exec {c : Connection} {names : Names} {queue : List Command}
    {ses : Session S P} {v : RespValue} {results : List RespValue}
    {w : World S P} (hc : Served c) (h : InTransaction threadId c names queue ses)
    (hexec : Command.fromResp v = .ok .exec)
    (hresults : Connection.Results (server S P) fuel ses.connection.executor
      ses.shared.world queue results w) (parser : RespParser) :
    exists ses', ses.frame fuel parser v =
        some (ses', .reply (.array (some results))) ∧
      ses'.shared.world = w ∧
      ses'.pubsubBehind threadId = ses.pubsubBehind threadId := by
  rw [← h.queue] at hresults
  rcases Connection.run_unwatched_exec
    (c := { ses.connection with parser := parser })
    (h.start.alike.subscriptionCount.trans hc.unsubscribed) h.state h.watched
    hexec hresults with ⟨x, hrun⟩
  have hframe := frame_eq_some.mpr ⟨_, _, hrun, rfl⟩
  refine ⟨_, hframe, rfl, ?_⟩
  exact And.right (finish_alike threadId ses _ rfl (List.append_nil ses.ops)
    ⟨rfl, rfl, rfl, rfl⟩)

theorem results_of_frame {c : Connection} {names : Names} {queue : List Command}
    {ses ses' : Session S P} {parser : RespParser} {v : RespValue}
    {results : List RespValue} (hc : Served c)
    (h : InTransaction threadId c names queue ses)
    (hexec : Command.fromResp v = .ok .exec)
    (hframe : ses.frame fuel parser v =
      some (ses', .reply (.array (some results)))) :
    exists w, Connection.Results (server S P) fuel ses.connection.executor
      ses.shared.world queue results w := by
  rcases frame_eq_some.mp hframe with ⟨c', world, hrun, _⟩
  have hroute := Connection.route_unsubscribed
    (c := { ses.connection with parser := parser })
    (h.start.alike.subscriptionCount.trans hc.unsubscribed)
    (Connection.fastPath_queuing v h.state) hexec (by simp)
  rcases Connection.run_of_route hroute hrun with ⟨name, c1, hdispatch, _⟩
  rcases Connection.run_exec_cases
    (c := { ({ ses.connection with parser := parser } :
      Connection).countCommand with clientName := name }) h.state hdispatch with
    ⟨_, _, hflow⟩ | ⟨w1, results', x, hcheck, hall, _, hflow⟩
  · cases hflow
  · cases hflow
    have hversions : ses.connection.watchedVersions = [] := by
      rw [Connection.watchedVersions, h.watched]
      rfl
    change (Connection.checkKeysUnchanged ses.connection.watchedVersions).run
      (server S P) ses.shared.world = _ at hcheck
    rw [hversions] at hcheck
    cases hcheck
    rcases Connection.results_of_executeAll hall with ⟨all, hresults, hexecuted⟩
    rw [List.nil_append] at hresults
    subst hresults
    rw [← h.queue]
    exact ⟨world, hexecuted⟩

/-- A transaction does what its commands do when sent directly exactly if the
executor deals with all of them, and none of them shows the name of the
connection where that in the registry of clients is another at `EXEC` than it is
when the command is sent directly. -/
theorem exec_equals_direct_iff {ses direct : Session S P}
    {before inputs : List Input} {parser : RespParser} {vMulti vExec : RespValue}
    {replies : Replies} (hready : Ready threadId ses)
    (hmulti : Command.fromResp vMulti = .ok .multi)
    (hexec : Command.fromResp vExec = .ok .exec)
    (hbefore : Input.frames before = vMulti :: Input.frames inputs)
    (hordinary : forall v, v ∈ Input.frames inputs -> exists cmd, Ordinary v cmd)
    (hdirect : run fuel threadId inputs ses = some (direct, replies)) :
    EqualsDirect fuel threadId ses before parser vExec direct replies <->
      (forall cmd, cmd ∈ Input.commands inputs ->
        Connection.Transferable ses.connection.executor.config cmd) ∧
      Names.Show (before.foldl Names.after ses.names).registered inputs
        ses.names := by
  rcases run_begun fuel hready.served hready.at hready.idle hready.unwatched
    hmulti hbefore hordinary with ⟨ses1, queued, hqueued, hops, hin, hidle⟩
  have hlockstep : (forall cmd, cmd ∈ Input.commands inputs ->
        Connection.Transferable ses.connection.executor.config cmd) ->
      exists results w',
        Connection.Results (server S P) fuel ses1.connection.executor
          ses1.shared.world (Input.commands inputs) results w' ∧
        World.Related ses.connection.connectionId direct.shared.world w' ∧
        direct.pubsubBehind threadId = ses.pubsubBehind threadId ∧
        replies.ops = [] ∧
        (List.Forall₂ (Answers S P) replies results <->
          Names.Show (before.foldl Names.after ses.names).registered inputs
            ses.names) := by
    intro htransferable
    rcases hin.start.entry with ⟨info, hinfo, hname, _⟩
    rw [← commands_of_run hdirect]
    refine run_lockstep hready.served hready.at hready.idle ?_
      hin.start.executor hidle.world ?_ hdirect
    · intro v hv
      rcases hordinary v hv with ⟨cmd, hcmd⟩
      refine ⟨cmd, hcmd, htransferable cmd ?_⟩
      exact List.mem_filterMap.mpr ⟨v, hv, by rw [hcmd.1]; rfl⟩
    · rw [hinfo, Option.map_some, hname]
  constructor
  · rintro ⟨ses1', queued', ses', results, hrun, hframe, _, _, _, _, _, hanswers⟩
    rw [hqueued] at hrun
    cases hrun
    have hresults : exists w, Connection.Results (server S P) fuel
        ses1.connection.executor ses1.shared.world (Input.commands inputs) results
        w := results_of_frame hready.served hin hexec hframe
    rcases hresults with ⟨w, hresults⟩
    have htransferable : forall cmd, cmd ∈ Input.commands inputs ->
        Connection.Transferable ses.connection.executor.config cmd := by
      rw [← commands_of_run hdirect] at hresults ⊢
      rcases hin.start.executor with ⟨n, hn⟩
      have hall := transferable_of_answers hordinary hdirect hresults hanswers
      rwa [hn] at hall
    refine ⟨htransferable, ?_⟩
    rcases hlockstep htransferable with ⟨results', w', hresults', _, _, _, hiff⟩
    rw [hresults'.eq_of hresults] at hiff
    exact hiff.mp hanswers
  · rintro ⟨htransferable, hshow⟩
    rcases hlockstep htransferable with
      ⟨results, w', hresults, hw', hpubsub, hnone, hiff⟩
    rcases frame_exec hready.served hin hexec hresults parser with
      ⟨ses', hframe, hworld, hpubsub'⟩
    refine ⟨ses1, queued, ses', results, hqueued, hframe, ?_, ?_, ?_, ?_,
      hops.trans hnone.symm, hiff.mpr hshow⟩
    · rw [hworld, hw'.store]
    · rw [hworld, hw'.watch]
    · rw [hworld, hw'.tracker]
    · rw [hpubsub', hidle.pubsub, hpubsub]

/-- Frames in a chunk of their own. -/
def chunk (frames : List (List String)) : List Input :=
  frames.map (fun words => Input.frame .new (Connection.request words)) ++
    [.finished]

/-- A `PUBLISH` is not published by `EXEC`. -/
theorem publish_in_transaction_differs :
    exists direct replies ses1 queued ses',
      run 0 0 (chunk [["PUBLISH", "news", "hello"]]) fresh =
        some (direct, replies) ∧
      run 0 0 (chunk [["MULTI"], ["PUBLISH", "news", "hello"]]) fresh =
        some (ses1, queued) ∧
      ses1.frame 0 .new (Connection.request ["EXEC"]) =
        some (ses', .reply (.array (some [.error
          "-ERR Pub/Sub commands should be handled in connection layer"]))) ∧
      ¬ EqualsDirect 0 0 fresh (chunk [["MULTI"], ["PUBLISH", "news", "hello"]])
        .new (Connection.request ["EXEC"]) direct replies := by
  refine ⟨_, _, _, _, _, rfl, rfl, rfl, ?_⟩
  rintro ⟨ses1, queued, ses', results, _, _, _, _, _, _, _, hanswers⟩
  -- the direct `PUBLISH` is left to the service and has no reply of its own
  cases hanswers with
  | cons hanswer _ =>
      rcases hanswer with ⟨cmd, r, _, hvalue, _⟩
      cases hvalue

theorem ready_fresh : Ready 0 fresh :=
  ⟨registered_accept _ _ _ _ _, rfl, rfl, ⟨rfl, rfl, rfl, rfl⟩, rfl, rfl⟩

theorem exec_equals_direct_iff_set :
    exists direct replies,
      run 0 0 (chunk [["SET", "k", "v"], ["GET", "k"]]) fresh =
        some (direct, replies) ∧
      (EqualsDirect 0 0 fresh
          (chunk [["MULTI"], ["SET", "k", "v"], ["GET", "k"]]) .new
          (Connection.request ["EXEC"]) direct replies <->
        (forall cmd,
          cmd ∈ Input.commands (chunk [["SET", "k", "v"], ["GET", "k"]]) ->
            Connection.Transferable fresh.connection.executor.config cmd) ∧
        Names.Show
          ((chunk [["MULTI"], ["SET", "k", "v"], ["GET", "k"]]).foldl Names.after
            fresh.names).registered
          (chunk [["SET", "k", "v"], ["GET", "k"]]) fresh.names) := by
  refine ⟨_, _, rfl, exec_equals_direct_iff ready_fresh rfl rfl rfl ?_ rfl⟩
  intro v hv
  rcases List.mem_cons.mp hv with rfl | hv
  · exact ⟨_, rfl, rfl, fun heq => nomatch heq⟩
  · rw [List.mem_singleton.mp hv]
    exact ⟨_, rfl, rfl, fun heq => nomatch heq⟩

end Session

end FeoxServer
