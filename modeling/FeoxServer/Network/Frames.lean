import FeoxServer.Network.Connection

/-!
# The ways of a frame

What becomes of a frame is decided before anything is executed: it takes the
fast path, it is not a command, it ends the connection, it is refused, or it
is dispatched.
-/

namespace FeoxServer

open Foundation Prog

inductive Route where
  | fast (f : FastCommand)
  | invalid (e : String)
  | quit
  | refused
  | dispatched (cmd : Command)

namespace Command

/-- The commands that are never put into the queue of a transaction. -/
def isTransactionCommand : Command -> Bool
  | multi | exec | discard | watch _ | unwatch => true
  | _ => false

end Command

/-!
# The fast path among the commands
-/

namespace FastCommand

/-- The command that a frame on the fast path stands for. -/
def command : FastCommand -> Command
  | set key value => .set key value none none
  | get key => .get key

end FastCommand

theorem fromResp_of_name {name : String} {cmd : Bytes} {args : List RespValue}
    (hupper : toAsciiUppercase (asBytes name) = asBytes name)
    (h : eqIgnoreAsciiCase cmd (asBytes name) = true) :
    Command.fromResp (.array (some (.bulkString (some cmd) :: args))) =
      match CommandParser.parserOf name with
      | some parser => parser args
      | none => .error ("unknown command '" ++ fromUtf8Lossy cmd ++ "'") := by
  have hname : toAsciiUppercase cmd = asBytes name := by
    rw [← hupper]
    exact beq_iff_eq.mp h
  rw [Command.fromResp, CommandParser.parseCommand, hname, fromUtf8_asBytes]
  rfl

theorem fromResp_of_fastCommand {v : RespValue} {f : FastCommand}
    (h : fastCommand v = some f) : Command.fromResp v = .ok f.command := by
  unfold fastCommand at h
  split at h
  · split at h
    · rename_i cmd key value hset
      cases h
      rw [fromResp_of_name (by decide) hset]
      rfl
    · cases h
  · split at h
    · rename_i cmd key hget
      cases h
      rw [fromResp_of_name (by decide) hget]
      rfl
    · cases h
  · cases h

namespace Connection

theorem fastCommand_of_fastPath {c : Connection} {v : RespValue}
    {f : FastCommand} (h : c.fastPath v = some f) :
    c.transactionState = .none ∧ fastCommand v = some f := by
  unfold fastPath at h
  split at h
  · rename_i hidle
    exact ⟨hidle, h⟩
  · cases h

def route (c : Connection) (v : RespValue) : Route :=
  match c.fastPath v with
  | some f => .fast f
  | none =>
      match Command.fromResp v with
      | .error e => .invalid e
      | .ok cmd =>
          if cmd = .quit then .quit
          else if c.isInPubsubMode && !cmd.isAllowedInPubsubMode then .refused
          else .dispatched cmd

theorem frameFlow_eq (fuel : Nat) (c : Connection) (v : RespValue) :
    frameFlow fuel c v =
      match c.route v with
      | .fast f => f.run >>= fun r => pure (c.countCommand, .fast r)
      | .invalid e => pure (c.countCommand, .failed e)
      | .quit => pure ({ c.countCommand with closed := true }, .quit)
      | .refused => pure (c.countCommand, error notAllowed)
      | .dispatched cmd =>
          dispatch fuel (c.countCommand.noteClientName cmd) cmd := by
  unfold frameFlow route slowPath
  cases c.fastPath v with
  | some f => rfl
  | none =>
      cases Command.fromResp v with
      | error e => rfl
      | ok cmd =>
          have hmode : c.countCommand.isInPubsubMode = c.isInPubsubMode := rfl
          simp only [processCommand, hmode]
          by_cases hquit : cmd = .quit
          · simp [hquit]
          · simp only [if_neg hquit]
            split <;> rfl

theorem fastPath_eq_none {c : Connection} {v : RespValue} {cmd : Command}
    (hcmd : Command.fromResp v = .ok cmd) (hslow : forall f, cmd ≠ FastCommand.command f) :
    c.fastPath v = none := by
  cases hfast : c.fastPath v with
  | none => rfl
  | some f =>
      rw [fromResp_of_fastCommand (fastCommand_of_fastPath hfast).2] at hcmd
      cases hcmd
      exact absurd rfl (hslow f)

theorem route_of_slow {c : Connection} {v : RespValue} {cmd : Command}
    (hslow : c.fastPath v = none) (hcmd : Command.fromResp v = .ok cmd) :
    c.route v =
      if cmd = .quit then .quit
      else if c.isInPubsubMode && !cmd.isAllowedInPubsubMode then .refused
      else .dispatched cmd := by
  rw [route, hslow, hcmd]

/-- What is known of a command that is dispatched. -/
structure Dispatched (c : Connection) (v : RespValue) (cmd : Command) : Prop where
  slow : c.fastPath v = none
  parsed : Command.fromResp v = .ok cmd
  open_ : cmd ≠ .quit
  allowed : c.isInPubsubMode = true -> cmd.isAllowedInPubsubMode = true

theorem dispatched_of_route {c : Connection} {v : RespValue} {cmd : Command}
    (h : c.route v = .dispatched cmd) : Dispatched c v cmd := by
  unfold route at h
  split at h
  · cases h
  · rename_i hslow
    split at h
    · cases h
    · rename_i cmd' hcmd
      split at h
      · cases h
      · rename_i hquit
        split at h
        · cases h
        · rename_i hgate
          cases h
          refine ⟨hslow, hcmd, hquit, ?_⟩
          intro hmode
          simpa [hmode] using hgate

theorem dispatch_ordinary {cmd : Command} (h : cmd.isTransactionCommand = false)
    (fuel : Nat) (c : Connection) :
    dispatch fuel c cmd =
      if c.transactionState = .queuing then
        pure ({ c with queuedCommands := c.queuedCommands ++ [cmd] },
          .reply (.simpleString (asBytes "QUEUED")))
      else answer fuel c cmd := by
  cases cmd <;> first | rfl | cases h

theorem noteClientName_eq (c : Connection) (cmd : Command) :
    exists name, c.noteClientName cmd = { c with clientName := name } := by
  unfold noteClientName
  split
  · split
    · exact ⟨_, rfl⟩
    · exact ⟨c.clientName, rfl⟩
  · exact ⟨c.clientName, rfl⟩

theorem run_processFrame {fuel : Nat} {c c' : Connection} {v : RespValue}
    {flow : Flow} {T : Service Call Answer} {s s' : T.State} :
    (c.processFrame fuel v).run T s = some ((c', flow), s') <->
      exists c1, (c.frameFlow fuel v).run T s = some ((c1, flow), s') ∧
        c' = c1.write flow.bytes := by
  unfold processFrame
  rw [run_bind_eq_some]
  constructor
  · rintro ⟨⟨c1, flow'⟩, s1, hframe, hdone⟩
    cases hdone
    exact ⟨c1, hframe, rfl⟩
  · rintro ⟨c1, hframe, rfl⟩
    exact ⟨(c1, flow), s', hframe, rfl⟩

theorem clearWritten_eq (c : Connection) :
    exists buffer position, c.clearWritten =
      { c with writeBuffer := buffer, writePosition := position } := by
  unfold clearWritten
  split
  · exact ⟨[], 0, rfl⟩
  · exact ⟨c.writeBuffer, c.writePosition, rfl⟩

/-!
# The two ends of EXEC
-/

theorem run_exec_cases {fuel : Nat} {c c' : Connection} {flow : Flow}
    {T : Service Call Answer} {s s' : T.State}
    (hqueuing : c.transactionState = .queuing)
    (hrun : (exec fuel c).run T s = some ((c', flow), s')) :
    ((checkKeysUnchanged c.watchedVersions).run T s = some (false, s') ∧
      c' = c.endTransaction ∧ flow = .reply (.bulkString none)) ∨
    exists s1 results x,
      (checkKeysUnchanged c.watchedVersions).run T s = some (true, s1) ∧
      (executeAll fuel c.executor c.queuedCommands []).run T s1 =
        some ((results, x), s') ∧
      c' = { c.endTransaction with executor := x } ∧
      flow = .reply (.array (some results)) := by
  rw [exec, if_neg (not_not.mpr hqueuing)] at hrun
  rcases (run_bind_eq_some _).mp hrun with ⟨unchanged, s1, hcheck, hrest⟩
  cases unchanged with
  | false =>
      cases hrest
      exact Or.inl ⟨hcheck, rfl, rfl⟩
  | true =>
      rcases (run_bind_eq_some _).mp hrest with ⟨⟨results, x⟩, s2, hall, hdone⟩
      cases hdone
      exact Or.inr ⟨s1, results, x, hcheck, hall, rfl, rfl⟩

/-!
# What answering changes
-/

abbrev Anything (c : Call) (_ : Answer c) : Prop := True

theorem run_anything {α : Type} {p : ServerProg α} {Q : α -> Prop}
    (hp : Returns Anything Q p) {T : Service Call Answer}
    {s s' : T.State} {a : α} (hrun : p.run T s = some (a, s')) : Q a :=
  run_returns T (fun _ _ => trivial) hp hrun

theorem execute_returns (fuel : Nat) (x : CommandExecutor) (cmd : Command) :
    Returns Anything (fun r : RespValue × CommandExecutor =>
      exists n, r.2 = { x with commandsProcessed := n }) (x.execute fuel cmd) :=
  returns_bind (returns_trivial _) fun _ _ => Returns.done ⟨_, rfl⟩

theorem executeAll_returns (fuel : Nat) (x : CommandExecutor)
    (cmds : List Command) (results : List RespValue) :
    Returns Anything (fun r : List RespValue × CommandExecutor =>
      exists n, r.2 = { x with commandsProcessed := n })
      (executeAll fuel x cmds results) := by
  induction cmds generalizing x results with
  | nil => exact Returns.done ⟨x.commandsProcessed, rfl⟩
  | cons cmd cmds ih =>
      refine returns_bind (execute_returns fuel x cmd) ?_
      rintro ⟨r, x'⟩ ⟨n, rfl⟩
      exact ih { x with commandsProcessed := n } (results ++ [r])

/-- Answering a command only changes the counters of the executor and whether
the connection is authenticated. -/
theorem answer_returns (fuel : Nat) (c : Connection) (cmd : Command) :
    Returns Anything (fun r : Connection × Flow =>
      exists n b, r.1 =
        { c with
          executor := { c.executor with commandsProcessed := n }
          authenticated := b })
      (answer fuel c cmd) := by
  have hnow : Returns Anything (fun r : Connection × Flow =>
      exists n b, r.1 =
        { c with
          executor := { c.executor with commandsProcessed := n }
          authenticated := b })
      (executeNow fuel c cmd) := by
    refine returns_bind (execute_returns fuel c.executor cmd) ?_
    rintro ⟨r, x⟩ ⟨n, rfl⟩
    exact Returns.done ⟨n, c.authenticated, rfl⟩
  have hsame : forall flow, Returns Anything (fun r : Connection × Flow =>
      exists n b, r.1 =
        { c with
          executor := { c.executor with commandsProcessed := n }
          authenticated := b })
      (pure (c, flow)) := fun flow =>
    Returns.done ⟨c.executor.commandsProcessed, c.authenticated, rfl⟩
  unfold answer
  split
  · refine Returns.done ?_
    unfold auth
    split
    · exact ⟨c.executor.commandsProcessed, c.authenticated, rfl⟩
    · split
      · exact ⟨c.executor.commandsProcessed, true, rfl⟩
      · exact ⟨c.executor.commandsProcessed, c.authenticated, rfl⟩
  · split
    · unfold unauthenticated
      split
      · exact hnow
      · exact hsame _
    · split
      · exact hsame _
      · exact hnow

/-- What no frame changes of a connection. -/
structure Lasting (c c' : Connection) : Prop where
  parser : c'.parser = c.parser
  connectionId : c'.connectionId = c.connectionId
  authRequired : c'.authRequired = c.authRequired
  subscriptionCount : c'.subscriptionCount = c.subscriptionCount
  flags : c'.flags = c.flags
  executor : exists n, c'.executor = { c.executor with commandsProcessed := n }

theorem dispatch_lasting (fuel : Nat) (c : Connection) (cmd : Command) :
    Returns Anything (fun r => Lasting c r.1) (dispatch fuel c cmd) := by
  have hsame : forall flow : Flow,
      Returns Anything (fun r => Lasting c r.1) (pure (c, flow)) := fun flow =>
    Returns.done ⟨rfl, rfl, rfl, rfl, rfl, c.executor.commandsProcessed, rfl⟩
  by_cases hordinary : cmd.isTransactionCommand = false
  · rw [dispatch_ordinary hordinary]
    split
    · exact Returns.done
        ⟨rfl, rfl, rfl, rfl, rfl, c.executor.commandsProcessed, rfl⟩
    · refine returns_mono (answer_returns fuel c cmd) ?_
      rintro r ⟨n, b, hr⟩
      rw [hr]
      exact ⟨rfl, rfl, rfl, rfl, rfl, n, rfl⟩
  · cases cmd with
    | multi =>
        simp only [dispatch, beginTransaction]
        split
        · exact hsame _
        · exact Returns.done
            ⟨rfl, rfl, rfl, rfl, rfl, c.executor.commandsProcessed, rfl⟩
    | exec =>
        simp only [dispatch, exec]
        split
        · exact hsame _
        · refine returns_bind (returns_trivial _) fun unchanged _ => ?_
          split
          · refine returns_bind (executeAll_returns fuel _ _ _) ?_
            rintro ⟨results, x⟩ ⟨n, rfl⟩
            exact Returns.done ⟨rfl, rfl, rfl, rfl, rfl, n, rfl⟩
          · exact Returns.done
              ⟨rfl, rfl, rfl, rfl, rfl, c.executor.commandsProcessed, rfl⟩
    | discard =>
        simp only [dispatch, discard]
        split
        · exact hsame _
        · exact Returns.done
            ⟨rfl, rfl, rfl, rfl, rfl, c.executor.commandsProcessed, rfl⟩
    | watch keys =>
        simp only [dispatch, watch]
        split
        · exact hsame _
        · refine returns_bind (returns_trivial _) fun watched _ => ?_
          exact Returns.done
            ⟨rfl, rfl, rfl, rfl, rfl, c.executor.commandsProcessed, rfl⟩
    | unwatch =>
        exact Returns.done
          ⟨rfl, rfl, rfl, rfl, rfl, c.executor.commandsProcessed, rfl⟩
    | _ => exact absurd rfl hordinary

theorem processFrame_lasting (fuel : Nat) (c : Connection) (v : RespValue) :
    Returns Anything (fun r => Lasting c r.1) (processFrame fuel c v) := by
  have hsame : forall (b : Bool) (flow : Flow), Returns Anything
      (fun r => Lasting c r.1)
      (pure ({ c.countCommand with closed := b }, flow)) := fun b flow =>
    Returns.done ⟨rfl, rfl, rfl, rfl, rfl, c.executor.commandsProcessed, rfl⟩
  have hframe : Returns Anything (fun r => Lasting c r.1)
      (frameFlow fuel c v) := by
    rw [frameFlow_eq]
    cases c.route v with
    | fast f => exact returns_bind (returns_trivial _) fun r _ => hsame _ _
    | invalid e | quit | refused => exact hsame _ _
    | dispatched cmd =>
        rcases c.countCommand.noteClientName_eq cmd with ⟨name, hname⟩
        simp only [hname]
        refine returns_mono (dispatch_lasting fuel _ cmd) fun r hr => ?_
        exact ⟨hr.parser, hr.connectionId, hr.authRequired, hr.subscriptionCount,
          hr.flags, hr.executor⟩
  refine returns_bind hframe fun r hr => Returns.done ?_
  exact ⟨hr.parser, hr.connectionId, hr.authRequired, hr.subscriptionCount,
    hr.flags, hr.executor⟩

end Connection

end FeoxServer
