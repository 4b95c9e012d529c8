import FeoxServer.Network.Transactions
import FeoxServer.Server

/-!
# What a client sees of its transactions

The frames of a connection with what became of them are its transcript.  The
queue of a transaction is compared with the replies in the transcript.
-/

namespace FeoxServer

open Foundation Prog

namespace Flow

def isOk : Flow -> Bool
  | reply (.simpleString s) => s == asBytes "OK"
  | _ => false

def isQueued : Flow -> Bool
  | reply (.simpleString s) => s == asBytes "QUEUED"
  | _ => false

end Flow

/-- The last frame comes first. -/
abbrev Transcript : Type :=
  List (RespValue × Flow)

namespace Transcript

/-- The commands answered `QUEUED` since the last `MULTI` answered `OK`. -/
def queued : Transcript -> List Command
  | [] => []
  | (v, flow) :: earlier =>
      match Command.fromResp v with
      | .error _ => queued earlier
      | .ok cmd =>
          if cmd = .multi ∧ flow.isOk then []
          else if flow.isQueued then queued earlier ++ [cmd]
          else queued earlier

theorem queued_quiet {v : RespValue} {flow : Flow} (earlier : Transcript)
    (hok : Command.fromResp v = .ok .multi -> flow.isOk = false)
    (hqueued : flow.isQueued = false) :
    queued ((v, flow) :: earlier) = queued earlier := by
  rw [queued]
  split
  · rfl
  · rename_i cmd hcmd
    rw [if_neg, if_neg]
    · simp [hqueued]
    · rintro ⟨rfl, hflow⟩
      rw [hok hcmd] at hflow
      cases hflow

end Transcript

namespace Connection

/-!
# The transaction of a connection
-/

/-- The same transaction, with the same keys watched. -/
structure SameTransaction (c c' : Connection) : Prop where
  state : c'.transactionState = c.transactionState
  queue : c'.queuedCommands = c.queuedCommands
  watched : c'.watchedKeys = c.watchedKeys

theorem SameTransaction.refl (c : Connection) : SameTransaction c c :=
  ⟨rfl, rfl, rfl⟩

theorem SameTransaction.trans {c c1 c2 : Connection}
    (h : SameTransaction c c1) (h' : SameTransaction c1 c2) :
    SameTransaction c c2 where
  state := h'.state.trans h.state
  queue := h'.queue.trans h.queue
  watched := h'.watched.trans h.watched

/-- Nothing is left of a transaction. -/
structure Cleared (c : Connection) : Prop where
  state : c.transactionState = .none
  queue : c.queuedCommands = []
  watched : c.watchedKeys = ∅

/-- What a frame can do to the transaction of a connection. -/
inductive TransactionStep (c : Connection) (v : RespValue) :
    Connection -> Flow -> Prop where
  | kept {c' : Connection} {flow : Flow} :
      c'.transactionState = c.transactionState ->
      c'.queuedCommands = c.queuedCommands ->
      (Command.fromResp v = .ok .multi -> flow.isOk = false) ->
      (c.transactionState = .queuing -> flow.isQueued = false) ->
      TransactionStep c v c' flow
  | begun {c' : Connection} : Command.fromResp v = .ok .multi ->
      c.transactionState ≠ .queuing -> c'.transactionState = .queuing ->
      c'.queuedCommands = [] -> TransactionStep c v c' ok
  | queued {c' : Connection} {cmd : Command} : Command.fromResp v = .ok cmd ->
      cmd.isTransactionCommand = false -> cmd ≠ .quit ->
      c.transactionState = .queuing -> c'.transactionState = .queuing ->
      c'.queuedCommands = c.queuedCommands ++ [cmd] ->
      TransactionStep c v c' (.reply (.simpleString (asBytes "QUEUED")))
  | ended {c' : Connection} {flow : Flow} : c.transactionState = .queuing ->
      flow.isQueued = false -> Cleared c' -> TransactionStep c v c' flow

theorem SameTransaction.step {c c' c1 : Connection} {v : RespValue} {flow : Flow}
    (h : SameTransaction c' c1) (hstep : TransactionStep c v c' flow) :
    TransactionStep c v c1 flow := by
  cases hstep with
  | kept hstate hqueue hok hqueued =>
      exact .kept (h.state.trans hstate) (h.queue.trans hqueue) hok hqueued
  | begun hcmd hidle hstate hqueue =>
      exact .begun hcmd hidle (h.state.trans hstate) (h.queue.trans hqueue)
  | queued hcmd hordinary hquit hqueuing hstate hqueue =>
      exact .queued hcmd hordinary hquit hqueuing (h.state.trans hstate)
        (h.queue.trans hqueue)
  | ended hqueuing hquiet hclear =>
      exact .ended hqueuing hquiet ⟨h.state.trans hclear.state,
        h.queue.trans hclear.queue, h.watched.trans hclear.watched⟩

variable {fuel : Nat} {T : Service Call Answer}

theorem step_exec {c c' : Connection} {v : RespValue} {flow : Flow}
    {s s' : T.State} (hcmd : Command.fromResp v = .ok .exec)
    (hrun : (exec fuel c).run T s = some ((c', flow), s')) :
    TransactionStep c v c' flow := by
  by_cases hqueuing : c.transactionState = .queuing
  · rcases run_exec_cases hqueuing hrun with
      ⟨_, rfl, rfl⟩ | ⟨_, results, x, _, _, rfl, rfl⟩
    · exact .ended hqueuing rfl ⟨rfl, rfl, rfl⟩
    · exact .ended hqueuing rfl ⟨rfl, rfl, rfl⟩
  · rw [exec, if_pos hqueuing] at hrun
    cases hrun
    exact .kept rfl rfl (by simp [hcmd]) fun _ => rfl

theorem step_watch {c c' : Connection} {v : RespValue} {flow : Flow}
    {s s' : T.State} {keys : List Bytes}
    (hcmd : Command.fromResp v = .ok (.watch keys))
    (hrun : (watch c keys).run T s = some ((c', flow), s')) :
    TransactionStep c v c' flow := by
  unfold watch at hrun
  split at hrun
  · cases hrun
    exact .kept rfl rfl (by simp [hcmd]) fun _ => rfl
  · rename_i hidle
    rcases (run_bind_eq_some _).mp hrun with ⟨watched, s1, _, hdone⟩
    cases hdone
    exact .kept rfl rfl (by simp [hcmd]) fun hqueuing => absurd hqueuing hidle

theorem step_ordinary {c c' : Connection} {v : RespValue} {cmd : Command}
    {flow : Flow} {s s' : T.State} (hcmd : Command.fromResp v = .ok cmd)
    (hordinary : cmd.isTransactionCommand = false) (hquit : cmd ≠ .quit)
    (hrun : (dispatch fuel c cmd).run T s = some ((c', flow), s')) :
    TransactionStep c v c' flow := by
  rw [dispatch_ordinary hordinary] at hrun
  split at hrun
  · rename_i hqueuing
    cases hrun
    exact .queued hcmd hordinary hquit hqueuing hqueuing rfl
  · rename_i hidle
    rcases run_returns T (fun _ _ => trivial) (answer_returns fuel c _) hrun with
      ⟨x, b, hc'⟩
    obtain rfl : c' = _ := hc'
    refine .kept rfl rfl ?_ fun hqueuing => absurd hqueuing hidle
    intro hmulti
    rw [hcmd] at hmulti
    cases hmulti
    cases hordinary

theorem step_dispatch {c c' : Connection} {v : RespValue} {cmd : Command}
    {flow : Flow} {s s' : T.State} (hcmd : Command.fromResp v = .ok cmd)
    (hquit : cmd ≠ .quit)
    (hrun : (dispatch fuel c cmd).run T s = some ((c', flow), s')) :
    TransactionStep c v c' flow := by
  by_cases hordinary : cmd.isTransactionCommand = false
  · exact step_ordinary hcmd hordinary hquit hrun
  cases cmd with
  | multi =>
      simp only [dispatch, beginTransaction] at hrun
      split at hrun
      · cases hrun
        exact .kept rfl rfl (fun _ => rfl) fun _ => rfl
      · rename_i hidle
        cases hrun
        exact .begun hcmd hidle rfl rfl
  | exec => exact step_exec hcmd hrun
  | discard =>
      simp only [dispatch, discard] at hrun
      split at hrun
      · cases hrun
        exact .kept rfl rfl (by simp [hcmd]) fun _ => rfl
      · rename_i hqueuing
        cases hrun
        exact .ended (not_not.mp hqueuing) rfl ⟨rfl, rfl, rfl⟩
  | watch keys => exact step_watch hcmd hrun
  | unwatch =>
      cases hrun
      exact .kept rfl rfl (by simp [hcmd]) fun _ => rfl
  | _ => exact absurd rfl hordinary

theorem transactionStep_of_run {c c' : Connection} {v : RespValue} {flow : Flow}
    {s s' : T.State}
    (hrun : (c.processFrame fuel v).run T s = some ((c', flow), s')) :
    TransactionStep c v c' flow := by
  rcases run_processFrame.mp hrun with ⟨c1, hframe, rfl⟩
  have hwrite : SameTransaction c1 (c1.write flow.bytes) := ⟨rfl, rfl, rfl⟩
  refine hwrite.step ?_
  rw [frameFlow_eq] at hframe
  cases hroute : c.route v with
  | fast f =>
      rw [hroute] at hframe
      rcases (run_bind_eq_some _).mp hframe with ⟨r, s1, _, hdone⟩
      cases hdone
      exact .kept rfl rfl (fun _ => rfl) fun _ => rfl
  | invalid e | quit | refused =>
      rw [hroute] at hframe
      cases hframe
      exact .kept rfl rfl (fun _ => rfl) fun _ => rfl
  | dispatched cmd =>
      rw [hroute] at hframe
      have hdispatched := dispatched_of_route hroute
      rcases c.countCommand.noteClientName_eq cmd with ⟨name, hname⟩
      simp only [hname] at hframe
      have hstep := step_dispatch hdispatched.parsed hdispatched.open_ hframe
      cases hstep with
      | kept hstate hqueue hok hqueued => exact .kept hstate hqueue hok hqueued
      | begun hcmd hidle hstate hqueue => exact .begun hcmd hidle hstate hqueue
      | queued hcmd hordinary hquit hqueuing hstate hqueue =>
          exact .queued hcmd hordinary hquit hqueuing hstate hqueue
      | ended hqueuing hquiet hclear => exact .ended hqueuing hquiet hclear

/-!
# Whole conversations
-/

/-- The connections that frames lead to, with the transcript of the frames.
The environment does anything between the frames, and whatever else happens to
the connection leaves its transaction alone. -/
inductive Conversation (T : Service Call Answer) (fuel : Nat) :
    Connection -> Transcript -> Prop where
  | accepted (fd : Int) (config : Config) (addr : Option String)
      (connectionId : Nat) (now : UInt64) :
      Conversation T fuel (.newWithAddr fd config addr connectionId now) []
  | frame {c c' : Connection} {log : Transcript} {v : RespValue} {flow : Flow}
      {s s' : T.State} : Conversation T fuel c log ->
      (c.processFrame fuel v).run T s = some ((c', flow), s') ->
      Conversation T fuel c' ((v, flow) :: log)
  | between {c c' : Connection} {log : Transcript} :
      Conversation T fuel c log -> SameTransaction c c' ->
      Conversation T fuel c' log

/-- The queue of a connection is in step with the transcript. -/
structure InStep (c : Connection) (log : Transcript) : Prop where
  idle : c.transactionState ≠ .queuing -> c.queuedCommands = []
  queuing : c.transactionState = .queuing -> c.queuedCommands = log.queued
  ordinary : forall cmd, cmd ∈ c.queuedCommands ->
    cmd.isTransactionCommand = false ∧ cmd ≠ .quit

theorem InStep.step {c c' : Connection} {log : Transcript} {v : RespValue}
    {flow : Flow} (h : InStep c log) (hstep : TransactionStep c v c' flow) :
    InStep c' ((v, flow) :: log) := by
  cases hstep with
  | kept hstate hqueue hok hqueued =>
      refine ⟨?_, ?_, ?_⟩
      · rw [hstate, hqueue]
        exact h.idle
      · rw [hstate, hqueue]
        intro hqueuing
        rw [h.queuing hqueuing, Transcript.queued_quiet log hok (hqueued hqueuing)]
      · rw [hqueue]
        exact h.ordinary
  | begun hcmd _ hstate hqueue =>
      refine ⟨fun hidle => absurd hstate hidle, fun _ => ?_, ?_⟩
      · rw [hqueue, Transcript.queued, hcmd]
        rfl
      · rw [hqueue]
        exact fun cmd hmem => absurd hmem List.not_mem_nil
  | queued hcmd hordinary hquit hqueuing hstate hqueue =>
      refine ⟨fun hidle => absurd hstate hidle, fun _ => ?_, ?_⟩
      · rw [hqueue, h.queuing hqueuing, Transcript.queued, hcmd]
        simp only
        rw [if_neg, if_pos]
        · decide
        · rintro ⟨_, hflow⟩
          exact absurd hflow (by decide)
      · rw [hqueue]
        intro cmd' hmem
        rcases List.mem_append.mp hmem with hmem | hmem
        · exact h.ordinary cmd' hmem
        · rw [List.mem_singleton.mp hmem]
          exact ⟨hordinary, hquit⟩
  | ended _ _ hclear =>
      refine ⟨fun _ => hclear.queue, ?_, ?_⟩
      · rw [hclear.state]
        exact fun hqueuing => nomatch hqueuing
      · rw [hclear.queue]
        exact fun cmd hmem => absurd hmem List.not_mem_nil

theorem inStep_of_conversation {c : Connection} {log : Transcript}
    (h : Conversation T fuel c log) : InStep c log := by
  induction h with
  | accepted fd config addr connectionId now =>
      exact ⟨fun _ => rfl, fun hqueuing => (nomatch hqueuing),
        fun cmd hmem => absurd hmem List.not_mem_nil⟩
  | frame _ hrun ih => exact ih.step (transactionStep_of_run hrun)
  | between _ hsame ih =>
      refine ⟨?_, ?_, ?_⟩
      · rw [hsame.state, hsame.queue]
        exact ih.idle
      · rw [hsame.state, hsame.queue]
        exact ih.queuing
      · rw [hsame.queue]
        exact ih.ordinary

/-!
# Executing a queue
-/

/-- Executing the commands one after the other gives the results. -/
inductive Results (T : Service Call Answer) (fuel : Nat) :
    CommandExecutor -> T.State -> List Command -> List RespValue -> T.State ->
      Prop where
  | nil {x : CommandExecutor} {s : T.State} : Results T fuel x s [] [] s
  | cons {x x1 : CommandExecutor} {s s1 s' : T.State} {cmd : Command}
      {r : RespValue} {cmds : List Command} {results : List RespValue} :
      (x.execute fuel cmd).run T s = some ((r, x1), s1) ->
      Results T fuel x1 s1 cmds results s' ->
      Results T fuel x s (cmd :: cmds) (r :: results) s'

theorem Results.length_eq {x : CommandExecutor} {s s' : T.State}
    {cmds : List Command} {results : List RespValue}
    (h : Results T fuel x s cmds results s') :
    results.length = cmds.length := by
  induction h with
  | nil => rfl
  | cons _ _ ih => rw [List.length_cons, List.length_cons, ih]

theorem results_of_executeAll {x x' : CommandExecutor} {s s' : T.State}
    {cmds : List Command} {before all : List RespValue}
    (hrun : (executeAll fuel x cmds before).run T s = some ((all, x'), s')) :
    exists results, all = before ++ results ∧
      Results T fuel x s cmds results s' := by
  induction cmds generalizing x s before with
  | nil =>
      cases hrun
      exact ⟨[], (List.append_nil _).symm, .nil⟩
  | cons cmd cmds ih =>
      rcases (run_bind_eq_some _).mp hrun with ⟨⟨r, x1⟩, s1, hcmd, hrest⟩
      rcases ih hrest with ⟨results, hall, hresults⟩
      refine ⟨r :: results, ?_, .cons hcmd hresults⟩
      rw [hall, List.append_assoc]
      rfl

theorem executeAll_of_results {x : CommandExecutor} {s s' : T.State}
    {cmds : List Command} {results : List RespValue}
    (h : Results T fuel x s cmds results s') (before : List RespValue) :
    exists x', (executeAll fuel x cmds before).run T s =
      some ((before ++ results, x'), s') := by
  induction h generalizing before with
  | nil =>
      rw [List.append_nil]
      exact ⟨_, rfl⟩
  | cons hcmd _ ih =>
      rename_i r _ _ _
      rcases ih (before ++ [r]) with ⟨x', hx'⟩
      rw [List.append_assoc] at hx'
      exact ⟨x', (run_bind_eq_some _).mpr ⟨_, _, hcmd, hx'⟩⟩

/-- What `EXEC` and `DISCARD` leave and reply after a transcript. -/
structure Ends (T : Service Call Answer) (fuel : Nat) (c : Connection)
    (log : Transcript) (v : RespValue) (c' : Connection) (flow : Flow)
    (s' : T.State) : Prop where
  executed : Command.fromResp v = .ok .exec -> forall results,
    flow = .reply (.array (some results)) ->
      (exists s, Results T fuel c.executor s log.queued results s') ∧
        results.length = log.queued.length ∧ Cleared c'
  aborted : Command.fromResp v = .ok .exec ->
    flow = .reply (.bulkString none) -> Cleared c'
  discarded : Command.fromResp v = .ok .discard ->
    c.transactionState = .queuing -> c.isInPubsubMode = false -> Cleared c'
  refused : Command.fromResp v = .ok .discard -> c.isInPubsubMode = true ->
    flow = error notAllowed ∧ SameTransaction c c'

theorem run_of_route {c c' : Connection} {v : RespValue} {cmd : Command}
    {flow : Flow} {s s' : T.State} (hroute : c.route v = .dispatched cmd)
    (hrun : (c.processFrame fuel v).run T s = some ((c', flow), s')) :
    exists name c1,
      (dispatch fuel { c.countCommand with clientName := name } cmd).run T s =
        some ((c1, flow), s') ∧ c' = c1.write flow.bytes := by
  rcases run_processFrame.mp hrun with ⟨c1, hframe, hc'⟩
  rw [frameFlow_eq, hroute] at hframe
  rcases c.countCommand.noteClientName_eq cmd with ⟨name, hname⟩
  simp only [hname] at hframe
  exact ⟨name, c1, hframe, hc'⟩

theorem run_of_refused {c c' : Connection} {v : RespValue} {flow : Flow}
    {s s' : T.State} (hroute : c.route v = .refused)
    (hrun : (c.processFrame fuel v).run T s = some ((c', flow), s')) :
    flow = error notAllowed ∧ s' = s ∧ c' = c.countCommand.write flow.bytes := by
  rcases run_processFrame.mp hrun with ⟨c1, hframe, rfl⟩
  rw [frameFlow_eq, hroute] at hframe
  cases hframe
  exact ⟨rfl, rfl, rfl⟩

theorem ends_exec {c c' : Connection} {log : Transcript} {v : RespValue}
    {flow : Flow} {s s' : T.State} (h : InStep c log)
    (hcmd : Command.fromResp v = .ok .exec)
    (hrun : (c.processFrame fuel v).run T s = some ((c', flow), s')) :
    (exists text, flow = error text) ∨
      (flow = .reply (.bulkString none) ∧ Cleared c') ∨
      exists s1 results, flow = .reply (.array (some results)) ∧
        Results T fuel c.executor s1 log.queued results s' ∧ Cleared c' := by
  have hslow : c.fastPath v = none := fastPath_eq_none hcmd fun f => by
    cases f <;> simp [FastCommand.command]
  have hroute := route_of_slow hslow hcmd
  rw [if_neg (by simp)] at hroute
  split at hroute
  · exact Or.inl ⟨notAllowed, (run_of_refused hroute hrun).1⟩
  rcases run_of_route hroute hrun with ⟨name, c1, hexec, rfl⟩
  by_cases hqueuing : c.transactionState = .queuing
  · rcases run_exec_cases (c := { c.countCommand with clientName := name })
      hqueuing hexec with
      ⟨_, rfl, rfl⟩ | ⟨s1, results, x, _, hall, rfl, rfl⟩
    · exact Or.inr (Or.inl ⟨rfl, rfl, rfl, rfl⟩)
    · rcases results_of_executeAll hall with ⟨results', hresults, hexecuted⟩
      rw [List.nil_append] at hresults
      subst hresults
      rw [← h.queuing hqueuing]
      exact Or.inr (Or.inr ⟨s1, results, rfl, hexecuted, rfl, rfl, rfl⟩)
  · have hidle : ({ c.countCommand with clientName := name } :
        Connection).transactionState ≠ .queuing := hqueuing
    rw [dispatch, exec, if_pos hidle] at hexec
    cases hexec
    exact Or.inl ⟨_, rfl⟩

theorem ends_discard {c c' : Connection} {v : RespValue} {flow : Flow}
    {s s' : T.State} (hcmd : Command.fromResp v = .ok .discard)
    (hrun : (c.processFrame fuel v).run T s = some ((c', flow), s')) :
    (c.transactionState = .queuing -> c.isInPubsubMode = false -> Cleared c') ∧
      (c.isInPubsubMode = true ->
        flow = error notAllowed ∧ SameTransaction c c') := by
  have hslow : c.fastPath v = none := fastPath_eq_none hcmd fun f => by
    cases f <;> simp [FastCommand.command]
  have hroute := route_of_slow hslow hcmd
  rw [if_neg (by simp)] at hroute
  constructor
  · intro hqueuing hmode
    rw [if_neg (by simp [hmode])] at hroute
    rcases run_of_route hroute hrun with ⟨name, c1, hdiscard, rfl⟩
    have hstate : ¬ ({ c.countCommand with clientName := name } :
        Connection).transactionState ≠ .queuing := not_not.mpr hqueuing
    rw [dispatch, discard, if_neg hstate] at hdiscard
    cases hdiscard
    exact ⟨rfl, rfl, rfl⟩
  · intro hmode
    rw [if_pos (by simp [hmode, Command.isAllowedInPubsubMode])] at hroute
    rcases run_of_refused hroute hrun with ⟨hflow, _, rfl⟩
    exact ⟨hflow, rfl, rfl, rfl⟩

/-- Transactions stay apart: the queue is empty outside a transaction and holds
no transaction command; `EXEC` replies to exactly the commands answered
`QUEUED` since the last `MULTI` answered `OK`; and nothing is left behind it or
behind a `DISCARD` that the subscriber mode does not refuse. -/
theorem transactions_apart {c : Connection} {log : Transcript}
    (h : Conversation T fuel c log) :
    (c.transactionState ≠ .queuing -> c.queuedCommands = []) ∧
    (forall cmd, cmd ∈ c.queuedCommands ->
      cmd.isTransactionCommand = false ∧ cmd ≠ .quit) ∧
    forall v c' flow s s',
      (c.processFrame fuel v).run T s = some ((c', flow), s') ->
        Ends T fuel c log v c' flow s' := by
  have hstep := inStep_of_conversation h
  refine ⟨hstep.idle, hstep.ordinary, ?_⟩
  intro v c' flow s s' hrun
  refine ⟨?_, ?_, ?_, ?_⟩
  · rintro hcmd results rfl
    rcases ends_exec hstep hcmd hrun with
      ⟨text, hflow⟩ | ⟨hflow, _⟩ | ⟨s1, results', hflow, hresults, hclear⟩
    · cases hflow
    · cases hflow
    · cases hflow
      exact ⟨⟨s1, hresults⟩, hresults.length_eq, hclear⟩
  · rintro hcmd rfl
    rcases ends_exec hstep hcmd hrun with
      ⟨text, hflow⟩ | ⟨_, hclear⟩ | ⟨_, _, hflow, _⟩
    · cases hflow
    · exact hclear
    · cases hflow
  · exact fun hcmd => (ends_discard hcmd hrun).1
  · exact fun hcmd => (ends_discard hcmd hrun).2

/-!
# Conversations of a worker
-/

theorem conversation_readLoop {rounds : Nat} {c c' : Connection}
    {log : Transcript} {ops : List PubSubOp} {r : ReadResult} {s s' : T.State}
    (h : Conversation T fuel c log)
    (hrun : (readLoop fuel rounds c ops).run T s = some ((c', r), s')) :
    exists more, Conversation T fuel c' (more ++ log) := by
  induction rounds generalizing c log ops s with
  | zero => cases hrun
  | succ rounds ih =>
      have hparser : forall p, Conversation T fuel { c with parser := p } log :=
        fun p => .between h ⟨rfl, rfl, rfl⟩
      unfold readLoop at hrun
      split at hrun
      · cases hrun
        exact ⟨[], hparser _⟩
      · cases hrun
        exact ⟨[], hparser _⟩
      · rename_i v p _
        rcases (run_bind_eq_some _).mp hrun with ⟨⟨c1, flow⟩, s1, hframe, hrest⟩
        have hnext := Conversation.frame (hparser p) hframe
        have hagain : forall ops',
            (readLoop fuel rounds c1 ops').run T s1 = some ((c', r), s') ->
              exists more, Conversation T fuel c' (more ++ log) := by
          intro ops' hloop
          rcases ih hnext hloop with ⟨more, hmore⟩
          refine ⟨more ++ [(v, flow)], ?_⟩
          rw [List.append_assoc]
          exact hmore
        cases flow with
        | deferred op => exact hagain _ hrest
        | quit | failed e =>
            cases hrest
            exact ⟨[(v, _)], hnext⟩
        | fast r | reply r => exact hagain _ hrest

theorem sameTransaction_handleOperations (threadId : ThreadId)
    (ops : List PubSubOp) (c : Connection) (st : PubSubState) :
    SameTransaction c (handleOperations threadId ops c st).2.1 := by
  rcases handleOperations_eq threadId ops c st with ⟨_, _, _, _, heq⟩
  rw [heq]
  exact ⟨rfl, rfl, rfl⟩

theorem conversation_read {S : FeoxStore} {P : Platform} {threadId : ThreadId}
    {sh : Shared S P} {c : Connection} {data : Bytes} {log : Transcript}
    {outcome : Shared.ReadOutcome S P}
    (h : Conversation (server S P) fuel c log)
    (hread : sh.read fuel threadId c data = some outcome) :
    exists more,
      Conversation (server S P) fuel outcome.connection (more ++ log) := by
  rcases Option.map_eq_some_iff.mp hread with ⟨⟨⟨c1, r⟩, world⟩, hrun, rfl⟩
  have hstart : SameTransaction c (c.feed data).clearWritten := by
    rcases (c.feed data).clearWritten_eq with ⟨_, _, heq⟩
    rw [heq]
    exact ⟨rfl, rfl, rfl⟩
  rcases conversation_readLoop (.between h hstart) hrun with ⟨more, hmore⟩
  refine ⟨more, .between hmore ?_⟩
  cases r with
  | error e => exact .refl c1
  | ok ops =>
      have hhandled := sameTransaction_handleOperations threadId ops c1 sh.pubsub
      exact ⟨hhandled.state, hhandled.queue, hhandled.watched⟩

theorem conversation_accept {S : FeoxStore} {P : Platform} (sh : Shared S P)
    (threadId : ThreadId) (config : Config) (addr : Option String)
    (connectionId : Nat) (now : UInt64) :
    Conversation (server S P) fuel
      (sh.accept threadId config addr connectionId now).1 [] :=
  .between (.accepted 0 config addr connectionId now) ⟨rfl, rfl, rfl⟩

theorem conversation_readAll {S : FeoxStore} {P : Platform} {threadId : ThreadId}
    {chunks : List Bytes} {sh sh' : Shared S P} {c c' : Connection}
    {log : Transcript} (h : Conversation (server S P) fuel c log)
    (hread : sh.readAll fuel threadId chunks c = some (c', sh')) :
    exists more, Conversation (server S P) fuel c' (more ++ log) := by
  induction chunks generalizing c sh log with
  | nil =>
      cases hread
      exact ⟨[], h⟩
  | cons data chunks ih =>
      rcases Option.bind_eq_some_iff.mp hread with ⟨outcome, houtcome, hrest⟩
      rcases conversation_read h houtcome with ⟨more, hmore⟩
      split at hrest
      · cases hrest
        exact ⟨more, hmore⟩
      · rcases ih hmore hrest with ⟨later, hlater⟩
        exact ⟨later ++ more, by rw [List.append_assoc]; exact hlater⟩

/-!
# Examples of transactions
-/

def requests (lines : List (List String)) : Bytes :=
  writeRespValues [] (lines.map request)

def freshShared : Shared mapStore idlePlatform where
  world := freshWorld.world
  pubsub := (.new 0, .new 1)

/-- Chunks sent over a new connection, and the transaction they lead to. -/
def transactionAfter (chunks : List (List (List String))) :
    Option (TransactionState × List Command) :=
  let (c, sh) := freshShared.accept 0 { requirepass := none } none 0 0
  (sh.readAll 0 0 (chunks.map requests) c).map fun r =>
    (r.1.transactionState, r.1.queuedCommands)

/-- A `SUBSCRIBE` in front of `MULTI` takes effect at the end of the chunk, and
then `DISCARD` is refused: the queue stays. -/
theorem discard_refused_keeps_queue :
    transactionAfter [[["SUBSCRIBE", "c"], ["MULTI"], ["PING"]]] =
        some (.queuing, [.ping none]) ∧
      transactionAfter
          [[["SUBSCRIBE", "c"], ["MULTI"], ["PING"]], [["DISCARD"]]] =
        some (.queuing, [.ping none]) := by
  decide +kernel

theorem transactions_apart_second :
    let results := Flow.reply (.array (some [.simpleString (asBytes "OK"), .integer 2]))
    let queued := Flow.reply (.simpleString (asBytes "QUEUED"))
    exists c c' s',
      c.queuedCommands.length = 2 ∧
      (c.processFrame 0 (request ["EXEC"])).run (server mapStore idlePlatform)
        freshWorld.world = some ((c', results), s') ∧
      Ends (server mapStore idlePlatform) 0 c
        [(request ["INCR", "k"], queued), (request ["SET", "k", "1"], queued),
          (request ["MULTI"], ok), (request ["DISCARD"], ok),
          (request ["DEL", "k"], queued), (request ["MULTI"], ok)]
        (request ["EXEC"]) c' results s' := by
  intro results queued
  have hmulti : Conversation (server mapStore idlePlatform) 0 _ _ :=
    .frame (s := freshWorld.world) (v := request ["MULTI"])
      (.accepted 0 { requirepass := none } none 0 0) rfl
  have hdel := Conversation.frame (s := freshWorld.world) (v := request ["DEL", "k"])
    hmulti rfl
  have hdiscard := Conversation.frame (s := freshWorld.world) (v := request ["DISCARD"])
    hdel rfl
  have hagain := Conversation.frame (s := freshWorld.world) (v := request ["MULTI"])
    hdiscard rfl
  have hset := Conversation.frame (s := freshWorld.world) (v := request ["SET", "k", "1"])
    hagain rfl
  have hincr := Conversation.frame (s := freshWorld.world) (v := request ["INCR", "k"])
    hset rfl
  have hscript : exists c log c' flow s',
      Conversation (server mapStore idlePlatform) 0 c log ∧
      c.queuedCommands.length = 2 ∧
      log = [(request ["INCR", "k"], queued), (request ["SET", "k", "1"], queued),
        (request ["MULTI"], ok), (request ["DISCARD"], ok),
        (request ["DEL", "k"], queued), (request ["MULTI"], ok)] ∧
      (c.processFrame 0 (request ["EXEC"])).run (server mapStore idlePlatform)
        freshWorld.world = some ((c', flow), s') ∧ flow = results :=
    ⟨_, _, _, _, _, hincr, rfl, rfl, rfl, rfl⟩
  rcases hscript with ⟨c, log, c', flow, s', hconv, hlength, hlog, hrun, hflow⟩
  have hends := (transactions_apart hconv).2.2 _ _ _ _ _ hrun
  rw [hlog, hflow] at hends
  rw [hflow] at hrun
  exact ⟨c, c', s', hlength, hrun, hends⟩

end Connection

end FeoxServer
