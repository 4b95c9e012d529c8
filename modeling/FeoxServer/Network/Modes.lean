import FeoxServer.Network.Sessions

/-!
# Modes of a connection

Which way a command goes is decided by a few fields of the connection, and
these change as the commands say, whatever the store answers.  A mode is a
connection cut down to them.
-/

namespace FeoxServer

open Foundation Prog

structure Mode where
  authenticated : Bool
  transactionState : TransactionState
  subscriptionCount : Nat
  authRequired : Bool
  config : Config

namespace Command

def changesMode : Command -> Bool
  | auth _ | multi | exec | discard => true
  | _ => false

end Command

namespace Mode

def dispatches (m : Mode) (v : RespValue) : Option Command :=
  if m.transactionState = .none ∧ (fastCommand v).isSome then none
  else
    match Command.fromResp v with
    | .error _ => none
    | .ok cmd =>
        if cmd = .quit ∨
            (0 < m.subscriptionCount ∧ cmd.isAllowedInPubsubMode = false) then
          none
        else some cmd

def Answering (m : Mode) : Prop :=
  m.transactionState = .none ∧ m.authenticated = true

instance (m : Mode) : Decidable m.Answering :=
  inferInstanceAs (Decidable (_ ∧ _))

/-- The operation that a frame leaves to the publish and subscribe service. -/
def leaves (m : Mode) (v : RespValue) : Option PubSubOp :=
  if m.Answering then (m.dispatches v).bind Command.toPubsubOp else none

/-- The mode behind a frame. -/
def after (m : Mode) (v : RespValue) : Mode :=
  match m.dispatches v with
  | some (.auth password) =>
      if m.transactionState = .none ∧ m.authRequired = true ∧
          m.config.checkPassword (fromUtf8Lossy password) = true then
        { m with authenticated := true }
      else m
  | some .multi => { m with transactionState := .queuing }
  | some .exec | some .discard => { m with transactionState := .none }
  | _ => m

/-- The mode behind some frames. -/
def afterAll (m : Mode) (frames : List RespValue) : Mode :=
  frames.foldl after m

/-- What each of some frames leaves to the service. -/
def leavesAll : Mode -> List RespValue -> List (Option PubSubOp)
  | _, [] => []
  | m, v :: vs => m.leaves v :: leavesAll (m.after v) vs

end Mode

namespace Connection

def mode (c : Connection) : Mode where
  authenticated := c.authenticated
  transactionState := c.transactionState
  subscriptionCount := c.subscriptionCount
  authRequired := c.authRequired
  config := c.executor.config

theorem dispatches_mode (c : Connection) (v : RespValue) :
    c.mode.dispatches v =
      match c.route v with
      | .dispatched cmd => some cmd
      | _ => none := by
  have hfast : c.fastPath v = none <->
      ¬ (c.mode.transactionState = .none ∧ (fastCommand v).isSome = true) := by
    change c.fastPath v = none <->
      ¬ (c.transactionState = .none ∧ (fastCommand v).isSome = true)
    unfold fastPath
    split
    · rename_i hidle
      simp [hidle]
    · rename_i hqueuing
      simp [hqueuing]
  unfold Mode.dispatches route
  cases hpath : c.fastPath v with
  | some f =>
      have hnot : ¬ c.fastPath v = none := by
        rw [hpath]
        exact nofun
      exact if_pos (not_not.mp (mt hfast.mpr hnot))
  | none =>
      rw [if_neg (hfast.mp hpath)]
      cases Command.fromResp v with
      | error e => rfl
      | ok cmd =>
          have hmode : (c.isInPubsubMode && !cmd.isAllowedInPubsubMode) = true <->
              0 < c.mode.subscriptionCount ∧ cmd.isAllowedInPubsubMode = false := by
            simp [isInPubsubMode, mode]
          simp only [← hmode]
          by_cases hquit : cmd = .quit
          · simp [hquit]
          · simp only [hquit, false_or, if_false]
            split <;> rfl

variable {T : Service Call Answer} {fuel : Nat}

theorem mode_noteClientName (c : Connection) (cmd : Command) :
    (c.noteClientName cmd).mode = c.mode := by
  rcases c.noteClientName_eq cmd with ⟨name, hname⟩
  rw [hname]
  rfl

theorem executeNow_mode {c c' : Connection} {cmd : Command} {flow : Flow}
    {s s' : T.State}
    (hrun : (executeNow fuel c cmd).run T s = some ((c', flow), s')) :
    c'.mode = c.mode ∧ exists r, flow = .reply r := by
  rcases (run_bind_eq_some _).mp hrun with ⟨⟨r, x⟩, s1, hexecute, hdone⟩
  rcases run_anything (execute_returns fuel c.executor cmd) hexecute with
    ⟨n, hx⟩
  cases hdone
  refine ⟨?_, r, rfl⟩
  have hexecutor : x = { c.executor with commandsProcessed := n } := hx
  rw [hexecutor]
  rfl

theorem after_of_dispatches {m : Mode} {v : RespValue} {cmd : Command}
    (hdispatches : m.dispatches v = some cmd) (hstays : cmd.changesMode = false) :
    m.after v = m := by
  unfold Mode.after
  rw [hdispatches]
  cases cmd <;> first | rfl | cases hstays

theorem pubsub_ops (cmd : Command) : (pubsub cmd).ops = cmd.toPubsubOp.toList := by
  unfold pubsub
  split
  · rename_i op hop
    rw [hop]
    rfl
  · rename_i hop
    rw [hop]
    split <;> rfl

theorem answer_mode {c c' : Connection} {v : RespValue} {cmd : Command}
    {flow : Flow} {s s' : T.State} (hidle : c.transactionState = .none)
    (hdispatches : c.mode.dispatches v = some cmd)
    (hordinary : cmd.isTransactionCommand = false)
    (hrun : (answer fuel c cmd).run T s = some ((c', flow), s')) :
    c'.mode = c.mode.after v ∧ flow.ops = (c.mode.leaves v).toList := by
  have hleaves : c.mode.leaves v =
      if c.authenticated = true then cmd.toPubsubOp else none := by
    unfold Mode.leaves
    rw [hdispatches]
    by_cases hauth : c.authenticated = true
    · rw [if_pos hauth]
      exact if_pos ⟨hidle, hauth⟩
    · rw [if_neg hauth]
      exact if_neg fun h => hauth h.2
  rw [hleaves]
  unfold answer at hrun
  split at hrun
  · rename_i password
    have hnone : (if c.authenticated = true then
        (Command.auth password).toPubsubOp else none) = none := ite_self _
    rw [hnone, Mode.after, hdispatches]
    unfold auth at hrun
    split_ifs at hrun with hopen hcheck
    · cases hrun
      refine ⟨(if_neg fun h => ?_).symm, rfl⟩
      rw [Bool.not_eq_true'] at hopen
      exact Bool.false_ne_true (hopen.symm.trans h.2.1)
    · cases hrun
      have hrequired : c.authRequired = true := by simpa using hopen
      exact ⟨(if_pos ⟨hidle, hrequired, hcheck⟩).symm, rfl⟩
    · cases hrun
      exact ⟨(if_neg fun h => hcheck h.2.2).symm, rfl⟩
  · rename_i hother
    have hstays : cmd.changesMode = false := by
      cases cmd with
      | auth password => exact absurd rfl (hother password)
      | multi | exec | discard => cases hordinary
      | _ => rfl
    rw [after_of_dispatches hdispatches hstays]
    split_ifs at hrun with hunknown hpubsub
    · have hnot : ¬ c.authenticated = true := by simpa using hunknown
      rw [if_neg hnot]
      unfold unauthenticated at hrun
      split at hrun
      · rcases executeNow_mode hrun with ⟨hmode, r, rfl⟩
        exact ⟨hmode, rfl⟩
      · cases hrun
        exact ⟨rfl, rfl⟩
    · have hknown : c.authenticated = true := by simpa using hunknown
      rw [if_pos hknown]
      cases hrun
      exact ⟨rfl, pubsub_ops cmd⟩
    · have hnone : cmd.toPubsubOp = none := by
        cases hop : cmd.toPubsubOp with
        | none => rfl
        | some op =>
            exact absurd (Command.isPubsubCommand_of_toPubsubOp hop) hpubsub
      rw [hnone, ite_self]
      rcases executeNow_mode hrun with ⟨hmode, r, rfl⟩
      exact ⟨hmode, rfl⟩

theorem transactionState_none {state : TransactionState}
    (h : ¬ state = .queuing) : state = .none := by
  cases state with
  | none => rfl
  | queuing => exact absurd rfl h

theorem after_of_queued {m : Mode} {v : RespValue} {cmd : Command}
    (hdispatches : m.dispatches v = some cmd)
    (hordinary : cmd.isTransactionCommand = false)
    (hqueuing : m.transactionState = .queuing) : m.after v = m := by
  cases cmd with
  | auth password =>
      rw [Mode.after, hdispatches]
      refine if_neg fun h => ?_
      cases hqueuing.symm.trans h.1
  | multi | exec | discard => cases hordinary
  | _ => exact after_of_dispatches hdispatches rfl

theorem leaves_of_transaction {m : Mode} {v : RespValue} {cmd : Command}
    (hdispatches : m.dispatches v = some cmd)
    (htransaction : cmd.isTransactionCommand = true) : m.leaves v = none := by
  have hnone : cmd.toPubsubOp = none := by
    cases cmd <;> first | rfl | cases htransaction
  unfold Mode.leaves
  rw [hdispatches]
  exact (ite_congr rfl (fun _ => hnone) fun _ => rfl).trans (ite_self _)

theorem dispatch_mode {c c' : Connection} {v : RespValue} {cmd : Command}
    {flow : Flow} {s s' : T.State}
    (hdispatches : c.mode.dispatches v = some cmd)
    (hrun : (dispatch fuel c cmd).run T s = some ((c', flow), s')) :
    c'.mode = c.mode.after v ∧ flow.ops = (c.mode.leaves v).toList := by
  by_cases hordinary : cmd.isTransactionCommand = false
  · rw [dispatch_ordinary hordinary] at hrun
    split_ifs at hrun with hqueuing
    · have hleaves : c.mode.leaves v = none := by
        refine if_neg fun h => ?_
        cases hqueuing.symm.trans h.1
      rw [hleaves, after_of_queued hdispatches hordinary hqueuing]
      cases hrun
      exact ⟨rfl, rfl⟩
    · exact answer_mode (transactionState_none hqueuing) hdispatches hordinary
        hrun
  · have htransaction : cmd.isTransactionCommand = true := by simpa using hordinary
    rw [leaves_of_transaction hdispatches htransaction, Mode.after, hdispatches]
    cases cmd with
    | multi =>
        simp only [dispatch, beginTransaction] at hrun
        split_ifs at hrun with hqueuing
        · cases hrun
          refine ⟨?_, rfl⟩
          rw [← show c.mode.transactionState = _ from hqueuing]
        · cases hrun
          exact ⟨rfl, rfl⟩
    | exec =>
        by_cases hqueuing : c.transactionState = .queuing
        · rcases run_exec_cases hqueuing hrun with
            ⟨_, rfl, rfl⟩ | ⟨s1, results, x, _, hall, rfl, rfl⟩
          · exact ⟨rfl, rfl⟩
          · rcases run_anything (executeAll_returns fuel _ _ _) hall with ⟨n, hx⟩
            have hexecutor : x = { c.executor with commandsProcessed := n } := hx
            rw [hexecutor]
            exact ⟨rfl, rfl⟩
        · simp only [dispatch, exec, if_pos hqueuing] at hrun
          cases hrun
          refine ⟨?_, rfl⟩
          rw [← show c.mode.transactionState = _ from transactionState_none hqueuing]
    | discard =>
        simp only [dispatch, discard] at hrun
        split_ifs at hrun with hidle
        · cases hrun
          refine ⟨?_, rfl⟩
          rw [← show c.mode.transactionState = _ from transactionState_none hidle]
        · cases hrun
          exact ⟨rfl, rfl⟩
    | watch keys =>
        simp only [dispatch, watch] at hrun
        split_ifs at hrun
        · cases hrun
          exact ⟨rfl, rfl⟩
        · rcases (run_bind_eq_some _).mp hrun with ⟨watched, s1, _, hdone⟩
          cases hdone
          exact ⟨rfl, rfl⟩
    | unwatch =>
        cases hrun
        exact ⟨rfl, rfl⟩
    | _ => cases htransaction

theorem processFrame_mode {c c' : Connection} {v : RespValue} {flow : Flow}
    {s s' : T.State}
    (hrun : (c.processFrame fuel v).run T s = some ((c', flow), s')) :
    c'.mode = c.mode.after v ∧ flow.ops = (c.mode.leaves v).toList := by
  rcases run_processFrame.mp hrun with ⟨c1, hframe, rfl⟩
  change c1.mode = _ ∧ _
  rw [frameFlow_eq] at hframe
  have hdispatches := c.dispatches_mode v
  have hstays : c.mode.dispatches v = none ->
      c.mode.after v = c.mode ∧ c.mode.leaves v = none := by
    intro hnone
    rw [Mode.after, Mode.leaves, hnone]
    exact ⟨rfl, ite_self _⟩
  cases hroute : c.route v with
  | dispatched cmd =>
      rw [hroute] at hframe hdispatches
      have hmode : (c.countCommand.noteClientName cmd).mode = c.mode :=
        mode_noteClientName c.countCommand cmd
      rw [← hmode] at hdispatches ⊢
      exact dispatch_mode hdispatches hframe
  | fast f =>
      rw [hroute] at hframe hdispatches
      rcases (run_bind_eq_some _).mp hframe with ⟨r, s1, _, hdone⟩
      cases hdone
      rw [(hstays hdispatches).1, (hstays hdispatches).2]
      exact ⟨rfl, rfl⟩
  | _ =>
      rw [hroute] at hframe hdispatches
      cases hframe
      rw [(hstays hdispatches).1, (hstays hdispatches).2]
      exact ⟨rfl, rfl⟩

end Connection

namespace Session

variable {S : FeoxStore} {P : Platform} {fuel : Nat} {threadId : ThreadId}

theorem framed_mode {frames : List (RespParser × RespValue)}
    {ses ses' : Session S P} {replies : Replies}
    (hrun : run fuel threadId (framed frames) ses = some (ses', replies)) :
    ses'.connection.mode =
        ses.connection.mode.afterAll (replies.map Prod.fst) ∧
      replies.map (fun r => r.2.ops) =
        (ses.connection.mode.leavesAll (replies.map Prod.fst)).map
          Option.toList := by
  induction frames generalizing ses replies with
  | nil =>
      cases hrun
      exact ⟨rfl, rfl⟩
  | cons f frames ih =>
      rcases run_cons_eq_some.mp hrun with
        ⟨ses1, first, later, hstep, hrest, rfl⟩
      rcases Option.map_eq_some_iff.mp hstep with ⟨⟨ses2, flow⟩, hframe, heq⟩
      cases heq
      rcases frame_eq_some.mp hframe with ⟨c, world, hprocess, rfl⟩
      have hmode := Connection.processFrame_mode hprocess
      have hparsed : Connection.mode { ses.connection with parser := f.1 } =
          ses.connection.mode := rfl
      rw [hparsed] at hmode
      have hlater := ih hrest
      rw [hmode.1] at hlater
      refine ⟨hlater.1, ?_⟩
      change flow.ops :: later.map (fun r => r.2.ops) = _
      rw [hlater.2, hmode.2]
      rfl

end Session

end FeoxServer
