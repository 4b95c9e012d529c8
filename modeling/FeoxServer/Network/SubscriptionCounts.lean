import FeoxServer.Network.SubscriberMode

/-!
# Copies of the number of subscriptions

A connection keeps a copy of the number of its subscriptions, which it takes over from
the confirmations, and a flag that is set as long as the copy is positive.  The tables
of the thread are what both are copies of.
-/

namespace FeoxServer

open Foundation

/-!
# The flag
-/

namespace Connection

/-- The flag is set once while the connection has a subscription, and otherwise not
at all. -/
def Flagged (c : Connection) : Prop :=
  c.flags.count "pubsub" = if 0 < c.subscriptionCount then 1 else 0

theorem flagged_setSubscriptionCount {c : Connection} (h : c.Flagged) (count : Nat) :
    (c.setSubscriptionCount count).Flagged := by
  change (setSubscriptionCount c count).flags.count "pubsub" =
    if 0 < count then 1 else 0
  unfold setSubscriptionCount
  rcases Nat.eq_zero_or_pos count with hzero | hpos
  · rw [if_neg (fun hs => hs.1.ne' hzero), if_pos hzero, if_neg hzero.le.not_gt]
    exact List.count_eq_zero.mpr fun hmem => of_decide_eq_true
      (List.mem_filter.mp hmem).2 rfl
  · rw [if_pos hpos]
    cases hflag : c.flags.contains "pubsub" with
    | false =>
        have hnone : c.flags.count "pubsub" = 0 := by
          apply List.count_eq_zero.mpr
          intro hmem
          rw [List.contains_iff_mem.mpr hmem] at hflag
          cases hflag
        rw [if_pos ⟨hpos, rfl⟩, List.count_append, hnone]
        rfl
    | true =>
        rw [if_neg (fun hs => Bool.noConfusion hs.2), if_neg hpos.ne']
        -- The flag is there, so it is there as often as the invariant allows.
        have hsome : 0 < c.flags.count "pubsub" :=
          List.count_pos_iff.mpr (List.contains_iff_mem.mp hflag)
        rw [h] at hsome ⊢
        split
        · rfl
        · rename_i hnot
          rw [if_neg hnot] at hsome
          exact absurd hsome (Nat.lt_irrefl 0)

theorem flagged_confirmAll (messages : List PubSubMessage) {c : Connection}
    (h : c.Flagged) : (c.confirmAll messages).Flagged := by
  induction messages generalizing c with
  | nil => exact h
  | cons message messages ih =>
      apply ih
      cases message with
      | message _ _ | patternMessage _ _ _ => exact h
      | _ => exact flagged_setSubscriptionCount h _

end Connection

theorem flagged_handlePubsubOperation (st : PubSubState) (connId : ConnectionId)
    (op : PubSubOp) {c : Connection} (threadId : ThreadId) (h : c.Flagged) :
    (handlePubsubOperation st connId op c threadId).2.1.Flagged := by
  cases op with
  | subscribe _ | unsubscribe _ | psubscribe _ | punsubscribe _ =>
      exact Connection.flagged_confirmAll _ h
  | publish _ _ | pubSubChannels _ | pubSubNumSub _ | pubSubNumPat => exact h

/-!
# Other connections
-/

theorem PubSubOp.mem_act_of_ne {R : Subscriptions} {other connId : ConnectionId}
    (h : other ≠ connId) (op : PubSubOp) {kind : SubscriptionType} {name : Bytes} :
    (connId, name) ∈ op.act R other kind <-> (connId, name) ∈ R kind := by
  cases op with
  | subscribe names => exact Subscriptions.mem_join_of_ne h .channel names
  | psubscribe names => exact Subscriptions.mem_join_of_ne h .pattern names
  | unsubscribe names => exact Subscriptions.mem_part_of_ne h .channel names
  | punsubscribe names => exact Subscriptions.mem_part_of_ne h .pattern names
  | publish _ _ | pubSubChannels _ | pubSubNumSub _ | pubSubNumPat => exact Iff.rfl

/-!
# The connections of a thread
-/

/-- The connections of a thread, and the service that they share. -/
structure Desk where
  connections : ConnectionId -> Connection
  pubsub : PubSubState

namespace Desk

/-- What a connection has when it is accepted. -/
structure Arrival where
  fd : Int
  addr : Option String
  now : UInt64

/-- Every connection is as it is accepted, and the thread has no subscription. -/
def new (threadId : ThreadId) (config : Config) (arrivals : ConnectionId -> Arrival)
    (r : GlobalRegistry) : Desk where
  connections connId :=
    .newWithAddr (arrivals connId).fd config (arrivals connId).addr connId
      (arrivals connId).now
  pubsub := (.new threadId, r)

/-- An operation of a connection.  It finds the registry as the other threads have
left it. -/
structure Turn where
  connId : ConnectionId
  op : PubSubOp
  registry : GlobalRegistry

def handle (threadId : ThreadId) (d : Desk) (turn : Turn) : Desk :=
  let (_, c, st) := handlePubsubOperation (d.pubsub.1, turn.registry) turn.connId
    turn.op (d.connections turn.connId) threadId
  { connections := Function.update d.connections turn.connId c
    pubsub := st }

def run (threadId : ThreadId) (turns : List Turn) (d : Desk) : Desk :=
  turns.foldl (handle threadId) d

/-- The copies of a connection agree with the tables. -/
structure Agrees (d : Desk) (connId : ConnectionId) : Prop where
  count : (d.connections connId).subscriptionCount =
    d.pubsub.1.getConnectionSubscriptionCount connId
  mode : (d.connections connId).isInPubsubMode = true <->
    0 < d.pubsub.1.getConnectionSubscriptionCount connId
  flags : (d.connections connId).flags.count "pubsub" =
    if 0 < d.pubsub.1.getConnectionSubscriptionCount connId then 1 else 0

/-- The tables are in order, and every connection has its copies of them. -/
structure Synchronised (d : Desk) : Prop where
  holds : exists R, Holds d.pubsub.1 R R
  counted : forall connId, (d.connections connId).Counted d.pubsub connId
  flagged : forall connId, (d.connections connId).Flagged

theorem Synchronised.agrees {d : Desk} (h : Synchronised d) (connId : ConnectionId) :
    d.Agrees connId := by
  have hcount := h.counted connId
  have hflags := h.flagged connId
  unfold Connection.Flagged at hflags
  rw [hcount] at hflags
  refine ⟨hcount, ?_, hflags⟩
  rw [Connection.isInPubsubMode, decide_eq_true_eq, hcount]

theorem synchronised_new (threadId : ThreadId) (config : Config)
    (arrivals : ConnectionId -> Arrival) (r : GlobalRegistry) :
    Synchronised (new threadId config arrivals r) where
  holds := ⟨_, holds_new threadId⟩
  counted connId := by
    change 0 = (ThreadLocalPubSub.new threadId).getConnectionSubscriptionCount connId
    rfl
  flagged _ := rfl

theorem connections_handle_self (threadId : ThreadId) (d : Desk) (turn : Turn) :
    (d.handle threadId turn).connections turn.connId =
      (handlePubsubOperation (d.pubsub.1, turn.registry) turn.connId turn.op
        (d.connections turn.connId) threadId).2.1 :=
  Function.update_self _ _ _

theorem connections_handle_of_ne (threadId : ThreadId) (d : Desk) {turn : Turn}
    {connId : ConnectionId} (h : connId ≠ turn.connId) :
    (d.handle threadId turn).connections connId = d.connections connId :=
  Function.update_of_ne h _ _

theorem synchronised_handle (threadId : ThreadId) {d : Desk} (h : Synchronised d)
    (turn : Turn) : Synchronised (d.handle threadId turn) := by
  rcases h.holds with ⟨R, hR⟩
  have hheld := @handlePubsubOperation_holds (d.pubsub.1, turn.registry) R hR
    turn.connId turn.op (d.connections turn.connId) threadId
  constructor
  · exact ⟨_, hheld⟩
  · intro connId
    by_cases hid : connId = turn.connId
    · subst hid
      rw [connections_handle_self]
      exact counted_handlePubsubOperation turn.op threadId (h.counted turn.connId)
    · rw [connections_handle_of_ne threadId d hid]
      refine (h.counted connId).trans ?_
      rw [ThreadLocalPubSub.count_of_holds hR]
      refine Eq.trans ?_ (ThreadLocalPubSub.count_of_holds hheld connId).symm
      exact (Subscriptions.total_congr fun _ _ =>
        turn.op.mem_act_of_ne (Ne.symm hid)).symm
  · intro connId
    by_cases hid : connId = turn.connId
    · subst hid
      rw [connections_handle_self]
      exact flagged_handlePubsubOperation _ _ turn.op threadId (h.flagged turn.connId)
    · rw [connections_handle_of_ne threadId d hid]
      exact h.flagged connId

theorem synchronised_run (threadId : ThreadId) (turns : List Turn) {d : Desk}
    (h : Synchronised d) : Synchronised (d.run threadId turns) := by
  induction turns generalizing d with
  | nil => exact h
  | cons turn turns ih => exact ih (synchronised_handle threadId h turn)

/-- Whatever the connections of a thread ask for, in whatever order, behind every
operation the copies of all connections agree with the tables. -/
theorem copies_agree (threadId : ThreadId) (config : Config)
    (arrivals : ConnectionId -> Arrival) (r : GlobalRegistry) (turns : List Turn)
    (connId : ConnectionId) :
    ((new threadId config arrivals r).run threadId turns).Agrees connId :=
  (synchronised_run threadId turns
    (synchronised_new threadId config arrivals r)).agrees connId

end Desk

end FeoxServer
