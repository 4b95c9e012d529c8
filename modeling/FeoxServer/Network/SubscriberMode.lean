import FeoxServer.Network.Admission
import FeoxServer.Network.ConfirmationCounts
import FeoxServer.Network.QueuedExecution

/-!
# Subscriber mode

Behind a subscription only a few commands are allowed.  The connection tells by the
count of the last confirmation, which it takes over at the end of a chunk, and a plain
`SET` or `GET` is not asked for the mode at all.
-/

namespace FeoxServer

open Foundation Prog Connection

/-!
# Counts that are taken over
-/

namespace Connection

theorem subscriptionCount_confirm (c : Connection) {message : PubSubMessage}
    {count : Nat} (h : message.count? = some count) :
    (c.confirm message).subscriptionCount = count := by
  cases message with
  | message _ _ | patternMessage _ _ _ => cases h
  | _ =>
      cases h
      rfl

def Counted (c : Connection) (st : PubSubState) (connId : ConnectionId) : Prop :=
  c.subscriptionCount = st.1.getConnectionSubscriptionCount connId

end Connection

namespace ThreadLocalPubSub

variable {connId : ConnectionId}

/-- Where every round confirms the count that it leaves, the connection has it behind
the loop. -/
theorem counted_forEach {step : PubSubState -> Bytes -> PubSubMessage × PubSubState}
    (hstep : forall st name, (step st name).1.count? =
      some ((step st name).2.1.getConnectionSubscriptionCount connId))
    {names : List Bytes} {st : PubSubState} {c : Connection}
    (h : names = [] -> c.Counted st connId) :
    (c.confirmAll (forEach step st names).1).Counted (forEach step st names).2
      connId := by
  induction names generalizing st c with
  | nil => exact h rfl
  | cons name names ih =>
      apply ih
      intro _
      exact c.subscriptionCount_confirm (hstep st name)

theorem count_setTable {m : ThreadLocalPubSub} {kind : SubscriptionType}
    {t : SubscriptionTable} (h : t.namesOf connId = (m.table kind).namesOf connId) :
    (m.setTable kind t).getConnectionSubscriptionCount connId =
      m.getConnectionSubscriptionCount connId := by
  cases kind with
  | channel => exact congrArg (fun names => List.length names + _) h
  | pattern => exact congrArg (fun names => _ + List.length names) h

theorem counted_unsubscribeNames (kind : SubscriptionType)
    (names : Option (List Bytes)) {st : PubSubState} {c : Connection}
    (h : c.Counted st connId) :
    (c.confirmAll (unsubscribeNames kind st connId names).1).Counted
      (unsubscribeNames kind st connId names).2 connId := by
  cases names with
  | some names =>
      exact counted_forEach (fun _ _ => count_unsubscribed kind _ _) fun _ => h
  | none =>
      unfold unsubscribeNames
      cases hlist : (st.1.table kind).names.lookup connId with
      | none => exact h
      | some names =>
          apply counted_forEach (fun _ _ => count_unsubscribed kind _ _)
          intro hnil
          -- A list that is there and empty makes no difference to the count.
          have hnames : (st.1.table kind).namesOf connId = [] := by
            rw [SubscriptionTable.namesOf, hlist, hnil]
            rfl
          have hforget : ((st.1.table kind).forgetConnection connId).namesOf connId =
              (st.1.table kind).namesOf connId := by
            rw [SubscriptionTable.namesOf_forgetConnection, if_pos rfl, hnames]
          exact h.trans (count_setTable hforget).symm

end ThreadLocalPubSub

theorem counted_handlePubsubOperation {st : PubSubState} {connId : ConnectionId}
    (op : PubSubOp) {c : Connection} (threadId : ThreadId) (h : c.Counted st connId) :
    (handlePubsubOperation st connId op c threadId).2.1.Counted
      (handlePubsubOperation st connId op c threadId).2.2 connId := by
  cases op with
  | subscribe names =>
      exact ThreadLocalPubSub.counted_forEach
        (fun _ _ => ThreadLocalPubSub.count_subscribed .channel _ _) fun _ => h
  | psubscribe names =>
      exact ThreadLocalPubSub.counted_forEach
        (fun _ _ => ThreadLocalPubSub.count_subscribed .pattern _ _) fun _ => h
  | unsubscribe names => exact ThreadLocalPubSub.counted_unsubscribeNames .channel names h
  | punsubscribe names =>
      exact ThreadLocalPubSub.counted_unsubscribeNames .pattern names h
  | publish _ _ | pubSubChannels _ | pubSubNumSub _ | pubSubNumPat => exact h

theorem counted_handleOperations (threadId : ThreadId) (ops : List PubSubOp)
    {c : Connection} {st : PubSubState} (h : c.Counted st c.connectionId) :
    (handleOperations threadId ops c st).2.1.Counted
      (handleOperations threadId ops c st).2.2 c.connectionId := by
  induction ops generalizing c st with
  | nil => exact h
  | cons op ops ih =>
      rcases handlePubsubOperation_eq st c.connectionId op c threadId with
        ⟨count, flags, pending, buffer, heq⟩
      have hid : (handlePubsubOperation st c.connectionId op c
          threadId).2.1.connectionId = c.connectionId := by
        rw [heq]
      have hone : (handlePubsubOperation st c.connectionId op c threadId).2.1.Counted
          (handlePubsubOperation st c.connectionId op c threadId).2.2
          (handlePubsubOperation st c.connectionId op c
            threadId).2.1.connectionId := by
        rw [hid]
        exact counted_handlePubsubOperation op threadId h
      have hrest := ih hone
      rw [hid] at hrest
      exact hrest

/-!
# The work for other connections
-/

/-- A manager before and after work for connections other than one. -/
inductive Others (connId : ConnectionId) :
    ThreadLocalPubSub -> ThreadLocalPubSub -> Prop
  | none (m : ThreadLocalPubSub) : Others connId m m
  | step {m m' : ThreadLocalPubSub} {op : ClusterOp} (r : GlobalRegistry) :
      op.connection ≠ some connId -> Others connId (op.perform (m, r)).1 m' ->
        Others connId m m'

namespace Subscriptions

variable {R : Subscriptions} {connId : ConnectionId} {kind : SubscriptionType}
  {name : Bytes}

theorem mem_join_of_ne {other : ConnectionId} (h : other ≠ connId)
    (kind' : SubscriptionType) (names : List Bytes) :
    (connId, name) ∈ R.join kind' other names kind <-> (connId, name) ∈ R kind := by
  unfold join
  by_cases hkind : kind = kind'
  · subst hkind
    rw [Function.update_self]
    constructor
    · intro hmem
      exact hmem.resolve_right fun hs => h hs.1.symm
    · exact Or.inl
  · rw [Function.update_of_ne hkind]

theorem mem_part_of_ne {other : ConnectionId} (h : other ≠ connId)
    (kind' : SubscriptionType) (names : Option (List Bytes)) :
    (connId, name) ∈ R.part kind' other names kind <-> (connId, name) ∈ R kind := by
  by_cases hkind : kind = kind'
  · subst hkind
    cases names with
    | none =>
        simp only [part, Function.update_self]
        exact ⟨fun hmem => hmem.1, fun hmem => ⟨hmem, fun hs => h hs.symm⟩⟩
    | some names =>
        simp only [part, Function.update_self]
        exact ⟨fun hmem => hmem.1, fun hmem => ⟨hmem, fun hs => h hs.1.symm⟩⟩
  · cases names <;> simp only [part, Function.update_of_ne hkind]

theorem mem_perform_of_ne {op : ClusterOp} (h : op.connection ≠ some connId) :
    (connId, name) ∈ R.perform op kind <-> (connId, name) ∈ R kind := by
  have hne : forall other, op.connection = some other -> other ≠ connId := by
    intro other hother heq
    rw [heq] at hother
    exact h hother
  cases op with
  | subscribe other names => exact mem_join_of_ne (hne other rfl) .channel names
  | psubscribe other names => exact mem_join_of_ne (hne other rfl) .pattern names
  | unsubscribe other names => exact mem_part_of_ne (hne other rfl) .channel names
  | punsubscribe other names => exact mem_part_of_ne (hne other rfl) .pattern names
  | connectionDropped other =>
      exact (mem_part_of_ne (hne other rfl) .pattern Option.none).trans
        (mem_part_of_ne (hne other rfl) .channel Option.none)
  | publish _ _ | processInbox => exact Iff.rfl

theorem total_congr {R' : Subscriptions}
    (h : forall kind name, (connId, name) ∈ R' kind <-> (connId, name) ∈ R kind) :
    R'.total connId = R.total connId := by
  unfold total
  simp only [h]

end Subscriptions

/-- The others leave the tables in order, and the count of the connection as it
was. -/
theorem Others.keep {connId : ConnectionId} {m m' : ThreadLocalPubSub}
    (h : Others connId m m') {R : Subscriptions} (hR : Holds m R R) :
    exists R', Holds m' R' R' ∧
      m'.getConnectionSubscriptionCount connId =
        m.getConnectionSubscriptionCount connId := by
  induction h generalizing R with
  | none m => exact ⟨R, hR, rfl⟩
  | @step m m' op r hop _ ih =>
      have hperformed : Holds (op.perform (m, r)).1 (R.perform op) (R.perform op) :=
        op.perform_holds hR
      rcases ih hperformed with ⟨R', hR', hcount⟩
      refine ⟨R', hR', hcount.trans ?_⟩
      rw [ThreadLocalPubSub.count_of_holds hperformed,
        ThreadLocalPubSub.count_of_holds hR]
      exact Subscriptions.total_congr fun kind name =>
        Subscriptions.mem_perform_of_ne hop

/-!
# Subscriptions in the order of the bytes
-/

def PubSubOp.act (R : Subscriptions) (connId : ConnectionId) :
    PubSubOp -> Subscriptions
  | subscribe names => R.join .channel connId names
  | psubscribe names => R.join .pattern connId names
  | unsubscribe names => R.part .channel connId names
  | punsubscribe names => R.part .pattern connId names
  | _ => R

theorem handlePubsubOperation_holds {st : PubSubState} {R : Subscriptions}
    (h : Holds st.1 R R) (connId : ConnectionId) (op : PubSubOp) (c : Connection)
    (threadId : ThreadId) :
    Holds (handlePubsubOperation st connId op c threadId).2.2.1
      (op.act R connId) (op.act R connId) := by
  cases op with
  | subscribe names => exact ThreadLocalPubSub.subscribeNames_holds .channel connId names h
  | psubscribe names => exact ThreadLocalPubSub.subscribeNames_holds .pattern connId names h
  | unsubscribe names =>
      exact ThreadLocalPubSub.unsubscribeNames_holds .channel connId names h
  | punsubscribe names =>
      exact ThreadLocalPubSub.unsubscribeNames_holds .pattern connId names h
  | publish _ _ | pubSubChannels _ | pubSubNumSub _ | pubSubNumPat => exact h

theorem handleOperations_holds (threadId : ThreadId) (ops : List PubSubOp)
    {c : Connection} {st : PubSubState} {R : Subscriptions} (h : Holds st.1 R R) :
    exists R', Holds (handleOperations threadId ops c st).2.2.1 R' R' := by
  induction ops generalizing c st R with
  | nil => exact ⟨R, h⟩
  | cons op ops ih =>
      exact ih (handlePubsubOperation_holds h c.connectionId op c threadId)

variable {S : FeoxStore} {P : Platform}

namespace Session

/-- The subscriptions when everything that the connection has asked for in the chunk
so far is done. -/
def streamed (ses : Session S P) : Subscriptions :=
  ses.ops.foldl (fun R op => op.act R ses.connection.connectionId)
    ses.shared.pubsub.1.subscriptions

/-- In the order of the bytes, the connection is behind a subscription and not behind
the end of its last one. -/
def InSubscriberMode (ses : Session S P) : Prop :=
  0 < ses.streamed.total ses.connection.connectionId

/-- The connection was in subscriber mode when its chunk began; the operations of the
chunk are still to be done. -/
def BeganSubscribed (ses : Session S P) : Prop :=
  0 < ses.shared.pubsub.1.subscriptions.total ses.connection.connectionId

/-- The tables are in order, and the connection has their count. -/
structure Attends (ses : Session S P) : Prop where
  counted : ses.connection.Counted ses.shared.pubsub ses.connection.connectionId
  holds : exists R, Holds ses.shared.pubsub.1 R R

theorem Attends.count {ses : Session S P} (h : Attends ses) :
    ses.connection.subscriptionCount =
      ses.shared.pubsub.1.subscriptions.total ses.connection.connectionId := by
  rcases h.holds with ⟨R, hR⟩
  rw [ThreadLocalPubSub.subscriptions_of_holds hR,
    ← ThreadLocalPubSub.count_of_holds hR]
  exact h.counted

variable {fuel : Nat} {threadId : ThreadId}

theorem attends_accept {sh : Shared S P} {config : Config} {addr : Option String}
    {connectionId : Nat} {now : UInt64} {thread : ThreadId}
    (h : Others connectionId (.new thread) sh.pubsub.1) :
    Attends
      ⟨(sh.accept threadId config addr connectionId now).1,
        (sh.accept threadId config addr connectionId now).2, []⟩ := by
  rcases h.keep (holds_new thread) with ⟨R, hR, hcount⟩
  exact ⟨hcount.symm, R, hR⟩

theorem Attends.others {ses : Session S P} (h : Attends ses) {shared : Shared S P}
    (hothers : Others ses.connection.connectionId ses.shared.pubsub.1
      shared.pubsub.1) :
    Attends { ses with shared := shared } := by
  rcases h.holds with ⟨R, hR⟩
  rcases hothers.keep hR with ⟨R', hR', hcount⟩
  exact ⟨h.counted.trans hcount.symm, R', hR'⟩

theorem after_subscriptionCount (m : Mode) (v : RespValue) :
    (m.after v).subscriptionCount = m.subscriptionCount := by
  unfold Mode.after
  split
  · split <;> rfl
  all_goals rfl

/-- Only the end of a chunk changes the subscriptions, and it changes the count
with them. -/
theorem attends_step {ses ses' : Session S P} {input : Input} {replies : Replies}
    (h : Attends ses) (hstep : ses.step fuel threadId input = some (ses', replies)) :
    Attends ses' := by
  cases input with
  | received data =>
      rcases (ses.connection.feed data).clearWritten_eq with
        ⟨buffer, position, hclear⟩
      rw [step, hclear] at hstep
      cases hstep
      exact ⟨h.counted, h.holds⟩
  | frame parser v =>
      rcases Option.map_eq_some_iff.mp hstep with ⟨⟨ses1, flow⟩, hframe, heq⟩
      cases heq
      rcases frame_eq_some.mp hframe with ⟨c, world, hrun, heq⟩
      have hmode := congrArg Mode.subscriptionCount (processFrame_mode hrun).1
      rw [after_subscriptionCount] at hmode
      have hlasting := run_anything (processFrame_lasting fuel
        { ses.connection with parser := parser } v) hrun
      have hid : c.connectionId = ses.connection.connectionId := hlasting.connectionId
      rw [heq]
      refine ⟨?_, h.holds⟩
      change c.Counted ses.shared.pubsub c.connectionId
      rw [hid]
      exact hmode.trans h.counted
  | finished =>
      cases hstep
      rcases h.holds with ⟨R, hR⟩
      refine ⟨?_, handleOperations_holds threadId ses.ops hR⟩
      have hcounted := counted_handleOperations threadId ses.ops h.counted
      have hid := connectionId_handleOperations threadId ses.ops ses.connection
        ses.shared.pubsub
      rw [← hid] at hcounted
      exact hcounted
  | sent n =>
      cases hstep
      exact ⟨h.counted, h.holds⟩

end Session

/-!
# The gate
-/

def Connection.Executes (c : Connection) (v : RespValue) : Prop :=
  (exists f, c.route v = .fast f) ∨ exists cmd, c.route v = .dispatched cmd

namespace Visit

/-- A command that subscriber mode does not allow. -/
structure Banned (x : Visit S P) (v : RespValue) : Prop where
  authenticated : x.before.connection.authenticated = true
  outside : x.before.connection.transactionState = .none
  mode : x.before.InSubscriberMode
  command : exists cmd, Command.fromResp v = .ok cmd ∧
    cmd.isAllowedInPubsubMode = false

/-- The command is not executed; it is answered with the context error, and nothing
that is shared changes. -/
structure Refused (x : Visit S P) (v : RespValue) : Prop where
  idle : ¬ x.before.connection.Executes v
  replies : x.replies = [(v, Connection.error Connection.notAllowed)]
  world : x.after.shared.world = x.before.shared.world
  pubsub : x.after.shared.pubsub = x.before.shared.pubsub
  ops : x.after.ops = x.before.ops

/-- Every command that is not allowed is refused. -/
def Gated (x : Visit S P) : Prop :=
  forall parser v, x.input = .frame parser v -> x.Banned v -> x.Refused v

/-- A command that is not allowed is no plain `SET` or `GET`, and the subscription
that forbids it came in an earlier chunk. -/
def Careful (x : Visit S P) : Prop :=
  forall parser v, x.input = .frame parser v -> x.Banned v ->
    fastCommand v = none ∧ x.before.BeganSubscribed

end Visit

namespace Session

variable {fuel : Nat} {threadId : ThreadId}

theorem fastPath_of_outside {c : Connection} (h : c.transactionState = .none)
    (v : RespValue) : c.fastPath v = fastCommand v :=
  if_pos h

theorem gated_frame_iff {ses ses' : Session S P} {input : Input} {replies : Replies}
    (hattends : Attends ses)
    (hstep : ses.step fuel threadId input = some (ses', replies)) :
    Visit.Gated ⟨ses, input, ses', replies⟩ <->
      Visit.Careful ⟨ses, input, ses', replies⟩ := by
  constructor
  · intro hgated parser v hinput hbanned
    have hrefused := hgated parser v hinput hbanned
    have hpath := fastPath_of_outside hbanned.outside v
    rcases hbanned.command with ⟨cmd, hcmd, hforbidden⟩
    have hquit : cmd ≠ .quit := by
      intro heq
      rw [heq] at hforbidden
      cases hforbidden
    cases hfast : fastCommand v with
    | some f =>
        apply absurd _ hrefused.idle
        apply Or.inl
        exact ⟨f, by rw [route, hpath, hfast]⟩
    | none =>
        constructor
        · rfl
        · by_contra hlate
          have hzero : ses.connection.subscriptionCount = 0 := by
            rw [hattends.count]
            exact Nat.eq_zero_of_not_pos hlate
          apply hrefused.idle
          apply Or.inr
          exact ⟨cmd, route_unsubscribed hzero (hpath.trans hfast) hcmd hquit⟩
  · intro hcareful parser v hinput hbanned
    rcases hcareful parser v hinput hbanned with ⟨hfast, hbegan⟩
    have hpath := (fastPath_of_outside hbanned.outside v).trans hfast
    rcases hbanned.command with ⟨cmd, hcmd, hforbidden⟩
    have hquit : cmd ≠ .quit := by
      intro heq
      rw [heq] at hforbidden
      cases hforbidden
    have hmode : ses.connection.isInPubsubMode = true := by
      apply decide_eq_true
      rw [hattends.count]
      exact hbegan
    have hroute : ses.connection.route v = .refused := by
      rw [route_of_slow hpath hcmd, if_neg hquit, hmode, hforbidden]
      rfl
    have hparsed : Connection.route { ses.connection with parser := parser } v =
        .refused := hroute
    change input = .frame parser v at hinput
    subst hinput
    rcases Option.map_eq_some_iff.mp hstep with ⟨⟨ses1, flow⟩, hframe, heq⟩
    cases heq
    rcases frame_eq_some.mp hframe with ⟨c, world, hrun, heq⟩
    rcases run_processFrame.mp hrun with ⟨c1, hflow, _⟩
    rw [frameFlow_eq, hparsed] at hflow
    cases hflow
    rw [heq]
    constructor
    · intro hexecutes
      rcases hexecutes with ⟨f, hf⟩ | ⟨cmd', hcmd'⟩
      · cases hroute.symm.trans hf
      · cases hroute.symm.trans hcmd'
    · rfl
    · rfl
    · rfl
    · exact List.append_nil _

/-- Between its inputs only work for other connections is done on the tables of its
thread; the store and the rest may change in any way. -/
def Apart (connId : ConnectionId) : Session S P -> List (Visit S P) -> Prop
  | _, [] => True
  | ses, x :: visits =>
      Others connId ses.shared.pubsub.1 x.before.shared.pubsub.1 ∧
        Apart connId x.after visits

theorem gated_visits_iff {ses ses' : Session S P} {visits : List (Visit S P)}
    (hattends : Attends ses) (hvisits : Visits fuel threadId ses visits ses')
    (hapart : Apart ses.connection.connectionId ses visits) :
    (forall x, x ∈ visits -> x.Gated) <-> forall x, x ∈ visits -> x.Careful := by
  induction visits generalizing ses with
  | nil =>
      have hnone : forall Q : Visit S P -> Prop, forall x, x ∈ [] -> Q x :=
        fun Q x hx => absurd hx List.not_mem_nil
      exact iff_of_true (hnone _) (hnone _)
  | cons x visits ih =>
      rcases visits_cons hvisits with ⟨shared, hbefore, hstep, hrest⟩
      have hothers := hapart.1
      rw [hbefore] at hothers
      have hhere := hattends.others hothers
      have hid := connectionId_step hstep
      have hlater := hapart.2
      rw [← show x.after.connection.connectionId = ses.connection.connectionId
        from hid] at hlater
      have hone := gated_frame_iff hhere hstep
      rw [← hbefore] at hone
      rw [List.forall_mem_cons, List.forall_mem_cons,
        ih (attends_step hhere hstep) hrest hlater]
      exact and_congr_left' hone

/-- In every run of a new connection, whatever the chunks, a command that subscriber
mode does not allow is refused if and only if it is no plain `SET` or `GET` and the
subscription came in an earlier chunk. -/
theorem gate_kept_iff {sh : Shared S P} {config : Config} {addr : Option String}
    {connectionId : Nat} {now : UInt64} {ses' : Session S P} {visits : List (Visit S P)}
    (hfresh : Others connectionId (.new threadId) sh.pubsub.1)
    (hvisits : Visits fuel threadId
      ⟨(sh.accept threadId config addr connectionId now).1,
        (sh.accept threadId config addr connectionId now).2, []⟩ visits ses')
    (hapart : Apart connectionId
      ⟨(sh.accept threadId config addr connectionId now).1,
        (sh.accept threadId config addr connectionId now).2, []⟩ visits) :
    (forall x, x ∈ visits -> x.Gated) <-> forall x, x ∈ visits -> x.Careful :=
  gated_visits_iff (attends_accept hfresh) hvisits hapart

theorem Attends.mode {ses : Session S P} (h : Attends ses) (hops : ses.ops = [])
    (hcount : 0 < ses.connection.subscriptionCount) :
    ses.InSubscriberMode ∧ ses.BeganSubscribed := by
  rw [h.count] at hcount
  unfold InSubscriberMode streamed
  rw [hops]
  exact ⟨hcount, hcount⟩

/-- A newcomer that subscribes to a channel and sends one more command in its next
chunk. -/
structure SubscribedFirst (v : RespValue)
    (ses1 ses2 ses3 : Session mapStore idlePlatform) (replies : Replies) : Prop where
  first : step 0 0 ⟨newcomer.1, newcomer.2, []⟩
    (.frame .new (request ["SUBSCRIBE", "c"])) =
      some (ses1, [(request ["SUBSCRIBE", "c"], .deferred (.subscribe [asBytes "c"]))])
  second : step 0 0 ses1 .finished = some (ses2, [])
  third : step 0 0 ses2 (.frame .new v) = some (ses3, replies)
  ops : ses2.ops = []
  counted : ses2.connection.subscriptionCount = 1

section Example

variable {v : RespValue} {ses1 ses2 ses3 : Session mapStore idlePlatform}
  {replies : Replies}

/-- Its visits, with nobody else in between. -/
def subscriberVisits (v : RespValue) (ses1 ses2 ses3 : Session mapStore idlePlatform)
    (replies : Replies) : List (Visit mapStore idlePlatform) :=
  [⟨⟨newcomer.1, newcomer.2, []⟩, .frame .new (request ["SUBSCRIBE", "c"]), ses1,
      [(request ["SUBSCRIBE", "c"], .deferred (.subscribe [asBytes "c"]))]⟩,
    ⟨ses1, .finished, ses2, []⟩, ⟨ses2, .frame .new v, ses3, replies⟩]

theorem SubscribedFirst.visits (h : SubscribedFirst v ses1 ses2 ses3 replies) :
    Visits 0 0 ⟨newcomer.1, newcomer.2, []⟩ (subscriberVisits v ses1 ses2 ses3 replies)
      ses3 :=
  .cons newcomer.2 h.first (.cons ses1.shared h.second
    (.cons ses2.shared h.third (.nil ses3)))

theorem apart_subscriberVisits :
    Apart 0 ⟨newcomer.1, newcomer.2, []⟩ (subscriberVisits v ses1 ses2 ses3 replies) :=
  ⟨.none _, .none _, .none _, trivial⟩

theorem SubscribedFirst.mode (h : SubscribedFirst v ses1 ses2 ses3 replies) :
    ses2.InSubscriberMode ∧ ses2.BeganSubscribed := by
  have hstart : Attends ⟨newcomer.1, newcomer.2, []⟩ :=
    @attends_accept _ _ 0 freshShared { requirepass := none } none 0 0 0 (.none _)
  have hattends := attends_step (attends_step hstart h.first) h.second
  apply hattends.mode h.ops
  rw [h.counted]
  exact Nat.one_pos

theorem gate_kept_del :
    exists ses1 ses2 ses3 replies,
      SubscribedFirst (request ["DEL", "k"]) ses1 ses2 ses3 replies ∧
      forall x, x ∈ subscriberVisits (request ["DEL", "k"]) ses1 ses2 ses3 replies ->
        x.Gated := by
  have hrun : exists ses1 ses2 ses3 replies,
      SubscribedFirst (request ["DEL", "k"]) ses1 ses2 ses3 replies :=
    ⟨_, _, _, _, rfl, rfl, rfl, rfl, rfl⟩
  rcases hrun with ⟨ses1, ses2, ses3, replies, h⟩
  refine ⟨ses1, ses2, ses3, replies, h, ?_⟩
  apply (@gate_kept_iff _ _ 0 0 freshShared { requirepass := none } none 0 0 ses3
    (subscriberVisits (request ["DEL", "k"]) ses1 ses2 ses3 replies) (.none _)
    h.visits apart_subscriberVisits).mpr
  intro x hx parser v hinput hbanned
  simp only [subscriberVisits, List.mem_cons, List.not_mem_nil, or_false] at hx
  rcases hx with hx | hx | hx
  · subst hx
    cases hinput
    rcases hbanned.command with ⟨cmd, hcmd, hforbidden⟩
    cases hcmd
    cases hforbidden
  · subst hx
    cases hinput
  · subst hx
    cases hinput
    exact ⟨rfl, h.mode.2⟩

/-- It subscribes and sets a key, which the fast path does. -/
theorem set_in_subscriber_mode :
    exists ses1 ses2 ses3 replies,
      SubscribedFirst (request ["SET", "k", "v"]) ses1 ses2 ses3 replies ∧
      Visits 0 0 ⟨newcomer.1, newcomer.2, []⟩
        (subscriberVisits (request ["SET", "k", "v"]) ses1 ses2 ses3 replies) ses3 ∧
      replies = [(request ["SET", "k", "v"], .fast .ok)] ∧
      (mapStore.reply (.getBytes (asBytes "k")) ses2.shared.world.store).1 ≠
        (mapStore.reply (.getBytes (asBytes "k")) ses3.shared.world.store).1 ∧
      ¬ forall x, x ∈ subscriberVisits (request ["SET", "k", "v"]) ses1 ses2 ses3
        replies -> x.Gated := by
  have hrun : exists ses1 ses2 ses3 replies,
      SubscribedFirst (request ["SET", "k", "v"]) ses1 ses2 ses3 replies ∧
        replies = [(request ["SET", "k", "v"], .fast .ok)] ∧
        ses2.connection.authenticated = true ∧
        ses2.connection.transactionState = .none ∧
        (mapStore.reply (.getBytes (asBytes "k")) ses2.shared.world.store).1 ≠
          (mapStore.reply (.getBytes (asBytes "k")) ses3.shared.world.store).1 :=
    ⟨_, _, _, _, ⟨rfl, rfl, rfl, rfl, rfl⟩, rfl, rfl, rfl, nofun⟩
  rcases hrun with
    ⟨ses1, ses2, ses3, replies, h, hreplies, hauthenticated, houtside, hstored⟩
  refine ⟨ses1, ses2, ses3, replies, h, h.visits, hreplies, hstored, ?_⟩
  intro hgated
  have hlast := hgated ⟨ses2, .frame .new (request ["SET", "k", "v"]), ses3, replies⟩
    (List.mem_cons_of_mem _ (List.mem_cons_of_mem _ List.mem_cons_self))
  have hrefused := hlast .new (request ["SET", "k", "v"]) rfl
    ⟨hauthenticated, houtside, h.mode.1, ⟨_, rfl, rfl⟩⟩
  have hanswer := hrefused.replies
  rw [hreplies] at hanswer
  cases hanswer

end Example

end Session

end FeoxServer
