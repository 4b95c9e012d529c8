import FeoxServer.Network.OpenConnections
import FeoxServer.Network.SubscriptionCounts

/-!
# The service behind the turns

What the turns of a worker do to its tables and to the registry is the work of
operations of a cluster, all of them for connections of the worker.
-/

namespace FeoxServer

open Foundation

def PubSubOp.clusterOps (connId : ConnectionId) : PubSubOp -> List ClusterOp
  | subscribe channels => [.subscribe connId channels]
  | unsubscribe channels => [.unsubscribe connId channels]
  | psubscribe patterns => [.psubscribe connId patterns]
  | punsubscribe patterns => [.punsubscribe connId patterns]
  | publish channel message => [.publish channel message]
  | pubSubChannels _ | pubSubNumSub _ | pubSubNumPat => []

def Worked (ids : Set ConnectionId) (st st' : PubSubState) : Prop :=
  exists ops : List ClusterOp, st' = ops.foldl (fun st op => op.perform st) st ∧
    forall op, op ∈ ops -> forall connId, op.connection = some connId -> connId ∈ ids

namespace Worked

variable {ids : Set ConnectionId} {st st' st1 : PubSubState}

theorem refl (ids : Set ConnectionId) (st : PubSubState) : Worked ids st st :=
  ⟨[], rfl, by simp⟩

theorem single {op : ClusterOp}
    (h : forall connId, op.connection = some connId -> connId ∈ ids) :
    Worked ids st (op.perform st) :=
  ⟨[op], rfl, by simpa using h⟩

theorem trans (h : Worked ids st st1) (h' : Worked ids st1 st') :
    Worked ids st st' := by
  rcases h with ⟨ops, rfl, hops⟩
  rcases h' with ⟨ops', rfl, hops'⟩
  refine ⟨ops ++ ops', (List.foldl_append ..).symm, fun op hop => ?_⟩
  exact (List.mem_append.mp hop).elim (hops op) (hops' op)

theorem mono {ids' : Set ConnectionId} (hids : ids ⊆ ids') (h : Worked ids st st') :
    Worked ids' st st' := by
  rcases h with ⟨ops, heq, hops⟩
  exact ⟨ops, heq, fun op hop connId hconn => hids (hops op hop connId hconn)⟩

theorem induction {Q : PubSubState -> Prop}
    (hstep : forall (op : ClusterOp) st, (forall connId, op.connection = some connId ->
      connId ∈ ids) -> Q st -> Q (op.perform st))
    (h : Worked ids st st') (hst : Q st) : Q st' := by
  rcases h with ⟨ops, rfl, hops⟩
  induction ops generalizing st with
  | nil => exact hst
  | cons op ops ih =>
      exact ih (hstep op st (hops op List.mem_cons_self) hst)
        fun op' hop' => hops op' (List.mem_cons_of_mem _ hop')

theorem threadId (h : Worked ids st st') : st'.1.threadId = st.1.threadId :=
  h.induction (Q := fun st1 => st1.1.threadId = st.1.threadId)
    (fun op st1 _ hst1 => (op.perform_settled st1).threadId.trans hst1) rfl

end Worked

/-!
# The subscriptions in the tables
-/

namespace ThreadLocalPubSub

def InOrder (m : ThreadLocalPubSub) : Prop :=
  Holds m m.subscriptions m.subscriptions

theorem InOrder.of_holds {m : ThreadLocalPubSub} {R : Subscriptions}
    (h : Holds m R R) : InOrder m := by
  rw [← subscriptions_of_holds h] at h
  exact h

theorem inOrder_new (threadId : ThreadId) : InOrder (.new threadId) :=
  .of_holds (holds_new threadId)

theorem InOrder.perform {st : PubSubState} (h : st.1.InOrder) (op : ClusterOp) :
    (op.perform st).1.InOrder :=
  .of_holds (op.perform_holds h)

theorem InOrder.subscriptions_perform {st : PubSubState} (h : st.1.InOrder)
    (op : ClusterOp) :
    (op.perform st).1.subscriptions = st.1.subscriptions.perform op :=
  subscriptions_of_holds (op.perform_holds h)

theorem InOrder.count {m : ThreadLocalPubSub} (h : m.InOrder) (connId : ConnectionId) :
    m.getConnectionSubscriptionCount connId = m.subscriptions.total connId :=
  count_of_holds h connId

end ThreadLocalPubSub

theorem Worked.inOrder {ids : Set ConnectionId} {st st' : PubSubState}
    (h : Worked ids st st') (hst : st.1.InOrder) : st'.1.InOrder :=
  h.induction (Q := fun st1 => st1.1.InOrder) (fun op _ _ hst1 => hst1.perform op) hst

theorem Worked.others {ids : Set ConnectionId} {st st' : PubSubState}
    (h : Worked ids st st') (hst : st.1.InOrder) {connId : ConnectionId}
    (hconn : connId ∉ ids) (kind : SubscriptionType) (name : Bytes) :
    (connId, name) ∈ st'.1.subscriptions kind <->
      (connId, name) ∈ st.1.subscriptions kind := by
  have hboth : st'.1.InOrder ∧ ((connId, name) ∈ st'.1.subscriptions kind <->
      (connId, name) ∈ st.1.subscriptions kind) := by
    refine h.induction (Q := fun st1 => st1.1.InOrder ∧
      ((connId, name) ∈ st1.1.subscriptions kind <->
        (connId, name) ∈ st.1.subscriptions kind)) ?_ ⟨hst, Iff.rfl⟩
    rintro op st1 hop ⟨horder, hsame⟩
    refine ⟨horder.perform op, Iff.trans ?_ hsame⟩
    rw [horder.subscriptions_perform op]
    exact Subscriptions.mem_perform_of_ne fun hmine => hconn (hop connId hmine)
  exact hboth.2

theorem Worked.count_of_not_mem {ids : Set ConnectionId} {st st' : PubSubState}
    (h : Worked ids st st') (hst : st.1.InOrder) {connId : ConnectionId}
    (hconn : connId ∉ ids) :
    st'.1.getConnectionSubscriptionCount connId =
      st.1.getConnectionSubscriptionCount connId := by
  rw [(h.inOrder hst).count, hst.count]
  exact Subscriptions.total_congr (h.others hst hconn)

theorem Subscriptions.mem_drop {R : Subscriptions} {other connId : ConnectionId}
    {kind : SubscriptionType} {name : Bytes} :
    (connId, name) ∈ R.perform (.connectionDropped other) kind <->
      (connId, name) ∈ R kind ∧ connId ≠ other := by
  cases kind with
  | channel =>
      simp only [perform, part, ne_eq, reduceCtorEq, not_false_eq_true,
        Function.update_of_ne, Function.update_self]
      exact Iff.rfl
  | pattern =>
      simp only [perform, part, ne_eq, reduceCtorEq, not_false_eq_true,
        Function.update_of_ne, Function.update_self]
      exact Iff.rfl

/-!
# What serving a connection does
-/

theorem worked_handlePubsubOperation {st : PubSubState} {threadId : ThreadId}
    (h : st.1.threadId = threadId) (connId : ConnectionId) (op : PubSubOp)
    (c : Connection) :
    Worked {connId} st (handlePubsubOperation st connId op c threadId).2.2 := by
  subst h
  have hmine : forall op' : ClusterOp, op' ∈ op.clusterOps connId ->
      forall id, op'.connection = some id -> id ∈ ({connId} : Set ConnectionId) := by
    intro op' hop' id hid
    cases op <;> simp only [PubSubOp.clusterOps, List.mem_singleton, List.not_mem_nil]
      at hop' <;> subst hop' <;> cases hid <;> rfl
  refine ⟨op.clusterOps connId, ?_, hmine⟩
  cases op <;> rfl

theorem worked_handleOperations {st : PubSubState} {threadId : ThreadId}
    (h : st.1.threadId = threadId) (ops : List PubSubOp) (c : Connection) :
    Worked {c.connectionId} st (handleOperations threadId ops c st).2.2 := by
  induction ops generalizing c st with
  | nil => exact .refl _ st
  | cons op ops ih =>
      have hone := worked_handlePubsubOperation h c.connectionId op c
      rcases handlePubsubOperation_eq st c.connectionId op c threadId with
        ⟨count, flags, pending, buffer, heq⟩
      have hrest := ih (hone.threadId.trans h)
        (handlePubsubOperation st c.connectionId op c threadId).2.1
      have hid : (handlePubsubOperation st c.connectionId op c
          threadId).2.1.connectionId = c.connectionId := by
        rw [heq]
      rw [hid] at hrest
      exact hone.trans hrest

theorem flagged_handleOperations (threadId : ThreadId) (ops : List PubSubOp)
    {c : Connection} {st : PubSubState} (h : c.Flagged) :
    (handleOperations threadId ops c st).2.1.Flagged := by
  induction ops generalizing c st with
  | nil => exact h
  | cons op ops ih =>
      exact ih (flagged_handlePubsubOperation st c.connectionId op threadId h)

theorem worked_close {S : FeoxStore} {P : Platform} (sh : Shared S P) (c : Connection) :
    Worked {c.connectionId} sh.pubsub (sh.close c).2.pubsub :=
  @Worked.single _ _ (.connectionDropped c.connectionId) (by simp [ClusterOp.connection])

/-- The service while a connection is served: only its own subscriptions have changed,
and the connection has the count of them. -/
structure Reading.Works {S : FeoxStore} {P : Platform} (st : PubSubState) (cl : Client)
    (r : Reading S P) : Prop where
  connectionId : r.client.connection.connectionId = cl.connection.connectionId
  worked : Worked {cl.connection.connectionId} st r.shared.pubsub
  counted : r.client.connection.Counted r.shared.pubsub cl.connection.connectionId
  flagged : r.client.connection.Flagged

namespace Reading

variable {S : FeoxStore} {P : Platform} {fuel : Nat} {threadId : ThreadId}

theorem works_chunk {st : PubSubState} (hst : st.1.threadId = threadId) {cl : Client}
    {r r' : Reading S P} {data : Bytes} {writes : List SocketWrite} {again : Bool}
    (h : r.Works st cl)
    (hchunk : r.chunk fuel threadId data writes = some (r', again)) :
    r'.Works st cl := by
  rcases chunk_cases hchunk with
    ⟨c, result, world, hrun, ⟨e, rfl, rfl, _⟩ | ⟨ops, rfl, rfl, _⟩⟩
  · have hremains := Connection.remains_processRead hrun
    have hflagged := h.flagged
    unfold Connection.Flagged at hflagged
    rw [← hremains.flags, ← hremains.subscriptionCount] at hflagged
    exact ⟨hremains.connectionId.trans h.connectionId, h.worked,
      hremains.subscriptionCount.trans h.counted, hflagged⟩
  · have hremains := Connection.remains_processRead hrun
    have hid := hremains.connectionId.trans h.connectionId
    have hcounted : c.Counted r.shared.pubsub c.connectionId := by
      rw [hid]
      exact hremains.subscriptionCount.trans h.counted
    have hflagged : c.Flagged := by
      unfold Connection.Flagged
      rw [hremains.flags, hremains.subscriptionCount]
      exact h.flagged
    rcases @finished_connection _ _ threadId r c ops world with
      ⟨_, hidFinished, _, later, hlater⟩
    have hwrote := @Client.wrote_respond writes
      { r.client with connection := (r.finished threadId c ops world).connection }
      (output_processRead hrun hlater).2
    rcases hwrote.connection with ⟨position, hconnection⟩
    have hworked := worked_handleOperations (h.worked.threadId.trans hst) ops c
    have hcountedAfter := counted_handleOperations threadId ops hcounted
    rw [hid] at hworked hcountedAfter
    refine ⟨?_, h.worked.trans hworked, ?_, ?_⟩
    · change (Client.respond writes _).1.connection.connectionId = _
      rw [hconnection]
      exact hidFinished.trans hid
    · change (Client.respond writes _).1.connection.subscriptionCount = _
      rw [hconnection]
      exact hcountedAfter
    · change (Client.respond writes _).1.connection.Flagged
      rw [hconnection]
      exact @flagged_handleOperations threadId ops c r.shared.pubsub hflagged

theorem works_writeFirst {sh : Shared S P} {cl : Client} (readiness : Readiness)
    (hcl : cl.Resting)
    (hcounted : cl.connection.Counted sh.pubsub cl.connection.connectionId)
    (hflagged : cl.connection.Flagged) :
    Works sh.pubsub cl
      { client := (cl.writeFirst readiness).1
        shared := sh
        deliveriesToMake := []
        shouldClose := (cl.writeFirst readiness).2 } := by
  rcases (Server.wrote_writeFirst readiness hcl.position).connection with
    ⟨position, hconnection⟩
  refine ⟨?_, .refl _ _, ?_, ?_⟩
  · change (cl.writeFirst readiness).1.connection.connectionId = _
    rw [hconnection]
  · change (cl.writeFirst readiness).1.connection.subscriptionCount = _
    rw [hconnection]
    exact hcounted
  · change (cl.writeFirst readiness).1.connection.Flagged
    rw [hconnection]
    exact hflagged

theorem works_serve {sh : Shared S P} (hsh : sh.pubsub.1.threadId = threadId)
    {cl : Client} {readiness : Readiness} {r : Reading S P} (hcl : cl.Resting)
    (hcounted : cl.connection.Counted sh.pubsub cl.connection.connectionId)
    (hflagged : cl.connection.Flagged)
    (hserve : Server.serve fuel threadId sh cl readiness = some r) :
    r.Works sh.pubsub cl := by
  refine Server.serve_induction ?_ ?_ (works_writeFirst readiness hcl hcounted hflagged)
    hserve
  · rintro r h
    exact ⟨h.connectionId, h.worked, h.counted, h.flagged⟩
  · intro r data writes r' again h hchunk
    exact works_chunk hsh h hchunk

end Reading

end FeoxServer
