import FeoxServer.Network.ServerCluster
import FeoxServer.Pubsub.PublishCount

/-!
# Who is told what

What a turn gives to a connection that it does not serve is messages, each of them for
a subscription that the connection has.
-/

namespace FeoxServer

open Foundation

def PubSubMessage.subject? : PubSubMessage -> Option (SubscriptionType × Bytes)
  | message channel _ => some (.channel, channel)
  | patternMessage pattern _ _ => some (.pattern, pattern)
  | _ => none

namespace ThreadLocalPubSub

def Entitles (m : ThreadLocalPubSub) (d : Delivery) : Prop :=
  exists kind name, d.2.subject? = some (kind, name) ∧ (d.1, name) ∈ m.subscriptions kind

variable {m : ThreadLocalPubSub}

theorem entitles_patternDeliveries (h : m.InOrder) (channel message : Bytes) {d : Delivery}
    (hd : d ∈ m.patternDeliveries channel message) : m.Entitles d := by
  rcases List.mem_map.mp hd with ⟨⟨pattern, connId⟩, hfound, rfl⟩
  rcases TrieNode.exists_path_of_mem_findInNode hfound with ⟨path, hpath⟩
  exact ⟨.pattern, pattern, rfl, ((h.trie.mem path pattern connId).mp hpath).2⟩

theorem entitles_publishLocal (h : m.InOrder) (channel message : Bytes) {d : Delivery}
    (hd : d ∈ m.publishLocal channel message) : m.Entitles d := by
  rcases List.mem_append.mp hd with hexact | hpattern
  · rcases List.mem_map.mp hexact with ⟨connId, hconn, rfl⟩
    exact ⟨.channel, channel, rfl, hconn⟩
  · exact entitles_patternDeliveries h channel message hpattern

theorem entitles_receive (h : m.InOrder) (msg : BroadcastMsg) {d : Delivery}
    (hd : d ∈ m.receive msg) : m.Entitles d := by
  cases msg with
  | publish channel message excludeThread =>
      exact entitles_publishLocal h channel message (List.mem_ite_nil_right.mp hd).2
  | patternPublish channel message excludeThread =>
      exact entitles_patternDeliveries h channel message (List.mem_ite_nil_right.mp hd).2

theorem entitles_processInbox (h : m.InOrder) (r : GlobalRegistry) {d : Delivery}
    (hd : d ∈ (processInbox (m, r)).1) : m.Entitles d := by
  rcases List.mem_flatMap.mp hd with ⟨msg, _, hreceived⟩
  exact entitles_receive h msg hreceived

end ThreadLocalPubSub

theorem Worked.entitles {ids : Set ConnectionId} {st st' : PubSubState}
    (h : Worked ids st st') (hst : st.1.InOrder) {d : Delivery} (hd : d.1 ∉ ids)
    (hentitles : st'.1.Entitles d) : st.1.Entitles d := by
  rcases hentitles with ⟨kind, name, hsubject, hmem⟩
  exact ⟨kind, name, hsubject, (h.others hst hd kind name).mp hmem⟩

/-- The deliveries of a connection's operations are for subscriptions that were there
before, apart from those that it makes to itself. -/
theorem entitles_handleOperations {threadId : ThreadId} (ops : List PubSubOp)
    {c : Connection} {st : PubSubState} (hthread : st.1.threadId = threadId)
    (h : st.1.InOrder) {d : Delivery} (hother : d.1 ≠ c.connectionId)
    (hd : d ∈ (handleOperations threadId ops c st).1) : st.1.Entitles d := by
  induction ops generalizing c st with
  | nil => cases hd
  | cons op ops ih =>
      rcases List.mem_append.mp hd with hfirst | hrest
      · cases op with
        | publish channel message =>
            exact ThreadLocalPubSub.entitles_publishLocal h channel message hfirst
        | _ => cases hfirst
      · have hworked := worked_handlePubsubOperation hthread c.connectionId op c
        rcases handlePubsubOperation_eq st c.connectionId op c threadId with
          ⟨count, flags, pending, buffer, heq⟩
        have hid : (handlePubsubOperation st c.connectionId op c
            threadId).2.1.connectionId = c.connectionId := by
          rw [heq]
        exact hworked.entitles h hother (ih (hworked.threadId.trans hthread)
          (hworked.inOrder h) (hid.symm ▸ hother) hrest)

namespace Reading

variable {S : FeoxStore} {P : Platform} {fuel : Nat} {threadId : ThreadId}

theorem entitles_chunk {st : PubSubState} (hthread : st.1.threadId = threadId)
    (hst : st.1.InOrder) {cl : Client} {r r' : Reading S P} {data : Bytes}
    {writes : List SocketWrite} {again : Bool} (hworks : r.Works st cl)
    (h : forall d, d ∈ r.deliveriesToMake -> d.1 ≠ cl.connection.connectionId ->
      st.1.Entitles d)
    (hchunk : r.chunk fuel threadId data writes = some (r', again)) :
    forall d, d ∈ r'.deliveriesToMake -> d.1 ≠ cl.connection.connectionId ->
      st.1.Entitles d := by
  intro d hd hother
  rcases chunk_cases hchunk with
    ⟨c, result, world, hrun, ⟨e, rfl, rfl, _⟩ | ⟨ops, rfl, rfl, _⟩⟩
  · exact h d hd hother
  · have hid := (Connection.remains_processRead hrun).connectionId.trans
      hworks.connectionId
    rcases List.mem_append.mp hd with hbefore | hnew
    · exact h d hbefore hother
    · refine hworks.worked.entitles hst hother ?_
      exact @entitles_handleOperations threadId ops c r.shared.pubsub
        (hworks.worked.threadId.trans hthread) (hworks.worked.inOrder hst) d
        (hid ▸ hother) hnew

/-- Whatever serving a connection has published, it delivers to others only what they
are subscribed to. -/
theorem entitles_serve {sh : Shared S P} (hthread : sh.pubsub.1.threadId = threadId)
    (hst : sh.pubsub.1.InOrder) {cl : Client} {readiness : Readiness} {r : Reading S P}
    (hcl : cl.Resting)
    (hcounted : cl.connection.Counted sh.pubsub cl.connection.connectionId)
    (hflagged : cl.connection.Flagged)
    (hserve : Server.serve fuel threadId sh cl readiness = some r) :
    forall d, d ∈ r.deliveriesToMake -> d.1 ≠ cl.connection.connectionId ->
      sh.pubsub.1.Entitles d := by
  have hboth : r.Works sh.pubsub cl ∧ forall d, d ∈ r.deliveriesToMake ->
      d.1 ≠ cl.connection.connectionId -> sh.pubsub.1.Entitles d := by
    refine @Server.serve_induction _ _ fuel threadId
      (fun r => r.Works sh.pubsub cl ∧ forall d, d ∈ r.deliveriesToMake ->
        d.1 ≠ cl.connection.connectionId -> sh.pubsub.1.Entitles d)
      sh cl readiness r ?_ ?_ ?_ hserve
    · rintro r ⟨h, hentitles⟩
      exact ⟨⟨h.connectionId, h.worked, h.counted, h.flagged⟩, hentitles⟩
    · rintro r data writes r' again ⟨h, hentitles⟩ hchunk
      exact ⟨works_chunk hthread h hchunk,
        entitles_chunk hthread hst h hentitles hchunk⟩
    · refine ⟨works_writeFirst readiness hcl hcounted hflagged, fun d hd => ?_⟩
      cases hd
  exact hboth.2

end Reading

theorem mem_messagesFor {connId : ConnectionId} {deliveries : List Delivery}
    {message : PubSubMessage} :
    message ∈ messagesFor connId deliveries <-> (connId, message) ∈ deliveries := by
  simp [messagesFor]

namespace Server

variable {S : FeoxStore} {P : Platform} {fuel : Nat}

/-- What a turn delivers to the connections of its worker. -/
def deliveries (fuel : Nat) (s : Server S P) : ServerInput -> List Delivery
  | .turn u (.inbox _) =>
      match s.workers[u]? with
      | some w => (ThreadLocalPubSub.processInbox (w.manager, s.registry)).1
      | none => []
  | .turn u (.ready token readiness) =>
      ((s.workers[u]?.bind fun w =>
        (w.connections.lookup token).bind fun cl =>
          (serve fuel u (s.shared w) cl readiness).map fun r =>
            r.deliveriesToMake)).getD []
  | _ => []

theorem deliveries_inbox {s : Server S P} {u : ThreadId} {w : Worker}
    (hw : s.workers[u]? = some w) (delivered : List (List SocketWrite)) :
    s.deliveries fuel (.turn u (.inbox delivered)) =
      (ThreadLocalPubSub.processInbox (w.manager, s.registry)).1 := by
  rw [deliveries, hw]

theorem deliveries_ready {s : Server S P} {u : ThreadId} {w : Worker} {token : Token}
    {cl : Client} {readiness : Readiness} {r : Reading S P}
    (hw : s.workers[u]? = some w) (hcl : w.connections.lookup token = some cl)
    (hserve : serve fuel u (s.shared w) cl readiness = some r) :
    s.deliveries fuel (.turn u (.ready token readiness)) = r.deliveriesToMake := by
  rw [deliveries, hw, Option.bind_some, hcl, Option.bind_some, hserve]
  rfl

theorem told_step {s s' : Server S P} {input : ServerInput} (h : s.Orderly)
    (hstep : s.step fuel input = some s') {v : ThreadId} {t : Token} {cl cl' : Client}
    (hcl : s.client v t = some cl) (hcl' : s'.client v t = some cl')
    (hother : forall readiness, input ≠ .turn v (.ready t readiness)) :
    cl' = cl ∨ exists turn, input = .turn v turn ∧
      cl.Told cl' (messagesFor cl.connection.connectionId (s.deliveries fuel input)) := by
  cases input with
  | shutdown =>
      cases hstep
      exact Or.inl (Option.some.inj (hcl'.symm.trans hcl))
  | turn u turn =>
      rcases step_turn hstep with ⟨w, hw, _, hturn⟩
      cases turn with
      | inbox delivered =>
          cases hturn
          have htold := toldOn_inbox h hw delivered
          by_cases hv : v = u
          · subst hv
            rcases htold.mine t cl hcl with ⟨cl1, hcl1, hone⟩
            cases hcl'.symm.trans hcl1
            rw [deliveries_inbox hw]
            exact Or.inr ⟨_, rfl, hone⟩
          · rw [htold.others v t hv] at hcl'
            exact Or.inl (Option.some.inj (hcl'.symm.trans hcl))
      | accept addr now =>
          cases hturn
          rw [client_accept hw] at hcl'
          split at hcl'
          · rename_i hhere
            rw [hhere.1, hhere.2, client_of_worker hw] at hcl
            exact absurd ((h.tokens u w hw).2 w.nextToken cl hcl).2 (Nat.lt_irrefl _)
          · exact Or.inl (Option.some.inj (hcl'.symm.trans hcl))
      | ready token readiness =>
          rcases ready_cases hturn with ⟨_, rfl⟩ | ⟨cl0, r, hcl0, hserve, rfl⟩
          · exact Or.inl (Option.some.inj (hcl'.symm.trans hcl))
          · have hsettled := orderly_settle h hw hcl0
              (Reading.serves_serve (h.worker_resting hw token cl0 hcl0) hserve)
            rcases @worker_settle _ _ s u w token r hw with ⟨w', hw'⟩
            have htold := toldOn_deliverTo hsettled hw' readiness.delivered
              r.deliveriesToMake
            have hkept : (s.settle u w token r).client v t = some cl := by
              rw [client_settle hw hcl0, if_neg]
              · exact hcl
              · rintro ⟨rfl, rfl⟩
                exact hother readiness rfl
            by_cases hv : v = u
            · subst hv
              rcases htold.mine t cl hkept with ⟨cl1, hcl1, hone⟩
              cases hcl'.symm.trans hcl1
              rw [deliveries_ready hw hcl0 hserve]
              exact Or.inr ⟨_, rfl, hone⟩
            · rw [htold.others v t hv] at hcl'
              exact Or.inl (Option.some.inj (hcl'.symm.trans hkept))
      | stop =>
          rcases Option.ite_none_right_eq_some.mp hturn with ⟨_, heq⟩
          cases heq
          rw [client_stop hw] at hcl'
          exact Or.inl (Option.some.inj
            ((Option.ite_none_left_eq_some.mp hcl').2.symm.trans hcl))
      | fail =>
          cases hturn
          rw [client_fail hw] at hcl'
          exact Or.inl (Option.some.inj
            ((Option.ite_none_left_eq_some.mp hcl').2.symm.trans hcl))

theorem entitles_deliveries {failed : Set ThreadId} {s s' : Server S P} {v : ThreadId}
    {turn : WorkerTurn} (horderly : s.Orderly) (h : s.Attended failed)
    (hstep : s.step fuel (.turn v turn) = some s') {w : Worker}
    (hw : s.workers[v]? = some w) {t : Token} {cl : Client}
    (hcl : w.connections.lookup t = some cl)
    (hother : forall readiness, turn ≠ .ready t readiness) {message : PubSubMessage}
    (hmessage : message ∈ messagesFor cl.connection.connectionId
      (s.deliveries fuel (.turn v turn))) :
    w.manager.Entitles (cl.connection.connectionId, message) := by
  have hattends := h v w hw
  rcases step_turn hstep with ⟨w1, hw1, _, hturn⟩
  cases hw.symm.trans hw1
  rw [mem_messagesFor] at hmessage
  cases turn with
  | inbox delivered =>
      rw [deliveries_inbox hw] at hmessage
      exact ThreadLocalPubSub.entitles_processInbox hattends.inOrder _ hmessage
  | ready token readiness =>
      rcases ready_cases hturn with ⟨hnone, rfl⟩ | ⟨cl0, r, hcl0, hserve, rfl⟩
      · rw [deliveries, hw, Option.bind_some, hnone] at hmessage
        cases hmessage
      · rw [deliveries_ready hw hcl0 hserve] at hmessage
        refine @Reading.entitles_serve _ _ fuel v (s.shared w) hattends.thread
          hattends.inOrder cl0 readiness r
          (horderly.worker_resting hw token cl0 hcl0) (hattends.counted token cl0 hcl0)
          (hattends.flagged token cl0 hcl0) hserve _ hmessage ?_
        intro hsame
        have htoken := horderly.worker_distinct hw t token cl cl0 hcl hcl0 hsame
        subst htoken
        exact hother readiness rfl
  | _ => cases hmessage

/-- A turn changes a connection that it does not serve only by messages behind its
output, each of them for a subscription that the connection has. -/
theorem others_told {numThreads : Nat} {config : Config} {world : World S P}
    {inputs : List ServerInput} {s s' : Server S P}
    (hrun : (new numThreads config world).run fuel inputs = some s)
    {input : ServerInput} (hstep : s.step fuel input = some s') {v : ThreadId} {t : Token}
    {cl cl' : Client} (hcl : s.client v t = some cl) (hcl' : s'.client v t = some cl')
    (hother : forall readiness, input ≠ .turn v (.ready t readiness)) :
    exists messages, cl.Told cl' messages ∧
      forall message, message ∈ messages -> exists kind name,
        message.subject? = some (kind, name) ∧
          cl.connection.connectionId ∈ s.subscribersOf kind name := by
  have horderly := orderly_run (orderly_new numThreads config world) hrun
  rcases told_step horderly hstep hcl hcl' hother with rfl | ⟨turn, rfl, htold⟩
  · exact ⟨[], .refl (horderly.resting v t _ hcl).position, by simp⟩
  · refine ⟨_, htold, fun message hmessage => ?_⟩
    rcases step_turn hstep with ⟨w, hw, _, _⟩
    have hlookup := (client_of_worker hw t).symm.trans hcl
    rcases entitles_deliveries horderly (attended_run hrun) hstep hw hlookup
      (fun readiness heq => hother readiness (congrArg (ServerInput.turn v) heq))
      hmessage with ⟨kind, name, hsubject, hmem⟩
    exact ⟨kind, name, hsubject, v, w, t, cl, hw, hlookup, rfl, hmem⟩

def published : ServerInput :=
  .turn 0 (.ready 2
    { writable := none
      readable := some [(.ok (Connection.requests [["PUBLISH", "c", "m"]]), [])]
      delivered := [] })

theorem others_told_published :
    exists s s' cl cl' messages,
      quiet.run 0 [.turn 0 (.accept none 5), .turn 0 (.accept none 5), subscribed] =
        some s ∧
      s.step 0 published = some s' ∧ s.client 0 1 = some cl ∧ s'.client 0 1 = some cl' ∧
      messages ≠ [] ∧ cl.Told cl' messages ∧
      forall message, message ∈ messages -> exists kind name,
        message.subject? = some (kind, name) ∧
          cl.connection.connectionId ∈ s.subscribersOf kind name := by
  have heval : ((quiet.run 0
      [.turn 0 (.accept none 5), .turn 0 (.accept none 5), subscribed]).bind fun s =>
        (s.step 0 published).bind fun s' => (s.client 0 1).bind fun cl =>
          (s'.client 0 1).map fun cl' => cl'.output == cl.output) = some false := by
    decide +kernel
  rcases Option.bind_eq_some_iff.mp heval with ⟨s, hrun, hrest⟩
  rcases Option.bind_eq_some_iff.mp hrest with ⟨s', hstep, hrest⟩
  rcases Option.bind_eq_some_iff.mp hrest with ⟨cl, hcl, hrest⟩
  rcases Option.map_eq_some_iff.mp hrest with ⟨cl', hcl', houtput⟩
  rcases @others_told mapStore idlePlatform 0 1 { requirepass := none }
    Connection.freshShared.world _ s s' hrun published hstep 0 1 cl cl' hcl hcl'
    (by simp [published]) with ⟨messages, htold, hmine⟩
  refine ⟨s, s', cl, cl', messages, hrun, hstep, hcl, hcl', ?_, htold, hmine⟩
  rintro rfl
  have hsame := htold.output
  rw [messageBytes, List.map_nil, List.flatMap_nil, List.append_nil] at hsame
  rw [hsame, beq_self_eq_true] at houtput
  cases houtput

end Server

end FeoxServer
