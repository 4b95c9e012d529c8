import FeoxServer.Network.Readings

/-!
# The connections of a server

A connection stays in one place of one table for as long as it is open, under a number
that no other connection ever has.  A turn changes the connection it serves, and of
the others only what is behind their output.
-/

namespace FeoxServer

open Foundation

/-- Both are the same connection, the second perhaps later. -/
structure Client.Continues (cl cl' : Client) : Prop where
  connectionId : cl'.connection.connectionId = cl.connection.connectionId
  origin : cl'.connection.origin = cl.connection.origin
  output : cl.output <+: cl'.output
  resting : cl'.Resting

theorem Client.Told.continues {cl cl' : Client} {messages : List PubSubMessage}
    (h : cl.Told cl' messages) (hcl : cl.Resting) : cl.Continues cl' := by
  refine ⟨h.connectionId, ?_, h.output ▸ List.prefix_append _ _, h.resting hcl⟩
  rcases h.connection with ⟨buffer, position, hconnection⟩
  rw [hconnection]
  rfl

theorem Client.Continues.trans {cl cl1 cl2 : Client} (h : cl.Continues cl1)
    (h' : cl1.Continues cl2) : cl.Continues cl2 :=
  ⟨h'.connectionId.trans h.connectionId, h'.origin.trans h.origin,
    h.output.trans h'.output, h'.resting⟩

namespace Server

variable {S : FeoxStore} {P : Platform} {fuel : Nat}

/-- The connection that a worker has under a token. -/
def client (s : Server S P) (u : ThreadId) (t : Token) : Option Client :=
  s.workers[u]?.bind fun w => w.connections.lookup t

theorem client_of_worker {s : Server S P} {u : ThreadId} {w : Worker}
    (hw : s.workers[u]? = some w) (t : Token) :
    s.client u t = w.connections.lookup t := by
  rw [client, hw]
  rfl

theorem client_set {s s' : Server S P} {u : ThreadId} {w w' : Worker}
    (hw : s.workers[u]? = some w) (hs' : s'.workers = s.workers.set u w')
    (v : ThreadId) (t : Token) :
    s'.client v t = if v = u then w'.connections.lookup t else s.client v t := by
  rcases List.getElem?_eq_some_iff.mp hw with ⟨hlt, _⟩
  rw [client, hs']
  by_cases hv : v = u
  · subst hv
    rw [List.getElem?_set_self hlt, if_pos rfl]
    rfl
  · rw [List.getElem?_set_ne (Ne.symm hv), if_neg hv]
    rfl

/-- What holds of the tables between two turns.  Token 0 is never that of a
connection. -/
structure Orderly (s : Server S P) : Prop where
  distinct : forall (u v : ThreadId) (t t' : Token) (cl cl' : Client),
    s.client u t = some cl -> s.client v t' = some cl' ->
    cl.connection.connectionId = cl'.connection.connectionId -> u = v ∧ t = t'
  fresh : forall (u : ThreadId) (t : Token) (cl : Client), s.client u t = some cl ->
    cl.connection.connectionId < s.nextConnectionId
  resting : forall (u : ThreadId) (t : Token) (cl : Client),
    s.client u t = some cl -> cl.Resting
  tokens : forall (u : ThreadId) (w : Worker), s.workers[u]? = some w ->
    0 < w.nextToken ∧ forall (t : Token) (cl : Client),
      w.connections.lookup t = some cl -> 0 < t ∧ t < w.nextToken

namespace Orderly

theorem worker_distinct {s : Server S P} (h : s.Orderly) {u : ThreadId} {w : Worker}
    (hw : s.workers[u]? = some w) : w.Distinct := by
  intro t t' cl cl' hcl hcl' hid
  rw [← client_of_worker hw] at hcl hcl'
  exact (h.distinct u u t t' cl cl' hcl hcl' hid).2

theorem worker_resting {s : Server S P} (h : s.Orderly) {u : ThreadId} {w : Worker}
    (hw : s.workers[u]? = some w) : w.AllResting := by
  intro t cl hcl
  rw [← client_of_worker hw] at hcl
  exact h.resting u t cl hcl

end Orderly

theorem workers_new {numThreads : Nat} {config : Config} {world : World S P}
    {u : ThreadId} {w : Worker}
    (hw : (new numThreads config world).workers[u]? = some w) :
    u < numThreads ∧ w = .new u := by
  change ((List.range numThreads).map Worker.new)[u]? = some w at hw
  rw [List.getElem?_map, Option.map_eq_some_iff] at hw
  rcases hw with ⟨v, hv, rfl⟩
  rcases List.getElem?_eq_some_iff.mp hv with ⟨hlt, hget⟩
  rw [List.getElem_range] at hget
  rw [List.length_range] at hlt
  exact ⟨hlt, by rw [hget]⟩

theorem client_new (numThreads : Nat) (config : Config) (world : World S P)
    (u : ThreadId) (t : Token) : (new numThreads config world).client u t = none := by
  unfold client
  cases hw : (new numThreads config world).workers[u]? with
  | none => rfl
  | some w =>
      rw [(workers_new hw).2]
      rfl

theorem orderly_new (numThreads : Nat) (config : Config) (world : World S P) :
    Orderly (new numThreads config world) := by
  refine ⟨?_, ?_, ?_, ?_⟩
  · intro u v t t' cl cl' hcl
    rw [client_new] at hcl
    cases hcl
  · intro u t cl hcl
    rw [client_new] at hcl
    cases hcl
  · intro u t cl hcl
    rw [client_new] at hcl
    cases hcl
  · intro u w hw
    rw [(workers_new hw).2]
    refine ⟨Nat.one_pos, fun t cl hcl => ?_⟩
    cases hcl

/-!
# What a turn does to the tables
-/

/-- Deliveries have been made on one worker: its connections have been told what is
for them, and those of the others nothing. -/
structure ToldOn (u : ThreadId) (deliveries : List Delivery) (s s' : Server S P) :
    Prop where
  mine : forall (t : Token) (cl : Client), s.client u t = some cl ->
    exists cl', s'.client u t = some cl' ∧
      cl.Told cl' (messagesFor cl.connection.connectionId deliveries)
  others : forall (v : ThreadId) (t : Token), v ≠ u -> s'.client v t = s.client v t
  absent : forall t : Token, s.client u t = none -> s'.client u t = none

theorem toldOn_of_delivered {s s' : Server S P} {u : ThreadId} {w w' : Worker}
    {deliveries : List Delivery} (hw : s.workers[u]? = some w)
    (hs' : s'.workers = s.workers.set u w') (h : w.Delivered w' deliveries) :
    ToldOn u deliveries s s' := by
  have hclient := client_set hw hs'
  refine ⟨fun t cl hcl => ?_, fun v t hv => ?_, fun t hnone => ?_⟩
  · rw [client_of_worker hw] at hcl
    rw [hclient, if_pos rfl]
    exact h.told t cl hcl
  · rw [hclient, if_neg hv]
  · rw [client_of_worker hw] at hnone
    rw [hclient, if_pos rfl, AList.lookup_eq_none, AList.mem_keys, h.keys,
      ← AList.mem_keys, ← AList.lookup_eq_none]
    exact hnone

theorem toldOn_inbox {s : Server S P} (h : s.Orderly) {u : ThreadId} {w : Worker}
    (hw : s.workers[u]? = some w) (delivered : List (List SocketWrite)) :
    ToldOn u (ThreadLocalPubSub.processInbox (w.manager, s.registry)).1 s
      (s.inbox u w delivered) := by
  have hdelivered := Worker.delivered_deliverAll delivered (h.worker_distinct hw)
    (h.worker_resting hw) (ThreadLocalPubSub.processInbox (w.manager, s.registry)).1
  exact toldOn_of_delivered hw rfl
    ⟨hdelivered.nextToken, rfl, hdelivered.running, hdelivered.keys, hdelivered.told⟩

theorem deliverTo_of_worker {s : Server S P} {u : ThreadId} {w : Worker}
    (hw : s.workers[u]? = some w) (writes : List (List SocketWrite))
    (deliveries : List Delivery) :
    s.deliverTo u writes deliveries =
      { s with workers := s.workers.set u (w.deliverAll writes deliveries) } := by
  rw [deliverTo, hw]

theorem toldOn_deliverTo {s : Server S P} (h : s.Orderly) {u : ThreadId} {w : Worker}
    (hw : s.workers[u]? = some w) (writes : List (List SocketWrite))
    (deliveries : List Delivery) :
    ToldOn u deliveries s (s.deliverTo u writes deliveries) := by
  rw [deliverTo_of_worker hw]
  exact toldOn_of_delivered hw rfl (Worker.delivered_deliverAll writes
    (h.worker_distinct hw) (h.worker_resting hw) deliveries)

theorem client_accept {s : Server S P} {u : ThreadId} {w : Worker}
    (hw : s.workers[u]? = some w) (addr : Option String) (now : UInt64)
    (v : ThreadId) (t : Token) :
    (s.accept u w addr now).client v t =
      if v = u ∧ t = w.nextToken then
        some
          { connection := ((s.shared w).accept u s.config addr s.nextConnectionId now).1
            sent := []
            writable := false }
      else s.client v t := by
  have hclient := @client_set _ _ s (s.accept u w addr now) u w _ hw rfl v t
  rw [hclient]
  by_cases hv : v = u
  · subst hv
    rw [if_pos rfl, client_of_worker hw]
    by_cases ht : t = w.nextToken
    · subst ht
      rw [if_pos ⟨rfl, rfl⟩]
      exact AList.lookup_insert _
    · rw [if_neg fun hand => ht hand.2]
      exact AList.lookup_insert_ne ht
  · rw [if_neg hv, if_neg fun hand => hv hand.1]

def keptClient (r : Reading S P) : Option Client :=
  if r.shouldClose then none else some r.client

theorem client_settle {s : Server S P} {u : ThreadId} {w : Worker} {token : Token}
    {cl : Client} (hw : s.workers[u]? = some w)
    (hcl : w.connections.lookup token = some cl) (r : Reading S P) (v : ThreadId)
    (t : Token) :
    (s.settle u w token r).client v t =
      if v = u ∧ t = token then keptClient r else s.client v t := by
  unfold settle keptClient
  split
  · have hclient := @client_set _ _ s
      { s.leave u { w with connections := w.connections.erase token }
          (r.shared.close r.client.connection).2 with
        activeConnections := s.activeConnections - 1 } u w _ hw rfl v t
    rw [hclient]
    by_cases hv : v = u
    · subst hv
      rw [if_pos rfl, client_of_worker hw]
      by_cases ht : t = token
      · subst ht
        rw [if_pos ⟨rfl, rfl⟩]
        exact AList.lookup_erase t _
      · rw [if_neg fun hand => ht hand.2]
        exact AList.lookup_erase_ne ht
    · rw [if_neg hv, if_neg fun hand => hv hand.1]
  · have hclient := @client_set _ _ s
      (s.leave u { w with connections := w.connections.replace token r.client }
        r.shared) u w _ hw rfl v t
    rw [hclient]
    by_cases hv : v = u
    · subst hv
      rw [if_pos rfl, client_of_worker hw]
      simp only [lookup_replace, true_and]
      split
      · rw [hcl]
        rfl
      · rfl
    · rw [if_neg hv, if_neg fun hand => hv hand.1]

theorem client_stop {s : Server S P} {u : ThreadId} {w : Worker}
    (hw : s.workers[u]? = some w) (v : ThreadId) (t : Token) :
    (s.stop u w).client v t = if v = u then none else s.client v t := by
  rw [@client_set _ _ s (s.stop u w) u w _ hw rfl v t]
  rfl

theorem client_fail {s : Server S P} {u : ThreadId} {w : Worker}
    (hw : s.workers[u]? = some w) (v : ThreadId) (t : Token) :
    (s.fail u w).client v t = if v = u then none else s.client v t := by
  rw [@client_set _ _ s (s.fail u w) u w _ hw rfl v t]
  rfl

theorem step_turn {s s' : Server S P} {u : ThreadId} {turn : WorkerTurn}
    (hstep : s.step fuel (.turn u turn) = some s') :
    exists w, s.workers[u]? = some w ∧ w.running = true ∧
      s.takeTurn fuel u w turn = some s' := by
  cases hw : s.workers[u]? with
  | none =>
      rw [step, hw] at hstep
      cases hstep
  | some w =>
      rw [step, hw] at hstep
      rcases Option.ite_none_right_eq_some.mp hstep with ⟨hrunning, hturn⟩
      exact ⟨w, rfl, hrunning, hturn⟩

theorem ready_cases {s s' : Server S P} {u : ThreadId} {w : Worker} {token : Token}
    {readiness : Readiness} (h : s.ready fuel u w token readiness = some s') :
    (w.connections.lookup token = none ∧ s' = s) ∨
    exists cl r, w.connections.lookup token = some cl ∧
      serve fuel u (s.shared w) cl readiness = some r ∧
      s' = (s.settle u w token r).deliverTo u readiness.delivered
        r.deliveriesToMake := by
  unfold ready at h
  cases hcl : w.connections.lookup token with
  | none =>
      rw [hcl] at h
      cases h
      exact Or.inl ⟨rfl, rfl⟩
  | some cl =>
      rw [hcl] at h
      rcases Option.bind_eq_some_iff.mp h with ⟨r, hserve, hrest⟩
      cases hrest
      exact Or.inr ⟨cl, r, rfl, hserve, rfl⟩

/-!
# Every turn keeps the order
-/

/-- The tables are those of before with their connections perhaps later, and with
nothing new. -/
theorem Orderly.of_continues {s s' : Server S P} (h : s.Orderly)
    (hnext : s'.nextConnectionId = s.nextConnectionId)
    (hclient : forall (v : ThreadId) (t : Token) (cl' : Client),
      s'.client v t = some cl' -> exists cl, s.client v t = some cl ∧ cl.Continues cl')
    (hworkers : forall (v : ThreadId) (w' : Worker), s'.workers[v]? = some w' ->
      exists w, s.workers[v]? = some w ∧ w'.nextToken = w.nextToken) :
    s'.Orderly := by
  refine ⟨?_, ?_, ?_, ?_⟩
  · intro u v t t' cl cl' hcl hcl' hid
    rcases hclient u t cl hcl with ⟨cl1, hcl1, hcontinues⟩
    rcases hclient v t' cl' hcl' with ⟨cl1', hcl1', hcontinues'⟩
    rw [hcontinues.connectionId, hcontinues'.connectionId] at hid
    exact h.distinct u v t t' cl1 cl1' hcl1 hcl1' hid
  · intro u t cl hcl
    rcases hclient u t cl hcl with ⟨cl1, hcl1, hcontinues⟩
    rw [hcontinues.connectionId, hnext]
    exact h.fresh u t cl1 hcl1
  · intro u t cl hcl
    rcases hclient u t cl hcl with ⟨_, _, hcontinues⟩
    exact hcontinues.resting
  · intro u w' hw'
    rcases hworkers u w' hw' with ⟨w, hw, htoken⟩
    rw [htoken]
    refine ⟨(h.tokens u w hw).1, fun t cl' hcl' => ?_⟩
    rw [← client_of_worker hw'] at hcl'
    rcases hclient u t cl' hcl' with ⟨cl, hcl, _⟩
    rw [client_of_worker hw] at hcl
    exact (h.tokens u w hw).2 t cl hcl

theorem workers_set {s s' : Server S P} {u v : ThreadId} {w w1 w' : Worker}
    (hw : s.workers[u]? = some w) (hs' : s'.workers = s.workers.set u w1)
    (hw' : s'.workers[v]? = some w') :
    (v = u ∧ w' = w1) ∨ (v ≠ u ∧ s.workers[v]? = some w') := by
  rcases List.getElem?_eq_some_iff.mp hw with ⟨hlt, _⟩
  rw [hs'] at hw'
  by_cases hv : v = u
  · subst hv
    rw [List.getElem?_set_self hlt, Option.some.injEq] at hw'
    exact Or.inl ⟨rfl, hw'.symm⟩
  · rw [List.getElem?_set_ne (Ne.symm hv)] at hw'
    exact Or.inr ⟨hv, hw'⟩

theorem ToldOn.continues {s s' : Server S P} (h : s.Orderly) {u : ThreadId}
    {deliveries : List Delivery} (htold : ToldOn u deliveries s s') {v : ThreadId}
    {t : Token} {cl' : Client} (hcl' : s'.client v t = some cl') :
    exists cl, s.client v t = some cl ∧ cl.Continues cl' := by
  by_cases hv : v = u
  · subst hv
    cases hcl : s.client v t with
    | none =>
        rw [htold.absent t hcl] at hcl'
        cases hcl'
    | some cl =>
        rcases htold.mine t cl hcl with ⟨cl1, hcl1, hone⟩
        cases hcl'.symm.trans hcl1
        exact ⟨cl, rfl, hone.continues (h.resting v t cl hcl)⟩
  · rw [htold.others v t hv] at hcl'
    have hresting := h.resting v t cl' hcl'
    exact ⟨cl', hcl', (Client.Told.refl hresting.position).continues hresting⟩

theorem ToldOn.orderly {s s' : Server S P} (h : s.Orderly) {u : ThreadId}
    {w w' : Worker} {deliveries : List Delivery} (htold : ToldOn u deliveries s s')
    (hw : s.workers[u]? = some w) (hs' : s'.workers = s.workers.set u w')
    (htoken : w'.nextToken = w.nextToken)
    (hnext : s'.nextConnectionId = s.nextConnectionId) : s'.Orderly := by
  refine h.of_continues hnext (fun v t cl' => htold.continues h) fun v w1 hw1 => ?_
  rcases workers_set hw hs' hw1 with ⟨rfl, rfl⟩ | ⟨_, hw1⟩
  · exact ⟨w, hw, htoken⟩
  · exact ⟨w1, hw1, rfl⟩

theorem orderly_inbox {s : Server S P} (h : s.Orderly) {u : ThreadId} {w : Worker}
    (hw : s.workers[u]? = some w) (delivered : List (List SocketWrite)) :
    (s.inbox u w delivered).Orderly :=
  (toldOn_inbox h hw delivered).orderly h hw rfl
    (Worker.delivered_deliverAll delivered (h.worker_distinct hw) (h.worker_resting hw)
      (ThreadLocalPubSub.processInbox (w.manager, s.registry)).1).nextToken rfl

theorem orderly_deliverTo {s : Server S P} (h : s.Orderly) {u : ThreadId} {w : Worker}
    (hw : s.workers[u]? = some w) (writes : List (List SocketWrite))
    (deliveries : List Delivery) : (s.deliverTo u writes deliveries).Orderly := by
  have htold := toldOn_deliverTo h hw writes deliveries
  rw [deliverTo_of_worker hw] at htold ⊢
  exact htold.orderly h hw rfl (Worker.delivered_deliverAll writes
    (h.worker_distinct hw) (h.worker_resting hw) deliveries).nextToken rfl

theorem orderly_accept {s : Server S P} (h : s.Orderly) {u : ThreadId} {w : Worker}
    (hw : s.workers[u]? = some w) (addr : Option String) (now : UInt64) :
    (s.accept u w addr now).Orderly := by
  have hclient := client_accept hw addr now
  have hnew : forall (v : ThreadId) (t : Token) (cl : Client),
      (s.accept u w addr now).client v t = some cl ->
        (v = u ∧ t = w.nextToken ∧ cl.Resting ∧
          cl.connection.connectionId = s.nextConnectionId) ∨
        s.client v t = some cl := by
    intro v t cl hcl
    rw [hclient] at hcl
    split at hcl
    · rename_i hhere
      cases hcl
      exact Or.inl ⟨hhere.1, hhere.2, ⟨rfl, rfl, Nat.le_refl 0⟩, rfl⟩
    · exact Or.inr hcl
  refine ⟨?_, ?_, ?_, ?_⟩
  · intro v v' t t' cl cl' hcl hcl' hid
    rcases hnew v t cl hcl with ⟨hv, ht, _, hnext⟩ | hold <;>
      rcases hnew v' t' cl' hcl' with ⟨hv', ht', _, hnext'⟩ | hold'
    · exact ⟨hv.trans hv'.symm, ht.trans ht'.symm⟩
    · have hlt := h.fresh v' t' cl' hold'
      rw [← hid, hnext] at hlt
      exact absurd hlt (Nat.lt_irrefl _)
    · have hlt := h.fresh v t cl hold
      rw [hid, hnext'] at hlt
      exact absurd hlt (Nat.lt_irrefl _)
    · exact h.distinct v v' t t' cl cl' hold hold' hid
  · intro v t cl hcl
    change cl.connection.connectionId < s.nextConnectionId + 1
    rcases hnew v t cl hcl with ⟨_, _, _, hnext⟩ | hold
    · rw [hnext]
      exact Nat.lt_succ_self _
    · exact Nat.lt_succ_of_lt (h.fresh v t cl hold)
  · intro v t cl hcl
    rcases hnew v t cl hcl with ⟨_, _, hresting, _⟩ | hold
    · exact hresting
    · exact h.resting v t cl hold
  · intro v w' hw'
    rcases workers_set hw rfl hw' with ⟨rfl, rfl⟩ | ⟨_, hw'⟩
    · refine ⟨Nat.succ_pos _, fun t cl hcl => ?_⟩
      change 0 < t ∧ t < w.nextToken + 1
      rcases h.tokens v w hw with ⟨hpos, hbelow⟩
      by_cases ht : t = w.nextToken
      · exact ⟨ht ▸ hpos, ht ▸ Nat.lt_succ_self _⟩
      · have hcl' : w.connections.lookup t = some cl :=
          (AList.lookup_insert_ne ht).symm.trans hcl
        exact ⟨(hbelow t cl hcl').1, Nat.lt_succ_of_lt (hbelow t cl hcl').2⟩
    · exact h.tokens v w' hw'

theorem continues_of_serves {cl : Client} {r : Reading S P} (h : r.Serves cl)
    (hkept : r.shouldClose = false) : cl.Continues r.client :=
  ⟨h.connectionId, h.origin, h.output, h.resting hkept⟩

theorem orderly_settle {s : Server S P} (h : s.Orderly) {u : ThreadId} {w : Worker}
    {token : Token} {cl : Client} {r : Reading S P} (hw : s.workers[u]? = some w)
    (hcl : w.connections.lookup token = some cl) (hr : r.Serves cl) :
    (s.settle u w token r).Orderly := by
  refine h.of_continues ?_ ?_ ?_
  · unfold settle
    split <;> rfl
  · intro v t cl' hcl'
    rw [client_settle hw hcl] at hcl'
    split at hcl'
    · rename_i hhere
      rcases Option.ite_none_left_eq_some.mp hcl' with ⟨hkept, hclient⟩
      cases hclient
      rw [hhere.1, hhere.2]
      exact ⟨cl, (client_of_worker hw token).trans hcl,
        continues_of_serves hr (Bool.eq_false_iff.mpr hkept)⟩
    · have hresting := h.resting v t cl' hcl'
      exact ⟨cl', hcl', (Client.Told.refl hresting.position).continues hresting⟩
  · intro v w' hw'
    unfold settle at hw'
    split at hw' <;>
      rcases workers_set hw rfl hw' with ⟨rfl, rfl⟩ | ⟨_, hw'⟩
    · exact ⟨w, hw, rfl⟩
    · exact ⟨w', hw', rfl⟩
    · exact ⟨w, hw, rfl⟩
    · exact ⟨w', hw', rfl⟩

theorem worker_settle {s : Server S P} {u : ThreadId} {w : Worker} {token : Token}
    {r : Reading S P} (hw : s.workers[u]? = some w) :
    exists w', (s.settle u w token r).workers[u]? = some w' := by
  rcases List.getElem?_eq_some_iff.mp hw with ⟨hlt, _⟩
  unfold settle
  split <;> exact ⟨_, List.getElem?_set_self hlt⟩

theorem orderly_ended {s s' : Server S P} (h : s.Orderly) {u : ThreadId}
    {w w' : Worker} (hw : s.workers[u]? = some w)
    (hs' : s'.workers = s.workers.set u w') (hempty : w'.connections = ∅)
    (htoken : w'.nextToken = w.nextToken)
    (hnext : s'.nextConnectionId = s.nextConnectionId) : s'.Orderly := by
  refine h.of_continues hnext ?_ ?_
  · intro v t cl' hcl'
    rw [client_set hw hs', hempty] at hcl'
    split at hcl'
    · cases hcl'
    · have hresting := h.resting v t cl' hcl'
      exact ⟨cl', hcl', (Client.Told.refl hresting.position).continues hresting⟩
  · intro v w1 hw1
    rcases workers_set hw hs' hw1 with ⟨rfl, rfl⟩ | ⟨_, hw1⟩
    · exact ⟨w, hw, htoken⟩
    · exact ⟨w1, hw1, rfl⟩

theorem orderly_step {s s' : Server S P} {input : ServerInput} (h : s.Orderly)
    (hstep : s.step fuel input = some s') : s'.Orderly := by
  cases input with
  | shutdown =>
      cases hstep
      exact ⟨h.distinct, h.fresh, h.resting, h.tokens⟩
  | turn u turn =>
      rcases step_turn hstep with ⟨w, hw, _, hturn⟩
      cases turn with
      | inbox delivered =>
          cases hturn
          exact orderly_inbox h hw delivered
      | accept addr now =>
          cases hturn
          exact orderly_accept h hw addr now
      | ready token readiness =>
          rcases ready_cases hturn with ⟨_, rfl⟩ | ⟨cl, r, hcl, hserve, rfl⟩
          · exact h
          · have hresting := h.worker_resting hw token cl hcl
            have hsettled := orderly_settle h hw hcl
              (Reading.serves_serve hresting hserve)
            rcases worker_settle hw with ⟨w', hw'⟩
            exact orderly_deliverTo hsettled hw' _ _
      | stop =>
          rcases Option.ite_none_right_eq_some.mp hturn with ⟨_, heq⟩
          cases heq
          exact orderly_ended h hw rfl rfl rfl rfl
      | fail =>
          cases hturn
          exact orderly_ended h hw rfl rfl rfl rfl

/-!
# One number, one connection
-/

/-- Every connection that is there is one of those before, perhaps later, or has a
number that none of those had. -/
structure Carries (s s' : Server S P) : Prop where
  next : s.nextConnectionId <= s'.nextConnectionId
  client : forall (v : ThreadId) (t : Token) (cl' : Client), s'.client v t = some cl' ->
    (exists cl, s.client v t = some cl ∧ cl.Continues cl') ∨
      s.nextConnectionId <= cl'.connection.connectionId

theorem Orderly.carries {s : Server S P} (h : s.Orderly) : Carries s s := by
  refine ⟨Nat.le_refl _, fun v t cl hcl => Or.inl ⟨cl, hcl, ?_⟩⟩
  have hresting := h.resting v t cl hcl
  exact (Client.Told.refl hresting.position).continues hresting

theorem Carries.trans {s s1 s2 : Server S P} (h : Carries s s1) (h' : Carries s1 s2) :
    Carries s s2 := by
  refine ⟨h.next.trans h'.next, fun v t cl2 hcl2 => ?_⟩
  rcases h'.client v t cl2 hcl2 with ⟨cl1, hcl1, hcontinues⟩ | hnew
  · rcases h.client v t cl1 hcl1 with ⟨cl, hcl, hcontinues'⟩ | hnew
    · exact Or.inl ⟨cl, hcl, hcontinues'.trans hcontinues⟩
    · exact Or.inr (hcontinues.connectionId ▸ hnew)
  · exact Or.inr (h.next.trans hnew)

theorem ToldOn.carries {s s' : Server S P} (h : s.Orderly) {u : ThreadId}
    {deliveries : List Delivery} (htold : ToldOn u deliveries s s')
    (hnext : s'.nextConnectionId = s.nextConnectionId) : Carries s s' :=
  ⟨hnext.ge, fun _ _ _ hcl' => Or.inl (htold.continues h hcl')⟩

theorem carries_settle {s : Server S P} (h : s.Orderly) {u : ThreadId} {w : Worker}
    {token : Token} {cl : Client} {r : Reading S P} (hw : s.workers[u]? = some w)
    (hcl : w.connections.lookup token = some cl) (hr : r.Serves cl) :
    Carries s (s.settle u w token r) := by
  have hnext : (s.settle u w token r).nextConnectionId = s.nextConnectionId := by
    unfold settle
    split <;> rfl
  refine ⟨hnext.ge, fun v t cl' hcl' => ?_⟩
  rw [client_settle hw hcl] at hcl'
  split at hcl'
  · rename_i hhere
    rcases Option.ite_none_left_eq_some.mp hcl' with ⟨hkept, hclient⟩
    cases hclient
    rw [hhere.1, hhere.2]
    exact Or.inl ⟨cl, (client_of_worker hw token).trans hcl,
      continues_of_serves hr (Bool.eq_false_iff.mpr hkept)⟩
  · exact h.carries.client v t cl' hcl'

theorem carries_step {s s' : Server S P} {input : ServerInput} (h : s.Orderly)
    (hstep : s.step fuel input = some s') : Carries s s' := by
  cases input with
  | shutdown =>
      cases hstep
      exact ⟨Nat.le_refl _, h.carries.client⟩
  | turn u turn =>
      rcases step_turn hstep with ⟨w, hw, _, hturn⟩
      cases turn with
      | inbox delivered =>
          cases hturn
          exact (toldOn_inbox h hw delivered).carries h rfl
      | accept addr now =>
          cases hturn
          refine ⟨Nat.le_succ _, fun v t cl' hcl' => ?_⟩
          rw [client_accept hw] at hcl'
          split at hcl'
          · cases hcl'
            exact Or.inr (Nat.le_refl _)
          · exact h.carries.client v t cl' hcl'
      | ready token readiness =>
          rcases ready_cases hturn with ⟨_, rfl⟩ | ⟨cl, r, hcl, hserve, rfl⟩
          · exact h.carries
          · have hr := Reading.serves_serve (h.worker_resting hw token cl hcl) hserve
            rcases @worker_settle _ _ s u w token r hw with ⟨w', hw'⟩
            have hsettled := orderly_settle h hw hcl hr
            refine (carries_settle h hw hcl hr).trans
              ((toldOn_deliverTo hsettled hw' _ _).carries hsettled ?_)
            rw [deliverTo, hw']
      | stop =>
          rcases Option.ite_none_right_eq_some.mp hturn with ⟨_, heq⟩
          cases heq
          refine ⟨Nat.le_refl _, fun v t cl' hcl' => ?_⟩
          rw [client_stop hw] at hcl'
          exact h.carries.client v t cl' (Option.ite_none_left_eq_some.mp hcl').2
      | fail =>
          cases hturn
          refine ⟨Nat.le_refl _, fun v t cl' hcl' => ?_⟩
          rw [client_fail hw] at hcl'
          exact h.carries.client v t cl' (Option.ite_none_left_eq_some.mp hcl').2

theorem orderly_run {inputs : List ServerInput} {s s' : Server S P} (h : s.Orderly)
    (hrun : s.run fuel inputs = some s') : s'.Orderly :=
  invariant_runInputs (P := fun _ => True)
    (fun _ _ _ _ hs hstep => orderly_step hs hstep) (fun _ _ => trivial) h hrun

theorem carries_run {inputs : List ServerInput} {s s' : Server S P} (h : s.Orderly)
    (hrun : s.run fuel inputs = some s') : Carries s s' := by
  have hboth : s'.Orderly ∧ Carries s s' :=
    @invariant_runInputs _ _ (step fuel) (fun s1 => s1.Orderly ∧ Carries s s1)
      (fun _ => True)
      (fun s1 _ s2 _ hs1 hstep =>
        ⟨orderly_step hs1.1 hstep, hs1.2.trans (carries_step hs1.1 hstep)⟩)
      inputs (fun _ _ => trivial) _ _ ⟨h, h.carries⟩ hrun
  exact hboth.2

/-!
# Numbers
-/

theorem next_step {s s' : Server S P} {input : ServerInput}
    (hstep : s.step fuel input = some s') :
    s'.nextConnectionId = s.nextConnectionId ∨
      exists u addr now, input = .turn u (.accept addr now) ∧
        s'.nextConnectionId = s.nextConnectionId + 1 := by
  cases input with
  | shutdown =>
      cases hstep
      exact Or.inl rfl
  | turn u turn =>
      rcases step_turn hstep with ⟨w, hw, _, hturn⟩
      cases turn with
      | inbox delivered =>
          cases hturn
          exact Or.inl rfl
      | accept addr now =>
          cases hturn
          exact Or.inr ⟨u, addr, now, rfl, rfl⟩
      | ready token readiness =>
          rcases ready_cases hturn with ⟨_, rfl⟩ | ⟨cl, r, _, _, rfl⟩
          · exact Or.inl rfl
          · refine Or.inl ?_
            unfold deliverTo settle
            split <;> split <;> rfl
      | stop =>
          rcases Option.ite_none_right_eq_some.mp hturn with ⟨_, heq⟩
          cases heq
          exact Or.inl rfl
      | fail =>
          cases hturn
          exact Or.inl rfl

/-- A connection that is there after a turn was there before, or the turn has
accepted it. -/
theorem accepted_step {s s' : Server S P} {input : ServerInput} (h : s.Orderly)
    (hstep : s.step fuel input = some s') {v : ThreadId} {t : Token} {cl' : Client}
    (hcl' : s'.client v t = some cl') :
    (exists cl, s.client v t = some cl ∧ cl.Continues cl') ∨
      exists addr now, input = .turn v (.accept addr now) ∧
        cl'.connection.connectionId = s.nextConnectionId := by
  rcases (carries_step h hstep).client v t cl' hcl' with hold | hnew
  · exact Or.inl hold
  · have hfresh := (orderly_step h hstep).fresh v t cl' hcl'
    rcases next_step hstep with hsame | ⟨u, addr, now, rfl, _⟩
    · rw [hsame] at hfresh
      exact absurd hfresh (Nat.not_lt.mpr hnew)
    · rcases step_turn hstep with ⟨w, hw, _, hturn⟩
      cases hturn
      rw [client_accept hw] at hcl'
      split at hcl'
      · rename_i hhere
        cases hcl'
        rw [hhere.1]
        exact Or.inr ⟨addr, now, rfl, rfl⟩
      · exact absurd (h.fresh v t cl' hcl') (Nat.not_lt.mpr hnew)

/-- One of the inputs of a run is an accept on this worker with this number. -/
def HandsOut (fuel : Nat) (s : Server S P) (inputs : List ServerInput) (v : ThreadId)
    (number : Nat) : Prop :=
  exists front addr now back s1,
    inputs = front ++ .turn v (.accept addr now) :: back ∧
    s.run fuel front = some s1 ∧ s1.nextConnectionId = number

theorem HandsOut.cons {s s1 : Server S P} {input : ServerInput}
    {inputs : List ServerInput} {v : ThreadId} {number : Nat}
    (hstep : s.step fuel input = some s1) (h : HandsOut fuel s1 inputs v number) :
    HandsOut fuel s (input :: inputs) v number := by
  rcases h with ⟨front, addr, now, back, s2, rfl, hfront, hnumber⟩
  exact ⟨input :: front, addr, now, back, s2, rfl,
    runInputs_cons_eq_some.mpr ⟨s1, hstep, hfront⟩, hnumber⟩

theorem HandsOut.lt {inputs : List ServerInput} {s s' : Server S P} (h : s.Orderly)
    (hrun : s.run fuel inputs = some s') {v : ThreadId} {number : Nat}
    (hhands : HandsOut fuel s inputs v number) : number < s'.nextConnectionId := by
  rcases hhands with ⟨front, addr, now, back, s1, rfl, hfront, rfl⟩
  rcases runInputs_append_eq_some.mp hrun with ⟨s1', hfront', hrest⟩
  cases hfront.symm.trans hfront'
  rcases runInputs_cons_eq_some.mp hrest with ⟨s2, hstep, hback⟩
  have horderly := orderly_run h hfront
  have hlater := (carries_run (orderly_step horderly hstep) hback).next
  rcases step_turn hstep with ⟨w, _, _, hturn⟩
  cases hturn
  exact Nat.lt_of_lt_of_le (Nat.lt_succ_self _) hlater

/-- Every connection that is there after a run was there before it, or an input of
the run has accepted it. -/
theorem accepted_run {inputs : List ServerInput} {s s' : Server S P} (h : s.Orderly)
    (hrun : s.run fuel inputs = some s') {v : ThreadId} {t : Token} {cl' : Client}
    (hcl' : s'.client v t = some cl') :
    (exists cl, s.client v t = some cl ∧ cl.Continues cl') ∨
      HandsOut fuel s inputs v cl'.connection.connectionId := by
  induction inputs generalizing s with
  | nil =>
      cases hrun
      exact Or.inl ((h.carries.client v t cl' hcl').resolve_right
        (Nat.not_le.mpr (h.fresh v t cl' hcl')))
  | cons input inputs ih =>
      rcases runInputs_cons_eq_some.mp hrun with ⟨s1, hstep, hrest⟩
      rcases ih (orderly_step h hstep) hrest with ⟨cl1, hcl1, hcontinues⟩ | hhands
      · rcases accepted_step h hstep hcl1 with
          ⟨cl, hcl, hcontinues'⟩ | ⟨addr, now, rfl, hnumber⟩
        · exact Or.inl ⟨cl, hcl, hcontinues'.trans hcontinues⟩
        · exact Or.inr ⟨[], addr, now, inputs, s, rfl, rfl,
            hnumber.symm.trans hcontinues.connectionId.symm⟩
      · exact Or.inr (hhands.cons hstep)

/-- However the turns of the workers are mixed, whatever the sockets answer, and
whichever connections come and go: a connection that is open either was open before,
in the same place and nowhere else, and what its socket has been given or is still to
be given has only grown, or it has been accepted meanwhile, under a number that no
connection before it has had. -/
theorem connections_persist {numThreads : Nat} {config : Config} {world : World S P}
    {before after : List ServerInput} {s1 s2 : Server S P}
    (hbefore : (new numThreads config world).run fuel before = some s1)
    (hafter : s1.run fuel after = some s2) {v : ThreadId} {t : Token} {cl' : Client}
    (hcl' : s2.client v t = some cl') :
    (exists cl, s1.client v t = some cl ∧
      cl'.connection.connectionId = cl.connection.connectionId ∧
      cl'.connection.origin = cl.connection.origin ∧ cl.output <+: cl'.output ∧
      forall u t1 cl1, s1.client u t1 = some cl1 ->
        cl1.connection.connectionId = cl'.connection.connectionId -> u = v ∧ t1 = t) ∨
    (HandsOut fuel s1 after v cl'.connection.connectionId ∧
      (forall u, ¬ HandsOut fuel (new numThreads config world) before u
        cl'.connection.connectionId) ∧
      forall u t1 cl1, s1.client u t1 = some cl1 ->
        cl1.connection.connectionId ≠ cl'.connection.connectionId) := by
  have hnew := orderly_new numThreads config world
  have horderly := orderly_run hnew hbefore
  rcases accepted_run horderly hafter hcl' with ⟨cl, hcl, hcontinues⟩ | hhands
  · refine Or.inl ⟨cl, hcl, hcontinues.connectionId, hcontinues.origin,
      hcontinues.output, fun u t1 cl1 hcl1 hid => ?_⟩
    exact horderly.distinct u v t1 t cl1 cl hcl1 hcl
      (hid.trans hcontinues.connectionId)
  · have hfresh : s1.nextConnectionId <= cl'.connection.connectionId := by
      rcases hhands with ⟨front, addr, now, back, s, _, hfront, hnumber⟩
      rw [← hnumber]
      exact (carries_run horderly hfront).next
    refine Or.inr ⟨hhands, fun u hbefore' => ?_, fun u t1 cl1 hcl1 hid => ?_⟩
    · exact absurd (hbefore'.lt hnew hbefore) (Nat.not_lt.mpr hfresh)
    · rw [← hid] at hfresh
      exact absurd (horderly.fresh u t1 cl1 hcl1) (Nat.not_lt.mpr hfresh)

def quiet : Server mapStore idlePlatform :=
  new 1 { requirepass := none } Connection.freshShared.world

/-- The first connection has sent a `PING`, and its socket takes three bytes. -/
def pinged : ServerInput :=
  .turn 0 (.ready 1
    { writable := none
      readable := some [(.ok (Connection.requests [["PING"]]), [.ok 3])]
      delivered := [] })

theorem connections_persist_second :
    exists s1 s2 cl cl',
      quiet.run 0 [.turn 0 (.accept none 5)] = some s1 ∧
      s1.run 0 [pinged, .turn 0 (.accept none 6)] = some s2 ∧
      s2.client 0 1 = some cl ∧ s2.client 0 2 = some cl' ∧
      ((exists cl0, s1.client 0 1 = some cl0 ∧ cl0.output <+: cl.output) ∧
        HandsOut 0 s1 [pinged, .turn 0 (.accept none 6)] 0
          cl'.connection.connectionId) := by
  have hrun : exists s1 s2 cl cl' cl0,
      quiet.run 0 [.turn 0 (.accept none 5)] = some s1 ∧
      s1.run 0 [pinged, .turn 0 (.accept none 6)] = some s2 ∧
      s2.client 0 1 = some cl ∧ s2.client 0 2 = some cl' ∧
      s1.client 0 1 = some cl0 ∧ s1.client 0 2 = none ∧
      cl0.connection.connectionId = cl.connection.connectionId :=
    ⟨_, _, _, _, _, rfl, rfl, rfl, rfl, rfl, rfl, rfl⟩
  rcases hrun with ⟨s1, s2, cl, cl', cl0, hbefore, hafter, hcl, hcl', hcl0, hnone, hid⟩
  refine ⟨s1, s2, cl, cl', hbefore, hafter, hcl, hcl', ?_, ?_⟩
  · rcases connections_persist hbefore hafter hcl with
      ⟨cl1, hcl1, _, _, houtput, _⟩ | ⟨_, _, hother⟩
    · exact ⟨cl1, hcl1, houtput⟩
    · exact absurd hid (hother 0 1 cl0 hcl0)
  · rcases connections_persist hbefore hafter hcl' with ⟨cl1, hcl1, _⟩ | ⟨hhands, _⟩
    · rw [hnone] at hcl1
      cases hcl1
    · exact hhands

end Server

end FeoxServer
