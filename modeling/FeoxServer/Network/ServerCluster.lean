import FeoxServer.Network.OpenSubscriptions
import FeoxServer.Pubsub.Agreement

/-!
# The cluster of a server

The managers of the workers with the registry are a cluster, and every turn is the work
of operations on it.  What holds of clusters holds of servers, and the subscriptions
are those of the connections that are open.
-/

namespace FeoxServer

open Foundation

namespace Cluster

theorem foldl_apply {c : Cluster} {u : ThreadId} {m : ThreadLocalPubSub}
    (hm : c.managers[u]? = some m) (ops : List ClusterOp) :
    (ops.map fun op => (u, op)).foldl apply c =
      { registry := (ops.foldl (fun st op => op.perform st) (m, c.registry)).2
        managers := c.managers.set u
          (ops.foldl (fun st op => op.perform st) (m, c.registry)).1 } := by
  induction ops generalizing c m with
  | nil =>
      rcases List.getElem?_eq_some_iff.mp hm with ⟨hlt, rfl⟩
      rw [List.foldl_nil, List.set_getElem_self]
      rfl
  | cons op ops ih =>
      rcases List.getElem?_eq_some_iff.mp hm with ⟨hlt, _⟩
      have happly : c.apply (u, op) =
          { registry := (op.perform (m, c.registry)).2
            managers := c.managers.set u (op.perform (m, c.registry)).1 } := by
        unfold apply
        rw [hm]
      rw [List.map_cons, List.foldl_cons, happly, List.foldl_cons]
      have hrest := @ih { registry := (op.perform (m, c.registry)).2
                          managers := c.managers.set u (op.perform (m, c.registry)).1 }
        (op.perform (m, c.registry)).1 (List.getElem?_set_self hlt)
      rw [hrest]
      simp only [List.set_set]

/-- Operations lead from one cluster to the other, on every thread for some of the
connections. -/
def Worked (ids : ThreadId -> Set ConnectionId) (c c' : Cluster) : Prop :=
  exists steps : List (ThreadId × ClusterOp), c' = steps.foldl apply c ∧
    forall step, step ∈ steps -> forall connId, step.2.connection = some connId ->
      connId ∈ ids step.1

theorem Worked.refl (ids : ThreadId -> Set ConnectionId) (c : Cluster) :
    Worked ids c c :=
  ⟨[], rfl, by simp⟩

end Cluster

namespace Server

variable {S : FeoxStore} {P : Platform} {fuel : Nat}

def cluster (s : Server S P) : Cluster where
  registry := s.registry
  managers := s.workers.map fun w => w.manager

theorem cluster_new (numThreads : Nat) (config : Config) (world : World S P) :
    (new numThreads config world).cluster = .new numThreads := by
  unfold cluster new Cluster.new
  rw [List.map_map]
  rfl

theorem cluster_managers {s : Server S P} {u : ThreadId} {w : Worker}
    (hw : s.workers[u]? = some w) : s.cluster.managers[u]? = some w.manager := by
  change (s.workers.map fun w => w.manager)[u]? = some w.manager
  rw [List.getElem?_map, hw]
  rfl

theorem worker_of_managers {s : Server S P} {u : ThreadId} {m : ThreadLocalPubSub}
    (hm : s.cluster.managers[u]? = some m) :
    exists w, s.workers[u]? = some w ∧ w.manager = m := by
  change (s.workers.map fun w => w.manager)[u]? = some m at hm
  rw [List.getElem?_map, Option.map_eq_some_iff] at hm
  exact hm

theorem cluster_worked {s s' : Server S P} {u : ThreadId} {w w' : Worker}
    (hw : s.workers[u]? = some w) (hs' : s'.workers = s.workers.set u w')
    {mine : Set ConnectionId} {ids : ThreadId -> Set ConnectionId}
    (hworked : Worked mine (w.manager, s.registry) (w'.manager, s'.registry))
    (hmine : mine ⊆ ids u) : s.cluster.Worked ids s'.cluster := by
  rcases hworked with ⟨ops, heq, hops⟩
  refine ⟨ops.map fun op => (u, op), ?_, ?_⟩
  · rw [Cluster.foldl_apply (cluster_managers hw)]
    unfold cluster
    rw [hs', List.map_set, ← heq]
  · intro step hstep connId hconn
    rcases List.mem_map.mp hstep with ⟨op, hop, rfl⟩
    exact hmine (hops op hop connId hconn)

theorem cluster_deliverTo (s : Server S P) (u : ThreadId)
    (writes : List (List SocketWrite)) (deliveries : List Delivery) :
    (s.deliverTo u writes deliveries).cluster = s.cluster := by
  have hmanager : forall (writes : List (List SocketWrite)) (w : Worker),
      (w.deliverAll writes deliveries).manager = w.manager := by
    induction deliveries with
    | nil => exact fun _ _ => rfl
    | cons d deliveries ih =>
        intro writes w
        refine (ih _ _).trans ?_
        unfold Worker.deliver
        split
        · rfl
        · split <;> rfl
  cases hw : s.workers[u]? with
  | none =>
      rw [deliverTo, hw]
  | some w =>
      rw [deliverTo_of_worker hw]
      unfold cluster
      rw [List.map_set, hmanager]
      have hsame := List.getElem?_eq_some_iff.mp (cluster_managers hw)
      rcases hsame with ⟨hlt, hget⟩
      have hself := List.set_getElem_self hlt
      rw [hget] at hself
      exact congrArg (Cluster.mk s.registry) hself

def openIds (s : Server S P) (u : ThreadId) : Set ConnectionId :=
  {connId | exists (t : Token) (cl : Client), s.client u t = some cl ∧
    cl.connection.connectionId = connId}

theorem cluster_settle {s : Server S P} {u : ThreadId} {w : Worker} {token : Token}
    {cl : Client} (hw : s.workers[u]? = some w)
    (hcl : w.connections.lookup token = some cl) {r : Reading S P}
    (hr : r.Works (w.manager, s.registry) cl) :
    s.cluster.Worked s.openIds (s.settle u w token r).cluster := by
  have hmine : {cl.connection.connectionId} ⊆ s.openIds u := by
    rintro connId rfl
    exact ⟨token, cl, (client_of_worker hw token).trans hcl, rfl⟩
  unfold settle
  split
  · have hclosed := worked_close r.shared r.client.connection
    rw [hr.connectionId] at hclosed
    exact @cluster_worked _ _ s _ u w _ hw rfl _ _ (hr.worked.trans hclosed) hmine
  · exact @cluster_worked _ _ s _ u w _ hw rfl _ _ hr.worked hmine

/-- Every turn is the work of operations of its thread, for connections that the
thread has at the beginning of the turn. -/
theorem cluster_step {failed : Set ThreadId} {s s' : Server S P} {input : ServerInput}
    (horderly : s.Orderly) (h : s.Attended failed)
    (hstep : s.step fuel input = some s') :
    s.cluster.Worked s.openIds s'.cluster := by
  cases input with
  | shutdown =>
      cases hstep
      exact .refl _ _
  | turn u turn =>
      rcases step_turn hstep with ⟨w, hw, _, hturn⟩
      cases turn with
      | inbox delivered =>
          cases hturn
          have hworked := @Worked.single ∅ (w.manager, s.registry) .processInbox
            (by simp [ClusterOp.connection])
          exact @cluster_worked _ _ s (s.inbox u w delivered) u w _ hw rfl _ _ hworked
            (Set.empty_subset _)
      | accept addr now =>
          cases hturn
          exact @cluster_worked _ _ s (s.accept u w addr now) u w _ hw rfl ∅ _
            (.refl _ _) (Set.empty_subset _)
      | ready token readiness =>
          rcases ready_cases hturn with ⟨_, rfl⟩ | ⟨cl, r, hcl, hserve, rfl⟩
          · exact .refl _ _
          · have hattends := h u w hw
            have hr : r.Works (w.manager, s.registry) cl :=
              @Reading.works_serve _ _ fuel u (s.shared w) hattends.thread cl readiness
                r (horderly.worker_resting hw token cl hcl)
                (hattends.counted token cl hcl) (hattends.flagged token cl hcl) hserve
            rw [cluster_deliverTo]
            exact cluster_settle hw hcl hr
      | stop =>
          rcases Option.ite_none_right_eq_some.mp hturn with ⟨_, heq⟩
          cases heq
          rcases @dropped_closeAll _ _ w.connections.entries (s.shared w)
            (h u w hw).inOrder with ⟨hworked, _⟩
          refine @cluster_worked _ _ s (s.stop u w) u w _ hw rfl _ _ hworked ?_
          rintro connId ⟨e, he, hid⟩
          exact ⟨e.1, e.2, (client_of_worker hw e.1).trans (AList.mem_lookup_iff.mpr he),
            hid⟩
      | fail =>
          cases hturn
          exact @cluster_worked _ _ s (s.fail u w) u w _ hw rfl ∅ _ (.refl _ _)
            (Set.empty_subset _)

/-!
# Runs
-/

/-- The cluster of a server has come about by operations on a new one, and a
connection has all of its operations on the thread that it belongs to. -/
structure Refines (numThreads : Nat) (steps : List (ThreadId × ClusterOp))
    (owner : ConnectionId -> ThreadId) (s : Server S P) : Prop where
  cluster : s.cluster = Cluster.after numThreads steps
  owned : Cluster.Owned owner steps
  known : forall step, step ∈ steps -> forall connId,
    step.2.connection = some connId -> connId < s.nextConnectionId
  owner : forall (u : ThreadId) (t : Token) (cl : Client), s.client u t = some cl ->
    owner cl.connection.connectionId = u

theorem refines_new (numThreads : Nat) (config : Config) (world : World S P) :
    Refines numThreads [] (fun _ => 0) (new numThreads config world) where
  cluster := cluster_new numThreads config world
  owned step hstep := by cases hstep
  known step hstep := by cases hstep
  owner u t cl hcl := by
    rw [client_new] at hcl
    cases hcl

theorem refines_step {failed : Set ThreadId} {numThreads : Nat}
    {steps : List (ThreadId × ClusterOp)} {owner : ConnectionId -> ThreadId}
    {s s' : Server S P} {input : ServerInput} (horderly : s.Orderly)
    (hattended : s.Attended failed) (h : Refines numThreads steps owner s)
    (hstep : s.step fuel input = some s') :
    exists steps' owner', Refines numThreads steps' owner' s' := by
  rcases cluster_step horderly hattended hstep with ⟨more, hmore, hids⟩
  have hnext := (carries_step horderly hstep).next
  -- The connections of the new operations are open, so they are old.
  have hopen : forall step, step ∈ more -> forall connId,
      step.2.connection = some connId ->
        owner connId = step.1 ∧ connId < s.nextConnectionId := by
    intro step hmem connId hconn
    rcases hids step hmem connId hconn with ⟨t, cl, hcl, rfl⟩
    exact ⟨h.owner step.1 t cl hcl, horderly.fresh step.1 t cl hcl⟩
  have hcarries := carries_step horderly hstep
  have horderly' := orderly_step horderly hstep
  -- Whatever is new belongs to the thread on which it is found.
  have howner : forall connId, exists u,
      (connId < s.nextConnectionId -> u = owner connId) ∧
      (s.nextConnectionId <= connId -> forall (v : ThreadId) (t : Token) (cl : Client),
        s'.client v t = some cl -> cl.connection.connectionId = connId -> v = u) := by
    intro connId
    by_cases hold : connId < s.nextConnectionId
    · exact ⟨owner connId, fun _ => rfl, fun hle => absurd hold (Nat.not_lt.mpr hle)⟩
    · by_cases hthere : exists (u : ThreadId) (t : Token) (cl : Client),
          s'.client u t = some cl ∧ cl.connection.connectionId = connId
      · rcases hthere with ⟨u, t, cl, hcl, hid⟩
        refine ⟨u, fun hlt => absurd hlt hold, fun _ v t' cl' hcl' hid' => ?_⟩
        exact (horderly'.distinct v u t' t cl' cl hcl' hcl (hid'.trans hid.symm)).1
      · refine ⟨0, fun hlt => absurd hlt hold, fun _ v t' cl' hcl' hid' => ?_⟩
        exact absurd ⟨v, t', cl', hcl', hid'⟩ hthere
  choose owner' hold hnew using howner
  have hsame : forall step, step ∈ steps ++ more -> forall connId,
      step.2.connection = some connId ->
        owner connId = step.1 ∧ connId < s.nextConnectionId := by
    intro step hmem connId hconn
    rcases List.mem_append.mp hmem with hmem | hmem
    · exact ⟨h.owned step hmem connId hconn, h.known step hmem connId hconn⟩
    · exact hopen step hmem connId hconn
  refine ⟨steps ++ more, owner', ?_, ?_, ?_, ?_⟩
  · rw [hmore, h.cluster]
    exact (List.foldl_append ..).symm
  · intro step hmem connId hconn
    rcases hsame step hmem connId hconn with ⟨hthread, hlt⟩
    rw [hold connId hlt, hthread]
  · intro step hmem connId hconn
    exact (hsame step hmem connId hconn).2.trans_le hcarries.next
  · intro u t cl' hcl'
    rcases hcarries.client u t cl' hcl' with ⟨cl, hcl, hcontinues⟩ | hfresh
    · have hlt := horderly.fresh u t cl hcl
      rw [hcontinues.connectionId, hold _ hlt]
      exact h.owner u t cl hcl
    · exact (hnew _ hfresh u t cl' hcl' rfl).symm

theorem refines_run {numThreads : Nat} {config : Config} {world : World S P}
    {inputs : List ServerInput} {s : Server S P}
    (hrun : (new numThreads config world).run fuel inputs = some s) :
    exists steps owner, Refines numThreads steps owner s := by
  have hall : s.Orderly ∧ s.Attended {u | ServerInput.turn u .fail ∈ inputs} ∧
      exists steps owner, Refines numThreads steps owner s := by
    refine @invariant_runInputs _ _ (step fuel)
      (fun s1 => s1.Orderly ∧ s1.Attended {u | ServerInput.turn u .fail ∈ inputs} ∧
        exists steps owner, Refines numThreads steps owner s1)
      (fun input => input ∈ inputs) ?_ inputs (fun _ hinput => hinput) _ _
      ⟨orderly_new numThreads config world, attended_new _ numThreads config world,
        _, _, refines_new numThreads config world⟩ hrun
    rintro s1 input s2 hinput ⟨horderly, hattended, steps, owner, hrefines⟩ hstep
    refine ⟨orderly_step horderly hstep, attended_step ?_ horderly hattended hstep,
      refines_step horderly hattended hrefines hstep⟩
    rintro u rfl
    exact hinput
  exact hall.2.2

/-- Whatever the workers have done, the tables and the registry are those of a cluster
whose threads have each worked for connections of their own. -/
theorem service_is_cluster {numThreads : Nat} {config : Config} {world : World S P}
    {inputs : List ServerInput} {s : Server S P}
    (hrun : (new numThreads config world).run fuel inputs = some s) :
    exists (steps : List (ThreadId × ClusterOp)) (owner : ConnectionId -> ThreadId),
      s.cluster = Cluster.after numThreads steps ∧ Cluster.Owned owner steps ∧
      forall (u : ThreadId) (t : Token) (cl : Client), s.client u t = some cl ->
        owner cl.connection.connectionId = u := by
  rcases refines_run hrun with ⟨steps, owner, hrefines⟩
  exact ⟨steps, owner, hrefines.cluster, hrefines.owned, hrefines.owner⟩

def subscribed : ServerInput :=
  .turn 0 (.ready 1
    { writable := none
      readable := some [(.ok (Connection.requests [["SUBSCRIBE", "c"]]), [])]
      delivered := [] })

theorem run_subscribed :
    exists s cl, quiet.run 0 [.turn 0 (.accept none 5), subscribed] = some s ∧
      s.client 0 1 = some cl ∧ cl.connection.isInPubsubMode = true := by
  have heval : ((quiet.run 0 [.turn 0 (.accept none 5), subscribed]).bind
      fun s => s.client 0 1).map (fun cl => cl.connection.isInPubsubMode) =
        some true := by
    decide +kernel
  rcases Option.map_eq_some_iff.mp heval with ⟨cl, hclient, hmode⟩
  rcases Option.bind_eq_some_iff.mp hclient with ⟨s, hrun, hcl⟩
  exact ⟨s, cl, hrun, hcl, hmode⟩

theorem service_is_cluster_subscribed :
    exists (s : Server mapStore idlePlatform) (steps : List (ThreadId × ClusterOp))
      (owner : ConnectionId -> ThreadId),
      quiet.run 0 [.turn 0 (.accept none 5), subscribed] = some s ∧
      s.cluster = Cluster.after 1 steps ∧ Cluster.Owned owner steps := by
  rcases run_subscribed with ⟨s, _, hrun, _⟩
  rcases @service_is_cluster mapStore idlePlatform 0 1 { requirepass := none }
    Connection.freshShared.world [.turn 0 (.accept none 5), subscribed] s hrun with
    ⟨steps, owner, hcluster, howned, _⟩
  exact ⟨s, steps, owner, hrun, hcluster, howned⟩

/-!
# Who is subscribed
-/

/-- The open connections that have subscribed to a name. -/
def subscribersOf (s : Server S P) (kind : SubscriptionType) (name : Bytes) :
    Set ConnectionId :=
  {connId | exists (u : ThreadId) (w : Worker) (t : Token) (cl : Client),
    s.workers[u]? = some w ∧ w.connections.lookup t = some cl ∧
      cl.connection.connectionId = connId ∧
      connId ∈ (w.manager.table kind).subscribers name}

/-- In the tables are the subscriptions of open connections, and every open connection
has their number and is in subscriber mode by it. -/
theorem subscriptions_open {numThreads : Nat} {config : Config} {world : World S P}
    {inputs : List ServerInput} {s : Server S P}
    (hrun : (new numThreads config world).run fuel inputs = some s) {u : ThreadId}
    {w : Worker} (hw : s.workers[u]? = some w) :
    (forall (t : Token) (cl : Client), w.connections.lookup t = some cl ->
      let count := w.manager.subscriptions.total cl.connection.connectionId
      cl.connection.subscriptionCount = count ∧
      (cl.connection.isInPubsubMode = true <-> 0 < count) ∧
      cl.connection.flags.count "pubsub" = if 0 < count then 1 else 0) ∧
    (ServerInput.turn u .fail ∉ inputs ->
      forall (kind : SubscriptionType) (name : Bytes) (connId : ConnectionId),
        connId ∈ (w.manager.table kind).subscribers name ->
          exists (t : Token) (cl : Client), w.connections.lookup t = some cl ∧
            cl.connection.connectionId = connId) := by
  have hattends := attended_run hrun u w hw
  refine ⟨fun t cl hcl => ?_, fun hkept kind name connId hmem => ?_⟩
  · have hcount := hattends.counted t cl hcl
    have hflags := hattends.flagged t cl hcl
    rw [hattends.inOrder.count] at hcount
    unfold Connection.Flagged at hflags
    rw [hcount] at hflags
    refine ⟨hcount, ?_, hflags⟩
    rw [Connection.isInPubsubMode, decide_eq_true_eq, hcount]
  · exact hattends.here (Or.inr hkept) kind connId name hmem

theorem subscriptions_open_subscribed :
    exists s w cl, quiet.run 0 [.turn 0 (.accept none 5), subscribed] = some s ∧
      s.workers[0]? = some w ∧ w.connections.lookup 1 = some cl ∧
      0 < w.manager.subscriptions.total cl.connection.connectionId := by
  rcases run_subscribed with ⟨s, cl, hrun, hcl, hmode⟩
  rcases Option.bind_eq_some_iff.mp hcl with ⟨w, hw, hlookup⟩
  have hopen := @subscriptions_open mapStore idlePlatform 0 1 { requirepass := none }
    Connection.freshShared.world [.turn 0 (.accept none 5), subscribed] s hrun 0 w hw
  exact ⟨s, w, cl, hrun, hw, hlookup, (hopen.1 1 cl hlookup).2.1.mp hmode⟩

theorem subscribersOf_cluster {s : Server S P} {failed : Set ThreadId}
    (h : s.Attended failed) (hnone : failed = ∅) (kind : SubscriptionType)
    (name : Bytes) : s.cluster.subscribersOf kind name = s.subscribersOf kind name := by
  ext connId
  constructor
  · rintro ⟨u, m, hm, hmem⟩
    rcases worker_of_managers hm with ⟨w, hw, rfl⟩
    have hkept : u ∉ failed := by
      rw [hnone]
      exact Set.notMem_empty u
    rcases (h u w hw).here (Or.inr hkept) kind connId name hmem with ⟨t, cl, hcl, hid⟩
    exact ⟨u, w, t, cl, hw, hcl, hid, hmem⟩
  · rintro ⟨u, w, t, cl, hw, _, _, hmem⟩
    exact ⟨u, w.manager, cluster_managers hw, hmem⟩

/-- As long as no worker fails, a thread is registered for a name if and only if one of
its open connections has subscribed to it, and `PUBSUB NUMSUB` counts the open
connections that have. -/
theorem registry_counts_open {numThreads : Nat} {config : Config} {world : World S P}
    {inputs : List ServerInput} {s : Server S P}
    (hrun : (new numThreads config world).run fuel inputs = some s)
    (hfails : forall u, ServerInput.turn u .fail ∉ inputs) :
    (forall (kind : SubscriptionType) (name : Bytes) (u : ThreadId),
      u ∈ s.registry.interested kind name <->
        exists (t : Token) (cl : Client), s.client u t = some cl ∧
          cl.connection.connectionId ∈ s.subscribersOf kind name) ∧
    forall channels, s.registry.numSubReply channels =
      .array (some (channels.flatMap fun channel =>
        [.bulkString (some channel),
          .integer (Int64.ofNat (s.subscribersOf .channel channel).ncard)])) := by
  have hattended := attended_run hrun
  have horderly := orderly_run (orderly_new numThreads config world) hrun
  have hnone : {u | ServerInput.turn u .fail ∈ inputs} = ∅ :=
    Set.eq_empty_iff_forall_notMem.mpr hfails
  rcases refines_run hrun with ⟨steps, owner, hrefines⟩
  have hregistry : s.registry = (Cluster.after numThreads steps).registry :=
    congrArg Cluster.registry hrefines.cluster
  constructor
  · intro kind name u
    rw [hregistry, (Cluster.agreement_after numThreads steps kind name).1,
      ← hrefines.cluster]
    constructor
    · rintro ⟨m, hm, hknown⟩
      rcases worker_of_managers hm with ⟨w, hw, rfl⟩
      have hvalid := Cluster.valid_after numThreads steps
      rw [← hrefines.cluster] at hvalid
      -- A name that is known to a thread has a subscriber there.
      rcases Option.isSome_iff_exists.mp (AList.lookup_isSome.mpr hknown) with
        ⟨subs, hsubs⟩
      rcases List.exists_mem_of_ne_nil _
        ((hvalid.managers u _ hm).2.inhabited kind name subs hsubs) with ⟨connId, hconn⟩
      have hmem : connId ∈ (w.manager.table kind).subscribers name := by
        rw [SubscriptionTable.subscribers, hsubs]
        exact hconn
      rcases (hattended u w hw).here (Or.inr (hfails u)) kind connId name hmem with
        ⟨t, cl, hcl, rfl⟩
      exact ⟨t, cl, (client_of_worker hw t).trans hcl, u, w, t, cl, hw, hcl, rfl, hmem⟩
    · rintro ⟨t, cl, hcl, v, w, t', cl', hw, hcl', hid, hmem⟩
      rw [← client_of_worker hw] at hcl'
      rcases horderly.distinct v u t' t cl' cl hcl' hcl hid with ⟨rfl, _⟩
      exact ⟨w.manager, cluster_managers hw, ThreadLocalPubSub.known_of_subscribed hmem⟩
  · intro channels
    unfold GlobalRegistry.numSubReply
    congr 3
    funext channel
    have hcount := (Cluster.agreement_after numThreads steps .channel channel).2
    rw [Cluster.sum_subscribers numThreads hrefines.owned, ← hrefines.cluster,
      subscribersOf_cluster hattended hnone] at hcount
    rw [← hcount]
    rfl

theorem registry_counts_open_subscribed :
    exists s, quiet.run 0 [.turn 0 (.accept none 5), subscribed] = some s ∧
      forall channels, s.registry.numSubReply channels =
        .array (some (channels.flatMap fun channel =>
          [.bulkString (some channel),
            .integer (Int64.ofNat (s.subscribersOf .channel channel).ncard)])) := by
  rcases run_subscribed with ⟨s, _, hrun, _⟩
  have hcounts := @registry_counts_open mapStore idlePlatform 0 1
    { requirepass := none } Connection.freshShared.world
    [.turn 0 (.accept none 5), subscribed] s hrun (by simp [subscribed])
  exact ⟨s, hrun, hcounts.2⟩

end Server

end FeoxServer
