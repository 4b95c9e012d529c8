import FeoxServer.Network.ServiceTurns

/-!
# The subscriptions of open connections

The tables of a worker hold the subscriptions of its open connections and of no others,
unless the worker has failed, and every connection has the count of its own.
-/

namespace FeoxServer

open Foundation

/-- The tables of a worker and its connections agree.  Only a worker that has failed
may hold subscriptions of connections that are gone. -/
structure Worker.Attends (failed : Set ThreadId) (u : ThreadId) (w : Worker) :
    Prop where
  thread : w.manager.threadId = u
  inOrder : w.manager.InOrder
  counted : forall (t : Token) (cl : Client), w.connections.lookup t = some cl ->
    cl.connection.subscriptionCount =
      w.manager.getConnectionSubscriptionCount cl.connection.connectionId
  flagged : forall (t : Token) (cl : Client), w.connections.lookup t = some cl ->
    cl.connection.Flagged
  here : w.running = true ∨ u ∉ failed ->
    forall (kind : SubscriptionType) (connId : ConnectionId) (name : Bytes),
      (connId, name) ∈ w.manager.subscriptions kind ->
        exists (t : Token) (cl : Client), w.connections.lookup t = some cl ∧
          cl.connection.connectionId = connId

namespace Worker

variable {failed : Set ThreadId} {u : ThreadId} {w w' : Worker}

theorem attends_new (failed : Set ThreadId) (u : ThreadId) :
    Attends failed u (.new u) where
  thread := rfl
  inOrder := ThreadLocalPubSub.inOrder_new u
  counted t cl hcl := by cases hcl
  flagged t cl hcl := by cases hcl
  here _ kind connId name hmem := by
    have hempty := ThreadLocalPubSub.subscriptions_of_holds (holds_new u)
    have hmem' : (connId, name) ∈ (ThreadLocalPubSub.new u).subscriptions kind := hmem
    rw [hempty] at hmem'
    exact hmem'.elim

theorem Attends.delivered (h : w.Attends failed u) {deliveries : List Delivery}
    (hdelivered : w.Delivered w' deliveries) : w'.Attends failed u := by
  have hold := @hdelivered.lookup_of_some
  rcases hdelivered with ⟨_, hmanager, hrunning, _, htold⟩
  constructor
  · rw [hmanager]
    exact h.thread
  · rw [hmanager]
    exact h.inOrder
  · intro t cl' hcl'
    rcases hold hcl' with ⟨cl, hcl, hone⟩
    rw [hmanager, hone.connectionId, ← h.counted t cl hcl]
    rcases hone.connection with ⟨buffer, position, hconnection⟩
    rw [hconnection]
  · intro t cl' hcl'
    rcases hold hcl' with ⟨cl, hcl, hone⟩
    rcases hone.connection with ⟨buffer, position, hconnection⟩
    have hflagged := h.flagged t cl hcl
    rw [hconnection]
    exact hflagged
  · rw [hmanager, hrunning]
    intro hlive kind connId name hmem
    rcases h.here hlive kind connId name hmem with ⟨t, cl, hcl, hid⟩
    rcases htold t cl hcl with ⟨cl', hcl', hone⟩
    exact ⟨t, cl', hcl', hone.connectionId.trans hid⟩

theorem Attends.insert (h : w.Attends failed u) (hrunning : w.running = true)
    {token : Token} (hfree : w.connections.lookup token = none) {cl : Client}
    (hnew : forall (t : Token) (cl' : Client), w.connections.lookup t = some cl' ->
      cl'.connection.connectionId ≠ cl.connection.connectionId)
    (hcount : cl.connection.subscriptionCount = 0) (hflags : cl.connection.Flagged)
    (hmanager : w'.manager = w.manager)
    (hconnections : w'.connections = w.connections.insert token cl)
    (hrunning' : w'.running = w.running) :
    w'.Attends failed u := by
  have hnone : w.manager.getConnectionSubscriptionCount
      cl.connection.connectionId = 0 := by
    rw [h.inOrder.count, Subscriptions.total]
    have hempty : forall kind, {name | (cl.connection.connectionId, name) ∈
        w.manager.subscriptions kind} = ∅ := by
      intro kind
      rw [Set.eq_empty_iff_forall_notMem]
      intro name hmem
      rcases h.here (Or.inl hrunning) kind _ name hmem with ⟨t, cl', hcl', hid⟩
      exact hnew t cl' hcl' hid
    rw [hempty .channel, hempty .pattern, Set.ncard_empty]
  have hcases : forall (t : Token) (cl' : Client),
      w'.connections.lookup t = some cl' ->
        (t = token ∧ cl' = cl) ∨ w.connections.lookup t = some cl' := by
    intro t cl' hcl'
    rw [hconnections] at hcl'
    by_cases ht : t = token
    · subst ht
      rw [AList.lookup_insert] at hcl'
      exact Or.inl ⟨rfl, (Option.some.inj hcl').symm⟩
    · rw [AList.lookup_insert_ne ht] at hcl'
      exact Or.inr hcl'
  constructor
  · rw [hmanager]
    exact h.thread
  · rw [hmanager]
    exact h.inOrder
  · intro t cl' hcl'
    rw [hmanager]
    rcases hcases t cl' hcl' with ⟨_, rfl⟩ | hold
    · rw [hcount, hnone]
    · exact h.counted t cl' hold
  · intro t cl' hcl'
    rcases hcases t cl' hcl' with ⟨_, rfl⟩ | hold
    · exact hflags
    · exact h.flagged t cl' hold
  · rw [hmanager, hrunning', hconnections]
    intro hlive kind connId name hmem
    rcases h.here hlive kind connId name hmem with ⟨t, cl', hcl', hid⟩
    refine ⟨t, cl', ?_, hid⟩
    rw [AList.lookup_insert_ne]
    · exact hcl'
    · rintro rfl
      rw [hfree] at hcl'
      cases hcl'

/-- The connection that has been served has the count of what it has now, and nobody
else is touched. -/
theorem Attends.replace (h : w.Attends failed u) (hdistinct : w.Distinct)
    {token : Token} {cl cl1 : Client} (hcl : w.connections.lookup token = some cl)
    {r r' : GlobalRegistry}
    (hworked : Worked {cl.connection.connectionId} (w.manager, r) (w'.manager, r'))
    (hid : cl1.connection.connectionId = cl.connection.connectionId)
    (hcounted : cl1.connection.subscriptionCount =
      w'.manager.getConnectionSubscriptionCount cl.connection.connectionId)
    (hflagged : cl1.connection.Flagged)
    (hconnections : w'.connections = w.connections.replace token cl1)
    (hrunning : w'.running = w.running) :
    w'.Attends failed u := by
  have hcases : forall (t : Token) (cl' : Client),
      w'.connections.lookup t = some cl' ->
        (t = token ∧ cl' = cl1) ∨ (t ≠ token ∧ w.connections.lookup t = some cl') := by
    intro t cl' hcl'
    rw [hconnections, lookup_replace] at hcl'
    by_cases ht : t = token
    · subst ht
      rw [if_pos rfl, hcl] at hcl'
      exact Or.inl ⟨rfl, (Option.some.inj hcl').symm⟩
    · rw [if_neg ht] at hcl'
      exact Or.inr ⟨ht, hcl'⟩
  have hother : forall (t : Token) (cl' : Client), t ≠ token ->
      w.connections.lookup t = some cl' ->
        cl'.connection.connectionId ∉
          ({cl.connection.connectionId} : Set ConnectionId) :=
    fun t cl' ht hcl' hmem => ht (hdistinct t token cl' cl hcl' hcl hmem)
  constructor
  · exact hworked.threadId.trans h.thread
  · exact hworked.inOrder h.inOrder
  · intro t cl' hcl'
    rcases hcases t cl' hcl' with ⟨_, rfl⟩ | ⟨ht, hold⟩
    · rw [hid]
      exact hcounted
    · rw [h.counted t cl' hold]
      exact (hworked.count_of_not_mem h.inOrder (hother t cl' ht hold)).symm
  · intro t cl' hcl'
    rcases hcases t cl' hcl' with ⟨_, rfl⟩ | ⟨_, hold⟩
    · exact hflagged
    · exact h.flagged t cl' hold
  · rw [hrunning, hconnections]
    intro hlive kind connId name hmem
    by_cases hmine : connId = cl.connection.connectionId
    · refine ⟨token, cl1, ?_, hid.trans hmine.symm⟩
      rw [lookup_replace, if_pos rfl, hcl]
      rfl
    · rw [hworked.others h.inOrder hmine] at hmem
      rcases h.here hlive kind connId name hmem with ⟨t, cl', hcl', hid'⟩
      refine ⟨t, cl', ?_, hid'⟩
      rw [lookup_replace, if_neg]
      · exact hcl'
      · rintro rfl
        cases hcl.symm.trans hcl'
        exact hmine hid'.symm

/-- What a worker has when connections have been taken from it and their subscriptions
dropped. -/
theorem Attends.without (h : w.Attends failed u) {gone : Set ConnectionId}
    {r r' : GlobalRegistry} (hworked : Worked gone (w.manager, r) (w'.manager, r'))
    (hdropped : forall kind connId name,
      (connId, name) ∈ w'.manager.subscriptions kind -> connId ∉ gone)
    (hconnections : forall t cl, w'.connections.lookup t = some cl <->
      w.connections.lookup t = some cl ∧ cl.connection.connectionId ∉ gone)
    (hlive : w'.running = true ∨ u ∉ failed -> w.running = true ∨ u ∉ failed) :
    w'.Attends failed u := by
  constructor
  · exact hworked.threadId.trans h.thread
  · exact hworked.inOrder h.inOrder
  · intro t cl hcl
    rcases (hconnections t cl).mp hcl with ⟨hold, hkept⟩
    rw [h.counted t cl hold]
    exact (hworked.count_of_not_mem h.inOrder hkept).symm
  · intro t cl hcl
    exact h.flagged t cl ((hconnections t cl).mp hcl).1
  · intro hlive' kind connId name hmem
    have hkept := hdropped kind connId name hmem
    rw [hworked.others h.inOrder hkept] at hmem
    rcases h.here (hlive hlive') kind connId name hmem with ⟨t, cl, hcl, rfl⟩
    exact ⟨t, cl, (hconnections t cl).mpr ⟨hcl, hkept⟩, rfl⟩

theorem Attends.fail (h : w.Attends failed u) (hu : u ∈ failed)
    (hmanager : w'.manager = w.manager) (hempty : w'.connections = ∅)
    (hrunning : w'.running = false) : w'.Attends failed u := by
  have hnone : forall (t : Token) (cl : Client), w'.connections.lookup t ≠ some cl := by
    intro t cl hcl
    rw [hempty] at hcl
    cases hcl
  constructor
  · rw [hmanager]
    exact h.thread
  · rw [hmanager]
    exact h.inOrder
  · intro t cl hcl
    exact absurd hcl (hnone t cl)
  · intro t cl hcl
    exact absurd hcl (hnone t cl)
  · rintro (hlive | hlive)
    · rw [hrunning] at hlive
      cases hlive
    · exact absurd hu hlive

end Worker

theorem dropped_closeAll {S : FeoxStore} {P : Platform}
    (entries : List (Sigma fun _ : Token => Client)) {sh : Shared S P}
    (h : sh.pubsub.1.InOrder) :
    Worked {connId | exists e, e ∈ entries ∧ e.2.connection.connectionId = connId}
      sh.pubsub
      (entries.foldl (fun sh e => (sh.close e.2.connection).2) sh).pubsub ∧
    forall kind connId name,
      (connId, name) ∈ (entries.foldl (fun sh e => (sh.close e.2.connection).2)
        sh).pubsub.1.subscriptions kind ->
        (connId, name) ∈ sh.pubsub.1.subscriptions kind ∧
          forall e, e ∈ entries -> e.2.connection.connectionId ≠ connId := by
  induction entries generalizing sh with
  | nil => exact ⟨.refl _ _, fun kind connId name hmem => ⟨hmem, by simp⟩⟩
  | cons e entries ih =>
      have hone := worked_close sh e.2.connection
      rcases ih (hone.inOrder h) with ⟨hworked, hdropped⟩
      refine ⟨(hone.mono ?_).trans (hworked.mono ?_), fun kind connId name hmem => ?_⟩
      · rintro connId rfl
        exact ⟨e, List.mem_cons_self, rfl⟩
      · rintro connId ⟨e', he', hid⟩
        exact ⟨e', List.mem_cons_of_mem _ he', hid⟩
      · rcases hdropped kind connId name hmem with ⟨hclosed, hrest⟩
        have hdrop := h.subscriptions_perform
          (.connectionDropped e.2.connection.connectionId)
        have hclosed' : (connId, name) ∈ sh.pubsub.1.subscriptions.perform
            (.connectionDropped e.2.connection.connectionId) kind :=
          hdrop ▸ hclosed
        rcases Subscriptions.mem_drop.mp hclosed' with ⟨hold, hne⟩
        refine ⟨hold, fun e' he' => ?_⟩
        rcases List.mem_cons.mp he' with rfl | he'
        · exact Ne.symm hne
        · exact hrest e' he'

/-!
# Every turn keeps the agreement
-/

namespace Server

variable {S : FeoxStore} {P : Platform} {fuel : Nat}

def Attended (failed : Set ThreadId) (s : Server S P) : Prop :=
  forall (u : ThreadId) (w : Worker), s.workers[u]? = some w -> w.Attends failed u

variable {failed : Set ThreadId}

theorem attended_new (failed : Set ThreadId) (numThreads : Nat) (config : Config)
    (world : World S P) : Attended failed (new numThreads config world) := by
  intro u w hw
  rw [(workers_new hw).2]
  exact Worker.attends_new failed u

theorem Attended.set {s s' : Server S P} (h : s.Attended failed) {u : ThreadId}
    {w w' : Worker} (hw : s.workers[u]? = some w)
    (hs' : s'.workers = s.workers.set u w') (hw' : w'.Attends failed u) :
    s'.Attended failed := by
  intro v w1 hw1
  rcases workers_set hw hs' hw1 with ⟨rfl, rfl⟩ | ⟨_, hold⟩
  · exact hw'
  · exact h v w1 hold

theorem attended_accept {s : Server S P} (h : s.Attended failed)
    (horderly : s.Orderly) {u : ThreadId} {w : Worker} (hw : s.workers[u]? = some w)
    (hrunning : w.running = true) (addr : Option String) (now : UInt64) :
    (s.accept u w addr now).Attended failed := by
  refine @Attended.set _ _ _ s (s.accept u w addr now) h u w _ hw rfl ?_
  have hfree : w.connections.lookup w.nextToken = none := by
    cases hcl : w.connections.lookup w.nextToken with
    | none => rfl
    | some cl =>
        exact absurd ((horderly.tokens u w hw).2 w.nextToken cl hcl).2
          (Nat.lt_irrefl _)
  refine (h u w hw).insert hrunning hfree ?_ ?_ ?_ rfl rfl rfl
  · intro t cl hcl
    rw [← client_of_worker hw] at hcl
    exact Nat.ne_of_lt (horderly.fresh u t cl hcl)
  · rfl
  · rfl

theorem attended_settle {s : Server S P} (h : s.Attended failed)
    (horderly : s.Orderly) {u : ThreadId} {w : Worker} (hw : s.workers[u]? = some w)
    {token : Token} {cl : Client} (hcl : w.connections.lookup token = some cl)
    {r : Reading S P} (hr : r.Works (w.manager, s.registry) cl) :
    (s.settle u w token r).Attended failed := by
  have hdistinct := horderly.worker_distinct hw
  have hattends := h u w hw
  unfold settle
  split
  · refine @Attended.set _ _ _ s _ h u w _ hw rfl ?_
    have hclosed := worked_close r.shared r.client.connection
    rw [hr.connectionId] at hclosed
    refine hattends.without (hr.worked.trans hclosed) ?_ ?_ id
    · intro kind connId name hmem
      have hinOrder := hr.worked.inOrder hattends.inOrder
      have hdrop := hinOrder.subscriptions_perform
        (.connectionDropped r.client.connection.connectionId)
      have hmem' : (connId, name) ∈ r.shared.pubsub.1.subscriptions.perform
          (.connectionDropped r.client.connection.connectionId) kind := hdrop ▸ hmem
      rw [hr.connectionId] at hmem'
      exact (Subscriptions.mem_drop.mp hmem').2
    · intro t cl'
      by_cases ht : t = token
      · subst ht
        rw [AList.lookup_erase, hcl]
        constructor
        · intro hnone
          cases hnone
        · rintro ⟨hsame, hgone⟩
          cases hsame
          exact absurd rfl hgone
      · rw [AList.lookup_erase_ne ht]
        constructor
        · intro hcl'
          exact ⟨hcl', fun hsame => ht (hdistinct t token cl' cl hcl' hcl hsame)⟩
        · exact fun hand => hand.1
  · exact @Attended.set _ _ _ s _ h u w _ hw rfl
      (hattends.replace hdistinct hcl hr.worked hr.connectionId hr.counted hr.flagged
        rfl rfl)

theorem attended_stop {s : Server S P} (h : s.Attended failed) {u : ThreadId}
    {w : Worker} (hw : s.workers[u]? = some w) (hrunning : w.running = true) :
    (s.stop u w).Attended failed := by
  refine @Attended.set _ _ _ s (s.stop u w) h u w _ hw rfl ?_
  rcases @dropped_closeAll _ _ w.connections.entries (s.shared w)
    (h u w hw).inOrder with ⟨hworked, hdropped⟩
  refine (h u w hw).without hworked ?_ ?_ fun _ => Or.inl hrunning
  · rintro kind connId name hmem ⟨e, he, hid⟩
    exact (hdropped kind connId name hmem).2 e he hid
  · intro t cl
    constructor
    · intro hnone
      cases hnone
    · rintro ⟨hcl, hgone⟩
      exact absurd ⟨⟨t, cl⟩, AList.mem_lookup_iff.mp hcl, rfl⟩ hgone

theorem attended_deliverTo {s : Server S P} (h : s.Attended failed)
    (horderly : s.Orderly) {u : ThreadId} {w : Worker} (hw : s.workers[u]? = some w)
    (writes : List (List SocketWrite)) (deliveries : List Delivery) :
    (s.deliverTo u writes deliveries).Attended failed := by
  rw [deliverTo_of_worker hw]
  exact @Attended.set _ _ _ s _ h u w _ hw rfl
    ((h u w hw).delivered (Worker.delivered_deliverAll writes
      (horderly.worker_distinct hw) (horderly.worker_resting hw) deliveries))

theorem attended_step {s s' : Server S P} {input : ServerInput}
    (hfailed : forall u, input = .turn u .fail -> u ∈ failed) (horderly : s.Orderly)
    (h : s.Attended failed) (hstep : s.step fuel input = some s') :
    s'.Attended failed := by
  cases input with
  | shutdown =>
      cases hstep
      exact h
  | turn u turn =>
      rcases step_turn hstep with ⟨w, hw, hrunning, hturn⟩
      cases turn with
      | inbox delivered =>
          cases hturn
          have hdelivered := Worker.delivered_deliverAll delivered
            (horderly.worker_distinct hw) (horderly.worker_resting hw)
            (ThreadLocalPubSub.processInbox (w.manager, s.registry)).1
          exact @Attended.set _ _ _ s (s.inbox u w delivered) h u w _ hw rfl
            ((h u w hw).delivered ⟨hdelivered.nextToken, rfl, hdelivered.running,
              hdelivered.keys, hdelivered.told⟩)
      | accept addr now =>
          cases hturn
          exact attended_accept h horderly hw hrunning addr now
      | ready token readiness =>
          rcases ready_cases hturn with ⟨_, rfl⟩ | ⟨cl, r, hcl, hserve, rfl⟩
          · exact h
          · have hattends := h u w hw
            have hresting := horderly.worker_resting hw token cl hcl
            have hr : r.Works (w.manager, s.registry) cl :=
              @Reading.works_serve _ _ fuel u (s.shared w) hattends.thread cl readiness
                r hresting (hattends.counted token cl hcl)
                (hattends.flagged token cl hcl) hserve
            have hsettled := attended_settle h horderly hw hcl hr
            have hsettledOrderly := orderly_settle horderly hw hcl
              (Reading.serves_serve hresting hserve)
            rcases @worker_settle _ _ s u w token r hw with ⟨w', hw'⟩
            exact attended_deliverTo hsettled hsettledOrderly hw' _ _
      | stop =>
          rcases Option.ite_none_right_eq_some.mp hturn with ⟨_, heq⟩
          cases heq
          exact attended_stop h hw hrunning
      | fail =>
          cases hturn
          exact @Attended.set _ _ _ s (s.fail u w) h u w _ hw rfl
            ((h u w hw).fail (hfailed u rfl) rfl rfl rfl)

theorem attended_run {numThreads : Nat} {config : Config} {world : World S P}
    {inputs : List ServerInput} {s : Server S P}
    (hrun : (new numThreads config world).run fuel inputs = some s) :
    s.Attended {u | ServerInput.turn u .fail ∈ inputs} := by
  have hboth : s.Orderly ∧ s.Attended {u | ServerInput.turn u .fail ∈ inputs} := by
    refine @invariant_runInputs _ _ (step fuel)
      (fun s1 => s1.Orderly ∧ s1.Attended {u | ServerInput.turn u .fail ∈ inputs})
      (fun input => input ∈ inputs) ?_ inputs (fun _ hinput => hinput) _ _
      ⟨orderly_new numThreads config world, attended_new _ numThreads config world⟩
      hrun
    rintro s1 input s2 hinput ⟨horderly, hattended⟩ hstep
    refine ⟨orderly_step horderly hstep, attended_step ?_ horderly hattended hstep⟩
    rintro u rfl
    exact hinput
  exact hboth.2

end Server

end FeoxServer
