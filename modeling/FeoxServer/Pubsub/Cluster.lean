import FeoxServer.Pubsub.Interest

/-!
# Publishing across threads

The managers of all threads with the registry between them.  A publication is
delivered on its own thread at once, and on the others when they drain their
inboxes, in any order and at any time between the broadcasts.
-/

namespace FeoxServer

open Foundation

structure Cluster where
  registry : GlobalRegistry
  managers : List ThreadLocalPubSub

/-- What a thread does to the shared state. -/
inductive ClusterOp where
  | subscribe (connId : ConnectionId) (channels : List Bytes)
  | unsubscribe (connId : ConnectionId) (channels : Option (List Bytes))
  | psubscribe (connId : ConnectionId) (patterns : List Bytes)
  | punsubscribe (connId : ConnectionId) (patterns : Option (List Bytes))
  | connectionDropped (connId : ConnectionId)
  | publish (channel message : Bytes)
  | processInbox

namespace ClusterOp

def perform (op : ClusterOp) (st : PubSubState) : PubSubState :=
  match op with
  | subscribe connId channels =>
      (ThreadLocalPubSub.subscribe st connId channels).2
  | unsubscribe connId channels =>
      (ThreadLocalPubSub.unsubscribe st connId channels).2
  | psubscribe connId patterns =>
      (ThreadLocalPubSub.psubscribe st connId patterns).2
  | punsubscribe connId patterns =>
      (ThreadLocalPubSub.punsubscribe st connId patterns).2
  | connectionDropped connId =>
      ThreadLocalPubSub.connectionDropped st connId
  | publish channel message =>
      (st.1,
        (ThreadLocalPubSub.publish st st.1.threadId channel message).2.2)
  | processInbox => (ThreadLocalPubSub.processInbox st).2

/-- The connection whose subscriptions an operation changes. -/
def connection : ClusterOp -> Option ConnectionId
  | subscribe connId _ | unsubscribe connId _ | psubscribe connId _
  | punsubscribe connId _ | connectionDropped connId => some connId
  | publish _ _ | processInbox => none

end ClusterOp

namespace Cluster

def new (numThreads : Nat) : Cluster where
  registry := .new numThreads
  managers := (List.range numThreads).map .new

def apply (c : Cluster) (step : ThreadId × ClusterOp) : Cluster :=
  match c.managers[step.1]? with
  | some m =>
      let (m', r') := step.2.perform (m, c.registry)
      { registry := r', managers := c.managers.set step.1 m' }
  | none => c

/-- The state after any interleaving of operations of the threads. -/
def after (numThreads : Nat) (steps : List (ThreadId × ClusterOp)) : Cluster :=
  steps.foldl apply (new numThreads)

/-- Every manager knows its thread and agrees with the registry. -/
structure Valid (c : Cluster) : Prop where
  inboxes : c.registry.inboxes.length = c.managers.length
  managers : forall u m, c.managers[u]? = some m ->
    m.threadId = u ∧ Registered m c.registry

theorem valid_new (n : Nat) : Valid (new n) where
  inboxes := by simp [new, GlobalRegistry.new]
  managers u m h := by
    simp only [new, List.getElem?_map, Option.map_eq_some_iff] at h
    rcases h with ⟨v, hv, rfl⟩
    rcases List.getElem?_eq_some_iff.mp hv with ⟨_, hget⟩
    rw [List.getElem_range] at hget
    exact ⟨hget.symm, registered_new v n⟩

end Cluster

/-!
# Reachable clusters are valid
-/

namespace GlobalRegistry

theorem interested_trySend (r : GlobalRegistry) (thread : ThreadId)
    (msg : BroadcastMsg) (kind : SubscriptionType) (name : Bytes) :
    (r.trySend thread msg).interested kind name = r.interested kind name := by
  unfold trySend
  cases r.inboxes[thread]? with
  | none => rfl
  | some inbox =>
      simp only
      split
      · cases kind <;> rfl
      · rfl

theorem length_inboxes_trySend (r : GlobalRegistry) (thread : ThreadId)
    (msg : BroadcastMsg) :
    (r.trySend thread msg).inboxes.length = r.inboxes.length := by
  unfold trySend
  cases r.inboxes[thread]? with
  | none => rfl
  | some inbox =>
      simp only
      split
      · exact List.length_set
      · rfl

end GlobalRegistry

theorem settled_of_interested {m : ThreadLocalPubSub} {r r' : GlobalRegistry}
    (hlength : r'.inboxes.length = r.inboxes.length)
    (h : forall kind name, r'.interested kind name = r.interested kind name) :
    Settled (m, r) (m, r') where
  threadId := rfl
  others := ⟨hlength, fun v kind name _ => by rw [h]⟩
  registered hreg :=
    { interest := fun kind name => by rw [h]; exact hreg.interest kind name
      inhabited := hreg.inhabited
      trie := hreg.trie }

theorem settled_foldl_trySend (m : ThreadLocalPubSub) (r : GlobalRegistry)
    (sends : List (ThreadId × BroadcastMsg)) :
    Settled (m, r)
      (m, sends.foldl (fun r send => r.trySend send.1 send.2) r) := by
  induction sends generalizing r with
  | nil => exact Settled.refl (m, r)
  | cons send sends ih =>
      exact (settled_of_interested (r.length_inboxes_trySend send.1 send.2)
        (r.interested_trySend send.1 send.2)).trans (ih _)

theorem ClusterOp.perform_settled (op : ClusterOp) (st : PubSubState) :
    Settled st (op.perform st) := by
  cases op with
  | subscribe connId channels =>
      exact ThreadLocalPubSub.subscribe_settled st connId channels
  | unsubscribe connId channels =>
      exact ThreadLocalPubSub.unsubscribeNames_settled .channel st connId channels
  | psubscribe connId patterns =>
      exact ThreadLocalPubSub.psubscribe_settled st connId patterns
  | punsubscribe connId patterns =>
      exact ThreadLocalPubSub.unsubscribeNames_settled .pattern st connId patterns
  | connectionDropped connId =>
      exact ThreadLocalPubSub.connectionDropped_settled st connId
  | publish channel message =>
      change Settled st
        (st.1, (ThreadLocalPubSub.publish st st.1.threadId channel message).2.2)
      rw [ThreadLocalPubSub.publish_registry]
      exact settled_foldl_trySend st.1 st.2 _
  | processInbox =>
      refine settled_of_interested List.length_set ?_
      intro kind name
      cases kind <;> rfl

namespace Cluster

theorem valid_apply {c : Cluster} (h : Valid c) (step : ThreadId × ClusterOp) :
    Valid (c.apply step) := by
  rcases step with ⟨u, op⟩
  unfold apply
  cases hu : c.managers[u]? with
  | none => exact h
  | some m =>
      rcases h.managers u m hu with ⟨hid, hreg⟩
      have hsettled := op.perform_settled (m, c.registry)
      have hothers := hsettled.others
      simp only [hid] at hothers
      refine ⟨?_, ?_⟩
      · simp only [List.length_set]
        rw [hothers.1]
        exact h.inboxes
      · intro v m' hv
        simp only at hv
        by_cases huv : u = v
        · subst huv
          rcases List.getElem?_eq_some_iff.mp hu with ⟨hlt, _⟩
          rw [List.getElem?_set_self hlt] at hv
          injection hv with hv
          subst hv
          exact ⟨hsettled.threadId.trans hid, hsettled.registered hreg⟩
        · rw [List.getElem?_set_ne huv] at hv
          rcases h.managers v m' hv with ⟨hid', hreg'⟩
          exact ⟨hid', hreg'.of_sameForOthers hothers
            (by rw [hid']; exact Ne.symm huv)⟩

theorem valid_after (n : Nat) (steps : List (ThreadId × ClusterOp)) :
    Valid (after n steps) := by
  have hfold : forall c, Valid c -> Valid (steps.foldl apply c) := by
    induction steps with
    | nil => exact fun c hc => hc
    | cons step steps ih =>
        exact fun c hc => ih (c.apply step) (valid_apply hc step)
  exact hfold (new n) (valid_new n)

end Cluster

/-!
# A publication in flight
-/

/-- The broadcasts still to be sent, the registry with the inboxes, and what
every thread has delivered so far. -/
structure Flight where
  pending : List (ThreadId × BroadcastMsg)
  registry : GlobalRegistry
  delivered : ThreadId -> List Delivery

/-- Either the publisher sends its next broadcast, or a thread drains its
inbox. -/
inductive FlightEvent where
  | send
  | drain (thread : ThreadId)

namespace Flight

def step (managers : List ThreadLocalPubSub) (f : Flight) :
    FlightEvent -> Flight
  | .send =>
      match f.pending with
      | [] => f
      | (thread, msg) :: pending =>
          { f with
            pending := pending
            registry := f.registry.trySend thread msg }
  | .drain thread =>
      match managers[thread]? with
      | some m =>
          let (deliveries, st) := ThreadLocalPubSub.processInbox (m, f.registry)
          { f with
            registry := st.2
            delivered := Function.update f.delivered thread
              (f.delivered thread ++ deliveries) }
      | none => f

def run (managers : List ThreadLocalPubSub) (f : Flight)
    (schedule : List FlightEvent) : Flight :=
  schedule.foldl (step managers) f

def inbox (f : Flight) (thread : ThreadId) : List BroadcastMsg :=
  (f.registry.inboxes[thread]?).getD []

/-- No broadcast meets a full inbox. -/
def BelowCapacity (managers : List ThreadLocalPubSub) :
    Flight -> List FlightEvent -> Prop
  | _, [] => True
  | f, .send :: schedule =>
      (forall thread msg pending, f.pending = (thread, msg) :: pending ->
        (f.inbox thread).length < inboxCapacity) ∧
      BelowCapacity managers (step managers f .send) schedule
  | f, .drain thread :: schedule =>
      BelowCapacity managers (step managers f (.drain thread)) schedule

/-- Everything is sent and every inbox is drained. -/
def Complete (f : Flight) : Prop :=
  f.pending = [] ∧ forall thread, f.inbox thread = []

def outlook (f : Flight) (m : ThreadLocalPubSub) : List Delivery :=
  f.delivered m.threadId ++ (f.inbox m.threadId).flatMap m.receive ++
    f.pending.flatMap fun send =>
      if send.1 = m.threadId then m.receive send.2 else []

theorem inbox_trySend {f : Flight} {u v : ThreadId} {msg : BroadcastMsg}
    {pending : List (ThreadId × BroadcastMsg)}
    {delivered : ThreadId -> List Delivery}
    (hv : v < f.registry.inboxes.length)
    (hroom : (f.inbox u).length < inboxCapacity) :
    inbox ⟨pending, f.registry.trySend u msg, delivered⟩ v =
      if u = v then f.inbox v ++ [msg] else f.inbox v := by
  unfold inbox GlobalRegistry.trySend at *
  cases hu : f.registry.inboxes[u]? with
  | none =>
      have hne : ¬ u = v := by
        rintro rfl
        exact Nat.not_lt.mpr (List.getElem?_eq_none_iff.mp hu) hv
      simp only [if_neg hne]
  | some old =>
      rw [hu, Option.getD_some] at hroom
      simp only [if_pos hroom]
      by_cases huv : u = v
      · subst huv
        rw [List.getElem?_set_self hv, if_pos rfl, hu]
        rfl
      · rw [List.getElem?_set_ne huv, if_neg huv]

theorem outlook_step {managers : List ThreadLocalPubSub} {f : Flight}
    (hids : forall (u : ThreadId) (m : ThreadLocalPubSub),
      managers[u]? = some m -> m.threadId = u)
    (hlength : f.registry.inboxes.length = managers.length)
    {event : FlightEvent} {schedule : List FlightEvent}
    (hroom : BelowCapacity managers f (event :: schedule))
    {u : ThreadId} {m : ThreadLocalPubSub} (hm : managers[u]? = some m) :
    (step managers f event).outlook m = f.outlook m ∧
      (step managers f event).registry.inboxes.length = managers.length := by
  have hid := hids u m hm
  rcases List.getElem?_eq_some_iff.mp hm with ⟨hu, _⟩
  cases event with
  | send =>
      unfold step
      cases hpending : f.pending with
      | nil => exact ⟨rfl, hlength⟩
      | cons send pending =>
          rcases send with ⟨v, msg⟩
          have hinbox := hroom.1 v msg pending hpending
          refine ⟨?_, ?_⟩
          · unfold outlook
            rw [hid, inbox_trySend (lt_of_lt_of_eq hu hlength.symm) hinbox,
              hpending]
            by_cases hv : v = u
            · simp [hv]
            · simp [hv]
          · rw [← hlength]
            exact f.registry.length_inboxes_trySend v msg
  | drain v =>
      cases hv : managers[v]? with
      | none =>
          simp only [step, hv]
          exact ⟨trivial, hlength⟩
      | some m' =>
          have hid' := hids v m' hv
          simp only [step, hv, ThreadLocalPubSub.processInbox,
            List.length_set, hid']
          refine ⟨?_, hlength⟩
          unfold outlook inbox
          rw [hid]
          by_cases huv : v = u
          · subst huv
            rw [hm] at hv
            injection hv with hv
            subst hv
            simp only [Function.update_self]
            rw [List.getElem?_set_self (lt_of_lt_of_eq hu hlength.symm)]
            simp
          · simp only [Function.update_of_ne (Ne.symm huv)]
            rw [List.getElem?_set_ne huv]

theorem outlook_run {managers : List ThreadLocalPubSub}
    (hids : forall (u : ThreadId) (m : ThreadLocalPubSub),
      managers[u]? = some m -> m.threadId = u)
    (schedule : List FlightEvent) {f : Flight}
    (hlength : f.registry.inboxes.length = managers.length)
    (hroom : BelowCapacity managers f schedule)
    {u : ThreadId} {m : ThreadLocalPubSub} (hm : managers[u]? = some m) :
    (run managers f schedule).outlook m = f.outlook m := by
  induction schedule generalizing f with
  | nil => rfl
  | cons event schedule ih =>
      rcases outlook_step hids hlength hroom hm with ⟨hstep, hlength'⟩
      have hrest : BelowCapacity managers (step managers f event) schedule := by
        cases event with
        | send => exact hroom.2
        | drain thread => exact hroom
      rw [← hstep]
      exact ih hlength' hrest

theorem outlook_of_complete {f : Flight} (h : Complete f)
    (m : ThreadLocalPubSub) : f.outlook m = f.delivered m.threadId := by
  unfold outlook
  rw [h.1, h.2]
  simp

end Flight

/-!
# Exactly once
-/

namespace Cluster

/-- The publication right after its thread has made the deliveries on its own
connections. -/
def launch (c : Cluster) (thread : ThreadId) (m : ThreadLocalPubSub)
    (channel message : Bytes) : Flight where
  pending := ThreadLocalPubSub.broadcasts c.registry thread channel message
  registry := c.registry
  delivered := Function.update (fun _ => []) thread
    (ThreadLocalPubSub.publish (m, c.registry) thread channel message).1

/-- What the thread of a manager should have delivered in the end: what was in
its inbox before, and the publication once. -/
def expected (c : Cluster) (thread : ThreadId) (m : ThreadLocalPubSub)
    (channel message : Bytes) : List Delivery :=
  let before := ((c.registry.inboxes[m.threadId]?).getD []).flatMap m.receive
  if m.threadId = thread then m.publishLocal channel message ++ before
  else before ++ m.publishLocal channel message

theorem flatMap_sends {α : Type} (ids : List ThreadId) (hnodup : ids.Nodup)
    (u : ThreadId) (f : List α) :
    (ids.flatMap fun v => if v = u then f else []) =
      if u ∈ ids then f else [] := by
  induction ids with
  | nil => simp
  | cons v ids ih =>
      rw [List.nodup_cons] at hnodup
      rw [List.flatMap_cons, ih hnodup.2]
      by_cases hv : v = u
      · subst hv
        simp [hnodup.1]
      · simp [hv, Ne.symm hv]

theorem flatMap_broadcasts (c : Cluster) (thread : ThreadId)
    (m : ThreadLocalPubSub) (channel message : Bytes) :
    ((ThreadLocalPubSub.broadcasts c.registry thread channel message).flatMap
        fun send => if send.1 = m.threadId then m.receive send.2 else []) =
      if m.threadId = thread then []
      else
        (if m.threadId ∈ c.registry.getChannelThreads channel then
          m.publishLocal channel message else []) ++
        (if m.threadId ∈ c.registry.getAllPatternThreads then
          m.patternDeliveries channel message else []) := by
  have hnodup : (c.registry.getChannelThreads channel).Nodup := ListSet.nodup _
  unfold ThreadLocalPubSub.broadcasts
  rw [List.flatMap_append, List.flatMap_map, List.flatMap_map]
  simp only
  rw [flatMap_sends _ hnodup, flatMap_sends _ (ListSet.nodup _)]
  by_cases hself : m.threadId = thread
  · simp [ThreadLocalPubSub.receive, hself]
  · simp [ThreadLocalPubSub.receive, hself, ListSet.mem_items]

/-- Another thread gets the publication exactly once if and only if it has no
subscriber of the channel or finds no matching pattern. -/
theorem remote_deliveries_iff {m : ThreadLocalPubSub} {r : GlobalRegistry}
    (h : Registered m r) (channel message : Bytes) :
    (if m.threadId ∈ r.getChannelThreads channel then
        m.publishLocal channel message else []) ++
      (if m.threadId ∈ r.getAllPatternThreads then
        m.patternDeliveries channel message else []) =
      m.publishLocal channel message <->
    ¬ channel ∈ m.channels.subs ∨ m.patternTrie.findMatches channel = [] := by
  have hsubs := mem_getChannelThreads_iff h channel
  by_cases hchannel : channel ∈ m.channels.subs
  · rw [if_pos (hsubs.mpr hchannel)]
    by_cases hmatch : m.patternTrie.findMatches channel = []
    · simp [ThreadLocalPubSub.patternDeliveries, hmatch]
    · rw [if_pos (mem_getAllPatternThreads_of_match h hmatch)]
      simp [ThreadLocalPubSub.patternDeliveries, hmatch, hchannel]
  · rw [if_neg (fun hmem => hchannel (hsubs.mp hmem))]
    have hexact : m.channels.subscribers channel = [] := by
      unfold SubscriptionTable.subscribers
      rw [AList.lookup_eq_none.mpr hchannel]
      rfl
    have hlocal : m.publishLocal channel message =
        m.patternDeliveries channel message := by
      simp [ThreadLocalPubSub.publishLocal, hexact]
    by_cases hmatch : m.patternTrie.findMatches channel = []
    · simp [hlocal, ThreadLocalPubSub.patternDeliveries, hmatch]
    · rw [if_pos (mem_getAllPatternThreads_of_match h hmatch), hlocal]
      simp [hchannel]

/-- A publication reaches every thread exactly once, in every order of
draining, if and only if no other thread has both a subscriber of the channel
itself and a matching pattern. -/
theorem publish_exactly_once_iff (numThreads : Nat)
    (steps : List (ThreadId × ClusterOp)) (thread : ThreadId)
    (channel message : Bytes) (publisher : ThreadLocalPubSub)
    (hpublisher : (after numThreads steps).managers[thread]? = some publisher)
    (schedule : List FlightEvent)
    (hroom : Flight.BelowCapacity (after numThreads steps).managers
      ((after numThreads steps).launch thread publisher channel message)
      schedule)
    (hcomplete : Flight.Complete (Flight.run (after numThreads steps).managers
      ((after numThreads steps).launch thread publisher channel message)
      schedule)) :
    (forall u m, (after numThreads steps).managers[u]? = some m ->
      (Flight.run (after numThreads steps).managers
        ((after numThreads steps).launch thread publisher channel message)
        schedule).delivered u =
        (after numThreads steps).expected thread m channel message) <->
    forall u m, u ≠ thread ->
      (after numThreads steps).managers[u]? = some m ->
        ¬ channel ∈ m.channels.subs ∨
          m.patternTrie.findMatches channel = [] := by
  have hvalid := valid_after numThreads steps
  generalize after numThreads steps = c at *
  have hids := fun u m hm => (hvalid.managers u m hm).1
  -- What each thread delivers in the end is its outlook at the launch.
  have hdelivered : forall u m, c.managers[u]? = some m ->
      (Flight.run c.managers (c.launch thread publisher channel message)
        schedule).delivered u =
        (c.launch thread publisher channel message).outlook m := by
    intro u m hm
    rw [← Flight.outlook_run hids schedule hvalid.inboxes hroom hm,
      Flight.outlook_of_complete hcomplete, hids u m hm]
  have hself : forall m, c.managers[thread]? = some m ->
      (c.launch thread publisher channel message).outlook m =
        c.expected thread m channel message := by
    intro m hm
    rw [hpublisher] at hm
    injection hm with hm
    subst hm
    have hid := hids thread publisher hpublisher
    unfold Flight.outlook expected
    rw [show (c.launch thread publisher channel message).pending =
      ThreadLocalPubSub.broadcasts c.registry thread channel message from rfl,
      flatMap_broadcasts, if_pos hid, if_pos hid]
    simp [launch, hid, Flight.inbox, ThreadLocalPubSub.publish]
  have hother : forall u m, u ≠ thread -> c.managers[u]? = some m ->
      ((c.launch thread publisher channel message).outlook m =
        c.expected thread m channel message <->
      ¬ channel ∈ m.channels.subs ∨
        m.patternTrie.findMatches channel = []) := by
    intro u m hu hm
    have hid := hids u m hm
    have hne : m.threadId ≠ thread := by rw [hid]; exact hu
    rw [← remote_deliveries_iff (hvalid.managers u m hm).2 channel message]
    unfold Flight.outlook expected
    rw [show (c.launch thread publisher channel message).pending =
      ThreadLocalPubSub.broadcasts c.registry thread channel message from rfl,
      flatMap_broadcasts, if_neg hne, if_neg hne]
    simp [launch, hne, Flight.inbox]
  constructor
  · intro h u m hu hm
    have hm' := h u m hm
    rw [hdelivered u m hm] at hm'
    exact (hother u m hu hm).mp hm'
  · intro h u m hm
    rw [hdelivered u m hm]
    by_cases hu : u = thread
    · rw [hu] at hm
      exact hself m hm
    · exact (hother u m hu hm).mpr (h u m hu hm)

/-- A connection of the second thread subscribes to a channel and to a pattern
that matches it. -/
def bothKinds : List (ThreadId × ClusterOp) :=
  [(1, .subscribe 7 [[99]]), (1, .psubscribe 7 [[42]])]

def sendThenDrain : List FlightEvent :=
  [.send, .send, .drain 0, .drain 1]

/-- The pattern message of the second thread is delivered twice. -/
theorem publish_not_exactly_once :
    ¬ forall (numThreads : Nat) (steps : List (ThreadId × ClusterOp))
      (thread : ThreadId) (channel message : Bytes)
      (publisher : ThreadLocalPubSub) (schedule : List FlightEvent),
      (after numThreads steps).managers[thread]? = some publisher ->
      Flight.BelowCapacity (after numThreads steps).managers
        ((after numThreads steps).launch thread publisher channel message)
        schedule ->
      Flight.Complete (Flight.run (after numThreads steps).managers
        ((after numThreads steps).launch thread publisher channel message)
        schedule) ->
      forall u m, (after numThreads steps).managers[u]? = some m ->
        (Flight.run (after numThreads steps).managers
          ((after numThreads steps).launch thread publisher channel message)
          schedule).delivered u =
          (after numThreads steps).expected thread m channel message := by
  intro h
  have hexample := h 2 bothKinds 0 [99] [1] (.new 0) sendThenDrain rfl
  have hroom : Flight.BelowCapacity (after 2 bothKinds).managers
      ((after 2 bothKinds).launch 0 (.new 0) [99] [1]) sendThenDrain := by
    refine ⟨?_, ?_, trivial⟩
    · intro thread msg pending hpending
      cases hpending
      decide
    · intro thread msg pending hpending
      cases hpending
      decide
  have hcomplete : Flight.Complete (Flight.run (after 2 bothKinds).managers
      ((after 2 bothKinds).launch 0 (.new 0) [99] [1]) sendThenDrain) := by
    refine ⟨rfl, ?_⟩
    intro thread
    match thread with
    | 0 => rfl
    | 1 => rfl
    | _ + 2 => rfl
  have hall := hexample hroom hcomplete 1
  have hfalse : ((after 2 bothKinds).managers[1]?).map (fun m =>
      decide ((Flight.run (after 2 bothKinds).managers
        ((after 2 bothKinds).launch 0 (.new 0) [99] [1])
        sendThenDrain).delivered 1 =
        (after 2 bothKinds).expected 0 m [99] [1])) = some false := by
    decide
  rcases Option.map_eq_some_iff.mp hfalse with ⟨m, hm, hne⟩
  rw [decide_eq_false_iff_not] at hne
  exact hne (hall m hm)

/-- With the two kinds of subscriptions on different connections of different
threads, everything arrives once. -/
theorem publish_exactly_once_iff_apart :
    let c := after 3 [(1, .subscribe 7 [[99]]), (2, .psubscribe 8 [[42]])]
    let schedule : List FlightEvent := [.send, .drain 1, .send, .drain 2]
    (forall u m, c.managers[u]? = some m ->
      (Flight.run c.managers (c.launch 0 (.new 0) [99] [1]) schedule).delivered
        u = c.expected 0 m [99] [1]) <->
    forall u m, u ≠ 0 -> c.managers[u]? = some m ->
      ¬ [99] ∈ m.channels.subs ∨ m.patternTrie.findMatches [99] = [] := by
  apply publish_exactly_once_iff
  · rfl
  · refine ⟨?_, ?_, trivial⟩
    · intro thread msg pending hpending
      cases hpending
      decide
    · intro thread msg pending hpending
      cases hpending
      decide
  · refine ⟨rfl, ?_⟩
    intro thread
    match thread with
    | 0 => rfl
    | 1 => rfl
    | 2 => rfl
    | _ + 3 => rfl

end Cluster

end FeoxServer
