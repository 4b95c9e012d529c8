import FeoxServer.Network.ReplyOrder
import FeoxServer.Pubsub.Agreement

/-!
# The counts in the confirmations

Every confirmation says how many subscriptions its connection has left.  An
unsubscription from everything forgets the list of the connection before its first
confirmation, and so all of its confirmations say what only the last one should.
-/

namespace FeoxServer

open Foundation

def PubSubMessage.count? : PubSubMessage -> Option Nat
  | subscribe _ count | unsubscribe _ count
  | psubscribe _ count | punsubscribe _ count => some count
  | message _ _ | patternMessage _ _ _ => none

/-!
# How many subscriptions there are
-/

namespace Subscriptions

/-- The channels plus the patterns of a connection. -/
noncomputable def total (R : Subscriptions) (connId : ConnectionId) : Nat :=
  {name | (connId, name) ∈ R .channel}.ncard + {name | (connId, name) ∈ R .pattern}.ncard

theorem total_update (R : Subscriptions) (kind : SubscriptionType)
    (S S' : Set (ConnectionId × Bytes)) (connId : ConnectionId) :
    total (Function.update R kind S) connId + {name | (connId, name) ∈ S'}.ncard =
      total (Function.update R kind S') connId + {name | (connId, name) ∈ S}.ncard := by
  cases kind with
  | channel =>
      simp only [total, Function.update_self, Function.update_of_ne, ne_eq,
        reduceCtorEq, not_false_eq_true]
      omega
  | pattern =>
      simp only [total, Function.update_self, Function.update_of_ne, ne_eq,
        reduceCtorEq, not_false_eq_true]
      omega

end Subscriptions

namespace ThreadLocalPubSub

/-- The subscriptions by the forward tables, from which messages are delivered. -/
def subscriptions (m : ThreadLocalPubSub) : Subscriptions :=
  fun kind => {s | s.1 ∈ (m.table kind).subscribers s.2}

theorem subscriptions_of_holds {m : ThreadLocalPubSub} {F B : Subscriptions}
    (h : Holds m F B) : m.subscriptions = F := by
  funext kind
  ext s
  exact (h.table kind).mem_subscribers s.1 s.2

theorem count_of_holds {m : ThreadLocalPubSub} {F B : Subscriptions} (h : Holds m F B)
    (connId : ConnectionId) :
    m.getConnectionSubscriptionCount connId = B.total connId := by
  have hcount : forall kind, {name | (connId, name) ∈ B kind}.ncard =
      ((m.table kind).namesOf connId).length := by
    intro kind
    apply ncard_eq_length ((h.table kind).names_nodup connId)
    exact fun name => ((h.table kind).mem_names connId name).symm
  rw [Subscriptions.total, hcount .channel, hcount .pattern]
  rfl

/-!
# What the confirmations say
-/

variable {st : PubSubState} {R : Subscriptions} {kind : SubscriptionType}
  {connId : ConnectionId} {message : PubSubMessage}

/-- Where every round counts the subscriptions that it leaves, the confirmation of a
name counts those that the names up to it leave. -/
theorem count_forEach {step : PubSubState -> Bytes -> PubSubMessage × PubSubState}
    (hstep : forall st name, (step st name).1.count? =
      some ((step st name).2.1.getConnectionSubscriptionCount connId))
    {names : List Bytes} {i : Nat}
    (hmessage : (forEach step st names).1[i]? = some message) :
    message.count? = some ((forEach step st
      (names.take (i + 1))).2.1.getConnectionSubscriptionCount connId) := by
  induction names generalizing st i with
  | nil => cases hmessage
  | cons name names ih =>
      cases i with
      | zero =>
          injection hmessage with heq
          rw [← heq]
          exact hstep st name
      | succ i => exact ih hmessage

theorem count_subscribed (kind : SubscriptionType) (name : Bytes) (count : Nat) :
    (subscribed kind name count).count? = some count := by
  cases kind <;> rfl

theorem count_unsubscribed (kind : SubscriptionType) (name : Bytes) (count : Nat) :
    (unsubscribed kind name count).count? = some count := by
  cases kind <;> rfl

theorem count_subscribeNames (h : Holds st.1 R R) {names : List Bytes} {i : Nat}
    (hmessage : (forEach (subscribeName kind connId) st names).1[i]? = some message) :
    message.count? = some ((R.join kind connId (names.take (i + 1))).total connId) := by
  rw [count_forEach (fun _ _ => count_subscribed kind _ _) hmessage,
    count_of_holds (subscribeNames_holds kind connId (names.take (i + 1)) h)]

theorem count_unsubscribeGiven (h : Holds st.1 R R) {names : List Bytes} {i : Nat}
    (hmessage : (forEach (unsubscribeGiven kind connId) st names).1[i]? = some message) :
    message.count? =
      some ((R.part kind connId (some (names.take (i + 1)))).total connId) := by
  rw [count_forEach (fun _ _ => count_unsubscribed kind _ _) hmessage,
    count_of_holds (unsubscribeGivenNames_holds kind connId (names.take (i + 1)) h)]

theorem count_unsubscribeAll (h : Holds st.1 R R) {i : Nat}
    (hmessage : (unsubscribeNames kind st connId none).1[i]? = some message) :
    message.count? = some ((R.part kind connId none).total connId) := by
  unfold unsubscribeNames at hmessage
  cases hlist : (st.1.table kind).names.lookup connId with
  | none =>
      rw [hlist] at hmessage
      cases hmessage
  | some names =>
      rw [hlist] at hmessage
      have hforget := holds_setTable h kind
        ((h.table kind).forgetConnection connId)
      have hloop : Holds (forEach (unsubscribeOwn kind connId)
          (st.1.setTable kind ((st.1.table kind).forgetConnection connId), st.2)
          (names.take (i + 1))).2.1 _ _ :=
        unsubscribeOwnNames_holds kind connId (names.take (i + 1)) hforget
      rw [count_forEach (fun _ _ => count_unsubscribed kind _ _) hmessage,
        count_of_holds hloop]
      rfl

theorem total_part_take (h : Holds st.1 R R) (kind : SubscriptionType)
    (connId : ConnectionId) (j : Nat) :
    (R.part kind connId (some (((st.1.table kind).namesOf connId).take j))).total
        connId =
      (R.part kind connId none).total connId +
        (((st.1.table kind).namesOf connId).length - j) := by
  have hnodup := (h.table kind).names_nodup connId
  have hrest : {name | (connId, name) ∈ R kind \
      {s | s.1 = connId ∧ s.2 ∈ ((st.1.table kind).namesOf connId).take j}}.ncard =
      (((st.1.table kind).namesOf connId).drop j).length := by
    apply ncard_eq_length (hnodup.sublist (List.drop_sublist j _))
    intro name
    have hmem := (h.table kind).mem_names connId name
    have happart := List.disjoint_take_drop hnodup (Nat.le_refl j)
    rw [← List.take_append_drop j ((st.1.table kind).namesOf connId),
      List.mem_append] at hmem
    constructor
    · intro hname
      exact (hmem.mpr hname.1).resolve_left fun htake => hname.2 ⟨rfl, htake⟩
    · intro hdrop
      exact ⟨hmem.mp (Or.inr hdrop), fun htake => happart htake.2 hdrop⟩
  have hnone : {name | (connId, name) ∈ R kind \ {s | s.1 = connId}}.ncard = 0 := by
    have hempty : {name | (connId, name) ∈ R kind \ {s | s.1 = connId}} = ∅ :=
      Set.eq_empty_of_forall_notMem fun name hname => hname.2 rfl
    rw [hempty, Set.ncard_empty]
  have hupdate := R.total_update kind
    (R kind \ {s | s.1 = connId ∧ s.2 ∈ ((st.1.table kind).namesOf connId).take j})
    (R kind \ {s | s.1 = connId}) connId
  rw [hrest, hnone, List.length_drop] at hupdate
  exact hupdate

end ThreadLocalPubSub

/-!
# Operations
-/

namespace PubSubOp

def process (R : Subscriptions) (connId : ConnectionId) (names : List Bytes) :
    PubSubOp -> Subscriptions
  | subscribe _ => R.join .channel connId names
  | psubscribe _ => R.join .pattern connId names
  | unsubscribe _ => R.part .channel connId (some names)
  | punsubscribe _ => R.part .pattern connId (some names)
  | _ => R

/-- The kind of subscriptions that an operation without names gives up. -/
def leavesAll : PubSubOp -> Option SubscriptionType
  | unsubscribe none => some .channel
  | punsubscribe none => some .pattern
  | _ => none

end PubSubOp

/-- Every confirmation says how many subscriptions there are when the names up to
its own have been processed. -/
def CountsExact (threadId : ThreadId) (st : PubSubState) (connId : ConnectionId)
    (op : PubSubOp) : Prop :=
  forall names, op.names st connId = some names -> forall i message,
    (served threadId connId st op).confirmations[i]? = some message ->
      message.count? =
        some ((op.process st.1.subscriptions connId
          (names.take (i + 1))).total connId)

namespace ThreadLocalPubSub

/-- Unsubscribing from everything counts right where there is no more than one
subscription to give up. -/
theorem all_exact_iff {st : PubSubState} {R : Subscriptions} (h : Holds st.1 R R)
    (kind : SubscriptionType) (connId : ConnectionId) :
    (forall i message, (unsubscribeNames kind st connId none).1[i]? = some message ->
        message.count? = some ((R.part kind connId
          (some (((st.1.table kind).namesOf connId).take (i + 1)))).total connId)) <->
      ((st.1.table kind).namesOf connId).length <= 1 := by
  have hlength := length_unsubscribeAll kind st connId
  constructor
  · intro hexact
    by_contra hmore
    have hfirst : 0 < (unsubscribeNames kind st connId none).1.length := by omega
    have hmessage := List.getElem?_eq_getElem hfirst
    have hcount := hexact 0 _ hmessage
    rw [count_unsubscribeAll h hmessage, total_part_take h] at hcount
    injection hcount with hcount
    omega
  · intro hone i message hmessage
    have hi := (List.getElem?_eq_some_iff.mp hmessage).1
    rw [count_unsubscribeAll h hmessage, total_part_take h]
    congr 1
    omega

end ThreadLocalPubSub

theorem counts_exact_given {st : PubSubState} {R : Subscriptions} (h : Holds st.1 R R)
    (threadId : ThreadId) (connId : ConnectionId) {op : PubSubOp}
    (hgiven : op.leavesAll = none) : CountsExact threadId st connId op := by
  unfold CountsExact
  rw [ThreadLocalPubSub.subscriptions_of_holds h]
  cases op with
  | subscribe names | psubscribe names =>
      intro names' hnames i message hmessage
      cases hnames
      exact ThreadLocalPubSub.count_subscribeNames h hmessage
  | unsubscribe names | punsubscribe names =>
      cases names with
      | none => cases hgiven
      | some names =>
          intro names' hnames i message hmessage
          cases hnames
          exact ThreadLocalPubSub.count_unsubscribeGiven h hmessage
  | publish _ _ | pubSubChannels _ | pubSubNumSub _ | pubSubNumPat =>
      intro names hnames
      cases hnames

/-- Those of an operation that gives up everything are right where there is no more
than one subscription to give up. -/
theorem counts_exact_all {st : PubSubState} {R : Subscriptions} (h : Holds st.1 R R)
    (threadId : ThreadId) (connId : ConnectionId) {op : PubSubOp}
    {kind : SubscriptionType} (hall : op.leavesAll = some kind) :
    CountsExact threadId st connId op <->
      ((st.1.table kind).namesOf connId).length <= 1 := by
  rw [← ThreadLocalPubSub.all_exact_iff h]
  unfold CountsExact
  rw [ThreadLocalPubSub.subscriptions_of_holds h]
  cases op with
  | unsubscribe names | punsubscribe names =>
      cases names with
      | some names => cases hall
      | none =>
          cases hall
          constructor
          · intro hexact
            exact hexact _ rfl
          · intro hexact names hnames
            cases hnames
            exact hexact
  | _ => cases hall

/-- In every reachable manager the counts are right if and only if the operation
names its channels or patterns, or there is no more than one to give up. -/
theorem counts_exact_iff {numThreads : Nat} {steps : List (ThreadId × ClusterOp)}
    {thread : ThreadId} {m : ThreadLocalPubSub}
    (hm : (Cluster.after numThreads steps).managers[thread]? = some m)
    (r : GlobalRegistry) (connId : ConnectionId) (op : PubSubOp) :
    CountsExact thread (m, r) connId op <->
      forall kind, op.leavesAll = some kind ->
        ((m.table kind).namesOf connId).length <= 1 := by
  rcases @Cluster.holds_after (fun _ _ => True) numThreads steps
    (fun _ _ _ _ => trivial) thread m hm with ⟨R, hR, _⟩
  have hholds : Holds (m, r).1 R R := hR
  cases hleaves : op.leavesAll with
  | none =>
      apply iff_of_true (counts_exact_given hholds thread connId hleaves)
      intro kind hkind
      cases hkind
  | some kind =>
      rw [counts_exact_all hholds thread connId hleaves]
      constructor
      · intro hone kind' hkind
        cases hkind
        exact hone
      · intro hone
        exact hone kind rfl

theorem counts_exact_one_channel :
    CountsExact 0
      ((ClusterOp.psubscribe 4 [[98]]).perform
        ((ClusterOp.subscribe 4 [[97]]).perform (.new 0, .new 1))) 4
      (.unsubscribe none) := by
  apply (@counts_exact_iff 1 [(0, .subscribe 4 [[97]]), (0, .psubscribe 4 [[98]])] 0 _
    rfl _ 4 (.unsubscribe none)).mpr
  intro kind hkind
  cases hkind
  decide

/-- A client that leaves its two channels at once is told twice that no subscription
is left. -/
theorem unsubscribe_counts_short :
    exists m, (Cluster.after 1 [(0, .subscribe 4 [[97], [98]])]).managers[0]? = some m ∧
      (served 0 4 (m, .new 1) (.unsubscribe none)).confirmations =
        [.unsubscribe (some [97]) 0, .unsubscribe (some [98]) 0] ∧
      ¬ CountsExact 0 (m, .new 1) 4 (.unsubscribe none) := by
  let m := ((ClusterOp.subscribe 4 [[97], [98]]).perform (.new 0, .new 1)).1
  have hholds : Holds (m, GlobalRegistry.new 1).1 _ _ :=
    @ClusterOp.perform_holds (.subscribe 4 [[97], [98]]) (.new 0, .new 1) _ (holds_new 0)
  refine ⟨m, rfl, rfl, ?_⟩
  rw [@counts_exact_all _ _ hholds 0 4 (.unsubscribe none) .channel rfl]
  decide

end FeoxServer
