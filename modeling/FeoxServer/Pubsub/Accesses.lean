import FeoxServer.Pubsub.Subscriptions

/-!
# Accesses to the shared maps

What an operation of a manager does to the registry is a list of accesses, each
to one entry of one map.  An entry that has become empty is deleted in an access
of its own.
-/

namespace FeoxServer

open Foundation

theorem erase_insert {β : Type} (table : AList fun _ : Bytes => β)
    (name : Bytes) (b : β) :
    (table.insert name b).erase name = table.erase name := by
  apply AList.ext
  simp only [AList.erase, AList.insert, List.kinsert_def, List.kerase_cons_eq]

namespace Interests

/-- The guarded half of `remove`: take the thread out, and test whether it was
the last. -/
def withdraw (interests : Interests) (name : Bytes) (thread : ThreadId) :
    Interests × Bool :=
  match interests.lookup name with
  | some entry =>
      (interests.insert name (entry.remove thread),
        (entry.remove thread).isEmpty)
  | none => (interests, false)

theorem remove_eq (interests : Interests) (name : Bytes) (thread : ThreadId) :
    interests.remove name thread =
      if (interests.withdraw name thread).2 then
        (interests.withdraw name thread).1.erase name
      else (interests.withdraw name thread).1 := by
  unfold remove withdraw
  cases interests.lookup name with
  | none => rfl
  | some entry =>
      simp only
      rw [erase_insert]

end Interests

namespace Counters

def count (counters : Counters) (name : Bytes) : Nat :=
  (counters.lookup name).getD 0

/-- The guarded half of `decrement`: subtract, and test for zero. -/
def subtract (counters : Counters) (name : Bytes) : Counters × Bool :=
  match counters.lookup name with
  | some count => (counters.insert name (count - 1), decide (count - 1 = 0))
  | none => (counters, false)

theorem decrement_eq (counters : Counters) (name : Bytes) :
    counters.decrement name =
      if (counters.subtract name).2 then (counters.subtract name).1.erase name
      else (counters.subtract name).1 := by
  unfold decrement subtract
  cases counters.lookup name with
  | none => rfl
  | some count =>
      simp only [decide_eq_true_eq]
      rw [erase_insert]

end Counters

namespace GlobalRegistry

def interests (r : GlobalRegistry) : SubscriptionType -> Interests
  | .channel => r.channelToThreads
  | .pattern => r.patternToThreads

def setInterests (r : GlobalRegistry) (kind : SubscriptionType)
    (interests : Interests) : GlobalRegistry :=
  match kind with
  | .channel => { r with channelToThreads := interests }
  | .pattern => { r with patternToThreads := interests }

def counters (r : GlobalRegistry) : SubscriptionType -> Counters
  | .channel => r.channelSubscriberCounts
  | .pattern => r.patternSubscriberCounts

def setCounters (r : GlobalRegistry) (kind : SubscriptionType)
    (counters : Counters) : GlobalRegistry :=
  match kind with
  | .channel => { r with channelSubscriberCounts := counters }
  | .pattern => { r with patternSubscriberCounts := counters }

end GlobalRegistry

/-- One access to an entry of a map. -/
inductive Access where
  | increment (kind : SubscriptionType) (name : Bytes)
  | decrement (kind : SubscriptionType) (name : Bytes)
  | deleteCount (kind : SubscriptionType) (name : Bytes)
  | addInterest (kind : SubscriptionType) (name : Bytes)
  | removeInterest (kind : SubscriptionType) (name : Bytes)
  | deleteInterest (kind : SubscriptionType) (name : Bytes)
  deriving DecidableEq

namespace Access

/-- The registry after an access of a thread, and the deletion that the access
calls for. -/
def perform (thread : ThreadId) (r : GlobalRegistry) :
    Access -> GlobalRegistry × List Access
  | increment kind name => (r.incrementSubscribers kind name, [])
  | decrement kind name =>
      let (counters, zero) := (r.counters kind).subtract name
      (r.setCounters kind counters, if zero then [deleteCount kind name] else [])
  | deleteCount kind name =>
      (r.setCounters kind ((r.counters kind).erase name), [])
  | addInterest kind name => (r.addInterest kind name thread, [])
  | removeInterest kind name =>
      let (interests, empty) := (r.interests kind).withdraw name thread
      (r.setInterests kind interests,
        if empty then [deleteInterest kind name] else [])
  | deleteInterest kind name =>
      (r.setInterests kind ((r.interests kind).erase name), [])

def complete (thread : ThreadId) (r : GlobalRegistry) (access : Access) :
    GlobalRegistry :=
  let (r1, next) := access.perform thread r
  next.foldl (fun r access => (access.perform thread r).1) r1

def completeAll (thread : ThreadId) (r : GlobalRegistry)
    (accesses : List Access) : GlobalRegistry :=
  accesses.foldl (complete thread) r

theorem complete_decrement (thread : ThreadId) (r : GlobalRegistry)
    (kind : SubscriptionType) (name : Bytes) :
    complete thread r (.decrement kind name) =
      r.decrementSubscribers kind name := by
  have h := Counters.decrement_eq (r.counters kind) name
  cases kind with
  | channel =>
      simp only [complete, perform, GlobalRegistry.decrementSubscribers,
        GlobalRegistry.decrementChannelSubscribers]
      rw [show r.channelSubscriberCounts = r.counters .channel from rfl, h]
      split <;> rfl
  | pattern =>
      simp only [complete, perform, GlobalRegistry.decrementSubscribers,
        GlobalRegistry.decrementPatternSubscribers]
      rw [show r.patternSubscriberCounts = r.counters .pattern from rfl, h]
      split <;> rfl

theorem complete_removeInterest (thread : ThreadId) (r : GlobalRegistry)
    (kind : SubscriptionType) (name : Bytes) :
    complete thread r (.removeInterest kind name) =
      r.removeInterest kind name thread := by
  have h := Interests.remove_eq (r.interests kind) name thread
  cases kind with
  | channel =>
      simp only [complete, perform, GlobalRegistry.removeInterest,
        GlobalRegistry.removeChannelInterest]
      rw [show r.channelToThreads = r.interests .channel from rfl, h]
      split <;> rfl
  | pattern =>
      simp only [complete, perform, GlobalRegistry.removeInterest,
        GlobalRegistry.removePatternInterest]
      rw [show r.patternToThreads = r.interests .pattern from rfl, h]
      split <;> rfl

theorem completeAll_append (thread : ThreadId) (r : GlobalRegistry)
    (as bs : List Access) :
    completeAll thread r (as ++ bs) =
      completeAll thread (completeAll thread r as) bs :=
  List.foldl_append

end Access

/-!
# The accesses of an operation

None of them depends on what the registry holds.
-/

namespace ThreadLocalPubSub

/-- The own half of `subscribeName`, and its accesses. -/
def subscribeTrace (kind : SubscriptionType) (connId : ConnectionId)
    (m : ThreadLocalPubSub) (name : Bytes) : List Access × ThreadLocalPubSub :=
  if connId ∈ (m.table kind).subscribers name then
    (if name ∈ (m.table kind).subs then [] else [.addInterest kind name], m)
  else
    (.increment kind name ::
        if name ∈ (m.table kind).subs then [] else [.addInterest kind name],
      enter kind connId name m)

/-- The own half of `leaveName`, and its accesses. -/
def leaveTrace (kind : SubscriptionType) (connId : ConnectionId)
    (m : ThreadLocalPubSub) (name : Bytes) : List Access × ThreadLocalPubSub :=
  ((if connId ∈ (m.table kind).subscribers name then [.decrement kind name]
      else []) ++
    (if (m.table kind).leavesEmpty connId name then [.removeInterest kind name]
      else []),
    (dropFromTrie kind connId name m).setTable kind
      ((m.table kind).leave connId name))

def unsubscribeGivenTrace (kind : SubscriptionType) (connId : ConnectionId)
    (m : ThreadLocalPubSub) (name : Bytes) : List Access × ThreadLocalPubSub :=
  let (accesses, m) := leaveTrace kind connId m name
  (accesses, m.setTable kind ((m.table kind).forgetName connId name))

def traceAll (trace : ThreadLocalPubSub -> Bytes ->
    List Access × ThreadLocalPubSub) (m : ThreadLocalPubSub)
    (names : List Bytes) : List Access × ThreadLocalPubSub :=
  let (accesses, m) := forEach trace m names
  (accesses.flatten, m)

def unsubscribeTrace (kind : SubscriptionType) (m : ThreadLocalPubSub)
    (connId : ConnectionId) :
    Option (List Bytes) -> List Access × ThreadLocalPubSub
  | some names => traceAll (unsubscribeGivenTrace kind connId) m names
  | none =>
      match (m.table kind).names.lookup connId with
      | some names =>
          traceAll (leaveTrace kind connId)
            (m.setTable kind ((m.table kind).forgetConnection connId)) names
      | none => ([], m)

end ThreadLocalPubSub

def ClusterOp.trace (m : ThreadLocalPubSub) :
    ClusterOp -> List Access × ThreadLocalPubSub
  | .subscribe connId channels =>
      ThreadLocalPubSub.traceAll
        (ThreadLocalPubSub.subscribeTrace .channel connId) m channels
  | .unsubscribe connId channels =>
      ThreadLocalPubSub.unsubscribeTrace .channel m connId channels
  | .psubscribe connId patterns =>
      ThreadLocalPubSub.traceAll
        (ThreadLocalPubSub.subscribeTrace .pattern connId) m patterns
  | .punsubscribe connId patterns =>
      ThreadLocalPubSub.unsubscribeTrace .pattern m connId patterns
  | .connectionDropped connId =>
      let (as, m) := ThreadLocalPubSub.unsubscribeTrace .channel m connId none
      let (bs, m) := ThreadLocalPubSub.unsubscribeTrace .pattern m connId none
      (as ++ bs, m)
  | .publish _ _ => ([], m)
  | .processInbox => ([], m)

/-!
# An operation is its own half and its accesses
-/

/-- Registries that differ at most in the inboxes. -/
structure SameMaps (r r' : GlobalRegistry) : Prop where
  interests : r'.interests = r.interests
  counters : r'.counters = r.counters

theorem SameMaps.refl (r : GlobalRegistry) : SameMaps r r :=
  ⟨rfl, rfl⟩

theorem SameMaps.trans {r r' r'' : GlobalRegistry} (h : SameMaps r r')
    (h' : SameMaps r' r'') : SameMaps r r'' :=
  ⟨h'.interests.trans h.interests, h'.counters.trans h.counters⟩

/-- Alone, a step on the whole state comes to the step on the manager and the
accesses in order. -/
def Traced (st : PubSubState) (trace : List Access × ThreadLocalPubSub)
    (st' : PubSubState) : Prop :=
  st' = (trace.2, Access.completeAll st.1.threadId st.2 trace.1)

namespace ThreadLocalPubSub

theorem subscribeName_traced (kind : SubscriptionType) (connId : ConnectionId)
    (st : PubSubState) (name : Bytes) :
    Traced st (subscribeTrace kind connId st.1 name)
      (subscribeName kind connId st name).2 := by
  unfold Traced subscribeTrace subscribeName
  by_cases halready : connId ∈ (st.1.table kind).subscribers name
  · by_cases hknown : name ∈ (st.1.table kind).subs
    · simp [halready, hknown, Access.completeAll]
    · simp [halready, hknown, Access.completeAll, Access.complete,
        Access.perform]
  · by_cases hknown : name ∈ (st.1.table kind).subs
    · simp [halready, hknown, Access.completeAll, Access.complete,
        Access.perform]
    · simp [halready, hknown, Access.completeAll, Access.complete,
        Access.perform]

theorem leaveName_traced (kind : SubscriptionType) (connId : ConnectionId)
    (st : PubSubState) (name : Bytes) :
    Traced st (leaveTrace kind connId st.1 name)
      (leaveName kind connId st name) := by
  unfold Traced leaveTrace leaveName
  simp only [table_dropFromTrie, threadId_dropFromTrie]
  by_cases hmem : connId ∈ (st.1.table kind).subscribers name
  · by_cases hempty : (st.1.table kind).leavesEmpty connId name
    · simp [hmem, hempty, Access.completeAll, Access.complete_decrement,
        Access.complete_removeInterest]
    · simp [hmem, hempty, Access.completeAll, Access.complete_decrement]
  · by_cases hempty : (st.1.table kind).leavesEmpty connId name
    · simp [hmem, hempty, Access.completeAll, Access.complete_removeInterest]
    · simp [hmem, hempty, Access.completeAll]

theorem unsubscribeGiven_traced (kind : SubscriptionType)
    (connId : ConnectionId) (st : PubSubState) (name : Bytes) :
    Traced st (unsubscribeGivenTrace kind connId st.1 name)
      (unsubscribeGiven kind connId st name).2 := by
  have h := leaveName_traced kind connId st name
  unfold Traced at h ⊢
  unfold unsubscribeGiven unsubscribeGivenTrace
  rw [h]

theorem forEach_traced {α : Type}
    {step : PubSubState -> Bytes -> α × PubSubState}
    {trace : ThreadLocalPubSub -> Bytes -> List Access × ThreadLocalPubSub}
    (hstep : forall st name, Traced st (trace st.1 name) (step st name).2)
    (hid : forall m name, (trace m name).2.threadId = m.threadId)
    (st : PubSubState) (names : List Bytes) :
    Traced st (traceAll trace st.1 names) (forEach step st names).2 := by
  induction names generalizing st with
  | nil => rfl
  | cons name names ih =>
      have hname := hstep st name
      have hrest := ih (step st name).2
      unfold Traced at hname hrest ⊢
      unfold traceAll at hrest ⊢
      simp only [forEach, List.flatten_cons, Access.completeAll_append] at hrest ⊢
      rw [hrest, hname]
      simp only [hid]

theorem threadId_subscribeTrace (kind : SubscriptionType)
    (connId : ConnectionId) (m : ThreadLocalPubSub) (name : Bytes) :
    (subscribeTrace kind connId m name).2.threadId = m.threadId := by
  unfold subscribeTrace
  split
  · rfl
  · exact threadId_enter m kind connId name

theorem threadId_leaveTrace (kind : SubscriptionType) (connId : ConnectionId)
    (m : ThreadLocalPubSub) (name : Bytes) :
    (leaveTrace kind connId m name).2.threadId = m.threadId := by
  simp [leaveTrace]

theorem threadId_unsubscribeGivenTrace (kind : SubscriptionType)
    (connId : ConnectionId) (m : ThreadLocalPubSub) (name : Bytes) :
    (unsubscribeGivenTrace kind connId m name).2.threadId = m.threadId := by
  simp [unsubscribeGivenTrace, threadId_leaveTrace]

theorem threadId_traceAll {trace : ThreadLocalPubSub -> Bytes ->
      List Access × ThreadLocalPubSub}
    (hid : forall m name, (trace m name).2.threadId = m.threadId)
    (m : ThreadLocalPubSub) (names : List Bytes) :
    (traceAll trace m names).2.threadId = m.threadId := by
  unfold traceAll
  simp only
  induction names generalizing m with
  | nil => rfl
  | cons name names ih => exact (ih (trace m name).2).trans (hid m name)

theorem threadId_unsubscribeTrace (kind : SubscriptionType)
    (m : ThreadLocalPubSub) (connId : ConnectionId)
    (names : Option (List Bytes)) :
    (unsubscribeTrace kind m connId names).2.threadId = m.threadId := by
  cases names with
  | some names =>
      exact threadId_traceAll (threadId_unsubscribeGivenTrace kind connId) m names
  | none =>
      unfold unsubscribeTrace
      cases (m.table kind).names.lookup connId with
      | none => rfl
      | some names =>
          exact (threadId_traceAll (threadId_leaveTrace kind connId) _ names).trans
            (threadId_setTable m kind _)

theorem unsubscribeNames_traced (kind : SubscriptionType) (st : PubSubState)
    (connId : ConnectionId) (names : Option (List Bytes)) :
    Traced st (unsubscribeTrace kind st.1 connId names)
      (unsubscribeNames kind st connId names).2 := by
  cases names with
  | some names =>
      exact forEach_traced (unsubscribeGiven_traced kind connId)
        (threadId_unsubscribeGivenTrace kind connId) st names
  | none =>
      unfold unsubscribeTrace unsubscribeNames
      cases (st.1.table kind).names.lookup connId with
      | none => rfl
      | some names =>
          let start : PubSubState :=
            (st.1.setTable kind ((st.1.table kind).forgetConnection connId), st.2)
          have h : Traced start
              (traceAll (leaveTrace kind connId) start.1 names)
              (forEach (unsubscribeOwn kind connId) start names).2 :=
            forEach_traced (leaveName_traced kind connId)
              (threadId_leaveTrace kind connId) start names
          unfold Traced at h ⊢
          rw [threadId_setTable] at h
          exact h

theorem connectionDropped_traced (st : PubSubState) (connId : ConnectionId) :
    Traced st (ClusterOp.trace st.1 (.connectionDropped connId))
      (connectionDropped st connId) := by
  have hfirst := unsubscribeNames_traced .channel st connId none
  have hsecond := unsubscribeNames_traced .pattern
    (unsubscribeNames .channel st connId none).2 connId none
  unfold Traced at hfirst hsecond ⊢
  change (unsubscribeNames .pattern
    (unsubscribeNames .channel st connId none).2 connId none).2 = _
  rw [hsecond, hfirst]
  simp only [ClusterOp.trace, Access.completeAll_append,
    threadId_unsubscribeTrace]

end ThreadLocalPubSub

theorem sameMaps_trySend (r : GlobalRegistry) (thread : ThreadId)
    (msg : BroadcastMsg) : SameMaps r (r.trySend thread msg) := by
  unfold GlobalRegistry.trySend
  cases r.inboxes[thread]? with
  | none => exact SameMaps.refl r
  | some inbox =>
      simp only
      split
      · constructor
        · funext kind
          cases kind <;> rfl
        · funext kind
          cases kind <;> rfl
      · exact SameMaps.refl r

theorem sameMaps_foldl_trySend (sends : List (ThreadId × BroadcastMsg))
    (r : GlobalRegistry) :
    SameMaps r (sends.foldl (fun r send => r.trySend send.1 send.2) r) := by
  induction sends generalizing r with
  | nil => exact SameMaps.refl r
  | cons send sends ih => exact (sameMaps_trySend r send.1 send.2).trans (ih _)

theorem ClusterOp.perform_traced (op : ClusterOp) (st : PubSubState) :
    (op.perform st).1 = (op.trace st.1).2 ∧
      SameMaps (Access.completeAll st.1.threadId st.2 (op.trace st.1).1)
        (op.perform st).2 := by
  have htraced : forall {st' : PubSubState} {t : List Access × ThreadLocalPubSub},
      Traced st t st' -> st'.1 = t.2 ∧
        SameMaps (Access.completeAll st.1.threadId st.2 t.1) st'.2 := by
    rintro st' t rfl
    exact ⟨rfl, SameMaps.refl _⟩
  cases op with
  | subscribe connId channels =>
      exact htraced (ThreadLocalPubSub.forEach_traced
        (ThreadLocalPubSub.subscribeName_traced .channel connId)
        (ThreadLocalPubSub.threadId_subscribeTrace .channel connId) st channels)
  | unsubscribe connId channels =>
      exact htraced
        (ThreadLocalPubSub.unsubscribeNames_traced .channel st connId channels)
  | psubscribe connId patterns =>
      exact htraced (ThreadLocalPubSub.forEach_traced
        (ThreadLocalPubSub.subscribeName_traced .pattern connId)
        (ThreadLocalPubSub.threadId_subscribeTrace .pattern connId) st patterns)
  | punsubscribe connId patterns =>
      exact htraced
        (ThreadLocalPubSub.unsubscribeNames_traced .pattern st connId patterns)
  | connectionDropped connId =>
      exact htraced (ThreadLocalPubSub.connectionDropped_traced st connId)
  | publish channel message =>
      refine ⟨rfl, ?_⟩
      change SameMaps st.2
        (ThreadLocalPubSub.publish st st.1.threadId channel message).2.2
      rw [ThreadLocalPubSub.publish_registry]
      exact sameMaps_foldl_trySend _ st.2
  | processInbox =>
      refine ⟨rfl, ?_, ?_⟩
      · funext kind
        cases kind <;> rfl
      · funext kind
        cases kind <;> rfl

end FeoxServer
