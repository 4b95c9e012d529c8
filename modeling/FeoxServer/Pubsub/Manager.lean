import FeoxServer.Pubsub.Pattern
import FeoxServer.Pubsub.Registry

/-!
# The manager of one thread

Every worker thread keeps the subscriptions of its own connections.  Channels
and patterns are handled alike; only patterns are also kept in the trie.
-/

namespace FeoxServer

open Foundation

inductive SubscriptionType where
  | channel
  | pattern
  deriving DecidableEq

/-- One kind of subscriptions: `exact_subs` and `connection_channels`, or
`pattern_subs` and `connection_patterns`. -/
structure SubscriptionTable where
  subs : AList fun _ : Bytes => List ConnectionId
  names : AList fun _ : ConnectionId => List Bytes

namespace SubscriptionTable

def empty : SubscriptionTable where
  subs := ∅
  names := ∅

def subscribers (t : SubscriptionTable) (name : Bytes) : List ConnectionId :=
  (t.subs.lookup name).getD []

def namesOf (t : SubscriptionTable) (connId : ConnectionId) : List Bytes :=
  (t.names.lookup connId).getD []

def add (t : SubscriptionTable) (connId : ConnectionId) (name : Bytes) :
    SubscriptionTable where
  subs := t.subs.insert name (t.subscribers name ++ [connId])
  names := t.names.insert connId (t.namesOf connId ++ [name])

/-- Take a connection out of the subscribers of a name; a name without
subscribers is dropped. -/
def leave (t : SubscriptionTable) (connId : ConnectionId) (name : Bytes) :
    SubscriptionTable :=
  match t.subs.lookup name with
  | some subs =>
      if subs.filter (· ≠ connId) = [] then { t with subs := t.subs.erase name }
      else { t with subs := t.subs.insert name (subs.filter (· ≠ connId)) }
  | none => t

/-- Whether `leave` drops the name. -/
def leavesEmpty (t : SubscriptionTable) (connId : ConnectionId)
    (name : Bytes) : Bool :=
  match t.subs.lookup name with
  | some subs => decide (subs.filter (· ≠ connId) = [])
  | none => false

def forgetName (t : SubscriptionTable) (connId : ConnectionId) (name : Bytes) :
    SubscriptionTable :=
  match t.names.lookup connId with
  | some list =>
      { t with names := t.names.insert connId (list.filter (· ≠ name)) }
  | none => t

def forgetConnection (t : SubscriptionTable) (connId : ConnectionId) :
    SubscriptionTable :=
  { t with names := t.names.erase connId }

end SubscriptionTable

namespace GlobalRegistry

def interested (r : GlobalRegistry) (kind : SubscriptionType) (name : Bytes) :
    ListSet ThreadId :=
  match kind with
  | .channel => Interests.threads r.channelToThreads name
  | .pattern => Interests.threads r.patternToThreads name

def addInterest (r : GlobalRegistry) (kind : SubscriptionType) (name : Bytes)
    (thread : ThreadId) : GlobalRegistry :=
  match kind with
  | .channel => r.addChannelInterest name thread
  | .pattern => r.addPatternInterest name thread

def removeInterest (r : GlobalRegistry) (kind : SubscriptionType)
    (name : Bytes) (thread : ThreadId) : GlobalRegistry :=
  match kind with
  | .channel => r.removeChannelInterest name thread
  | .pattern => r.removePatternInterest name thread

def incrementSubscribers (r : GlobalRegistry) (kind : SubscriptionType)
    (name : Bytes) : GlobalRegistry :=
  match kind with
  | .channel => r.incrementChannelSubscribers name
  | .pattern => r.incrementPatternSubscribers name

def decrementSubscribers (r : GlobalRegistry) (kind : SubscriptionType)
    (name : Bytes) : GlobalRegistry :=
  match kind with
  | .channel => r.decrementChannelSubscribers name
  | .pattern => r.decrementPatternSubscribers name

end GlobalRegistry

structure ThreadLocalPubSub where
  threadId : ThreadId
  channels : SubscriptionTable
  patterns : SubscriptionTable
  patternTrie : PatternTrie

abbrev PubSubState : Type :=
  ThreadLocalPubSub × GlobalRegistry

namespace ThreadLocalPubSub

def new (threadId : ThreadId) : ThreadLocalPubSub where
  threadId := threadId
  channels := .empty
  patterns := .empty
  patternTrie := .new

def table (m : ThreadLocalPubSub) : SubscriptionType -> SubscriptionTable
  | .channel => m.channels
  | .pattern => m.patterns

def setTable (m : ThreadLocalPubSub) (kind : SubscriptionType)
    (t : SubscriptionTable) : ThreadLocalPubSub :=
  match kind with
  | .channel => { m with channels := t }
  | .pattern => { m with patterns := t }

def getConnectionSubscriptionCount (m : ThreadLocalPubSub)
    (connId : ConnectionId) : Nat :=
  (m.channels.namesOf connId).length + (m.patterns.namesOf connId).length

/-!
# Subscribing
-/

def subscribed (kind : SubscriptionType) (name : Bytes) (count : Nat) :
    PubSubMessage :=
  match kind with
  | .channel => .subscribe name count
  | .pattern => .psubscribe name count

def enter (kind : SubscriptionType) (connId : ConnectionId) (name : Bytes)
    (m : ThreadLocalPubSub) : ThreadLocalPubSub :=
  match kind with
  | .channel => { m with channels := m.channels.add connId name }
  | .pattern =>
      { m with
        patternTrie := m.patternTrie.insert name connId
        patterns := m.patterns.add connId name }

/-- One round of the loop of `subscribe` and `psubscribe`. -/
def subscribeName (kind : SubscriptionType) (connId : ConnectionId)
    (st : PubSubState) (name : Bytes) : PubSubMessage × PubSubState :=
  let isNew := decide (¬ name ∈ (st.1.table kind).subs)
  let alreadySubscribed :=
    decide (connId ∈ (st.1.table kind).subscribers name)
  let m := if alreadySubscribed then st.1 else enter kind connId name st.1
  let r := if alreadySubscribed then st.2
    else st.2.incrementSubscribers kind name
  let r := if isNew then r.addInterest kind name m.threadId else r
  (subscribed kind name (m.getConnectionSubscriptionCount connId), (m, r))

def forEach {σ α β : Type} (step : σ -> α -> β × σ) : σ -> List α -> List β × σ
  | s, [] => ([], s)
  | s, a :: as =>
      let (b, s1) := step s a
      let (bs, s2) := forEach step s1 as
      (b :: bs, s2)

def subscribe (st : PubSubState) (connId : ConnectionId)
    (channels : List Bytes) : List PubSubMessage × PubSubState :=
  forEach (subscribeName .channel connId) st channels

def psubscribe (st : PubSubState) (connId : ConnectionId)
    (patterns : List Bytes) : List PubSubMessage × PubSubState :=
  forEach (subscribeName .pattern connId) st patterns

/-!
# Unsubscribing
-/

def unsubscribed (kind : SubscriptionType) (name : Bytes) (count : Nat) :
    PubSubMessage :=
  match kind with
  | .channel => .unsubscribe (some name) count
  | .pattern => .punsubscribe (some name) count

def dropFromTrie (kind : SubscriptionType) (connId : ConnectionId)
    (name : Bytes) (m : ThreadLocalPubSub) : ThreadLocalPubSub :=
  match kind with
  | .channel => m
  | .pattern => { m with patternTrie := m.patternTrie.remove name connId }

def leaveName (kind : SubscriptionType) (connId : ConnectionId)
    (st : PubSubState) (name : Bytes) : PubSubState :=
  let m := dropFromTrie kind connId name st.1
  let t := m.table kind
  let r := if connId ∈ t.subscribers name then
      st.2.decrementSubscribers kind name
    else st.2
  let r := if t.leavesEmpty connId name then
      r.removeInterest kind name m.threadId
    else r
  (m.setTable kind (t.leave connId name), r)

def unsubscribeGiven (kind : SubscriptionType) (connId : ConnectionId)
    (st : PubSubState) (name : Bytes) : PubSubMessage × PubSubState :=
  let (m, r) := leaveName kind connId st name
  let m := m.setTable kind ((m.table kind).forgetName connId name)
  (unsubscribed kind name (m.getConnectionSubscriptionCount connId), (m, r))

/-- One round of the loop over all names of a connection, whose own list is
already gone. -/
def unsubscribeOwn (kind : SubscriptionType) (connId : ConnectionId)
    (st : PubSubState) (name : Bytes) : PubSubMessage × PubSubState :=
  let (m, r) := leaveName kind connId st name
  (unsubscribed kind name (m.getConnectionSubscriptionCount connId), (m, r))

def unsubscribeNames (kind : SubscriptionType) (st : PubSubState)
    (connId : ConnectionId) :
    Option (List Bytes) -> List PubSubMessage × PubSubState
  | some names => forEach (unsubscribeGiven kind connId) st names
  | none =>
      match (st.1.table kind).names.lookup connId with
      | some names =>
          let m := st.1.setTable kind ((st.1.table kind).forgetConnection connId)
          forEach (unsubscribeOwn kind connId) (m, st.2) names
      | none => ([], st)

def unsubscribe : PubSubState -> ConnectionId -> Option (List Bytes) ->
    List PubSubMessage × PubSubState :=
  unsubscribeNames .channel

def punsubscribe : PubSubState -> ConnectionId -> Option (List Bytes) ->
    List PubSubMessage × PubSubState :=
  unsubscribeNames .pattern

def connectionDropped (st : PubSubState) (connId : ConnectionId) :
    PubSubState :=
  (punsubscribe (unsubscribe st connId none).2 connId none).2

/-!
# Publishing
-/

def patternDeliveries (m : ThreadLocalPubSub) (channel message : Bytes) :
    List Delivery :=
  (m.patternTrie.findMatches channel).map fun found =>
    (found.2, .patternMessage found.1 channel message)

def publishLocal (m : ThreadLocalPubSub) (channel message : Bytes) :
    List Delivery :=
  ((m.channels.subscribers channel).map fun connId =>
      (connId, .message channel message)) ++
    m.patternDeliveries channel message

/-- What a publication on a thread sends to the inboxes, in order: first to the
threads with an interest in the channel, then to all with a pattern. -/
def broadcasts (r : GlobalRegistry) (threadId : ThreadId)
    (channel message : Bytes) : List (ThreadId × BroadcastMsg) :=
  ((r.getChannelThreads channel).map fun thread =>
      (thread, .publish channel message (some threadId))) ++
    r.getAllPatternThreads.items.map fun thread =>
      (thread, .patternPublish channel message (some threadId))

/-- A publication: the deliveries on the thread itself, the number of
subscribers to report, and the registry after the broadcasts. -/
def publish (st : PubSubState) (threadId : ThreadId) (channel message : Bytes) :
    List Delivery × Nat × GlobalRegistry :=
  let localDeliveries := st.1.publishLocal channel message
  let channelThreads := st.2.getChannelThreads channel
  let patternThreads := st.2.getAllPatternThreads
  let r := st.2.broadcastToThreads
    (.publish channel message (some threadId)) channelThreads
  let r := r.broadcastToThreads
    (.patternPublish channel message (some threadId)) patternThreads.items
  (localDeliveries,
    r.getChannelSubscriberCount channel + r.getTotalPatternMatches channel, r)

theorem publish_registry (st : PubSubState) (threadId : ThreadId)
    (channel message : Bytes) :
    (publish st threadId channel message).2.2 =
      (broadcasts st.2 threadId channel message).foldl
        (fun r send => r.trySend send.1 send.2) st.2 := by
  unfold publish broadcasts GlobalRegistry.broadcastToThreads
  rw [List.foldl_append, List.foldl_map, List.foldl_map]

def receive (m : ThreadLocalPubSub) : BroadcastMsg -> List Delivery
  | .publish channel message excludeThread =>
      if some m.threadId ≠ excludeThread then m.publishLocal channel message
      else []
  | .patternPublish channel message excludeThread =>
      if some m.threadId ≠ excludeThread then
        m.patternDeliveries channel message
      else []

/-- `process_inbox`: take everything out of the inbox. -/
def processInbox (st : PubSubState) : List Delivery × PubSubState :=
  let inbox := (st.2.inboxes[st.1.threadId]?).getD []
  (inbox.flatMap st.1.receive,
    (st.1, { st.2 with inboxes := st.2.inboxes.set st.1.threadId [] }))

end ThreadLocalPubSub

end FeoxServer
