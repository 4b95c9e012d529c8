import FeoxServer.Network.Connection
import FeoxServer.Pubsub.Manager

/-!
# Handling publish and subscribe operations

What a worker does for a connection with an operation that the connection has
left to it.  Confirmations are queued; other replies go to the write buffer at
once.
-/

namespace FeoxServer

open Foundation

namespace Connection

def confirm (c : Connection) (message : PubSubMessage) : Connection :=
  match message with
  | .subscribe _ count | .unsubscribe _ count
  | .psubscribe _ count | .punsubscribe _ count =>
      (c.setSubscriptionCount count).queuePubsubMessage message
  | _ => c.queuePubsubMessage message

def confirmAll (c : Connection) (messages : List PubSubMessage) : Connection :=
  messages.foldl confirm c

end Connection

namespace GlobalRegistry

/-- The reply to `PUBSUB CHANNELS`. -/
def channelsReply (r : GlobalRegistry) (pattern : Option Bytes) : RespValue :=
  let filtered :=
    match pattern with
    | some pat => r.getAllChannels.filter fun channel => globMatch pat channel
    | none => r.getAllChannels
  .array (some (filtered.map fun channel => .bulkString (some channel)))

/-- The reply to `PUBSUB NUMSUB`. -/
def numSubReply (r : GlobalRegistry) (channels : List Bytes) : RespValue :=
  .array (some (channels.flatMap fun channel =>
    [.bulkString (some channel),
      .integer (Int64.ofNat (r.getChannelSubscriberCount channel))]))

/-- The reply to `PUBSUB NUMPAT`. -/
def numPatReply (r : GlobalRegistry) : RespValue :=
  .integer (Int64.ofNat r.getPatternCount)

end GlobalRegistry

/-- `handle_pubsub_operation`: the deliveries of a publication, the connection
and the state of the service. -/
def handlePubsubOperation (st : PubSubState) (connId : ConnectionId)
    (op : PubSubOp) (c : Connection) (threadId : ThreadId) :
    List Delivery × Connection × PubSubState :=
  match op with
  | .subscribe channels =>
      let (messages, st) := ThreadLocalPubSub.subscribe st connId channels
      ([], c.confirmAll messages, st)
  | .unsubscribe channels =>
      let (messages, st) := ThreadLocalPubSub.unsubscribe st connId channels
      ([], c.confirmAll messages, st)
  | .psubscribe patterns =>
      let (messages, st) := ThreadLocalPubSub.psubscribe st connId patterns
      ([], c.confirmAll messages, st)
  | .punsubscribe patterns =>
      let (messages, st) := ThreadLocalPubSub.punsubscribe st connId patterns
      ([], c.confirmAll messages, st)
  | .publish channel message =>
      let (deliveries, count, r) :=
        ThreadLocalPubSub.publish st threadId channel message
      (deliveries,
        c.write (formatRespResponse (.integer (Int64.ofNat count))),
        (st.1, r))
  | .pubSubChannels pattern =>
      ([], c.write (formatRespResponse (st.2.channelsReply pattern)), st)
  | .pubSubNumSub channels =>
      ([], c.write (formatRespResponse (st.2.numSubReply channels)), st)
  | .pubSubNumPat =>
      ([], c.write (formatRespResponse st.2.numPatReply), st)

end FeoxServer
