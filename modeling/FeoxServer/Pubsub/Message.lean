import FeoxServer.Protocol.Resp

/-!
# Messages of the publish and subscribe service
-/

namespace FeoxServer

open Foundation

abbrev ThreadId := Nat

abbrev ConnectionId := Nat

/-- What a thread sends to the inbox of another. -/
inductive BroadcastMsg where
  | publish (channel message : Bytes) (excludeThread : Option ThreadId)
  | patternPublish (channel message : Bytes) (excludeThread : Option ThreadId)
  deriving DecidableEq

/-- What a connection is told. -/
inductive PubSubMessage where
  | message (channel payload : Bytes)
  | patternMessage (pattern channel payload : Bytes)
  | subscribe (channel : Bytes) (count : Nat)
  | unsubscribe (channel : Option Bytes) (count : Nat)
  | psubscribe (pattern : Bytes) (count : Nat)
  | punsubscribe (pattern : Option Bytes) (count : Nat)
  deriving DecidableEq

namespace PubSubMessage

def confirmation (kind : String) (name : Option Bytes) (count : Nat) :
    RespValue :=
  .array (some [.bulkString (some (asBytes kind)), .bulkString name,
    .integer (Int64.ofNat count)])

def toResp : PubSubMessage -> RespValue
  | message channel payload =>
      .array (some [.bulkString (some (asBytes "message")),
        .bulkString (some channel), .bulkString (some payload)])
  | patternMessage pattern channel payload =>
      .array (some [.bulkString (some (asBytes "pmessage")),
        .bulkString (some pattern), .bulkString (some channel),
        .bulkString (some payload)])
  | subscribe channel count => confirmation "subscribe" (some channel) count
  | unsubscribe channel count => confirmation "unsubscribe" channel count
  | psubscribe pattern count => confirmation "psubscribe" (some pattern) count
  | punsubscribe pattern count => confirmation "punsubscribe" pattern count

end PubSubMessage

abbrev Delivery : Type :=
  ConnectionId × PubSubMessage

end FeoxServer
