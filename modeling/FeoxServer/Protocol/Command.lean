import FeoxServer.Foundation.Text

/-!
# Commands
-/

namespace FeoxServer

open Foundation

inductive Command where
  | get (key : Bytes)
  | set (key value : Bytes) (ex px : Option UInt64)
  | del (keys : List Bytes)
  | exists_ (keys : List Bytes)
  | incr (key : Bytes)
  | incrBy (key : Bytes) (delta : Int64)
  | decr (key : Bytes)
  | decrBy (key : Bytes) (delta : Int64)
  | expire (key : Bytes) (seconds : UInt64)
  | pexpire (key : Bytes) (milliseconds : UInt64)
  | ttl (key : Bytes)
  | pttl (key : Bytes)
  | persist (key : Bytes)
  | mget (keys : List Bytes)
  | mset (pairs : List (Bytes × Bytes))
  | ping (msg : Option Bytes)
  | echo (msg : Bytes)
  | info (sectionName : Option String)
  | config (action : String) (args : List Bytes)
  | command (subcommand : Option String) (args : List Bytes)
  | quit
  | flushDb
  | keys (pattern : String)
  | scan (cursor : Bytes) (count : UInt64) (pattern : Option String)
  | jsonPatch (key patch : Bytes)
  | cas (key expected newValue : Bytes)
  | auth (password : Bytes)
  | lpush (key : Bytes) (values : List Bytes)
  | rpush (key : Bytes) (values : List Bytes)
  | lpop (key : Bytes) (count : Option UInt64)
  | rpop (key : Bytes) (count : Option UInt64)
  | llen (key : Bytes)
  | lrange (key : Bytes) (start stop : Int64)
  | lindex (key : Bytes) (index : Int64)
  | subscribe (channels : List Bytes)
  | unsubscribe (channels : Option (List Bytes))
  | psubscribe (patterns : List Bytes)
  | punsubscribe (patterns : Option (List Bytes))
  | publish (channel message : Bytes)
  | pubSub (subcommand : String) (args : List Bytes)
  | client (subcommand : String) (args : List Bytes)
  | multi
  | exec
  | discard
  | watch (keys : List Bytes)
  | unwatch
  | hset (key : Bytes) (fields : List (Bytes × Bytes))
  | hget (key field : Bytes)
  | hmget (key : Bytes) (fields : List Bytes)
  | hdel (key : Bytes) (fields : List Bytes)
  | hexists (key field : Bytes)
  | hgetall (key : Bytes)
  | hlen (key : Bytes)
  | hkeys (key : Bytes)
  | hvals (key : Bytes)
  | hincrBy (key field : Bytes) (delta : Int64)
  deriving DecidableEq

/-- An operation that the connection leaves to the publish and subscribe
service. -/
inductive PubSubOp where
  | subscribe (channels : List Bytes)
  | unsubscribe (channels : Option (List Bytes))
  | psubscribe (patterns : List Bytes)
  | punsubscribe (patterns : Option (List Bytes))
  | publish (channel message : Bytes)
  | pubSubChannels (pattern : Option Bytes)
  | pubSubNumSub (channels : List Bytes)
  | pubSubNumPat
  deriving DecidableEq

namespace Command

def isPubsubCommand : Command -> Bool
  | subscribe _ | unsubscribe _ | psubscribe _ | punsubscribe _
  | publish _ _ | pubSub _ _ => true
  | _ => false

def isAllowedInPubsubMode : Command -> Bool
  | subscribe _ | unsubscribe _ | psubscribe _ | punsubscribe _
  | ping _ | quit => true
  | _ => false

def toPubsubOp : Command -> Option PubSubOp
  | subscribe channels => some (.subscribe channels)
  | unsubscribe channels => some (.unsubscribe channels)
  | psubscribe patterns => some (.psubscribe patterns)
  | punsubscribe patterns => some (.punsubscribe patterns)
  | publish channel message => some (.publish channel message)
  | pubSub subcommand args =>
      match toUppercase subcommand with
      | "CHANNELS" => some (.pubSubChannels args.head?)
      | "NUMSUB" => some (.pubSubNumSub args)
      | "NUMPAT" => some .pubSubNumPat
      | _ => none
  | _ => none

theorem isPubsubCommand_of_toPubsubOp {c : Command} {op : PubSubOp}
    (h : c.toPubsubOp = some op) : c.isPubsubCommand = true := by
  cases c <;> first | rfl | cases h

end Command

end FeoxServer
