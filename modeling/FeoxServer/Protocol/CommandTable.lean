import FeoxServer.Foundation.Text
import FeoxServer.Protocol.Resp

/-!
# The table of commands
-/

namespace FeoxServer

open Foundation

structure CommandDef where
  name : String
  arity : Int64
  flags : List String
  firstKey : Int64
  lastKey : Int64
  step : Int64
  aclCategories : List String

def commandTable : List CommandDef :=
  [
    ⟨"get", 2, ["readonly", "fast"], 1, 1, 1, ["@read", "@string", "@fast"]⟩,
    ⟨"set", -3, ["write", "denyoom"], 1, 1, 1, ["@write", "@string", "@slow"]⟩,
    ⟨"del", -2, ["write"], 1, -1, 1, ["@keyspace", "@write", "@slow"]⟩,
    ⟨"exists", -2, ["readonly", "fast"], 1, -1, 1,
      ["@keyspace", "@read", "@fast"]⟩,
    ⟨"incr", 2, ["write", "denyoom", "fast"], 1, 1, 1,
      ["@write", "@string", "@fast"]⟩,
    ⟨"incrby", 3, ["write", "denyoom", "fast"], 1, 1, 1,
      ["@write", "@string", "@fast"]⟩,
    ⟨"decr", 2, ["write", "denyoom", "fast"], 1, 1, 1,
      ["@write", "@string", "@fast"]⟩,
    ⟨"decrby", 3, ["write", "denyoom", "fast"], 1, 1, 1,
      ["@write", "@string", "@fast"]⟩,
    ⟨"expire", 3, ["write", "fast"], 1, 1, 1, ["@keyspace", "@write", "@fast"]⟩,
    ⟨"pexpire", 3, ["write", "fast"], 1, 1, 1, ["@keyspace", "@write", "@fast"]⟩,
    ⟨"ttl", 2, ["readonly", "fast"], 1, 1, 1, ["@keyspace", "@read", "@fast"]⟩,
    ⟨"pttl", 2, ["readonly", "fast"], 1, 1, 1, ["@keyspace", "@read", "@fast"]⟩,
    ⟨"persist", 2, ["write", "fast"], 1, 1, 1, ["@keyspace", "@write", "@fast"]⟩,
    ⟨"mget", -2, ["readonly", "fast"], 1, -1, 1, ["@read", "@string", "@fast"]⟩,
    ⟨"mset", -3, ["write", "denyoom"], 1, -1, 2, ["@write", "@string", "@slow"]⟩,
    ⟨"ping", -1, ["fast"], 0, 0, 0, ["@fast", "@connection"]⟩,
    ⟨"echo", 2, ["fast"], 0, 0, 0, ["@fast", "@connection"]⟩,
    ⟨"info", -1, ["loading", "stale"], 0, 0, 0, ["@slow", "@dangerous"]⟩,
    ⟨"config", -2, ["admin", "noscript", "loading", "stale"], 0, 0, 0,
      ["@admin", "@slow", "@dangerous"]⟩,
    ⟨"command", -1, ["loading", "stale"], 0, 0, 0, ["@slow", "@connection"]⟩,
    ⟨"quit", 1, ["noscript", "loading", "stale", "fast"], 0, 0, 0,
      ["@fast", "@connection"]⟩,
    ⟨"flushdb", -1, ["write"], 0, 0, 0,
      ["@keyspace", "@write", "@slow", "@dangerous"]⟩,
    ⟨"keys", 2, ["readonly"], 0, 0, 0,
      ["@keyspace", "@read", "@slow", "@dangerous"]⟩,
    ⟨"scan", -2, ["readonly"], 0, 0, 0, ["@keyspace", "@read", "@slow"]⟩,
    ⟨"lpush", -3, ["write", "denyoom", "fast"], 1, 1, 1,
      ["@write", "@list", "@fast"]⟩,
    ⟨"rpush", -3, ["write", "denyoom", "fast"], 1, 1, 1,
      ["@write", "@list", "@fast"]⟩,
    ⟨"lpop", -2, ["write", "fast"], 1, 1, 1, ["@write", "@list", "@fast"]⟩,
    ⟨"rpop", -2, ["write", "fast"], 1, 1, 1, ["@write", "@list", "@fast"]⟩,
    ⟨"llen", 2, ["readonly", "fast"], 1, 1, 1, ["@read", "@list", "@fast"]⟩,
    ⟨"lrange", 4, ["readonly"], 1, 1, 1, ["@read", "@list", "@slow"]⟩,
    ⟨"lindex", 3, ["readonly"], 1, 1, 1, ["@read", "@list", "@slow"]⟩,
    ⟨"hset", -4, ["write", "denyoom", "fast"], 1, 1, 1,
      ["@write", "@hash", "@fast"]⟩,
    ⟨"hget", 3, ["readonly", "fast"], 1, 1, 1, ["@read", "@hash", "@fast"]⟩,
    ⟨"hmget", -3, ["readonly", "fast"], 1, 1, 1, ["@read", "@hash", "@fast"]⟩,
    ⟨"hdel", -3, ["write", "fast"], 1, 1, 1, ["@write", "@hash", "@fast"]⟩,
    ⟨"hexists", 3, ["readonly", "fast"], 1, 1, 1, ["@read", "@hash", "@fast"]⟩,
    ⟨"hgetall", 2, ["readonly"], 1, 1, 1, ["@read", "@hash", "@slow"]⟩,
    ⟨"hlen", 2, ["readonly", "fast"], 1, 1, 1, ["@read", "@hash", "@fast"]⟩,
    ⟨"hkeys", 2, ["readonly"], 1, 1, 1, ["@read", "@hash", "@slow"]⟩,
    ⟨"hvals", 2, ["readonly"], 1, 1, 1, ["@read", "@hash", "@slow"]⟩,
    ⟨"hincrby", 4, ["write", "denyoom", "fast"], 1, 1, 1,
      ["@write", "@hash", "@fast"]⟩,
    ⟨"auth", 2, ["noscript", "loading", "stale", "fast", "no_auth"], 0, 0, 0,
      ["@fast", "@connection"]⟩,
    ⟨"subscribe", -2, ["pubsub", "noscript", "loading", "stale"], 0, 0, 0,
      ["@pubsub", "@slow"]⟩,
    ⟨"unsubscribe", -1, ["pubsub", "noscript", "loading", "stale"], 0, 0, 0,
      ["@pubsub", "@slow"]⟩,
    ⟨"psubscribe", -2, ["pubsub", "noscript", "loading", "stale"], 0, 0, 0,
      ["@pubsub", "@slow"]⟩,
    ⟨"punsubscribe", -1, ["pubsub", "noscript", "loading", "stale"], 0, 0, 0,
      ["@pubsub", "@slow"]⟩,
    ⟨"publish", 3, ["pubsub", "loading", "stale", "fast"], 0, 0, 0,
      ["@pubsub", "@fast"]⟩,
    ⟨"pubsub", -2, ["pubsub", "loading", "stale"], 0, 0, 0,
      ["@pubsub", "@slow"]⟩,
    ⟨"client", -2, ["admin", "noscript", "loading", "stale"], 0, 0, 0,
      ["@admin", "@slow", "@connection"]⟩,
    ⟨"multi", 1, ["noscript", "loading", "stale", "fast"], 0, 0, 0,
      ["@fast", "@transaction"]⟩,
    ⟨"exec", 1, ["noscript", "loading", "stale", "slow"], 0, 0, 0,
      ["@slow", "@transaction"]⟩,
    ⟨"discard", 1, ["noscript", "loading", "stale", "fast"], 0, 0, 0,
      ["@fast", "@transaction"]⟩,
    ⟨"watch", -2, ["noscript", "loading", "stale", "fast"], 1, -1, 1,
      ["@fast", "@transaction"]⟩,
    ⟨"unwatch", 1, ["noscript", "loading", "stale", "fast"], 0, 0, 0,
      ["@fast", "@transaction"]⟩ ]

namespace CommandDef

def bulkText (s : String) : RespValue :=
  .bulkString (some (asBytes s))

def toRespArray (d : CommandDef) : List RespValue :=
  [ bulkText d.name, .integer d.arity,
    .array (some (d.flags.map bulkText)),
    .integer d.firstKey, .integer d.lastKey, .integer d.step,
    .array (some (d.aclCategories.map bulkText)),
    .array (some []), .array (some []), .array (some []) ]

/-- The command with a name, without regard to ASCII case. -/
def find (name : String) : Option CommandDef :=
  commandTable.find? fun d => eqIgnoreAsciiCase (asBytes d.name) (asBytes name)

end CommandDef

end FeoxServer
