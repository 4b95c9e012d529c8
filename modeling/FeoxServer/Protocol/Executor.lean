import FeoxServer.Config
import FeoxServer.Protocol.ClientOperations
import FeoxServer.Protocol.Command
import FeoxServer.Protocol.CommandTable
import FeoxServer.Protocol.HashOperations
import FeoxServer.Protocol.ListOperations

/-!
# Executing commands

What a command does and what it replies.  Commands that differ only in the
call they make share one definition.
-/

namespace FeoxServer

open Foundation

/-!
# Patterns
-/

/-- The loop of `glob_match`: the pattern and the text from the current places
on, and the places to return to behind the last star. -/
def globLoop : Nat -> Bytes -> Bytes -> Option (Bytes × Bytes) -> Bool
  | 0, _, _, _ => false
  | _, pattern, [], _ => pattern.all (· == 42)
  | fuel + 1, pattern, t :: text, star =>
      let backtrack :=
        match star with
        | some (afterStar, _ :: rest) =>
            globLoop fuel afterStar rest (some (afterStar, rest))
        | _ => false
      match pattern with
      | p :: pattern' =>
          if p == 42 then
            globLoop fuel pattern' (t :: text) (some (pattern', t :: text))
          else if p == 63 || p == t then globLoop fuel pattern' text star
          else backtrack
      | [] => backtrack

def globMatch (pattern text : Bytes) : Bool :=
  globLoop ((pattern.length + 1) * (text.length + 1) + text.length + 1) pattern
    text none

def matchPattern (key : Bytes) (pattern : String) : Bool :=
  globMatch (asBytes pattern) (asBytes (fromUtf8Lossy key))

def extractPrefix (pattern : String) : String :=
  String.ofList (pattern.toList.takeWhile fun c =>
    !(c == '*' || c == '?' || c == '['))

structure CommandExecutor where
  config : Config
  clientOps : ClientOperations
  commandsProcessed : UInt64
  connectionId : Option Nat

namespace CommandExecutor

def new (config : Config) : CommandExecutor where
  config := config
  clientOps := { hasRegistry := false }
  commandsProcessed := 0
  connectionId := none

def withClientInfo (x : CommandExecutor) (connectionId : Nat) :
    CommandExecutor :=
  { x with
    clientOps := { hasRegistry := true }
    connectionId := some connectionId }

def checkAuth (x : CommandExecutor) (password : String) : Bool :=
  x.config.checkPassword password

/-!
# The fast path
-/

def fastSetBytes (key value : Bytes) : ServerProg (Except FeoxError Unit) := do
  match <- callStore (.insertBytesWithTimestamp key value) with
  | .ok _ =>
      let _ <- notifyKeyModified key
      pure (.ok ())
  | .error e => pure (.error e)

def fastGet (key : Bytes) : ServerProg (Except FeoxError Bytes) :=
  callStore (.getBytes key)

/-!
# Replies
-/

def okReply : RespValue :=
  .simpleString (asBytes "OK")

def bulk (value : Bytes) : RespValue :=
  .bulkString (some value)

def bulkArray (values : List Bytes) : RespValue :=
  .array (some (values.map bulk))

def storeError (e : FeoxError) : RespValue :=
  .error ("ERR " ++ e.text)

def commandError (e : Error) : RespValue :=
  .error ("ERR " ++ e.display)

def replyWith {α : Type} (reply : α -> RespValue) : Except Error α -> RespValue
  | .ok a => reply a
  | .error e => commandError e

def missingReply (missing : Int64) (e : FeoxError) : RespValue :=
  if e.keyNotFound then .integer missing else storeError e

/-!
# Strings
-/

def get (key : Bytes) : ServerProg RespValue := do
  match <- callStore (.getBytes key) with
  | .ok value => pure (bulk value)
  | .error e =>
      pure (if e.keyNotFound then .bulkString none else storeError e)

/-- The call for `SET`: `EX` goes before `PX`. -/
def setCall (key value : Bytes) :
    Option UInt64 -> Option UInt64 -> ServerProg (Except FeoxError Unit)
  | some seconds, _ =>
      callStore (.insertBytesWithTtlAndTimestamp key value seconds)
  | none, some millis =>
      callStore (.insertBytesWithTtlAndTimestamp key value (millis / 1000))
  | none, none => callStore (.insertBytesWithTimestamp key value)

def set (key value : Bytes) (ex px : Option UInt64) : ServerProg RespValue := do
  match <- setCall key value ex px with
  | .ok _ =>
      let _ <- notifyKeyModified key
      pure okReply
  | .error e => pure (storeError e)

def del : List Bytes -> Int64 -> ServerProg RespValue
  | [], count => pure (.integer count)
  | key :: keys, count => do
      match <- callStore (.delete key) with
      | .ok _ =>
          let _ <- notifyKeyModified key
          del keys (count + 1)
      | .error _ => del keys count

def existing : List Bytes -> Int64 -> ServerProg RespValue
  | [], count => pure (.integer count)
  | key :: keys, count => do
      let found <- callStore (.containsKey key)
      existing keys (if found then count + 1 else count)

def stringNumber (data : Bytes) : Option Int64 :=
  parseI64 (trim (fromUtf8Lossy data))

def writeNumber (key : Bytes) (newVal : Int64) : ServerProg RespValue := do
  match <- callStore
      (.insertBytesWithTimestamp key (asBytes (decimal newVal))) with
  | .ok _ =>
      let _ <- notifyKeyModified key
      pure (.integer newVal)
  | .error e => pure (storeError e)

/-- `string_incr`: counters of the store first, text after that. -/
def stringIncr (key : Bytes) (delta : Int64) : ServerProg RespValue := do
  match <- callStore (.atomicIncrement key delta) with
  | .ok val =>
      let _ <- notifyKeyModified key
      pure (.integer val)
  | .error _ =>
      match <- callStore (.getBytes key) with
      | .ok data =>
          match stringNumber data with
          | some current => writeNumber key (current + delta)
          | none =>
              pure (.error "ERR value is not an integer or out of range")
      | .error e =>
          if e.keyNotFound then writeNumber key (0 + delta)
          else pure (storeError e)

def mget : List Bytes -> List RespValue -> ServerProg RespValue
  | [], values => pure (.array (some values))
  | key :: keys, values => do
      match <- callStore (.getBytes key) with
      | .ok value => mget keys (values ++ [bulk value])
      | .error _ => mget keys (values ++ [.bulkString none])

def mset : List (Bytes × Bytes) -> ServerProg RespValue
  | [] => pure okReply
  | (key, value) :: pairs => do
      match <- callStore (.insertWithTimestamp key value) with
      | .ok _ =>
          let _ <- notifyKeyModified key
          mset pairs
      | .error e => pure (storeError e)

/-!
# Times to live
-/

def changed (r : Except FeoxError Unit) : RespValue :=
  match r with
  | .ok _ => .integer 1
  | .error e => missingReply 0 e

def expire (key : Bytes) (seconds : UInt64) : ServerProg RespValue := do
  let r <- callStore (.updateTtl key seconds)
  pure (changed r)

def persist (key : Bytes) : ServerProg RespValue := do
  let r <- callStore (.persist key)
  pure (changed r)

/-- The time to live in units of which a second has `scale`. -/
def timeToLive (scale : UInt64) (key : Bytes) : ServerProg RespValue := do
  match <- callStore (.getTtl key) with
  | .ok (some ttl) => pure (.integer (ttl * scale).toInt64)
  | .ok none => pure (.integer (-1))
  | .error e => pure (missingReply (-2) e)

/-!
# The server itself
-/

def configValue (arg : Bytes) : String :=
  match toLowercase (fromUtf8Lossy arg) with
  | "maxmemory" => "0"
  | "maxclients" => "10000"
  | "timeout" => "0"
  | "tcp-keepalive" => "300"
  | "databases" => "16"
  | _ => "0"

def configCommand (action : String) (args : List Bytes) : RespValue :=
  match toUppercase action with
  | "GET" =>
      .array (some (args.flatMap fun arg =>
        [bulk arg, bulk (asBytes (configValue arg))]))
  | "SET" => okReply
  | _ => .error ("ERR Unknown CONFIG subcommand '" ++ action ++ "'")

def allCommands : RespValue :=
  .array (some (commandTable.map fun d => .array (some d.toRespArray)))

def commandInfo (arg : Bytes) : RespValue :=
  match CommandDef.find (fromUtf8Lossy arg) with
  | some d => .array (some d.toRespArray)
  | none => .bulkString none

def commandHelp : List String :=
  [ "COMMAND", "COMMAND COUNT",
    "COMMAND INFO <command-name> [<command-name> ...]", "COMMAND LIST",
    "COMMAND DOCS [<command-name> ...]" ]

def handleCommandSubcommand (subcommand : Option String) (args : List Bytes) :
    RespValue :=
  match subcommand with
  | none => allCommands
  | some subcmd =>
      match toUppercase subcmd with
      | "COUNT" => .integer (Int64.ofNat commandTable.length)
      | "INFO" =>
          if args = [] then allCommands
          else .array (some (args.map commandInfo))
      | "DOCS" => .array (some [])
      | "LIST" =>
          .array (some (commandTable.map fun d => bulk (asBytes d.name)))
      | "HELP" =>
          .array (some (commandHelp.map fun line => bulk (asBytes line)))
      | _ =>
          .error ("ERR Unknown subcommand '" ++ subcmd ++
            "'. Try COMMAND HELP.")

/-- Whether a section of `INFO` is asked for. -/
def wants (sectionName : Option String) (name : String) : Bool :=
  match sectionName with
  | none => true
  | some s => eqIgnoreAsciiCase (asBytes s) (asBytes name)

def infoLine (name value : String) : String :=
  name ++ ":" ++ value ++ "\r\n"

def formatBytes (n : UInt64) : ServerProg String :=
  if n < 1024 then pure (decimalNat n.toNat ++ "B")
  else do
    let (unit, suffix) :=
      if n < 1024 * 1024 then ((1024 : UInt64), "K")
      else if n < 1024 * 1024 * 1024 then (1024 * 1024, "M")
      else (1024 * 1024 * 1024, "G")
    let quotient <- callPlatform (.formatTenths n unit)
    pure (quotient ++ suffix)

def serverSection (uptime : UInt64) : ServerProg String := do
  let processId <- callPlatform .processId
  pure ("# Server\r\n" ++ infoLine "redis_version" "feox-0.7.0" ++
    infoLine "redis_mode" "standalone" ++ infoLine "arch_bits" "64" ++
    infoLine "process_id" (decimalNat processId.toNat) ++
    infoLine "tcp_port" "6379" ++
    infoLine "uptime_in_seconds" (decimalNat uptime.toNat))

def memorySection (stats : StoreStats) : ServerProg String := do
  let used <- formatBytes stats.memoryUsage
  let cache <- formatBytes stats.cacheMemory
  pure ("# Memory\r\n" ++
    infoLine "used_memory" (decimalNat stats.memoryUsage.toNat) ++
    infoLine "used_memory_human" used ++
    infoLine "used_memory_cache" (decimalNat stats.cacheMemory.toNat) ++
    infoLine "used_memory_cache_human" cache)

def statsSection (commands : UInt64) (stats : StoreStats) : String :=
  "# Stats\r\n" ++ infoLine "total_connections_received" "0" ++
    infoLine "total_commands_processed" (decimalNat commands.toNat) ++
    infoLine "instantaneous_ops_per_sec" "0" ++
    infoLine "total_net_input_bytes" "0" ++
    infoLine "total_net_output_bytes" "0" ++
    infoLine "total_operations" (decimalNat stats.totalOperations.toNat) ++
    infoLine "total_gets" (decimalNat stats.totalGets.toNat) ++
    infoLine "total_inserts" (decimalNat stats.totalInserts.toNat) ++
    infoLine "keyspace_hits" (decimalNat stats.cacheHits.toNat) ++
    infoLine "keyspace_misses" (decimalNat stats.cacheMisses.toNat) ++
    infoLine "cache_hit_rate" stats.cacheHitRate

def keyspaceSection (stats : StoreStats) : String :=
  "# Keyspace\r\n" ++ "db0:keys=" ++ decimalNat stats.recordCount.toNat ++
    ",expires=0,avg_ttl=0\r\n"

def sectionText (sectionName : Option String) (name : String)
    (text : ServerProg String) : ServerProg String :=
  if wants sectionName name then text else pure ""

def info (x : CommandExecutor) (sectionName : Option String) :
    ServerProg RespValue := do
  let uptime <- callPlatform .uptime
  let stats <- callStore .stats
  let serverText <- sectionText sectionName "server" (serverSection uptime)
  let memoryText <- sectionText sectionName "memory" (memorySection stats)
  let statsText <- sectionText sectionName "stats"
    (pure (statsSection x.commandsProcessed stats))
  let keyspaceText <- sectionText sectionName "keyspace"
    (pure (keyspaceSection stats))
  pure (bulk (asBytes (serverText ++ memoryText ++ statsText ++ keyspaceText)))

/-!
# Scanning
-/

def lastKey : Bytes :=
  List.replicate 255 255

def keysInRange (pattern : String) (start stop : Bytes) :
    ServerProg RespValue := do
  match <- callStore (.rangeQuery start stop 100000) with
  | .ok pairs =>
      pure (bulkArray ((pairs.map Prod.fst).filter fun key =>
        matchPattern key pattern))
  | .error e => pure (storeError e)

def keys (pattern : String) : ServerProg RespValue :=
  let front := extractPrefix pattern
  if front = "" then keysInRange pattern [] lastKey
  else if pattern = front then do
    match <- callStore (.getBytes (asBytes front)) with
    | .ok _ => pure (bulkArray [asBytes front])
    | .error _ => pure (bulkArray [])
  else keysInRange pattern (asBytes front) (asBytes front ++ asBytes "~")

/-- The range that `SCAN` reads. -/
def scanRange (cursor : Bytes) (pattern : Option String) : Bytes × Bytes :=
  let startKey := if cursor = [] ∨ cursor = asBytes "0" then [] else cursor
  match pattern with
  | none => (startKey, lastKey)
  | some pat =>
      let front := asBytes (extractPrefix pat)
      if front ≠ [] ∧ front.isPrefixOf (asBytes pat) ∧ '*' ∈ pat.toList then
        let actualStart :=
          if front.length < startKey.length ∧ front.isPrefixOf startKey then
            startKey
          else if startKey = [] then front
          else startKey
        (actualStart, front ++ asBytes "~")
      else (startKey, lastKey)

/-- Collect the keys that match until there are enough; the next one is the
cursor to go on from. -/
def scanLoop (count : UInt64) (pattern : Option String) :
    List Bytes -> List Bytes -> List Bytes × Option Bytes
  | [], found => (found, none)
  | key :: keys, found =>
      if count.toNat <= found.length then (found, some key)
      else
        match pattern with
        | some pat =>
            if matchPattern key pat then
              scanLoop count pattern keys (found ++ [key])
            else scanLoop count pattern keys found
        | none => scanLoop count pattern keys (found ++ [key])

def scan (cursor : Bytes) (count : UInt64) (pattern : Option String) :
    ServerProg RespValue := do
  let (scanStart, scanEnd) := scanRange cursor pattern
  let fetchCount := if pattern.isSome then count * 2 else count
  match <- callStore (.rangeQuery scanStart scanEnd (fetchCount + 1)) with
  | .ok pairs =>
      let (found, nextCursor) := scanLoop count pattern (pairs.map Prod.fst) []
      pure (.array (some
        [bulk (nextCursor.getD (asBytes "0")), bulkArray found]))
  | .error e => pure (storeError e)

/-!
# Commands of the store
-/

def jsonPatch (key patch : Bytes) : ServerProg RespValue := do
  match <- callStore (.jsonPatch key patch) with
  | .ok _ => pure okReply
  | .error e => pure (storeError e)

def cas (key expected newValue : Bytes) : ServerProg RespValue := do
  match <- callStore (.compareAndSwap key expected newValue) with
  | .ok swapped => pure (.integer (if swapped then 1 else 0))
  | .error e => pure (storeError e)

/-!
# Lists and hashes
-/

/-- Run a command that changes a key and, when it succeeds and `modified` says
so, notify the key. -/
def modifying {α : Type} (key : Bytes) (modified : α -> Bool)
    (reply : α -> RespValue) (p : ServerProg (Except Error α)) :
    ServerProg RespValue := do
  match <- p with
  | .ok a =>
      if modified a then
        let _ <- notifyKeyModified key
        pure (reply a)
      else pure (reply a)
  | .error e => pure (commandError e)

theorem modifying_run {S : FeoxStore} {P : Platform} {α : Type} (key : Bytes)
    (modified : α -> Bool) (reply : α -> RespValue) {p : ServerProg (Except Error α)}
    {a : α} {w w1 : World S P} (hrun : p.run (server S P) w = some (.ok a, w1)) :
    (modifying key modified reply p).run (server S P) w = some (reply a,
      if modified a then { w1 with watch := w1.watch.notifyKeyModified key } else w1) := by
  unfold modifying
  rw [Prog.run_bind_of_some _ _ hrun]
  dsimp only
  split
  · rfl
  · rfl

def popReply : List Bytes -> RespValue
  | [] => .bulkString none
  | [value] => bulk value
  | values => bulkArray values

def push (key : Bytes) (p : StoreProg (Except Error Int64)) :
    ServerProg RespValue :=
  modifying key (fun _ => true) .integer (onStore p)

def pop (key : Bytes) (p : StoreProg (Except Error (List Bytes))) :
    ServerProg RespValue :=
  modifying key (fun values => !values.isEmpty) popReply (onStore p)

def reading {α : Type} (reply : α -> RespValue)
    (p : ServerProg (Except Error α)) : ServerProg RespValue := do
  let r <- p
  pure (replyWith reply r)

def pairsReply (pairs : List (Bytes × Bytes)) : RespValue :=
  bulkArray (pairs.flatMap fun pair => [pair.1, pair.2])

def hget (key field : Bytes) : ServerProg RespValue := do
  let value <- HashOperations.hget key field
  pure (.bulkString value)

def hmget (key : Bytes) (fields : List Bytes) : ServerProg RespValue := do
  let values <- HashOperations.hmget key fields
  pure (.array (some (values.map .bulkString)))

def hexists (key field : Bytes) : ServerProg RespValue := do
  let found <- HashOperations.hexists key field
  pure (.integer (if found then 1 else 0))

def hlen (key : Bytes) : ServerProg RespValue := do
  let count <- HashOperations.hlen key
  pure (.integer count)

/-!
# Dispatch
-/

/-- The command as such, behind the command counter. -/
def respond (fuel : Nat) (x : CommandExecutor) : Command -> ServerProg RespValue
  | .get key => get key
  | .set key value ex px => set key value ex px
  | .del keys => del keys 0
  | .exists_ keys => existing keys 0
  | .incr key => stringIncr key 1
  | .incrBy key delta => stringIncr key delta
  | .decr key => stringIncr key (-1)
  | .decrBy key delta => stringIncr key (-delta)
  | .expire key seconds => expire key seconds
  | .pexpire key milliseconds => expire key (milliseconds / 1000)
  | .ttl key => timeToLive 1 key
  | .pttl key => timeToLive 1000 key
  | .persist key => persist key
  | .mget keys => mget keys []
  | .mset pairs => mset pairs
  | .ping (some msg) => pure (bulk msg)
  | .ping none => pure (.simpleString (asBytes "PONG"))
  | .echo msg => pure (bulk msg)
  | .info sectionName => info x sectionName
  | .config action args => pure (configCommand action args)
  | .command subcommand args => pure (handleCommandSubcommand subcommand args)
  | .quit => pure okReply
  | .flushDb =>
      pure (.error ("ERR FLUSHDB requires server restart. " ++
        "For persistent mode, also delete data files."))
  | .keys pattern => keys pattern
  | .scan cursor count pattern => scan cursor count pattern
  | .jsonPatch key patch => jsonPatch key patch
  | .cas key expected newValue => cas key expected newValue
  | .lpush key values => push key (ListOperations.lpush fuel key values)
  | .rpush key values => push key (ListOperations.rpush fuel key values)
  | .lpop key count => pop key (ListOperations.lpop fuel key count)
  | .rpop key count => pop key (ListOperations.rpop fuel key count)
  | .llen key => reading .integer (onStore (ListOperations.llen key))
  | .lrange key start stop =>
      reading bulkArray (onStore (ListOperations.lrange key start stop))
  | .lindex key index =>
      reading .bulkString (onStore (ListOperations.lindex key index))
  | .hset key fields =>
      modifying key (fun _ => true) .integer (HashOperations.hset key fields)
  | .hget key field => hget key field
  | .hmget key fields => hmget key fields
  | .hdel key fields =>
      modifying key (fun count : Int64 => decide (count > 0)) .integer
        (HashOperations.hdel key fields)
  | .hexists key field => hexists key field
  | .hgetall key => reading pairsReply (HashOperations.hgetall key)
  | .hlen key => hlen key
  | .hkeys key => reading bulkArray (HashOperations.hkeys key)
  | .hvals key => reading bulkArray (HashOperations.hvals key)
  | .hincrBy key field delta =>
      modifying key (fun _ => true) .integer
        (HashOperations.hincrby key field delta)
  | .auth _ =>
      pure (.error (if x.config.requirepass = none then
        "-ERR Client sent AUTH, but no password is set"
      else "-ERR AUTH failed"))
  | .client subcommand args =>
      x.clientOps.execute subcommand args x.connectionId
  | .subscribe _ | .unsubscribe _ | .psubscribe _ | .punsubscribe _
  | .publish _ _ | .pubSub _ _ =>
      pure (.error
        "-ERR Pub/Sub commands should be handled in connection layer")
  | .multi | .exec | .discard | .watch _ | .unwatch =>
      pure (.error
        "-ERR Transaction commands should be handled in connection layer")

def execute (fuel : Nat) (x : CommandExecutor) (cmd : Command) :
    ServerProg (RespValue × CommandExecutor) := do
  let x := { x with commandsProcessed := x.commandsProcessed + 1 }
  let response <- respond fuel x cmd
  pure (response, x)

end CommandExecutor

end FeoxServer
