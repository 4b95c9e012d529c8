import FeoxServer.Foundation.Decimal
import FeoxServer.Protocol.Command
import FeoxServer.Protocol.Resp

/-!
# Parsing commands

Most commands take their arguments in one of a few ways.  Each way is one
definition, and each command names the way it is parsed.  Arguments are read
from left to right and the first one that does not fit gives the error.
-/

namespace FeoxServer

open Foundation

namespace CommandParser

abbrev Parsed : Type := Except String Command

def extractBytes : RespValue -> Except String Bytes
  | .bulkString (some s) => .ok s
  | .simpleString s => .ok s
  | _ => .error "Expected string value"

def extractInteger : RespValue -> Except String Int64
  | .integer n => .ok n
  | .bulkString (some s) =>
      match fromUtf8 s with
      | none => .error "Invalid UTF-8"
      | some text =>
          match parseI64 text with
          | some n => .ok n
          | none => .error "Invalid integer"
  | _ => .error "Expected integer value"

/-- `extract_bytes` and `from_utf8_lossy`. -/
def extractText (value : RespValue) : Except String String :=
  (extractBytes value).map fromUtf8Lossy

def extractAll (args : List RespValue) : Except String (List Bytes) :=
  args.mapM extractBytes

def extractPairs : List RespValue -> Except String (List (Bytes × Bytes))
  | field :: value :: args => do
      let f <- extractBytes field
      let v <- extractBytes value
      let pairs <- extractPairs args
      pure ((f, v) :: pairs)
  | _ => pure []

def wrongNumber (name : String) : Parsed :=
  .error ("wrong number of arguments for '" ++ name ++ "' command")

/-!
# Ways to take arguments
-/

def noArguments (name : String) (c : Command) : List RespValue -> Parsed
  | [] => .ok c
  | _ => wrongNumber name

def one (name : String) (c : Bytes -> Command) : List RespValue -> Parsed
  | [key] => (extractBytes key).map c
  | _ => wrongNumber name

def two (name : String) (c : Bytes -> Bytes -> Command) :
    List RespValue -> Parsed
  | [first, second] => do
      let a <- extractBytes first
      let b <- extractBytes second
      pure (c a b)
  | _ => wrongNumber name

def keyAndInteger (name : String) (c : Bytes -> Int64 -> Command) :
    List RespValue -> Parsed
  | [first, second] => do
      let key <- extractBytes first
      let n <- extractInteger second
      pure (c key n)
  | _ => wrongNumber name

def oneOrMore (name : String) (c : List Bytes -> Command) :
    List RespValue -> Parsed
  | [] => wrongNumber name
  | args => (extractAll args).map c

def keyAndMore (name : String) (c : Bytes -> List Bytes -> Command) :
    List RespValue -> Parsed
  | first :: second :: rest => do
      let key <- extractBytes first
      let values <- extractAll (second :: rest)
      pure (c key values)
  | _ => wrongNumber name

def keyAndCount (name : String) (c : Bytes -> Option UInt64 -> Command) :
    List RespValue -> Parsed
  | [first] => do
      let key <- extractBytes first
      pure (c key none)
  | [first, second] => do
      let key <- extractBytes first
      let count <- extractInteger second
      pure (c key (some count.toUInt64))
  | _ => wrongNumber name

def subcommandAndMore (name : String) (c : String -> List Bytes -> Command) :
    List RespValue -> Parsed
  | [] => wrongNumber name
  | first :: rest => do
      let subcommand <- extractText first
      let args <- extractAll rest
      pure (c subcommand args)

def namesOrAll (c : Option (List Bytes) -> Command) : List RespValue -> Parsed
  | [] => .ok (c none)
  | args => (extractAll args).map fun names => c (some names)

/-!
# Commands with options of their own
-/

/-- The option loop of `SET`: an unknown option is passed over. -/
def setOptions : List RespValue -> Option UInt64 -> Option UInt64 ->
    Except String (Option UInt64 × Option UInt64)
  | [], ex, px => pure (ex, px)
  | [last], ex, px => do
      let _ <- extractBytes last
      pure (ex, px)
  | option :: value :: rest, ex, px => do
      let opt <- extractBytes option
      if toAsciiUppercase opt = asBytes "EX" then
        let n <- extractInteger value
        setOptions rest (some n.toUInt64) px
      else if toAsciiUppercase opt = asBytes "PX" then
        let n <- extractInteger value
        setOptions rest ex (some n.toUInt64)
      else setOptions (value :: rest) ex px

def parseSet : List RespValue -> Parsed
  | first :: second :: options => do
      let key <- extractBytes first
      let value <- extractBytes second
      let (ex, px) <- setOptions options none none
      pure (.set key value ex px)
  | _ => wrongNumber "SET"

def parseMset (args : List RespValue) : Parsed :=
  if args = [] ∨ args.length % 2 ≠ 0 then wrongNumber "MSET"
  else (extractPairs args).map .mset

def parseHset : List RespValue -> Parsed
  | first :: rest =>
      if rest.length < 2 ∨ rest.length % 2 ≠ 0 then wrongNumber "HSET"
      else do
        let key <- extractBytes first
        let fields <- extractPairs rest
        pure (.hset key fields)
  | [] => wrongNumber "HSET"

def parsePing : List RespValue -> Parsed
  | [] => .ok (.ping none)
  | msg :: _ => (extractBytes msg).map fun m => .ping (some m)

def parseInfo : List RespValue -> Parsed
  | [] => .ok (.info none)
  | first :: _ => (extractText first).map fun name => .info (some name)

def parseCommandCommand : List RespValue -> Parsed
  | [] => .ok (.command none [])
  | first :: rest => do
      let subcommand <- extractText first
      let args <- extractAll rest
      pure (.command (some subcommand) args)

/-- The option loop of `SCAN`. -/
def scanOptions : List RespValue -> UInt64 -> Option String ->
    Except String (UInt64 × Option String)
  | [], count, pattern => pure (count, pattern)
  | [last], _, _ => do
      let _ <- extractBytes last
      .error "syntax error in SCAN"
  | option :: value :: rest, count, pattern => do
      let opt <- extractBytes option
      if toAsciiUppercase opt = asBytes "MATCH" then
        let text <- extractText value
        scanOptions rest count (some text)
      else if toAsciiUppercase opt = asBytes "COUNT" then
        let n <- extractInteger value
        scanOptions rest n.toUInt64 pattern
      else .error "syntax error in SCAN"

def parseScan : List RespValue -> Parsed
  | [] => wrongNumber "SCAN"
  | first :: options => do
      let cursor <- extractBytes first
      let (count, pattern) <- scanOptions options 10 none
      pure (.scan cursor count pattern)

def parseCas : List RespValue -> Parsed
  | [first, second, third] => do
      let key <- extractBytes first
      let expected <- extractBytes second
      let newValue <- extractBytes third
      pure (.cas key expected newValue)
  | _ => wrongNumber "CAS"

def parseLrange : List RespValue -> Parsed
  | [first, second, third] => do
      let key <- extractBytes first
      let start <- extractInteger second
      let stop <- extractInteger third
      pure (.lrange key start stop)
  | _ => wrongNumber "LRANGE"

def parseHincrby : List RespValue -> Parsed
  | [first, second, third] => do
      let key <- extractBytes first
      let field <- extractBytes second
      let delta <- extractInteger third
      pure (.hincrBy key field delta)
  | _ => wrongNumber "HINCRBY"

def parserOf : String -> Option (List RespValue -> Parsed)
  | "GET" => some (one "GET" .get)
  | "SET" => some parseSet
  | "DEL" => some (oneOrMore "DEL" .del)
  | "EXISTS" => some (oneOrMore "EXISTS" .exists_)
  | "INCR" => some (one "INCR" .incr)
  | "INCRBY" => some (keyAndInteger "INCRBY" .incrBy)
  | "DECR" => some (one "DECR" .decr)
  | "DECRBY" => some (keyAndInteger "DECRBY" .decrBy)
  | "EXPIRE" =>
      some (keyAndInteger "EXPIRE" fun key n => .expire key n.toUInt64)
  | "PEXPIRE" =>
      some (keyAndInteger "PEXPIRE" fun key n => .pexpire key n.toUInt64)
  | "TTL" => some (one "TTL" .ttl)
  | "PTTL" => some (one "PTTL" .pttl)
  | "PERSIST" => some (one "PERSIST" .persist)
  | "MGET" => some (oneOrMore "MGET" .mget)
  | "MSET" => some parseMset
  | "PING" => some parsePing
  | "ECHO" => some (one "ECHO" .echo)
  | "INFO" => some parseInfo
  | "CONFIG" => some (subcommandAndMore "CONFIG" .config)
  | "COMMAND" => some parseCommandCommand
  | "QUIT" => some fun _ => .ok .quit
  | "FLUSHDB" => some fun _ => .ok .flushDb
  | "KEYS" => some (one "KEYS" fun pattern => .keys (fromUtf8Lossy pattern))
  | "SCAN" => some parseScan
  | "JSONPATCH" => some (two "JSONPATCH" .jsonPatch)
  | "CAS" => some parseCas
  | "LPUSH" => some (keyAndMore "LPUSH" .lpush)
  | "RPUSH" => some (keyAndMore "RPUSH" .rpush)
  | "LPOP" => some (keyAndCount "LPOP" .lpop)
  | "RPOP" => some (keyAndCount "RPOP" .rpop)
  | "LLEN" => some (one "LLEN" .llen)
  | "LRANGE" => some parseLrange
  | "LINDEX" => some (keyAndInteger "LINDEX" .lindex)
  | "AUTH" => some (one "AUTH" .auth)
  | "SUBSCRIBE" => some (oneOrMore "SUBSCRIBE" .subscribe)
  | "UNSUBSCRIBE" => some (namesOrAll .unsubscribe)
  | "PSUBSCRIBE" => some (oneOrMore "PSUBSCRIBE" .psubscribe)
  | "PUNSUBSCRIBE" => some (namesOrAll .punsubscribe)
  | "PUBLISH" => some (two "PUBLISH" .publish)
  | "PUBSUB" => some (subcommandAndMore "PUBSUB" .pubSub)
  | "CLIENT" => some (subcommandAndMore "CLIENT" .client)
  | "HSET" => some parseHset
  | "HGET" => some (two "HGET" .hget)
  | "HMGET" => some (keyAndMore "HMGET" .hmget)
  | "HDEL" => some (keyAndMore "HDEL" .hdel)
  | "HEXISTS" => some (two "HEXISTS" .hexists)
  | "HGETALL" => some (one "HGETALL" .hgetall)
  | "HLEN" => some (one "HLEN" .hlen)
  | "HKEYS" => some (one "HKEYS" .hkeys)
  | "HVALS" => some (one "HVALS" .hvals)
  | "HINCRBY" => some parseHincrby
  | "MULTI" => some (noArguments "MULTI" .multi)
  | "EXEC" => some (noArguments "EXEC" .exec)
  | "DISCARD" => some (noArguments "DISCARD" .discard)
  | "WATCH" => some (oneOrMore "WATCH" .watch)
  | "UNWATCH" => some (noArguments "UNWATCH" .unwatch)
  | _ => none

/-- `parse_command`: the name is compared without regard to ASCII case. -/
def parseCommand : RespValue -> Parsed
  | .array (some (.bulkString (some cmdName) :: args)) =>
      match (fromUtf8 (toAsciiUppercase cmdName)).bind parserOf with
      | some parser => parser args
      | none => .error ("unknown command '" ++ fromUtf8Lossy cmdName ++ "'")
  | .array (some (_ :: _)) => .error "Invalid command format"
  | _ => .error "Commands must be arrays"

end CommandParser

namespace Command

def fromResp (value : RespValue) : Except String Command :=
  CommandParser.parseCommand value

end Command

end FeoxServer
