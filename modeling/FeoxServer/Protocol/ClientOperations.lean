import FeoxServer.Foundation.Decimal
import FeoxServer.Protocol.Resp
import FeoxServer.World

/-!
# Client commands
-/

namespace FeoxServer

open Foundation

/-- `ClientOperations`, which may lack a registry. -/
structure ClientOperations where
  hasRegistry : Bool

namespace ClientOperations

def clientId : Option Nat -> RespValue
  | some connId => .integer (Int64.ofNat connId)
  | none => .error "-ERR Client info not available"

/-- The properties of a client with their values, in the order of both
listings. -/
def properties (client : ClientInfo) (now : UInt64) : List (String × String) :=
  [ ("id", decimalNat client.id),
    ("addr", client.addr.getD "N/A"),
    ("fd", decimalInt client.fd),
    ("name", client.name.getD ""),
    ("age", decimalNat (now.toNat - client.connectedAt.toNat)),
    ("idle", "0"),
    ("flags", if client.flags = [] then "N" else String.join client.flags),
    ("db", decimalNat client.db),
    ("sub", "0"), ("psub", "0"), ("ssub", "0"), ("multi", "-1"),
    ("qbuf", "0"), ("qbuf-free", "0"), ("argv-mem", "0"), ("multi-mem", "0"),
    ("rbs", "0"), ("rbp", "0"), ("obl", "0"), ("oll", "0"), ("omem", "0"),
    ("tot-mem", "0"), ("events", "r"), ("cmd", "client"), ("user", "default"),
    ("redir", "-1"), ("resp", "2") ]

def describe (separator : String) (client : ClientInfo) (now : UInt64) :
    String :=
  separator.intercalate
    ((properties client now).map fun property => property.1 ++ "=" ++ property.2)

def listLines : List ClientInfo -> ServerProg String
  | [] => pure ""
  | client :: clients => do
      let now <- callPlatform .unixTime
      let lines <- listLines clients
      pure (describe " " client now ++ "\n" ++ lines)

def clientList (ops : ClientOperations) : ServerProg RespValue :=
  if ops.hasRegistry then do
    let clients <- Prog.call Call.getAllClients
    let output <- listLines clients
    pure (.bulkString (some (asBytes output)))
  else pure (.error "-ERR Client registry not available")

def clientSetname (args : List Bytes) : RespValue :=
  if args = [] then
    .error "-ERR wrong number of arguments for 'CLIENT SETNAME' command"
  else .simpleString (asBytes "OK")

def clientGetname (ops : ClientOperations) (connectionId : Option Nat) :
    ServerProg RespValue :=
  match ops.hasRegistry, connectionId with
  | true, some connId => do
      match <- Prog.call (Call.getClient connId) with
      | some client =>
          pure (.bulkString (client.name.map asBytes))
      | none => pure (.bulkString none)
  | _, _ => pure (.bulkString none)

structure KillFilters where
  id : Option Nat
  addr : Option String
  type : Option String

/-- The argument loop of `CLIENT KILL`; what is not known is passed over. -/
def killFilters : List Bytes -> KillFilters -> KillFilters
  | option :: value :: rest, filters =>
      match toUppercase (fromUtf8Lossy option) with
      | "ID" =>
          match parseUsize (fromUtf8Lossy value) with
          | some id => killFilters rest { filters with id := some id }
          | none => killFilters rest filters
      | "ADDR" =>
          killFilters rest { filters with addr := some (fromUtf8Lossy value) }
      | "TYPE" =>
          killFilters rest { filters with type := some (fromUtf8Lossy value) }
      | _ => killFilters (value :: rest) filters
  | _, filters => filters

def filtersOf : List Bytes -> KillFilters
  | [addr] => { id := none, addr := some (fromUtf8Lossy addr), type := none }
  | args => killFilters args { id := none, addr := none, type := none }

def clientKill (ops : ClientOperations) (args : List Bytes) :
    ServerProg RespValue :=
  if args = [] then
    pure (.error "-ERR wrong number of arguments for 'CLIENT KILL' command")
  else if ops.hasRegistry then do
    let clients <- Prog.call Call.getAllClients
    let filters := filtersOf args
    let toKill := ClientRegistry.killClients clients filters.id filters.addr
      filters.type
    pure (.integer (Int64.ofNat toKill.length))
  else pure (.integer 0)

def clientInfo (ops : ClientOperations) (connectionId : Option Nat) :
    ServerProg RespValue :=
  match ops.hasRegistry, connectionId with
  | true, some connId => do
      match <- Prog.call (Call.getClient connId) with
      | some client =>
          let now <- callPlatform .unixTime
          pure (.bulkString (some (asBytes (describe "\n" client now))))
      | none => pure (.error "-ERR Client not found")
  | _, _ => pure (.error "-ERR Client info not available")

def clientPause (args : List Bytes) : RespValue :=
  if args = [] then
    .error "-ERR wrong number of arguments for 'CLIENT PAUSE' command"
  else .simpleString (asBytes "OK")

def clientUnpause : RespValue :=
  .simpleString (asBytes "OK")

def execute (ops : ClientOperations) (subcommand : String) (args : List Bytes)
    (connectionId : Option Nat) : ServerProg RespValue :=
  match toUppercase subcommand with
  | "ID" => pure (clientId connectionId)
  | "LIST" => clientList ops
  | "SETNAME" => pure (clientSetname args)
  | "GETNAME" => clientGetname ops connectionId
  | "KILL" => clientKill ops args
  | "INFO" => clientInfo ops connectionId
  | "PAUSE" => pure (clientPause args)
  | "UNPAUSE" => pure clientUnpause
  | _ =>
      pure (.error ("-ERR Unknown CLIENT subcommand '" ++ subcommand ++ "'"))

end ClientOperations

end FeoxServer
