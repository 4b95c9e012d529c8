import FeoxServer.Protocol.CommandParser
import FeoxServer.Protocol.Executor
import FeoxServer.Protocol.RespParser
import FeoxServer.Pubsub.Message

/-!
# Connections

A connection parses what it receives into frames and deals with one after the
other.  How a frame ends is its `Flow`; the bytes to send are appended from
it.
-/

namespace FeoxServer

open Foundation

inductive TransactionState where
  | none
  | queuing
  deriving DecidableEq

abbrev WatchedKeys : Type :=
  AList fun _ : Bytes => UInt64

structure Connection where
  fd : Int
  parser : RespParser
  executor : CommandExecutor
  authenticated : Bool
  authRequired : Bool
  writeBuffer : Bytes
  writePosition : Nat
  closed : Bool
  connectionId : Nat
  subscriptionCount : Nat
  pendingPubsubMessages : List PubSubMessage
  clientName : Option String
  clientAddr : Option String
  connectedAt : UInt64
  commandsProcessed : UInt64
  flags : List String
  transactionState : TransactionState
  queuedCommands : List Command
  watchedKeys : WatchedKeys

/-!
# The fast path
-/

/-- A plain `SET` or `GET`. -/
inductive FastCommand where
  | set (key value : Bytes)
  | get (key : Bytes)

def fastCommand : RespValue -> Option FastCommand
  | .array (some [.bulkString (some cmd), .bulkString (some key),
      .bulkString (some value)]) =>
      if eqIgnoreAsciiCase cmd (asBytes "SET") then some (.set key value)
      else none
  | .array (some [.bulkString (some cmd), .bulkString (some key)]) =>
      if eqIgnoreAsciiCase cmd (asBytes "GET") then some (.get key) else none
  | _ => none

inductive FastReply where
  | ok
  | nil
  | value (value : Bytes)
  | failed (e : FeoxError)

namespace FastReply

/-- What the fast path appends by hand. -/
def bytes : FastReply -> Bytes
  | ok => asBytes "+OK\r\n"
  | nil => asBytes "$-1\r\n"
  | value v =>
      asBytes "$" ++ asBytes (decimalNat v.length) ++ asBytes "\r\n" ++ v ++
        asBytes "\r\n"
  | failed e => asBytes "-ERR " ++ asBytes e.text ++ asBytes "\r\n"

def toResp : FastReply -> RespValue
  | ok => .simpleString (asBytes "OK")
  | nil => .bulkString none
  | value v => .bulkString (some v)
  | failed e => .error ("ERR " ++ e.text)

theorem bytes_eq (r : FastReply) : r.bytes = formatRespResponse r.toResp := by
  have hcrlf : asBytes "\r\n" = crlf := by decide
  cases r with
  | ok => decide
  | nil => decide
  | value v => simp [bytes, toResp, formatRespResponse, writeRespValue, hcrlf]
  | failed e =>
      have hprefix : asBytes "-ERR " = asBytes "-" ++ asBytes "ERR " := by
        decide
      simp [bytes, toResp, formatRespResponse, writeRespValue, hcrlf, hprefix]

end FastReply

namespace FastCommand

def run : FastCommand -> ServerProg FastReply
  | set key value => do
      match <- CommandExecutor.fastSetBytes key value with
      | .ok _ => pure .ok
      | .error e => pure (.failed e)
  | get key => do
      match <- CommandExecutor.fastGet key with
      | .ok value => pure (.value value)
      | .error e => pure (if e.keyNotFound then .nil else .failed e)

end FastCommand

/-- How a frame ends. -/
inductive Flow where
  | fast (r : FastReply)
  | reply (r : RespValue)
  | deferred (op : PubSubOp)
  | quit
  | failed (e : String)

namespace Flow

/-- What a frame appends to the write buffer. -/
def bytes : Flow -> Bytes
  | fast r => r.bytes
  | reply r => formatRespResponse r
  | quit => asBytes "+OK\r\n"
  | deferred _ | failed _ => []

end Flow

namespace Connection

def newWithAddr (fd : Int) (config : Config) (addr : Option String)
    (connectionId : Nat) (now : UInt64) : Connection where
  fd := fd
  parser := .new
  executor := .new config
  authenticated := !config.authRequired
  authRequired := config.authRequired
  writeBuffer := []
  writePosition := 0
  closed := false
  connectionId := connectionId
  subscriptionCount := 0
  pendingPubsubMessages := []
  clientName := none
  clientAddr := addr
  connectedAt := now
  commandsProcessed := 0
  flags := []
  transactionState := .none
  queuedCommands := []
  watchedKeys := ∅

def setClientRegistry (c : Connection) : Connection :=
  { c with executor := c.executor.withClientInfo c.connectionId }

def isInPubsubMode (c : Connection) : Bool :=
  decide (0 < c.subscriptionCount)

def error (text : String) : Flow :=
  .reply (.error text)

def ok : Flow :=
  .reply (.simpleString (asBytes "OK"))

/-- `CLIENT SETNAME` names the connection before anything else is looked at. -/
def noteClientName (c : Connection) : Command -> Connection
  | .client subcommand (name :: _) =>
      if toUppercase subcommand = "SETNAME" then
        { c with clientName := some (fromUtf8Lossy name) }
      else c
  | _ => c

/-!
# Transactions
-/

def endTransaction (c : Connection) : Connection :=
  { c with
    transactionState := .none
    queuedCommands := []
    watchedKeys := ∅ }

def beginTransaction (c : Connection) : Connection × Flow :=
  if c.transactionState = .queuing then
    (c, error "-ERR MULTI calls can not be nested")
  else
    ({ c with transactionState := .queuing, queuedCommands := [] }, ok)

def checkKeysUnchanged : List (Bytes × UInt64) -> ServerProg Bool
  | [] => pure true
  | (key, watchedVersion) :: watchedVersions => do
      let currentVersion <- getKeyVersion key
      if currentVersion ≠ watchedVersion then pure false
      else checkKeysUnchanged watchedVersions

def watchedVersions (c : Connection) : List (Bytes × UInt64) :=
  c.watchedKeys.entries.map fun e => (e.1, e.2)

def executeAll (fuel : Nat) :
    CommandExecutor -> List Command -> List RespValue ->
      ServerProg (List RespValue × CommandExecutor)
  | x, [], results => pure (results, x)
  | x, cmd :: cmds, results => do
      let (r, x) <- x.execute fuel cmd
      executeAll fuel x cmds (results ++ [r])

def exec (fuel : Nat) (c : Connection) : ServerProg (Connection × Flow) :=
  if c.transactionState ≠ .queuing then
    pure (c, error "-ERR EXEC without MULTI")
  else do
    let unchanged <- checkKeysUnchanged c.watchedVersions
    if unchanged then
      let (results, x) <- executeAll fuel c.executor c.queuedCommands []
      pure ({ c.endTransaction with executor := x },
        .reply (.array (some results)))
    else pure (c.endTransaction, .reply (.bulkString none))

def discard (c : Connection) : Connection × Flow :=
  if c.transactionState ≠ .queuing then
    (c, error "-ERR DISCARD without MULTI")
  else (c.endTransaction, ok)

def watchLoop : List Bytes -> WatchedKeys -> ServerProg WatchedKeys
  | [], watched => pure watched
  | key :: keys, watched => do
      let version <- getKeyVersion key
      watchLoop keys (watched.insert key version)

def watch (c : Connection) (keys : List Bytes) :
    ServerProg (Connection × Flow) :=
  if c.transactionState = .queuing then
    pure (c, error "-ERR WATCH inside MULTI is not allowed")
  else do
    let watched <- watchLoop keys c.watchedKeys
    pure ({ c with watchedKeys := watched }, ok)

/-!
# Commands outside transactions
-/

def executeNow (fuel : Nat) (c : Connection) (cmd : Command) :
    ServerProg (Connection × Flow) := do
  let (r, x) <- c.executor.execute fuel cmd
  pure ({ c with executor := x }, .reply r)

def auth (c : Connection) (password : Bytes) : Connection × Flow :=
  if !c.authRequired then
    (c, error "-ERR Client sent AUTH, but no password is set")
  else if c.executor.checkAuth (fromUtf8Lossy password) then
    ({ c with authenticated := true }, ok)
  else (c, error "-ERR invalid password")

/-- A publish and subscribe command is left to the service, unless it is
`PUBSUB` with an unknown subcommand. -/
def pubsub (cmd : Command) : Flow :=
  match cmd.toPubsubOp with
  | some op => .deferred op
  | none =>
      match cmd with
      | .pubSub subcommand _ =>
          error ("ERR Unknown PUBSUB subcommand '" ++ subcommand ++ "'")
      | _ => error "ERR Failed to process pub/sub command"

/-- Before authentication only `PING` is executed. -/
def unauthenticated (fuel : Nat) (c : Connection) (cmd : Command) :
    ServerProg (Connection × Flow) :=
  match cmd with
  | .ping _ => executeNow fuel c cmd
  | _ => pure (c, error "-NOAUTH Authentication required.")

def answer (fuel : Nat) (c : Connection) (cmd : Command) :
    ServerProg (Connection × Flow) :=
  match cmd with
  | .auth password => pure (c.auth password)
  | _ =>
      if !c.authenticated then unauthenticated fuel c cmd
      else if cmd.isPubsubCommand then pure (c, pubsub cmd)
      else executeNow fuel c cmd

def dispatch (fuel : Nat) (c : Connection) (cmd : Command) :
    ServerProg (Connection × Flow) :=
  match cmd with
  | .multi => pure c.beginTransaction
  | .exec => exec fuel c
  | .discard => pure c.discard
  | .watch keys => watch c keys
  | .unwatch => pure ({ c with watchedKeys := ∅ }, ok)
  | _ =>
      if c.transactionState = .queuing then
        pure ({ c with queuedCommands := c.queuedCommands ++ [cmd] },
          .reply (.simpleString (asBytes "QUEUED")))
      else answer fuel c cmd

def notAllowed : String :=
  "-ERR only (P)SUBSCRIBE / (P)UNSUBSCRIBE / PING / QUIT allowed in this context"

def processCommand (fuel : Nat) (c : Connection) (cmd : Command) :
    ServerProg (Connection × Flow) :=
  if cmd = .quit then pure ({ c with closed := true }, .quit)
  else if c.isInPubsubMode && !cmd.isAllowedInPubsubMode then
    pure (c, error notAllowed)
  else dispatch fuel (c.noteClientName cmd) cmd

def slowPath (fuel : Nat) (c : Connection) (v : RespValue) :
    ServerProg (Connection × Flow) :=
  match Command.fromResp v with
  | .ok cmd => processCommand fuel c cmd
  | .error e => pure (c, .failed e)

def countCommand (c : Connection) : Connection :=
  { c with commandsProcessed := c.commandsProcessed + 1 }

/-- A plain `SET` or `GET` outside a transaction takes the fast path. -/
def fastPath (c : Connection) (v : RespValue) : Option FastCommand :=
  if c.transactionState = .none then fastCommand v else none

def frameFlow (fuel : Nat) (c : Connection) (v : RespValue) :
    ServerProg (Connection × Flow) :=
  match c.fastPath v with
  | some f => do
      let r <- f.run
      pure (c.countCommand, .fast r)
  | none => slowPath fuel c.countCommand v

def write (c : Connection) (bytes : Bytes) : Connection :=
  { c with writeBuffer := c.writeBuffer ++ bytes }

/-- One round of the loop of `process_read`. -/
def processFrame (fuel : Nat) (c : Connection) (v : RespValue) :
    ServerProg (Connection × Flow) := do
  let (c, flow) <- frameFlow fuel c v
  pure (c.write flow.bytes, flow)

/-!
# Reading
-/

/-- The operations left to the publish and subscribe service, or the error that
ends the connection. -/
abbrev ReadResult : Type := Except String (List PubSubOp)

def readLoop (fuel : Nat) :
    Nat -> Connection -> List PubSubOp -> ServerProg (Connection × ReadResult)
  | 0, _, _ => .exhausted
  | rounds + 1, c, ops =>
      match c.parser.parseNext with
      | (.error e, p) => pure ({ c with parser := p }, .error e)
      | (.ok none, p) => pure ({ c with parser := p }, .ok ops)
      | (.ok (some v), p) => do
          let (c, flow) <- processFrame fuel { c with parser := p } v
          match flow with
          | .deferred op => readLoop fuel rounds c (ops ++ [op])
          | .quit => pure (c, .ok ops)
          | .failed e => pure (c, .error e)
          | _ => readLoop fuel rounds c ops

def feed (c : Connection) (data : Bytes) : Connection :=
  { c with parser := c.parser.feed data }

def clearWritten (c : Connection) : Connection :=
  if c.writeBuffer.length <= c.writePosition then
    { c with writeBuffer := [], writePosition := 0 }
  else c

/-- `process_read`.  A frame takes a byte, so the bytes at hand bound the
rounds. -/
def processRead (fuel : Nat) (c : Connection) (data : Bytes) :
    ServerProg (Connection × ReadResult) :=
  let c := (c.feed data).clearWritten
  readLoop fuel (c.parser.unconsumed.length + 1) c []

/-!
# Writing
-/

def pendingWrites (c : Connection) : Option Bytes :=
  if c.writePosition < c.writeBuffer.length then
    some (c.writeBuffer.drop c.writePosition)
  else none

def consumeWrites (c : Connection) (n : Nat) : Connection :=
  { c with writePosition := c.writePosition + n }

def queuePubsubMessage (c : Connection) (message : PubSubMessage) :
    Connection :=
  { c with pendingPubsubMessages := c.pendingPubsubMessages ++ [message] }

def setSubscriptionCount (c : Connection) (count : Nat) : Connection :=
  { c with
    subscriptionCount := count
    flags :=
      if 0 < count ∧ !c.flags.contains "pubsub" then c.flags ++ ["pubsub"]
      else if count = 0 then c.flags.filter (· ≠ "pubsub")
      else c.flags }

/-- `process_pubsub_messages`: write the queued messages in order. -/
def processPubsubMessages (c : Connection) : Connection :=
  { c with
    writeBuffer := writeRespValues c.writeBuffer
      (c.pendingPubsubMessages.map PubSubMessage.toResp)
    pendingPubsubMessages := [] }

end Connection

end FeoxServer
