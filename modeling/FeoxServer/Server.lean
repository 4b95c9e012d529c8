import FeoxServer.Pubsub.Handler

/-!
# Workers

What a worker does with a connection when it accepts it, when it has read a
chunk from it, and when it closes it.  The worker shares the world and the
publish and subscribe service between its connections.
-/

namespace FeoxServer

open Foundation

namespace ClientRegistry

def register (clients : ClientRegistry) (c : Connection) (threadId : ThreadId) :
    ClientRegistry :=
  clients.insert c.connectionId
    { id := c.connectionId
      name := c.clientName
      addr := c.clientAddr
      fd := c.fd
      connectedAt := c.connectedAt
      commandsProcessed := c.commandsProcessed
      flags := c.flags
      threadId := threadId
      db := 0 }

/-- What `update` takes over from a connection. -/
def updated (info : ClientInfo) (c : Connection) : ClientInfo :=
  { info with
    name := c.clientName
    commandsProcessed := c.commandsProcessed
    flags := c.flags }

def update (clients : ClientRegistry) (c : Connection) : ClientRegistry :=
  match clients.lookup c.connectionId with
  | some info => clients.replace c.connectionId (updated info c)
  | none => clients

theorem lookup_update (clients : ClientRegistry) (c : Connection) (id : Nat) :
    (clients.update c).lookup id =
      if id = c.connectionId then
        (clients.lookup id).map fun info => updated info c
      else clients.lookup id := by
  unfold update
  split
  · rename_i info hinfo
    rw [lookup_replace, hinfo]
    split
    · rename_i hid
      rw [hid, hinfo]
      rfl
    · rfl
  · rename_i hinfo
    split
    · rename_i hid
      rw [hid, hinfo]
      rfl
    · rfl

def unregister (clients : ClientRegistry) (connectionId : Nat) :
    ClientRegistry :=
  clients.erase connectionId

end ClientRegistry

/-- What the connections of a worker share. -/
structure Shared (S : FeoxStore) (P : Platform) where
  world : World S P
  pubsub : PubSubState

def handleOperations (threadId : ThreadId) :
    List PubSubOp -> Connection -> PubSubState ->
      List Delivery × Connection × PubSubState
  | [], c, st => ([], c, st)
  | op :: ops, c, st =>
      let (deliveries, c, st) :=
        handlePubsubOperation st c.connectionId op c threadId
      let (more, c, st) := handleOperations threadId ops c st
      (deliveries ++ more, c, st)

/-!
# What the service does to a connection
-/

theorem Connection.confirmAll_eq (messages : List PubSubMessage)
    (c : Connection) :
    exists count flags pending, c.confirmAll messages =
      { c with
        subscriptionCount := count
        flags := flags
        pendingPubsubMessages := pending } := by
  induction messages generalizing c with
  | nil => exact ⟨_, _, _, rfl⟩
  | cons message messages ih =>
      rcases ih (c.confirm message) with ⟨count, flags, pending, heq⟩
      refine ⟨count, flags, pending, heq.trans ?_⟩
      cases message <;> rfl

theorem handlePubsubOperation_eq (st : PubSubState) (connId : ConnectionId)
    (op : PubSubOp) (c : Connection) (threadId : ThreadId) :
    exists count flags pending buffer,
      (handlePubsubOperation st connId op c threadId).2.1 =
        { c with
          subscriptionCount := count
          flags := flags
          pendingPubsubMessages := pending
          writeBuffer := buffer } := by
  cases op with
  | subscribe names | unsubscribe names | psubscribe names
  | punsubscribe names =>
      rcases Connection.confirmAll_eq _ c with ⟨count, flags, pending, heq⟩
      exact ⟨count, flags, pending, c.writeBuffer, heq⟩
  | _ => exact ⟨_, _, _, _, rfl⟩

/-- The service changes the subscriptions, the messages and the write buffer of
a connection. -/
theorem handleOperations_eq (threadId : ThreadId) (ops : List PubSubOp)
    (c : Connection) (st : PubSubState) :
    exists count flags pending buffer,
      (handleOperations threadId ops c st).2.1 =
        { c with
          subscriptionCount := count
          flags := flags
          pendingPubsubMessages := pending
          writeBuffer := buffer } := by
  induction ops generalizing c st with
  | nil => exact ⟨_, _, _, _, rfl⟩
  | cons op ops ih =>
      rcases handlePubsubOperation_eq st c.connectionId op c threadId with
        ⟨count, flags, pending, buffer, heq⟩
      rcases ih (handlePubsubOperation st c.connectionId op c threadId).2.1
        (handlePubsubOperation st c.connectionId op c threadId).2.2 with
        ⟨count', flags', pending', buffer', heq'⟩
      refine ⟨count', flags', pending', buffer', heq'.trans ?_⟩
      rw [heq]

namespace Shared

variable {S : FeoxStore} {P : Platform}

/-- What reading a chunk comes to. -/
structure ReadOutcome (S : FeoxStore) (P : Platform) where
  connection : Connection
  shared : Shared S P
  deliveriesToMake : List Delivery
  shouldClose : Bool

/-- A new connection, known to the registry of clients. -/
def accept (sh : Shared S P) (threadId : ThreadId) (config : Config)
    (addr : Option String) (connectionId : Nat) (now : UInt64) :
    Connection × Shared S P :=
  let c := (Connection.newWithAddr 0 config addr connectionId now).setClientRegistry
  (c, { sh with world :=
    { sh.world with clients := sh.world.clients.register c threadId } })

/-- Everything after `process_read`: the operations are handled, the messages
written and the registry of clients updated, unless reading failed. -/
def finishRead (sh : Shared S P) (threadId : ThreadId) (c : Connection)
    (r : Connection.ReadResult) : ReadOutcome S P :=
  match r with
  | .ok ops =>
      let (deliveries, c, st) := handleOperations threadId ops c sh.pubsub
      let c := c.processPubsubMessages
      { connection := c
        shared :=
          { world := { sh.world with clients := sh.world.clients.update c }
            pubsub := st }
        deliveriesToMake := deliveries
        shouldClose := c.closed }
  | .error _ =>
      { connection := c
        shared := sh
        deliveriesToMake := []
        shouldClose := true }

def read (fuel : Nat) (threadId : ThreadId) (sh : Shared S P) (c : Connection)
    (data : Bytes) : Option (ReadOutcome S P) :=
  ((c.processRead fuel data).run (server S P) sh.world).map fun r =>
    finishRead { sh with world := r.2 } threadId r.1.1 r.1.2

def readAll (fuel : Nat) (threadId : ThreadId) :
    List Bytes -> Connection -> Shared S P -> Option (Connection × Shared S P)
  | [], c, sh => some (c, sh)
  | data :: chunks, c, sh => do
      let outcome <- read fuel threadId sh c data
      if outcome.shouldClose then some (outcome.connection, outcome.shared)
      else readAll fuel threadId chunks outcome.connection outcome.shared

def close (sh : Shared S P) (c : Connection) : Connection × Shared S P :=
  ({ c with closed := true },
    { world := { sh.world with
        clients := sh.world.clients.unregister c.connectionId }
      pubsub := ThreadLocalPubSub.connectionDropped sh.pubsub c.connectionId })

end Shared

end FeoxServer
