import FeoxServer.Foundation.Machines
import FeoxServer.Pubsub.Cluster
import FeoxServer.Server

/-!
# The event loop

A server is its workers with everything they share.  A worker goes round a loop: it
delivers what is in its inbox, accepts connections, and serves the connections that
have become ready.  What the sockets answer comes from outside.  An input is one such
turn of one worker, and a turn runs to its end before the next one begins.
-/

namespace FeoxServer

open Foundation

abbrev Token : Type :=
  Nat

/-- What a socket answers to a write. -/
inductive SocketWrite where
  | ok (n : Nat)
  | wouldBlock
  | failed

/-- What a socket answers to a read; `closed` is a read of no bytes. -/
inductive SocketRead where
  | ok (data : Bytes)
  | closed
  | wouldBlock
  | failed

/-!
# One connection
-/

/-- A connection with its stream: what the socket has taken so far, and whether the
stream is registered for writing too. -/
structure Client where
  connection : Connection
  sent : Bytes
  writable : Bool

/-- How a connection has become ready, and what its socket answers.  The last field is
for the sockets that messages are delivered to. -/
structure Readiness where
  writable : Option (List SocketWrite)
  readable : Option (List (SocketRead × List SocketWrite))
  delivered : List (List SocketWrite)

namespace Client

/-- The loop that writes what is pending.  A socket takes no more than it is offered,
and says that it would block when nothing more is known of it. -/
def writePending : List SocketWrite -> Client -> Client × Bool
  | [], cl => (cl, false)
  | r :: rs, cl =>
      match cl.connection.pendingWrites with
      | none => (cl, false)
      | some data =>
          match r with
          | .ok n =>
              let taken := data.take n
              let cl :=
                { cl with
                  connection := cl.connection.consumeWrites taken.length
                  sent := cl.sent ++ taken }
              if taken.length < data.length then (cl, false)
              else writePending rs cl
          | .wouldBlock => (cl, false)
          | .failed => (cl, true)

def onWritable (writes : List SocketWrite) (cl : Client) : Client × Bool :=
  let (cl, shouldClose) := writePending writes cl
  match cl.connection.pendingWrites with
  | none => ({ cl with writable := false }, shouldClose)
  | some _ => (cl, shouldClose)

def writeFirst (readiness : Readiness) (cl : Client) : Client × Bool :=
  match readiness.writable with
  | some writes => cl.onWritable writes
  | none => (cl, false)

/-- Write the reply to a chunk, and register for writing if some of it is left. -/
def respond (writes : List SocketWrite) (cl : Client) : Client × Bool :=
  let (cl, shouldClose) := writePending writes cl
  match cl.connection.pendingWrites with
  | some _ => ({ cl with writable := true }, shouldClose)
  | none => (cl, shouldClose)

/-- Queue a message, write it out and try to send it.  What the socket leaves waits,
and the stream stays registered as it was. -/
def deliver (writes : List SocketWrite) (message : PubSubMessage) (cl : Client) :
    Client :=
  (writePending writes { cl with
    connection := (cl.connection.queuePubsubMessage message).processPubsubMessages }).1

end Client

/-- What serving a readable event has come to so far. -/
structure Reading (S : FeoxStore) (P : Platform) where
  client : Client
  shared : Shared S P
  deliveriesToMake : List Delivery
  shouldClose : Bool

namespace Reading

variable {S : FeoxStore} {P : Platform}

/-- A chunk is processed, and unless that fails the reply is written. -/
def chunk (fuel : Nat) (threadId : ThreadId) (data : Bytes)
    (writes : List SocketWrite) (r : Reading S P) :
    Option (Reading S P × Bool) := do
  let ((c, result), world) <-
    (r.client.connection.processRead fuel data).run (server S P) r.shared.world
  let outcome := Shared.finishRead { r.shared with world := world } threadId c result
  match result with
  | .error _ =>
      some ({ r with
        client := { r.client with connection := outcome.connection }
        shared := outcome.shared
        shouldClose := true }, false)
  | .ok _ =>
      let (cl, failed) := Client.respond writes
        { r.client with connection := outcome.connection }
      some ({
        client := cl
        shared := outcome.shared
        deliveriesToMake := r.deliveriesToMake ++ outcome.deliveriesToMake
        shouldClose := r.shouldClose || failed || cl.connection.closed },
        !cl.connection.closed)

/-- The loop that reads until nothing is left.  Each answer to a read comes with those
to the writes that follow it. -/
def readLoop (fuel : Nat) (threadId : ThreadId) :
    List (SocketRead × List SocketWrite) -> Reading S P -> Option (Reading S P)
  | [], r => some r
  | (answer, writes) :: answers, r =>
      match answer with
      | .wouldBlock => some r
      | .closed | .failed => some { r with shouldClose := true }
      | .ok data => do
          let (r, again) <- r.chunk fuel threadId data writes
          if again then readLoop fuel threadId answers r else some r

end Reading

/-!
# One worker
-/

structure Worker where
  connections : AList fun _ : Token => Client
  nextToken : Token
  manager : ThreadLocalPubSub
  running : Bool

namespace Worker

/-- Token 0 is that of the listener. -/
def new (threadId : ThreadId) : Worker where
  connections := ∅
  nextToken := 1
  manager := .new threadId
  running := true

def tokenOf (w : Worker) (connId : ConnectionId) : Option Token :=
  (w.connections.entries.find? fun e =>
    e.2.connection.connectionId == connId).map fun e => e.1

def deliver (writes : List SocketWrite) (w : Worker) (d : Delivery) : Worker :=
  match w.tokenOf d.1 with
  | none => w
  | some token =>
      match w.connections.lookup token with
      | none => w
      | some cl =>
          { w with connections :=
            w.connections.replace token (cl.deliver writes d.2) }

def deliverAll : List (List SocketWrite) -> List Delivery -> Worker -> Worker
  | _, [], w => w
  | writes, d :: ds, w => deliverAll writes.tail ds (w.deliver (writes.headD []) d)

end Worker

/-!
# The server
-/

structure Server (S : FeoxStore) (P : Platform) where
  config : Config
  world : World S P
  registry : GlobalRegistry
  workers : List Worker
  activeConnections : UInt64
  nextConnectionId : ConnectionId
  isShutdown : Bool

/-- A turn of a worker.  It fails when the machine cannot poll or set up a socket. -/
inductive WorkerTurn where
  | inbox (delivered : List (List SocketWrite))
  | accept (addr : Option String) (now : UInt64)
  | ready (token : Token) (readiness : Readiness)
  | stop
  | fail

inductive ServerInput where
  | turn (threadId : ThreadId) (turn : WorkerTurn)
  | shutdown

namespace Server

variable {S : FeoxStore} {P : Platform}

/-- The store and the machine are as they are found. -/
def new (numThreads : Nat) (config : Config) (world : World S P) : Server S P where
  config := config
  world := { world with clients := ∅ }
  registry := .new numThreads
  workers := (List.range numThreads).map .new
  activeConnections := 0
  nextConnectionId := 0
  isShutdown := false

/-- What the connections of a worker share. -/
def shared (s : Server S P) (w : Worker) : Shared S P where
  world := s.world
  pubsub := (w.manager, s.registry)

def leave (s : Server S P) (threadId : ThreadId) (w : Worker) (sh : Shared S P) :
    Server S P :=
  { s with
    world := sh.world
    registry := sh.pubsub.2
    workers := s.workers.set threadId { w with manager := sh.pubsub.1 } }

def inbox (s : Server S P) (threadId : ThreadId) (w : Worker)
    (delivered : List (List SocketWrite)) : Server S P :=
  let (deliveries, st) := ThreadLocalPubSub.processInbox (w.manager, s.registry)
  s.leave threadId (w.deliverAll delivered deliveries)
    { s.shared w with pubsub := st }

def accept (s : Server S P) (threadId : ThreadId) (w : Worker) (addr : Option String)
    (now : UInt64) : Server S P :=
  let (c, sh) := (s.shared w).accept threadId s.config addr s.nextConnectionId now
  { s.leave threadId
      { w with
        connections := w.connections.insert w.nextToken
          { connection := c, sent := [], writable := false }
        nextToken := w.nextToken + 1 } sh with
    activeConnections := s.activeConnections + 1
    nextConnectionId := s.nextConnectionId + 1 }

def serve (fuel : Nat) (threadId : ThreadId) (sh : Shared S P) (cl : Client)
    (readiness : Readiness) : Option (Reading S P) :=
  let r : Reading S P :=
    { client := (cl.writeFirst readiness).1
      shared := sh
      deliveriesToMake := []
      shouldClose := (cl.writeFirst readiness).2 }
  match readiness.readable with
  | some answers => r.readLoop fuel threadId answers
  | none => some r

def settle (s : Server S P) (threadId : ThreadId) (w : Worker) (token : Token)
    (r : Reading S P) : Server S P :=
  if r.shouldClose then
    let (_, sh) := r.shared.close r.client.connection
    { s.leave threadId { w with connections := w.connections.erase token } sh with
      activeConnections := s.activeConnections - 1 }
  else
    s.leave threadId
      { w with connections := w.connections.replace token r.client } r.shared

def deliverTo (s : Server S P) (threadId : ThreadId) (writes : List (List SocketWrite))
    (deliveries : List Delivery) : Server S P :=
  match s.workers[threadId]? with
  | some w =>
      { s with workers := s.workers.set threadId (w.deliverAll writes deliveries) }
  | none => s

def ready (fuel : Nat) (s : Server S P) (threadId : ThreadId) (w : Worker)
    (token : Token) (readiness : Readiness) : Option (Server S P) :=
  match w.connections.lookup token with
  | none => some s
  | some cl => do
      let r <- serve fuel threadId (s.shared w) cl readiness
      (s.settle threadId w token r).deliverTo threadId readiness.delivered
        r.deliveriesToMake

/-- The clean-up of a worker that has seen the flag.  It leaves the number of active
connections alone. -/
def stop (s : Server S P) (threadId : ThreadId) (w : Worker) : Server S P :=
  s.leave threadId { w with connections := ∅, running := false }
    (w.connections.entries.foldl (fun sh e => (sh.close e.2.connection).2)
      (s.shared w))

/-- A worker that fails drops its connections and cleans nothing up. -/
def fail (s : Server S P) (threadId : ThreadId) (w : Worker) : Server S P :=
  s.leave threadId { w with connections := ∅, running := false } (s.shared w)

def takeTurn (fuel : Nat) (s : Server S P) (threadId : ThreadId) (w : Worker) :
    WorkerTurn -> Option (Server S P)
  | .inbox delivered => some (s.inbox threadId w delivered)
  | .accept addr now => some (s.accept threadId w addr now)
  | .ready token readiness => s.ready fuel threadId w token readiness
  | .stop => if s.isShutdown then some (s.stop threadId w) else none
  | .fail => some (s.fail threadId w)

def step (fuel : Nat) (s : Server S P) : ServerInput -> Option (Server S P)
  | .shutdown => some { s with isShutdown := true }
  | .turn threadId turn =>
      match s.workers[threadId]? with
      | none => none
      | some w => if w.running then s.takeTurn fuel threadId w turn else none

def run (fuel : Nat) (inputs : List ServerInput) (s : Server S P) :
    Option (Server S P) :=
  runInputs (step fuel) inputs s

end Server

end FeoxServer
