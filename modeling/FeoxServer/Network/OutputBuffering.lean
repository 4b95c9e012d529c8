import FeoxServer.Network.ReplyOrder

/-!
# Output buffering

What a connection has to send waits in a buffer that only grows, with a position up to
which the socket has accepted it.  The buffer is forgotten at the start of a read, and
only when all of it has been accepted.
-/

namespace FeoxServer

open Foundation Prog

namespace Connection

variable {fuel : Nat} {T : Service Call Answer}

/-!
# What reading appends
-/

/-- The loop of `process_read` with a note of what each of its frames comes to. -/
def readLoopNoted (fuel : Nat) :
    Nat -> Connection -> List PubSubOp ->
      ServerProg ((Connection × ReadResult) × List Flow)
  | 0, _, _ => .exhausted
  | rounds + 1, c, ops =>
      match c.parser.parseNext with
      | (.error e, p) => pure (({ c with parser := p }, .error e), [])
      | (.ok none, p) => pure (({ c with parser := p }, .ok ops), [])
      | (.ok (some v), p) => do
          let (c, flow) <- processFrame fuel { c with parser := p } v
          match flow with
          | .deferred op => do
              let (r, flows) <- readLoopNoted fuel rounds c (ops ++ [op])
              pure (r, flow :: flows)
          | .quit => pure ((c, .ok ops), [flow])
          | .failed e => pure ((c, .error e), [flow])
          | _ => do
              let (r, flows) <- readLoopNoted fuel rounds c ops
              pure (r, flow :: flows)

def processReadNoted (fuel : Nat) (c : Connection) (data : Bytes) :
    ServerProg ((Connection × ReadResult) × List Flow) :=
  let c := (c.feed data).clearWritten
  readLoopNoted fuel (c.parser.unconsumed.length + 1) c []

theorem forget_readLoopNoted (fuel rounds : Nat) (c : Connection)
    (ops : List PubSubOp) :
    (readLoopNoted fuel rounds c ops >>= fun r => pure r.1) =
      readLoop fuel rounds c ops := by
  induction rounds generalizing c ops with
  | zero => rfl
  | succ rounds ih =>
      unfold readLoopNoted readLoop
      rcases c.parser.parseNext_cases with
        ⟨_, hnext⟩ | ⟨e, _, hnext⟩ | ⟨v, n, p, _, hnext, _⟩
      · rw [hnext]
        rfl
      · rw [hnext]
        rfl
      · rw [hnext]
        change (processFrame fuel { c with parser := p } v >>= _) >>= _ = _
        rw [bind_assoc]
        congr 1
        funext r
        rcases r with ⟨c1, flow⟩
        cases flow with
        | deferred op =>
            change (readLoopNoted fuel rounds c1 (ops ++ [op]) >>= _) >>= _ = _
            rw [bind_assoc]
            exact ih c1 (ops ++ [op])
        | fast r | reply r =>
            change (readLoopNoted fuel rounds c1 ops >>= _) >>= _ = _
            rw [bind_assoc]
            exact ih c1 ops
        | quit | failed e => rfl

theorem forget_processReadNoted (fuel : Nat) (c : Connection) (data : Bytes) :
    (c.processReadNoted fuel data >>= fun r => pure r.1) = c.processRead fuel data :=
  forget_readLoopNoted fuel _ _ []

/-- A buffer that has been appended to, with the same position. -/
structure Appended (c c' : Connection) (more : Bytes) : Prop where
  position : c'.writePosition = c.writePosition
  buffer : c'.writeBuffer = c.writeBuffer ++ more

theorem Appended.refl (c : Connection) : Appended c c [] :=
  ⟨rfl, (List.append_nil _).symm⟩

theorem Appended.trans {c c1 c2 : Connection} {first later : Bytes}
    (h : Appended c c1 first) (h' : Appended c1 c2 later) :
    Appended c c2 (first ++ later) := by
  refine ⟨h'.position.trans h.position, ?_⟩
  rw [h'.buffer, h.buffer, List.append_assoc]

theorem appended_processFrame {c c' : Connection} {p : RespParser} {v : RespValue}
    {flow : Flow} {s s' : T.State}
    (hrun : (processFrame fuel { c with parser := p } v).run T s =
      some ((c', flow), s')) : Appended c c' flow.bytes :=
  ⟨(processFrame_writes hrun).2.1, (processFrame_writes hrun).2.2⟩

theorem appended_readLoopNoted {rounds : Nat} {c c' : Connection}
    {ops : List PubSubOp} {r : ReadResult} {flows : List Flow} {s s' : T.State}
    (hrun : (readLoopNoted fuel rounds c ops).run T s =
      some (((c', r), flows), s')) :
    Appended c c' (flows.flatMap Flow.bytes) := by
  induction rounds generalizing c ops flows s with
  | zero => cases hrun
  | succ rounds ih =>
      unfold readLoopNoted at hrun
      rcases c.parser.parseNext_cases with
        ⟨_, hnext⟩ | ⟨e, _, hnext⟩ | ⟨v, n, p, _, hnext, _⟩
      · rw [hnext] at hrun
        cases hrun
        exact Appended.refl c
      · rw [hnext] at hrun
        cases hrun
        exact Appended.refl c
      · rw [hnext] at hrun
        rcases (run_bind_eq_some _).mp hrun with ⟨⟨c1, flow⟩, s1, hframe, hrest⟩
        have hone := appended_processFrame hframe
        have hlast : Appended c c1 ([flow].flatMap Flow.bytes) := by
          rw [List.flatMap_singleton]
          exact hone
        cases flow with
        | deferred op =>
            rcases (run_bind_eq_some _).mp hrest with ⟨⟨r1, flows1⟩, s2, hloop, hnote⟩
            cases hnote
            exact hone.trans (ih hloop)
        | fast reply | reply reply =>
            rcases (run_bind_eq_some _).mp hrest with ⟨⟨r1, flows1⟩, s2, hloop, hnote⟩
            cases hnote
            exact hone.trans (ih hloop)
        | quit | failed e =>
            cases hrest
            exact hlast

theorem appended_processPubsubMessages (c : Connection) :
    Appended c c.processPubsubMessages
      ((c.pendingPubsubMessages.map PubSubMessage.toResp).flatMap
        formatRespResponse) :=
  ⟨rfl, writeRespValues_eq_append _ _⟩

theorem appended_handlePubsubOperation (threadId : ThreadId) (connId : ConnectionId)
    (st : PubSubState) (op : PubSubOp) (c : Connection) :
    Appended c (handlePubsubOperation st connId op c threadId).2.1
      ((served threadId connId st op).direct.flatMap formatRespResponse) :=
  ⟨(grown_handlePubsubOperation st connId op c threadId).position,
    (handlePubsubOperation_served threadId connId st op c).2.1⟩

end Connection

/-!
# The connection and its socket
-/

/-- A connection, what its socket has accepted so far, and what has been appended to
its output so far. -/
structure Wire where
  connection : Connection
  accepted : Bytes
  appended : Bytes

namespace Wire

variable {S : FeoxStore} {P : Platform}

def accept (fd : Int) (config : Config) (addr : Option String) (connectionId : Nat)
    (now : UInt64) : Wire where
  connection := .newWithAddr fd config addr connectionId now
  accepted := []
  appended := []

/-- What can happen to the output.  The store and the service may have changed in any
way since the step before; the socket may accept any part of what it is offered. -/
inductive Step (S : FeoxStore) (P : Platform) : Wire -> Wire -> Prop
  | read {w : Wire} {fuel : Nat} {data : Bytes} {c' : Connection}
      {r : Connection.ReadResult} {flows : List Flow} {world world' : World S P}
      (hrun : (w.connection.processReadNoted fuel data).run (server S P) world =
        some (((c', r), flows), world')) :
      Step S P w ⟨c', w.accepted, w.appended ++ flows.flatMap Flow.bytes⟩
  | operate (w : Wire) (threadId : ThreadId) (connId : ConnectionId)
      (st : PubSubState) (op : PubSubOp) :
      Step S P w
        ⟨(handlePubsubOperation st connId op w.connection threadId).2.1, w.accepted,
          w.appended ++
            (served threadId connId st op).direct.flatMap formatRespResponse⟩
  | queue (w : Wire) (message : PubSubMessage) :
      Step S P w { w with connection := w.connection.queuePubsubMessage message }
  | deliver (w : Wire) :
      Step S P w
        ⟨w.connection.processPubsubMessages, w.accepted,
          w.appended ++
            (w.connection.pendingPubsubMessages.map PubSubMessage.toResp).flatMap
              formatRespResponse⟩
  | write {w : Wire} {offered : Bytes} {n : Nat}
      (hoffered : w.connection.pendingWrites = some offered)
      (hn : n <= offered.length) :
      Step S P w
        ⟨w.connection.consumeWrites n, w.accepted ++ offered.take n, w.appended⟩

/-!
# What a worker does is made of steps
-/

theorem steps_handleOperations (threadId : ThreadId) (ops : List PubSubOp)
    (st : PubSubState) (w : Wire) :
    exists appended,
      Relation.ReflTransGen (Step S P) w
        ⟨(handleOperations threadId ops w.connection st).2.1, w.accepted,
          appended⟩ := by
  induction ops generalizing w st with
  | nil => exact ⟨w.appended, .refl⟩
  | cons op ops ih =>
      have hfirst := Step.operate (S := S) (P := P) w threadId
        w.connection.connectionId st op
      rcases ih (handlePubsubOperation st w.connection.connectionId op w.connection
        threadId).2.2 ⟨_, w.accepted, _⟩ with ⟨appended, hrest⟩
      exact ⟨appended, .head hfirst hrest⟩

theorem steps_read {fuel : Nat} {threadId : ThreadId} {sh : Shared S P} {data : Bytes}
    {outcome : Shared.ReadOutcome S P} (w : Wire)
    (hread : sh.read fuel threadId w.connection data = some outcome) :
    exists appended,
      Relation.ReflTransGen (Step S P) w
        ⟨outcome.connection, w.accepted, appended⟩ := by
  rcases Option.map_eq_some_iff.mp hread with ⟨⟨⟨c, r⟩, world⟩, hrun, rfl⟩
  rw [← Connection.forget_processReadNoted] at hrun
  rcases (run_bind_eq_some _).mp hrun with ⟨⟨⟨c1, r1⟩, flows⟩, world1, hnoted, hforget⟩
  cases hforget
  have hfirst := Step.read hnoted
  cases r with
  | error e => exact ⟨_, .single hfirst⟩
  | ok ops =>
      rcases steps_handleOperations threadId ops sh.pubsub ⟨c, w.accepted, _⟩ with
        ⟨appended, hops⟩
      exact ⟨_, .head hfirst (hops.tail (.deliver _))⟩

/-!
# Conservation
-/

/-- What was accepted and what waits are everything that was appended. -/
structure Conserved (w : Wire) : Prop where
  position : w.connection.writePosition <= w.connection.writeBuffer.length
  bytes : w.accepted ++ w.connection.writeBuffer.drop w.connection.writePosition =
    w.appended

theorem Conserved.append {w : Wire} (h : Conserved w) {c' : Connection} {more : Bytes}
    (happended : Connection.Appended w.connection c' more) :
    Conserved ⟨c', w.accepted, w.appended ++ more⟩ := by
  constructor
  · change c'.writePosition <= c'.writeBuffer.length
    rw [happended.position, happended.buffer, List.length_append]
    exact Nat.le_add_right_of_le h.position
  · change w.accepted ++ c'.writeBuffer.drop c'.writePosition = w.appended ++ more
    rw [happended.position, happended.buffer,
      List.drop_append_of_le_length h.position, ← List.append_assoc, h.bytes]

theorem Conserved.clearWritten {w : Wire} (h : Conserved w) (data : Bytes) :
    Conserved { w with connection := (w.connection.feed data).clearWritten } := by
  constructor
  · exact (w.connection.feed data).clearWritten_position
  · refine Eq.trans ?_ h.bytes
    change w.accepted ++ List.drop (w.connection.feed data).clearWritten.writePosition
      (w.connection.feed data).clearWritten.writeBuffer = _
    unfold Connection.clearWritten
    split
    · rename_i hsent
      have hall : w.connection.writeBuffer.drop w.connection.writePosition = [] :=
        List.drop_eq_nil_of_le hsent
      rw [hall]
      rfl
    · rfl

theorem Conserved.write {w : Wire} (h : Conserved w) {offered : Bytes} {n : Nat}
    (hoffered : w.connection.pendingWrites = some offered)
    (hn : n <= offered.length) :
    Conserved
      ⟨w.connection.consumeWrites n, w.accepted ++ offered.take n, w.appended⟩ := by
  have hpending : offered =
      w.connection.writeBuffer.drop w.connection.writePosition := by
    have hgetD := w.connection.pendingWrites_getD
    rw [hoffered] at hgetD
    exact hgetD
  subst hpending
  constructor
  · change w.connection.writePosition + n <= w.connection.writeBuffer.length
    rw [List.length_drop] at hn
    have hposition := h.position
    omega
  · change _ ++ w.connection.writeBuffer.drop (w.connection.writePosition + n) = _
    rw [List.append_assoc, ← List.drop_drop, List.take_append_drop]
    exact h.bytes

theorem conserved_step {w w' : Wire} (h : Conserved w) (hstep : Step S P w w') :
    Conserved w' := by
  cases hstep with
  | @read fuel data c' r flows world world' hrun =>
      exact (h.clearWritten data).append (Connection.appended_readLoopNoted hrun)
  | operate threadId connId st op =>
      exact h.append
        (Connection.appended_handlePubsubOperation threadId connId st op _)
  | queue message => exact ⟨h.position, h.bytes⟩
  | deliver => exact h.append (Connection.appended_processPubsubMessages _)
  | write hoffered hn => exact h.write hoffered hn

theorem conserved_steps {w w' : Wire} (h : Conserved w)
    (hsteps : Relation.ReflTransGen (Step S P) w w') : Conserved w' := by
  induction hsteps with
  | refl => exact h
  | tail _ hstep ih => exact conserved_step ih hstep

/-- Whatever the order of reads, deliveries and writes of any length, the socket has
accepted and is still to be offered all replies and messages, in order and once. -/
theorem output_conserved {fd : Int} {config : Config} {addr : Option String}
    {connectionId : Nat} {now : UInt64} {w : Wire}
    (hsteps : Relation.ReflTransGen (Step S P)
      (accept fd config addr connectionId now) w) :
    w.accepted ++ w.connection.pendingWrites.getD [] = w.appended := by
  rw [Connection.pendingWrites_getD]
  exact (conserved_steps ⟨Nat.le_refl 0, rfl⟩ hsteps).bytes

/-- A new connection, and the same behind a `PING`. -/
def pingStart : Wire :=
  accept 0 { requirepass := none } none 0 0

def pingRead : Connection :=
  { pingStart.connection with
    parser :=
      (pingStart.connection.parser.feed (Connection.requests [["PING"]])).parseNext.2
    executor := { pingStart.connection.executor with commandsProcessed := 1 }
    commandsProcessed := 1
    writeBuffer := asBytes "+PONG\r\n" }

theorem output_conserved_ping :
    exists w,
      Relation.ReflTransGen (Step mapStore idlePlatform) pingStart w ∧
      w.accepted = asBytes "+PO" ∧
      w.connection.pendingWrites = some (asBytes
        "NG\r\n*3\r\n$7\r\nmessage\r\n$1\r\nc\r\n$1\r\nm\r\n") ∧
      w.accepted ++ w.connection.pendingWrites.getD [] = w.appended := by
  have hrun : (pingStart.connection.processReadNoted 0
      (Connection.requests [["PING"]])).run (server mapStore idlePlatform)
        Connection.freshShared.world =
        some (((pingRead, .ok []), [.reply (.simpleString (asBytes "PONG"))]),
          Connection.freshShared.world) := rfl
  have hoffered : pingRead.pendingWrites = some (asBytes "+PONG\r\n") := rfl
  have hrest : (((pingRead.consumeWrites 3).queuePubsubMessage
      (.message (asBytes "c") (asBytes "m"))).processPubsubMessages).pendingWrites =
        some (asBytes
          "NG\r\n*3\r\n$7\r\nmessage\r\n$1\r\nc\r\n$1\r\nm\r\n") := by
    decide
  have hsteps := (((Relation.ReflTransGen.single (Step.read hrun)).tail
    (.write (n := 3) hoffered (by decide))).tail
    (.queue _ (.message (asBytes "c") (asBytes "m")))).tail (.deliver _)
  exact ⟨_, hsteps, rfl, hrest, output_conserved hsteps⟩

end Wire

end FeoxServer
