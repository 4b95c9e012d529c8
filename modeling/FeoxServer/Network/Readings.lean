import FeoxServer.Network.ClientOutput

/-!
# Serving a connection

Reading chunks and answering them changes a connection, but not who it is; its output
only grows.
-/

namespace FeoxServer

open Foundation Prog

namespace Connection

variable {fuel : Nat} {T : Service Call Answer}

/-- Where a connection comes from. -/
def origin (c : Connection) : Int × Option String × UInt64 :=
  (c.fd, c.clientAddr, c.connectedAt)

/-- What answering a command leaves as it is. -/
def Spared {α : Type} (f : Connection -> α) : Prop :=
  forall c executor authenticated transactionState queuedCommands watchedKeys,
    f { c with
      executor := executor
      authenticated := authenticated
      transactionState := transactionState
      queuedCommands := queuedCommands
      watchedKeys := watchedKeys } = f c

theorem answer_spares {α : Type} {f : Connection -> α} (hf : Spared f) (fuel : Nat)
    (c : Connection) (cmd : Command) :
    Returns Anything (fun r => f r.1 = f c) (answer fuel c cmd) := by
  refine returns_mono (answer_returns fuel c cmd) ?_
  rintro r ⟨n, b, hr⟩
  rw [hr]
  exact hf c _ _ c.transactionState c.queuedCommands c.watchedKeys

theorem dispatch_spares {α : Type} {f : Connection -> α} (hf : Spared f) (fuel : Nat)
    (c : Connection) (cmd : Command) :
    Returns Anything (fun r => f r.1 = f c) (dispatch fuel c cmd) := by
  have hspared : forall x state queue watched flow,
      Returns Anything (fun r : Connection × Flow => f r.1 = f c)
        (pure ({ c with
          executor := x
          transactionState := state
          queuedCommands := queue
          watchedKeys := watched }, flow)) :=
    fun x state queue watched _ =>
      Returns.done (hf c x c.authenticated state queue watched)
  have hsame : forall flow,
      Returns Anything (fun r : Connection × Flow => f r.1 = f c) (pure (c, flow)) :=
    fun _ => Returns.done rfl
  by_cases hordinary : cmd.isTransactionCommand = false
  · rw [dispatch_ordinary hordinary]
    split
    · exact hspared _ _ _ _ _
    · exact answer_spares hf fuel c cmd
  · cases cmd with
    | multi =>
        simp only [dispatch, beginTransaction]
        split
        · exact hsame _
        · exact hspared _ _ _ _ _
    | exec =>
        simp only [dispatch, exec]
        split
        · exact hsame _
        · refine returns_bind (returns_trivial _) fun unchanged _ => ?_
          split
          · exact returns_bind (returns_trivial _) fun _ _ => hspared _ _ _ _ _
          · exact hspared _ _ _ _ _
    | discard =>
        simp only [dispatch, discard]
        split
        · exact hsame _
        · exact hspared _ _ _ _ _
    | watch keys =>
        simp only [dispatch, watch]
        split
        · exact hsame _
        · exact returns_bind (returns_trivial _) fun _ _ => hspared _ _ _ _ _
    | unwatch => exact hspared _ _ _ _ _
    | _ => exact absurd rfl hordinary

theorem processFrame_origin (fuel : Nat) (c : Connection) (v : RespValue) :
    Returns Anything (fun r => r.1.origin = c.origin) (processFrame fuel c v) := by
  have hframe : Returns Anything (fun r => r.1.origin = c.origin)
      (frameFlow fuel c v) := by
    rw [frameFlow_eq]
    cases c.route v with
    | fast f => exact returns_bind (returns_trivial _) fun r _ => Returns.done rfl
    | invalid e | quit | refused => exact Returns.done rfl
    | dispatched cmd =>
        rcases c.countCommand.noteClientName_eq cmd with ⟨name, hname⟩
        simp only [hname]
        have horigin := dispatch_spares (f := origin) (fun _ _ _ _ _ _ => rfl) fuel
          { c.countCommand with clientName := name } cmd
        exact returns_mono horigin fun r hr => hr
  exact returns_bind hframe fun r hr => Returns.done hr

/-- What no chunk changes of a connection before the service is asked. -/
structure Remains (c c' : Connection) : Prop where
  origin : c'.origin = c.origin
  connectionId : c'.connectionId = c.connectionId
  subscriptionCount : c'.subscriptionCount = c.subscriptionCount
  flags : c'.flags = c.flags
  pending : c'.pendingPubsubMessages = c.pendingPubsubMessages

theorem Remains.refl (c : Connection) : Remains c c :=
  ⟨rfl, rfl, rfl, rfl, rfl⟩

theorem Remains.trans {c c1 c2 : Connection} (h : Remains c c1) (h' : Remains c1 c2) :
    Remains c c2 :=
  ⟨h'.origin.trans h.origin, h'.connectionId.trans h.connectionId,
    h'.subscriptionCount.trans h.subscriptionCount, h'.flags.trans h.flags,
    h'.pending.trans h.pending⟩

theorem remains_processFrame {c c' : Connection} {p : RespParser} {v : RespValue}
    {flow : Flow} {s s' : T.State}
    (hrun : (processFrame fuel { c with parser := p } v).run T s =
      some ((c', flow), s')) : Remains c c' := by
  have hlasting := run_anything (processFrame_lasting fuel _ v) hrun
  exact ⟨run_anything (processFrame_origin fuel _ v) hrun, hlasting.connectionId,
    hlasting.subscriptionCount, hlasting.flags,
    congrArg Surroundings.pendingPubsubMessages (processFrame_surroundings hrun)⟩

theorem remains_readLoop {rounds : Nat} {c c' : Connection} {ops : List PubSubOp}
    {r : ReadResult} {s s' : T.State}
    (hrun : (readLoop fuel rounds c ops).run T s = some ((c', r), s')) :
    Remains c c' := by
  induction rounds generalizing c ops s with
  | zero => cases hrun
  | succ rounds ih =>
      unfold readLoop at hrun
      rcases c.parser.parseNext_cases with
        ⟨_, hnext⟩ | ⟨e, _, hnext⟩ | ⟨v, n, p, _, hnext, _⟩
      · rw [hnext] at hrun
        cases hrun
        exact Remains.refl c
      · rw [hnext] at hrun
        cases hrun
        exact Remains.refl c
      · rw [hnext] at hrun
        rcases (run_bind_eq_some _).mp hrun with ⟨⟨c1, flow⟩, s1, hframe, hrest⟩
        have hone := remains_processFrame hframe
        cases flow with
        | deferred op => exact hone.trans (ih hrest)
        | fast reply | reply reply => exact hone.trans (ih hrest)
        | quit | failed e =>
            cases hrest
            exact hone

theorem remains_processRead {c c' : Connection} {data : Bytes} {r : ReadResult}
    {s s' : T.State}
    (hrun : (c.processRead fuel data).run T s = some ((c', r), s')) :
    Remains c c' := by
  have hloop := remains_readLoop hrun
  rw [clearWritten_feed] at hloop
  rcases c.clearWritten_eq with ⟨buffer, position, hclear⟩
  rw [hclear] at hloop
  exact ⟨hloop.origin, hloop.connectionId, hloop.subscriptionCount, hloop.flags,
    hloop.pending⟩

theorem appended_processRead {c c' : Connection} {data : Bytes} {r : ReadResult}
    {s s' : T.State}
    (hrun : (c.processRead fuel data).run T s = some ((c', r), s')) :
    exists more, Appended c.clearWritten c' more := by
  rw [← forget_processReadNoted] at hrun
  rcases (run_bind_eq_some _).mp hrun with ⟨⟨⟨c1, r1⟩, flows⟩, s1, hnoted, hforget⟩
  cases hforget
  have happended := appended_readLoopNoted hnoted
  rw [clearWritten_feed] at happended
  exact ⟨_, happended.position, happended.buffer⟩

theorem appended_handleOperations (threadId : ThreadId) (ops : List PubSubOp)
    (c : Connection) (st : PubSubState) :
    exists more, Appended c (handleOperations threadId ops c st).2.1 more := by
  induction ops generalizing c st with
  | nil => exact ⟨[], .refl c⟩
  | cons op ops ih =>
      have hfirst := appended_handlePubsubOperation threadId c.connectionId st op c
      rcases ih (handlePubsubOperation st c.connectionId op c threadId).2.1
        (handlePubsubOperation st c.connectionId op c threadId).2.2 with ⟨more, hrest⟩
      exact ⟨_, hfirst.trans hrest⟩

end Connection

/-!
# What a chunk comes to
-/

namespace Reading

variable {S : FeoxStore} {P : Platform} {fuel : Nat} {threadId : ThreadId}

def refused (r : Reading S P) (c : Connection) (world : World S P) : Reading S P :=
  { r with
    client := { r.client with connection := c }
    shared := { r.shared with world := world }
    shouldClose := true }

def finished (threadId : ThreadId) (r : Reading S P) (c : Connection)
    (ops : List PubSubOp) (world : World S P) : Shared.ReadOutcome S P :=
  Shared.finishRead { r.shared with world := world } threadId c (.ok ops)

def answered (threadId : ThreadId) (r : Reading S P) (c : Connection)
    (ops : List PubSubOp) (world : World S P) (writes : List SocketWrite) :
    Reading S P :=
  let outcome := r.finished threadId c ops world
  let (cl, failed) :=
    Client.respond writes { r.client with connection := outcome.connection }
  { client := cl
    shared := outcome.shared
    deliveriesToMake := r.deliveriesToMake ++ outcome.deliveriesToMake
    shouldClose := r.shouldClose || failed || cl.connection.closed }

theorem chunk_cases {r r' : Reading S P} {data : Bytes} {writes : List SocketWrite}
    {again : Bool} (h : r.chunk fuel threadId data writes = some (r', again)) :
    exists c result world,
      (r.client.connection.processRead fuel data).run (server S P) r.shared.world =
        some ((c, result), world) ∧
      ((exists e, result = .error e ∧ r' = r.refused c world ∧ again = false) ∨
        (exists ops, result = .ok ops ∧
          r' = r.answered threadId c ops world writes ∧
          again = !r'.client.connection.closed)) := by
  unfold chunk at h
  rcases Option.bind_eq_some_iff.mp h with ⟨⟨⟨c, result⟩, world⟩, hrun, hrest⟩
  refine ⟨c, result, world, hrun, ?_⟩
  cases result with
  | error e =>
      cases hrest
      exact Or.inl ⟨e, rfl, rfl, rfl⟩
  | ok ops =>
      cases hrest
      exact Or.inr ⟨ops, rfl, rfl, rfl⟩

theorem readLoop_induction {Q : Reading S P -> Prop}
    (hclose : forall r, Q r -> Q { r with shouldClose := true })
    (hchunk : forall r data writes r' again, Q r ->
      r.chunk fuel threadId data writes = some (r', again) -> Q r')
    {answers : List (SocketRead × List SocketWrite)} {r r' : Reading S P} (hr : Q r)
    (hrun : r.readLoop fuel threadId answers = some r') : Q r' := by
  induction answers generalizing r with
  | nil =>
      cases hrun
      exact hr
  | cons answer answers ih =>
      rcases answer with ⟨answer, writes⟩
      cases answer with
      | wouldBlock =>
          cases hrun
          exact hr
      | closed | failed =>
          cases hrun
          exact hclose r hr
      | ok data =>
          rcases Option.bind_eq_some_iff.mp hrun with ⟨⟨r1, again⟩, hfirst, hrest⟩
          have hr1 := hchunk r data writes r1 again hr hfirst
          cases again with
          | true => exact ih hr1 hrest
          | false =>
              cases hrest
              exact hr1

end Reading

namespace Server

variable {S : FeoxStore} {P : Platform} {fuel : Nat} {threadId : ThreadId}

/-- What every chunk keeps, and every decision to close, holds behind an event if it
holds where reading begins. -/
theorem serve_induction {Q : Reading S P -> Prop} {sh : Shared S P} {cl : Client}
    {readiness : Readiness} {r : Reading S P}
    (hclose : forall r, Q r -> Q { r with shouldClose := true })
    (hchunk : forall r data writes r' again, Q r ->
      r.chunk fuel threadId data writes = some (r', again) -> Q r')
    (hstart : Q
      { client := (cl.writeFirst readiness).1
        shared := sh
        deliveriesToMake := []
        shouldClose := (cl.writeFirst readiness).2 })
    (hserve : serve fuel threadId sh cl readiness = some r) : Q r := by
  unfold serve at hserve
  cases hreadable : readiness.readable with
  | none =>
      rw [hreadable] at hserve
      cases hserve
      exact hstart
  | some answers =>
      rw [hreadable] at hserve
      exact Reading.readLoop_induction hclose hchunk hstart hserve

theorem wrote_writeFirst (readiness : Readiness) {cl : Client}
    (h : cl.connection.writePosition <= cl.connection.writeBuffer.length) :
    cl.Wrote (cl.writeFirst readiness).1 := by
  unfold Client.writeFirst
  cases readiness.writable with
  | none => exact .refl h
  | some writes => exact Client.wrote_onWritable writes h

end Server

/-!
# The same connection
-/

/-- The client of a reading is the one that was served: it is who it was, and its
output has only grown. -/
structure Reading.Serves {S : FeoxStore} {P : Platform} (cl : Client)
    (r : Reading S P) : Prop where
  origin : r.client.connection.origin = cl.connection.origin
  connectionId : r.client.connection.connectionId = cl.connection.connectionId
  messages : r.client.connection.pendingPubsubMessages = []
  position : r.client.connection.writePosition <=
    r.client.connection.writeBuffer.length
  output : cl.output <+: r.client.output
  opened : r.shouldClose = false -> r.client.connection.closed = false

namespace Reading

variable {S : FeoxStore} {P : Platform} {fuel : Nat} {threadId : ThreadId}

theorem output_clearWritten (cl : Client) :
    Client.output { cl with connection := cl.connection.clearWritten } =
      cl.output := by
  unfold Client.output Connection.clearWritten
  simp only
  split
  · rename_i hsent
    rw [List.drop_eq_nil_of_le hsent]
    rfl
  · rfl

theorem output_processRead {cl : Client} {c : Connection} {data : Bytes}
    {result : Connection.ReadResult} {world world' : World S P}
    (hrun : (cl.connection.processRead fuel data).run (server S P) world =
      some ((c, result), world')) {c' : Connection} {later : Bytes}
    (hlater : Connection.Appended c c' later) :
    cl.output <+: Client.output { cl with connection := c' } ∧
      c'.writePosition <= c'.writeBuffer.length := by
  rcases Connection.appended_processRead hrun with ⟨more, happended⟩
  have hafter := @Client.output_appended
    { cl with connection := cl.connection.clearWritten }
    { cl with connection := c' } _ rfl (happended.trans hlater)
    cl.connection.clearWritten_position
  rw [output_clearWritten] at hafter
  exact ⟨hafter.1 ▸ List.prefix_append _ _, hafter.2⟩

theorem finished_connection (r : Reading S P) (c : Connection) (ops : List PubSubOp)
    (world : World S P) :
    (r.finished threadId c ops world).connection.origin = c.origin ∧
      (r.finished threadId c ops world).connection.connectionId = c.connectionId ∧
      (r.finished threadId c ops world).connection.pendingPubsubMessages = [] ∧
      exists later,
        Connection.Appended c (r.finished threadId c ops world).connection later := by
  rcases handleOperations_eq threadId ops c r.shared.pubsub with
    ⟨count, flags, pending, buffer, heq⟩
  rcases Connection.appended_handleOperations threadId ops c r.shared.pubsub with
    ⟨more, happended⟩
  have hwritten := happended.trans (Connection.appended_processPubsubMessages _)
  refine ⟨?_, ?_, rfl, _, hwritten⟩
  · change (handleOperations threadId ops c r.shared.pubsub).2.1.origin = c.origin
    rw [heq]
    rfl
  · change (handleOperations threadId ops c r.shared.pubsub).2.1.connectionId = _
    rw [heq]

theorem serves_chunk {cl : Client} {r r' : Reading S P} {data : Bytes}
    {writes : List SocketWrite} {again : Bool} (h : r.Serves cl)
    (hchunk : r.chunk fuel threadId data writes = some (r', again)) :
    r'.Serves cl := by
  rcases chunk_cases hchunk with
    ⟨c, result, world, hrun, ⟨e, rfl, rfl, _⟩ | ⟨ops, rfl, rfl, _⟩⟩
  · have hremains := Connection.remains_processRead hrun
    have houtput := output_processRead hrun (.refl c)
    exact ⟨hremains.origin.trans h.origin,
      hremains.connectionId.trans h.connectionId, hremains.pending.trans h.messages,
      houtput.2, h.output.trans houtput.1, by rintro ⟨⟩⟩
  · have hremains := Connection.remains_processRead hrun
    rcases @finished_connection _ _ threadId r c ops world with
      ⟨horigin, hid, hmessages, later, hlater⟩
    have houtput := output_processRead hrun hlater
    have hwrote := @Client.wrote_respond writes
      { r.client with connection := (r.finished threadId c ops world).connection }
      houtput.2
    rcases hwrote.connection with ⟨position, hconnection⟩
    refine ⟨?_, ?_, ?_, hwrote.position, ?_, ?_⟩
    · change (Client.respond writes _).1.connection.origin = _
      rw [hconnection]
      exact horigin.trans (hremains.origin.trans h.origin)
    · change (Client.respond writes _).1.connection.connectionId = _
      rw [hconnection]
      exact hid.trans (hremains.connectionId.trans h.connectionId)
    · change (Client.respond writes _).1.connection.pendingPubsubMessages = _
      rw [hconnection]
      exact hmessages
    · exact h.output.trans (hwrote.output ▸ houtput.1)
    · intro hopen
      exact (Bool.or_eq_false_iff.mp hopen).2

theorem serves_serve {sh : Shared S P} {cl : Client} {readiness : Readiness}
    {r : Reading S P} (hcl : cl.Resting)
    (hserve : Server.serve fuel threadId sh cl readiness = some r) : r.Serves cl := by
  have hwrote := Server.wrote_writeFirst readiness hcl.position
  rcases hwrote.connection with ⟨position, hconnection⟩
  refine Server.serve_induction ?_ ?_ ?_ hserve
  · rintro r h
    exact ⟨h.origin, h.connectionId, h.messages, h.position, h.output, by rintro ⟨⟩⟩
  · intro r data writes r' again h hchunk
    exact serves_chunk h hchunk
  · refine ⟨?_, ?_, ?_, hwrote.position, hwrote.output ▸ List.prefix_rfl, fun _ => ?_⟩
    · rw [hconnection]
      rfl
    · rw [hconnection]
    · rw [hconnection]
      exact hcl.messages
    · rw [hconnection]
      exact hcl.opened

theorem Serves.resting {cl : Client} {r : Reading S P} (h : r.Serves cl)
    (hkept : r.shouldClose = false) : r.client.Resting :=
  ⟨h.opened hkept, h.messages, h.position⟩

end Reading

end FeoxServer
