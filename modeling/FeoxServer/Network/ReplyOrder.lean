import FeoxServer.Foundation.Phases
import FeoxServer.Network.Modes
import FeoxServer.Network.ReplyFraming
import FeoxServer.Protocol.AcceptedCommands

/-!
# The replies of a chunk

A chunk is answered in three phases.  What the connection answers itself is
written while it reads, the replies of the publish and subscribe service are
written behind it, and the confirmations of subscriptions come last.
-/

namespace FeoxServer

open Foundation Prog

/-!
# What the service replies
-/

/-- What handling an operation writes at once, what it queues, and the state it
leaves. -/
structure Served where
  direct : List RespValue
  confirmations : List PubSubMessage
  state : PubSubState

namespace Served

def frames (r : Served) : List RespValue :=
  r.direct ++ r.confirmations.map PubSubMessage.toResp

end Served

def served (threadId : ThreadId) (connId : ConnectionId) (st : PubSubState) :
    PubSubOp -> Served
  | .subscribe channels =>
      let (messages, st) := ThreadLocalPubSub.subscribe st connId channels
      ⟨[], messages, st⟩
  | .unsubscribe channels =>
      let (messages, st) := ThreadLocalPubSub.unsubscribe st connId channels
      ⟨[], messages, st⟩
  | .psubscribe patterns =>
      let (messages, st) := ThreadLocalPubSub.psubscribe st connId patterns
      ⟨[], messages, st⟩
  | .punsubscribe patterns =>
      let (messages, st) := ThreadLocalPubSub.punsubscribe st connId patterns
      ⟨[], messages, st⟩
  | .publish channel message =>
      let (_, count, r) := ThreadLocalPubSub.publish st threadId channel message
      ⟨[.integer (Int64.ofNat count)], [], (st.1, r)⟩
  | .pubSubChannels pattern => ⟨[st.2.channelsReply pattern], [], st⟩
  | .pubSubNumSub channels => ⟨[st.2.numSubReply channels], [], st⟩
  | .pubSubNumPat => ⟨[st.2.numPatReply], [], st⟩

namespace Connection

def Gains (c c' : Connection) (replies : List RespValue)
    (messages : List PubSubMessage) : Prop :=
  c'.writeBuffer = c.writeBuffer ++ replies.flatMap formatRespResponse ∧
    c'.pendingPubsubMessages = c.pendingPubsubMessages ++ messages

theorem Gains.refl (c : Connection) : Gains c c [] [] :=
  ⟨(List.append_nil _).symm, (List.append_nil _).symm⟩

theorem Gains.trans {c c1 c2 : Connection} {replies replies' : List RespValue}
    {messages messages' : List PubSubMessage} (h : Gains c c1 replies messages)
    (h' : Gains c1 c2 replies' messages') :
    Gains c c2 (replies ++ replies') (messages ++ messages') := by
  refine ⟨?_, ?_⟩
  · rw [h'.1, h.1, List.flatMap_append, List.append_assoc]
  · rw [h'.2, h.2, List.append_assoc]

theorem gains_confirm (c : Connection) (message : PubSubMessage) :
    Gains c (c.confirm message) [] [message] := by
  cases message <;> exact ⟨(List.append_nil _).symm, rfl⟩

theorem gains_confirmAll (messages : List PubSubMessage) (c : Connection) :
    Gains c (c.confirmAll messages) [] messages := by
  induction messages generalizing c with
  | nil => exact Gains.refl c
  | cons message messages ih => exact (gains_confirm c message).trans (ih _)

theorem gains_write (c : Connection) (r : RespValue) :
    Gains c (c.write (formatRespResponse r)) [r] [] := by
  refine ⟨?_, (List.append_nil _).symm⟩
  rw [List.flatMap_singleton]
  rfl

end Connection

open Connection

theorem handlePubsubOperation_served (threadId : ThreadId) (connId : ConnectionId)
    (st : PubSubState) (op : PubSubOp) (c : Connection) :
    (handlePubsubOperation st connId op c threadId).2.2 =
        (served threadId connId st op).state ∧
      Gains c (handlePubsubOperation st connId op c threadId).2.1
        (served threadId connId st op).direct
        (served threadId connId st op).confirmations := by
  cases op with
  | subscribe names | unsubscribe names | psubscribe names
  | punsubscribe names => exact ⟨rfl, gains_confirmAll _ c⟩
  | _ => exact ⟨rfl, gains_write c _⟩

def servedAll (threadId : ThreadId) (connId : ConnectionId) :
    PubSubState -> List PubSubOp -> List RespValue × List PubSubMessage
  | _, [] => ([], [])
  | st, op :: ops =>
      let first := served threadId connId st op
      let rest := servedAll threadId connId first.state ops
      (first.direct ++ rest.1, first.confirmations ++ rest.2)

theorem handleOperations_served (threadId : ThreadId) (ops : List PubSubOp)
    (c : Connection) (st : PubSubState) :
    Gains c (handleOperations threadId ops c st).2.1
      (servedAll threadId c.connectionId st ops).1
      (servedAll threadId c.connectionId st ops).2 := by
  induction ops generalizing c st with
  | nil => exact Gains.refl c
  | cons op ops ih =>
      have hserved := handlePubsubOperation_served threadId c.connectionId st op c
      have hid : (handlePubsubOperation st c.connectionId op c
          threadId).2.1.connectionId = c.connectionId := by
        rcases handlePubsubOperation_eq st c.connectionId op c threadId with
          ⟨count, flags, pending, buffer, heq⟩
        rw [heq]
      have hrest := ih (handlePubsubOperation st c.connectionId op c threadId).2.1
        (handlePubsubOperation st c.connectionId op c threadId).2.2
      rw [hid, hserved.1] at hrest
      have htail := hserved.2.trans hrest
      rw [← hserved.1] at htail
      rw [servedAll, ← hserved.1]
      exact htail

/-!
# How many frames the service replies
-/

/-- The names that a subscription or an unsubscription concerns. -/
def PubSubOp.names (st : PubSubState) (connId : ConnectionId) :
    PubSubOp -> Option (List Bytes)
  | subscribe names | psubscribe names | unsubscribe (some names)
  | punsubscribe (some names) => some names
  | unsubscribe none => some (st.1.channels.namesOf connId)
  | punsubscribe none => some (st.1.patterns.namesOf connId)
  | _ => none

theorem length_forEach {σ α β : Type} (step : σ -> α -> β × σ) (s : σ)
    (items : List α) :
    (ThreadLocalPubSub.forEach step s items).1.length = items.length := by
  induction items generalizing s with
  | nil => rfl
  | cons a items ih => exact congrArg (· + 1) (ih _)

theorem length_unsubscribeAll (kind : SubscriptionType) (st : PubSubState)
    (connId : ConnectionId) :
    (ThreadLocalPubSub.unsubscribeNames kind st connId none).1.length =
      ((st.1.table kind).namesOf connId).length := by
  unfold ThreadLocalPubSub.unsubscribeNames SubscriptionTable.namesOf
  cases (st.1.table kind).names.lookup connId with
  | none => rfl
  | some names => exact length_forEach _ _ names

theorem length_served (threadId : ThreadId) (connId : ConnectionId)
    (st : PubSubState) (op : PubSubOp) :
    (served threadId connId st op).frames.length =
      match op.names st connId with
      | some names => names.length
      | none => 1 := by
  have hconfirmed : forall messages : List PubSubMessage,
      ([] ++ messages.map PubSubMessage.toResp).length = messages.length :=
    fun messages => List.length_map _
  cases op with
  | subscribe names | psubscribe names =>
      exact (hconfirmed _).trans (length_forEach _ st names)
  | unsubscribe names =>
      refine (hconfirmed _).trans ?_
      cases names with
      | none => exact length_unsubscribeAll .channel st connId
      | some names => exact length_forEach _ st names
  | punsubscribe names =>
      refine (hconfirmed _).trans ?_
      cases names with
      | none => exact length_unsubscribeAll .pattern st connId
      | some names => exact length_forEach _ st names
  | _ => rfl

/-!
# The frames of a chunk
-/

/-- A frame that replies to a command, with the number of the command and the
phase in which it is written. -/
structure ReplyFrame where
  number : Nat
  phase : Nat
  frame : RespValue

/-- Confirmations of subscriptions are written last, other replies of the
service before them, and everything else first. -/
def phaseOf : Option PubSubOp -> Nat
  | none => 0
  | some (.subscribe _) | some (.unsubscribe _)
  | some (.psubscribe _) | some (.punsubscribe _) => 2
  | some _ => 1

theorem phaseOf_lt (op : Option PubSubOp) : phaseOf op < 3 := by
  unfold phaseOf
  split <;> decide

section Frames

variable (threadId : ThreadId) (connId : ConnectionId)

def servedFrames (st : PubSubState) : Option PubSubOp -> List RespValue
  | some op => (served threadId connId st op).frames
  | none => []

def serviceAfter (st : PubSubState) : Option PubSubOp -> PubSubState
  | some op => (served threadId connId st op).state
  | none => st

def Silent (st : PubSubState) (op : Option PubSubOp) : Prop :=
  op.bind (PubSubOp.names st connId) = some []

instance (st : PubSubState) (op : Option PubSubOp) : Decidable (Silent connId st op) :=
  inferInstanceAs (Decidable (_ = _))

/-- The phases of the commands that are replied to, in order. -/
def answeredPhases : PubSubState -> List (Option PubSubOp) -> List Nat
  | _, [] => []
  | st, op :: ops =>
      (if Silent connId st op then [] else [phaseOf op]) ++
        answeredPhases (serviceAfter threadId connId st op) ops

namespace Flow

def left : Flow -> Option PubSubOp
  | deferred op => some op
  | _ => none

/-- All frames that reply to a command. -/
def frames (st : PubSubState) (flow : Flow) : List RespValue :=
  flow.written ++ servedFrames threadId connId st flow.left

end Flow

def replyFrames : PubSubState -> Nat -> List Flow -> List ReplyFrame
  | _, _, [] => []
  | st, number, flow :: flows =>
      ((flow.frames threadId connId st).map fun r =>
          ⟨number, phaseOf flow.left, r⟩) ++
        replyFrames (serviceAfter threadId connId st flow.left) (number + 1) flows

variable {threadId : ThreadId} {connId : ConnectionId}

theorem Flow.ops_eq_left (flow : Flow) : flow.ops = flow.left.toList := by
  cases flow <;> rfl

theorem Flow.frames_eq_nil_iff {flow : Flow} (haccepted : flow.Accepted)
    (st : PubSubState) :
    flow.frames threadId connId st = [] <-> Silent connId st flow.left := by
  cases flow with
  | deferred op =>
      change (served threadId connId st op).frames = [] <->
        op.names st connId = some []
      rw [← List.length_eq_zero_iff, length_served]
      cases op.names st connId with
      | none => exact iff_of_false nofun nofun
      | some names => simp
  | failed e => exact absurd rfl (haccepted e)
  | _ => exact iff_of_false nofun nofun

theorem le_number {st : PubSubState} {number : Nat} {flows : List Flow}
    {x : ReplyFrame} (h : x ∈ replyFrames threadId connId st number flows) :
    number <= x.number := by
  induction flows generalizing st number with
  | nil => exact absurd h List.not_mem_nil
  | cons flow flows ih =>
      rcases List.mem_append.mp h with hfirst | hrest
      · rcases List.mem_map.mp hfirst with ⟨r, _, rfl⟩
        exact Nat.le_refl number
      · exact Nat.le_of_succ_le (ih hrest)

theorem numbers_sorted (st : PubSubState) (number : Nat) (flows : List Flow) :
    (replyFrames threadId connId st number flows).Pairwise
      fun a b => a.number <= b.number := by
  induction flows generalizing st number with
  | nil => exact List.Pairwise.nil
  | cons flow flows ih =>
      refine List.pairwise_append.mpr ⟨?_, ih _ _, ?_⟩
      · exact List.pairwise_map.mpr
          (List.pairwise_of_forall fun _ _ => Nat.le_refl number)
      · intro a ha b hb
        rcases List.mem_map.mp ha with ⟨r, _, rfl⟩
        exact Nat.le_of_succ_le (le_number hb)

theorem phase_lt_of_mem {st : PubSubState} {number : Nat} {flows : List Flow}
    {x : ReplyFrame} (h : x ∈ replyFrames threadId connId st number flows) :
    x.phase < 3 := by
  induction flows generalizing st number with
  | nil => exact absurd h List.not_mem_nil
  | cons flow flows ih =>
      rcases List.mem_append.mp h with hfirst | hrest
      · rcases List.mem_map.mp hfirst with ⟨r, _, rfl⟩
        exact phaseOf_lt flow.left
      · exact ih hrest

theorem mem_answeredPhases {st : PubSubState} {flows : List Flow} {p : Nat}
    (haccepted : forall flow, flow ∈ flows -> flow.Accepted) (number : Nat) :
    p ∈ answeredPhases threadId connId st (flows.map Flow.left) <->
      exists x, x ∈ replyFrames threadId connId st number flows ∧ x.phase = p := by
  induction flows generalizing st number with
  | nil => simp [answeredPhases, replyFrames]
  | cons flow flows ih =>
      rw [List.forall_mem_cons] at haccepted
      have hframes := @Flow.frames_eq_nil_iff threadId connId flow haccepted.1 st
      rw [List.map_cons, answeredPhases, replyFrames]
      simp only [List.mem_append, ih haccepted.2 (number + 1), or_and_right,
        exists_or, List.mem_map]
      refine or_congr_left ?_
      by_cases hsilent : Silent connId st flow.left
      · rw [if_pos hsilent, hframes.mpr hsilent]
        simp
      · rw [if_neg hsilent, List.mem_singleton]
        rcases List.exists_mem_of_ne_nil _ (mt hframes.mp hsilent) with ⟨r, hr⟩
        constructor
        · rintro rfl
          exact ⟨_, ⟨r, hr, rfl⟩, rfl⟩
        · rintro ⟨_, ⟨_, _, rfl⟩, rfl⟩
          rfl

/-- No frame is overtaken exactly if no command is answered in an earlier phase
than one before it. -/
theorem noneOvertaken_iff {flows : List Flow}
    (haccepted : forall flow, flow ∈ flows -> flow.Accepted) (st : PubSubState)
    (number : Nat) :
    NoneOvertaken ReplyFrame.phase ReplyFrame.number
        (replyFrames threadId connId st number flows) <->
      (answeredPhases threadId connId st (flows.map Flow.left)).Pairwise
        (· <= ·) := by
  induction flows generalizing st number with
  | nil => simp [NoneOvertaken, replyFrames, answeredPhases]
  | cons flow flows ih =>
      rw [List.forall_mem_cons] at haccepted
      have hframes := @Flow.frames_eq_nil_iff threadId connId flow haccepted.1 st
      have happend := @noneOvertaken_append_iff _ ReplyFrame.phase
        ReplyFrame.number number (phaseOf flow.left)
        ((flow.frames threadId connId st).map fun r =>
          ⟨number, phaseOf flow.left, r⟩)
        (replyFrames threadId connId (serviceAfter threadId connId st flow.left)
          (number + 1) flows)
        (List.forall_mem_map.mpr fun _ _ => rfl)
        (List.forall_mem_map.mpr fun _ _ => rfl) fun b hb => le_number hb
      have hlater : (forall p, p ∈ answeredPhases threadId connId
            (serviceAfter threadId connId st flow.left) (flows.map Flow.left) ->
            phaseOf flow.left <= p) <->
          forall x, x ∈ replyFrames threadId connId
            (serviceAfter threadId connId st flow.left) (number + 1) flows ->
            phaseOf flow.left <= x.phase := by
        simp only [mem_answeredPhases haccepted.2 (number + 1)]
        exact ⟨fun h x hx => h _ ⟨x, hx, rfl⟩,
          fun h p ⟨x, hx, hp⟩ => hp ▸ h x hx⟩
      rw [List.map_cons, answeredPhases, replyFrames, happend,
        List.pairwise_append, ← ih haccepted.2 _ (number + 1)]
      by_cases hsilent : Silent connId st flow.left
      · rw [if_pos hsilent, hframes.mpr hsilent]
        simp
      · have hsome : (flow.frames threadId connId st).map
            (fun r => ReplyFrame.mk number (phaseOf flow.left) r) ≠ [] :=
          mt List.map_eq_nil_iff.mp (mt hframes.mp hsilent)
        rw [if_neg hsilent, List.forall_mem_singleton, hlater]
        constructor
        · rintro ⟨hfirst, hrest⟩
          exact ⟨List.pairwise_singleton _ _, hrest, hfirst hsome⟩
        · rintro ⟨_, hrest, hfirst⟩
          exact ⟨fun _ => hfirst, hrest⟩

/-!
# The phases of a chunk
-/

def framesOf (phase : Nat) (frames : List ReplyFrame) : List RespValue :=
  (frames.filter fun x => x.phase = phase).map ReplyFrame.frame

theorem framesOf_replyFrames_cons (p : Nat) (st : PubSubState) (number : Nat)
    (flow : Flow) (flows : List Flow) :
    framesOf p (replyFrames threadId connId st number (flow :: flows)) =
      (if phaseOf flow.left = p then flow.frames threadId connId st else []) ++
        framesOf p (replyFrames threadId connId
          (serviceAfter threadId connId st flow.left) (number + 1) flows) := by
  unfold framesOf
  rw [replyFrames, List.filter_append, List.map_append]
  refine congrArg (· ++ _) ?_
  rw [List.filter_map, List.map_map]
  split
  · rename_i hphase
    have hall : (flow.frames threadId connId st).filter
        (fun _ => decide (phaseOf flow.left = p)) =
        flow.frames threadId connId st :=
      List.filter_eq_self.mpr fun _ _ => decide_eq_true hphase
    exact (congrArg _ hall).trans (List.map_id' _)
  · rename_i hphase
    have hnone : (flow.frames threadId connId st).filter
        (fun _ => decide (phaseOf flow.left = p)) = [] :=
      List.filter_eq_nil_iff.mpr fun _ _ => by simp [hphase]
    exact congrArg _ hnone

theorem framesOf_zero (st : PubSubState) (number : Nat) (flows : List Flow) :
    framesOf 0 (replyFrames threadId connId st number flows) =
      flows.flatMap Flow.written := by
  induction flows generalizing st number with
  | nil => rfl
  | cons flow flows ih =>
      rw [framesOf_replyFrames_cons, ih, List.flatMap_cons]
      refine congrArg (· ++ _) ?_
      cases flow with
      | deferred op => cases op <;> rfl
      | _ => exact List.append_nil _

theorem framesOf_served (st : PubSubState) (number : Nat) (flows : List Flow) :
    framesOf 1 (replyFrames threadId connId st number flows) =
        (servedAll threadId connId st (flows.flatMap Flow.ops)).1 ∧
      framesOf 2 (replyFrames threadId connId st number flows) =
        (servedAll threadId connId st (flows.flatMap Flow.ops)).2.map
          PubSubMessage.toResp := by
  induction flows generalizing st number with
  | nil => exact ⟨rfl, rfl⟩
  | cons flow flows ih =>
      rw [framesOf_replyFrames_cons, framesOf_replyFrames_cons, List.flatMap_cons]
      cases flow with
      | deferred op =>
          have hrest := ih (served threadId connId st op).state (number + 1)
          cases op with
          | subscribe names | psubscribe names | unsubscribe names
          | punsubscribe names =>
              exact ⟨hrest.1, (congrArg (_ ++ ·) hrest.2).trans
                List.map_append.symm⟩
          | _ => exact ⟨congrArg (_ ++ ·) hrest.1, hrest.2⟩
      | _ => exact ih st (number + 1)

end Frames

/-!
# The write buffer behind a chunk
-/

/-- What some frames have done to a session. -/
structure Session.Behind {S : FeoxStore} {P : Platform} (ses ses' : Session S P)
    (flows : List Flow) : Prop where
  writeBuffer : ses'.connection.writeBuffer =
    ses.connection.writeBuffer ++ flows.flatMap Flow.bytes
  pending : ses'.connection.pendingPubsubMessages =
    ses.connection.pendingPubsubMessages
  connectionId : ses'.connection.connectionId = ses.connection.connectionId
  pubsub : ses'.shared.pubsub = ses.shared.pubsub
  ops : ses'.ops = ses.ops ++ flows.flatMap Flow.ops

variable {S : FeoxStore} {P : Platform} {fuel : Nat} {threadId : ThreadId}

theorem Session.framed_behind {frames : List (RespParser × RespValue)}
    {ses ses' : Session S P} {replies : Replies}
    (hrun : run fuel threadId (framed frames) ses = some (ses', replies)) :
    Behind ses ses' (replies.map Prod.snd) := by
  induction frames generalizing ses replies with
  | nil =>
      cases hrun
      exact ⟨(List.append_nil _).symm, rfl, rfl, rfl, (List.append_nil _).symm⟩
  | cons f frames ih =>
      rcases run_cons_eq_some.mp hrun with
        ⟨ses1, first, later, hstep, hrest, rfl⟩
      rcases Option.map_eq_some_iff.mp hstep with ⟨⟨ses2, flow⟩, hframe, heq⟩
      cases heq
      rcases frame_eq_some.mp hframe with ⟨c, world, hprocess, rfl⟩
      have hsurroundings := processFrame_surroundings hprocess
      have hlasting := run_anything (processFrame_lasting fuel _ f.2) hprocess
      have h := ih hrest
      have hbuffer : c.writeBuffer = ses.connection.writeBuffer ++ flow.bytes :=
        congrArg Surroundings.writeBuffer hsurroundings
      refine ⟨?_, ?_, ?_, h.pubsub, ?_⟩
      · rw [h.writeBuffer]
        exact (congrArg (· ++ _) hbuffer).trans (List.append_assoc _ _ _)
      · exact h.pending.trans
          (congrArg Surroundings.pendingPubsubMessages hsurroundings)
      · exact h.connectionId.trans hlasting.connectionId
      · rw [h.ops]
        exact List.append_assoc _ _ _

/-- The frames that reply to some commands, in the order in which they are
written. -/
def sentFrames (threadId : ThreadId) (connId : ConnectionId) (st : PubSubState)
    (flows : List Flow) : List ReplyFrame :=
  inPhases ReplyFrame.phase 3 (replyFrames threadId connId st 0 flows)

/-- What reading a chunk without errors comes to.  The frames are those that the
fed parser yields in turn.  Messages that were waiting before the chunk stand in
front of the confirmations. -/
structure Replied (fuel : Nat) (threadId : ThreadId) (sh : Shared S P)
    (c : Connection) (data : Bytes) (read : (Connection × List PubSubOp) × World S P)
    (replies : Replies) : Prop where
  run : exists frames,
    (c.parser.feed data).Yields frames read.1.1.parser ∧
    Session.run fuel threadId (.received data :: Session.framed frames)
        ⟨c, sh, []⟩ =
      some (⟨read.1.1, { sh with world := read.2 }, read.1.2⟩, replies)
  whole : replies.Whole read.1.1.parser
  writeBuffer : exists front back,
    front ++ back =
        sentFrames threadId c.connectionId sh.pubsub (replies.map Prod.snd) ∧
      (Shared.finishRead { sh with world := read.2 } threadId read.1.1
          (.ok read.1.2)).connection.writeBuffer =
        c.clearWritten.writeBuffer ++
          (front.map ReplyFrame.frame).flatMap formatRespResponse ++
          (c.pendingPubsubMessages.map PubSubMessage.toResp).flatMap
            formatRespResponse ++
          (back.map ReplyFrame.frame).flatMap formatRespResponse

theorem flatMap_bytes (flows : List Flow) :
    flows.flatMap Flow.bytes =
      (flows.flatMap Flow.written).flatMap formatRespResponse := by
  rw [List.flatMap_assoc]
  exact List.flatMap_congr fun flow _ => flow.bytes_eq_written

theorem map_frame_inPhases (frames : List ReplyFrame) :
    (inPhases ReplyFrame.phase 2 frames).map ReplyFrame.frame =
      framesOf 0 frames ++ framesOf 1 frames := by
  have htwo : List.range 2 = [0, 1] := rfl
  rw [inPhases, htwo]
  simp [framesOf]

theorem finishRead_writeBuffer (sh : Shared S P) (c : Connection)
    (ops : List PubSubOp) :
    (sh.finishRead threadId c (.ok ops)).connection.writeBuffer =
      c.writeBuffer ++
        (servedAll threadId c.connectionId sh.pubsub ops).1.flatMap
          formatRespResponse ++
        (c.pendingPubsubMessages.map PubSubMessage.toResp).flatMap
          formatRespResponse ++
        ((servedAll threadId c.connectionId sh.pubsub ops).2.map
          PubSubMessage.toResp).flatMap formatRespResponse := by
  have hgains := handleOperations_served threadId ops c sh.pubsub
  change writeRespValues (handleOperations threadId ops c sh.pubsub).2.1.writeBuffer
    ((handleOperations threadId ops c
      sh.pubsub).2.1.pendingPubsubMessages.map PubSubMessage.toResp) = _
  rw [writeRespValues_eq_append, hgains.1, hgains.2, List.map_append,
    List.flatMap_append, ← List.append_assoc]

theorem replied_of_run {sh : Shared S P} {c c1 : Connection} {data : Bytes}
    {ops : List PubSubOp} {world : World S P}
    {frames : List (RespParser × RespValue)} {replies : Replies}
    (hyields : (c.parser.feed data).Yields frames c1.parser)
    (hrun : Session.run fuel threadId (.received data :: Session.framed frames)
        ⟨c, sh, []⟩ =
      some (⟨c1, { sh with world := world }, ops⟩, replies))
    (hwhole : replies.Whole c1.parser) :
    Replied fuel threadId sh c data ((c1, ops), world) replies := by
  refine ⟨⟨frames, hyields, hrun⟩, hwhole, _, _, (inPhases_succ 2 _).symm, ?_⟩
  rcases Session.run_cons_eq_some.mp hrun with
    ⟨ses1, first, later, hreceived, hframes, rfl⟩
  cases hreceived
  have hbehind := Session.framed_behind hframes
  rcases c.clearWritten_eq with ⟨buffer, position, hclear⟩
  have hops : ops = (later.map Prod.snd).flatMap Flow.ops := hbehind.ops
  have hid : c1.connectionId = c.connectionId := by
    rw [hbehind.connectionId, clearWritten_feed, hclear]
  have hpending : c1.pendingPubsubMessages = c.pendingPubsubMessages := by
    rw [hbehind.pending, clearWritten_feed, hclear]
  have hbuffer : c1.writeBuffer = c.clearWritten.writeBuffer ++
      (later.map Prod.snd).flatMap Flow.bytes := by
    rw [hbehind.writeBuffer, clearWritten_feed]
  have hserved := @framesOf_served threadId c.connectionId sh.pubsub 0
    (later.map Prod.snd)
  change (Shared.finishRead { sh with world := world } threadId c1
    (.ok ops)).connection.writeBuffer = _
  rw [finishRead_writeBuffer, hbuffer, hpending, hid, map_frame_inPhases,
    List.nil_append, framesOf_zero, hserved.1, flatMap_bytes, hops,
    List.flatMap_append, ← List.append_assoc]
  exact congrArg (_ ++ List.flatMap formatRespResponse ·) hserved.2.symm

theorem replied_of_read {sh : Shared S P} {c c1 : Connection} {data : Bytes}
    {ops : List PubSubOp} {world : World S P}
    (hread : (c.processRead fuel data).run (server S P) sh.world =
      some ((c1, .ok ops), world)) :
    exists replies,
      Replied fuel threadId sh c data ((c1, ops), world) replies := by
  rcases Session.run_of_readLoop threadId sh hread with
    ⟨frames, replies, ops', hyields, hframes, ⟨hops, hwhole⟩ | ⟨e, herror⟩⟩
  · cases hops
    rw [clearWritten_feed] at hyields
    refine ⟨replies, replied_of_run hyields ?_ hwhole⟩
    exact Session.run_cons_eq_some.mpr ⟨_, [], replies, rfl, hframes, rfl⟩
  · cases herror

theorem Replied.unique {sh : Shared S P} {c : Connection} {data : Bytes}
    {read : (Connection × List PubSubOp) × World S P} {replies replies' : Replies}
    (h : Replied fuel threadId sh c data read replies)
    (h' : Replied fuel threadId sh c data read replies') : replies = replies' := by
  rcases h.run with ⟨frames, hyields, hrun⟩
  rcases h'.run with ⟨frames', hyields', hrun'⟩
  rw [hyields.unique hyields', hrun'] at hrun
  cases hrun
  rfl

theorem mode_received (c : Connection) (data : Bytes) :
    (c.feed data).clearWritten.mode = c.mode := by
  rcases c.clearWritten_eq with ⟨buffer, position, hclear⟩
  rw [clearWritten_feed, hclear]
  rfl

theorem Replied.left {sh : Shared S P} {c : Connection} {data : Bytes}
    {read : (Connection × List PubSubOp) × World S P} {replies : Replies}
    (h : Replied fuel threadId sh c data read replies) :
    (replies.map Prod.snd).map Flow.left =
      c.mode.leavesAll (replies.map Prod.fst) := by
  rcases h.run with ⟨frames, _, hrun⟩
  rcases Session.run_cons_eq_some.mp hrun with
    ⟨ses1, first, later, hreceived, hframes, rfl⟩
  cases hreceived
  have hmode := (Session.framed_mode hframes).2
  rw [mode_received] at hmode
  have hhead : forall op : Option PubSubOp, op.toList.head? = op :=
    fun op => by cases op <;> rfl
  have hheads := congrArg (List.map List.head?) hmode
  rw [List.map_map, List.map_map] at hheads
  simpa [Function.comp_def, Flow.ops_eq_left, hhead] using hheads

/-- The replies of a chunk are written in the order of its commands exactly if
no command is answered in an earlier phase than one before it. -/
theorem replies_in_order_iff {sh : Shared S P} {c c1 : Connection} {data : Bytes}
    {ops : List PubSubOp} {world : World S P}
    (hread : (c.processRead fuel data).run (server S P) sh.world =
      some ((c1, .ok ops), world)) :
    exists replies,
      Replied fuel threadId sh c data ((c1, ops), world) replies ∧
      ((sentFrames threadId c.connectionId sh.pubsub
          (replies.map Prod.snd)).Pairwise (fun a b => a.number <= b.number) <->
        (answeredPhases threadId c.connectionId sh.pubsub
          (c.mode.leavesAll (replies.map Prod.fst))).Pairwise (· <= ·)) := by
  rcases @replied_of_read _ _ _ threadId _ _ _ _ _ _ hread with ⟨replies, h⟩
  refine ⟨replies, h, ?_⟩
  rw [sentFrames, pairwise_inPhases_iff (numbers_sorted _ _ _)
    (fun x hx => phase_lt_of_mem hx), ← h.left]
  exact noneOvertaken_iff (List.forall_mem_map.mpr h.whole.accepted) _ _

def orderedRequests : Bytes :=
  requests [["PING"], ["GET", "k"], ["PUBLISH", "news", "hi"],
    ["SUBSCRIBE", "a", "b"]]

theorem replies_in_order_iff_publish :
    exists c1 ops world replies,
      (newcomer.1.processRead 0 orderedRequests).run
        (server mapStore idlePlatform) newcomer.2.world =
          some ((c1, .ok ops), world) ∧
      Replied 0 0 newcomer.2 newcomer.1 orderedRequests ((c1, ops), world)
        replies ∧
      ((sentFrames 0 newcomer.1.connectionId newcomer.2.pubsub
          (replies.map Prod.snd)).Pairwise (fun a b => a.number <= b.number) <->
        (answeredPhases 0 newcomer.1.connectionId newcomer.2.pubsub
          (newcomer.1.mode.leavesAll (replies.map Prod.fst))).Pairwise
            (· <= ·)) := by
  have hread : exists c1 ops world,
      (newcomer.1.processRead 0 orderedRequests).run
        (server mapStore idlePlatform) newcomer.2.world =
          some ((c1, .ok ops), world) := ⟨_, _, _, rfl⟩
  rcases hread with ⟨c1, ops, world, hread⟩
  rcases @replies_in_order_iff _ _ _ 0 _ _ _ _ _ _ hread with
    ⟨replies, hreplied, hiff⟩
  exact ⟨c1, ops, world, replies, hread, hreplied, hiff⟩

/-- A publish and a `PING` in one chunk. -/
def publishFirst : Bytes :=
  requests [["PUBLISH", "news", "hi"], ["PING"]]

def publishParsed : RespParser :=
  (newcomer.1.parser.feed publishFirst).parseNext.2

def publishRead : Connection :=
  { newcomer.1 with
    parser := publishParsed.parseNext.2
    executor := { newcomer.1.executor with commandsProcessed := 1 }
    commandsProcessed := 2
    writeBuffer := asBytes "+PONG\r\n" }

/-- The reply to a publish is overtaken by the reply to a later `PING`. -/
theorem publish_overtaken :
    exists c1 ops world replies,
      (newcomer.1.processRead 0 publishFirst).run (server mapStore idlePlatform)
        newcomer.2.world = some ((c1, .ok ops), world) ∧
      Replied 0 0 newcomer.2 newcomer.1 publishFirst ((c1, ops), world) replies ∧
      (Shared.finishRead { newcomer.2 with world := world } 0 c1
        (.ok ops)).connection.writeBuffer = asBytes "+PONG\r\n:0\r\n" ∧
      ¬ (sentFrames 0 newcomer.1.connectionId newcomer.2.pubsub
        (replies.map Prod.snd)).Pairwise (fun a b => a.number <= b.number) := by
  have hread : (newcomer.1.processRead 0 publishFirst).run
      (server mapStore idlePlatform) newcomer.2.world =
        some ((publishRead, .ok [.publish (asBytes "news") (asBytes "hi")]),
          newcomer.2.world) := rfl
  have hrun : Session.run 0 0
      (.received publishFirst :: Session.framed
        [(publishParsed, request ["PUBLISH", "news", "hi"]),
          (publishParsed.parseNext.2, request ["PING"])])
      ⟨newcomer.1, newcomer.2, []⟩ =
        some (⟨publishRead, newcomer.2,
            [.publish (asBytes "news") (asBytes "hi")]⟩,
          [(request ["PUBLISH", "news", "hi"],
              .deferred (.publish (asBytes "news") (asBytes "hi"))),
            (request ["PING"], .reply (.simpleString (asBytes "PONG")))]) := rfl
  have hbuffer : (Shared.finishRead newcomer.2 0 publishRead
      (.ok [.publish (asBytes "news") (asBytes "hi")])).connection.writeBuffer =
        asBytes "+PONG\r\n:0\r\n" := by
    decide
  have hyields : (newcomer.1.parser.feed publishFirst).Yields
      [(publishParsed, request ["PUBLISH", "news", "hi"]),
        (publishParsed.parseNext.2, request ["PING"])] publishRead.parser :=
    .cons rfl (.cons rfl (.nil _))
  refine ⟨publishRead, _, _, _, hread, replied_of_run hyields hrun ⟨?_, ?_⟩, hbuffer,
    ?_⟩
  · simp [Flow.Accepted]
  · exact Or.inl rfl
  · decide

end FeoxServer
