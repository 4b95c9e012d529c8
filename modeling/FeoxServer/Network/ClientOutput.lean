import FeoxServer.Network.EventLoop
import FeoxServer.Network.OutputBuffering

/-!
# What a socket is given

The output of a connection is what its socket has taken and what still waits for it.
Sending moves bytes from the one part to the other, and everything else is appended
behind both.
-/

namespace FeoxServer

open Foundation Prog

/-- The messages of some deliveries that are for one connection, in order. -/
def messagesFor (connId : ConnectionId) (deliveries : List Delivery) :
    List PubSubMessage :=
  (deliveries.filter fun d => d.1 == connId).map fun d => d.2

def messageBytes (messages : List PubSubMessage) : Bytes :=
  (messages.map PubSubMessage.toResp).flatMap formatRespResponse

theorem messageBytes_append (first later : List PubSubMessage) :
    messageBytes (first ++ later) = messageBytes first ++ messageBytes later := by
  rw [messageBytes, List.map_append, List.flatMap_append]
  rfl

theorem messagesFor_cons (connId : ConnectionId) (d : Delivery)
    (deliveries : List Delivery) :
    messagesFor connId (d :: deliveries) =
      (if d.1 = connId then [d.2] else []) ++ messagesFor connId deliveries := by
  unfold messagesFor
  by_cases h : d.1 = connId <;> simp [h]

namespace Client

def output (cl : Client) : Bytes :=
  cl.sent ++ cl.connection.writeBuffer.drop cl.connection.writePosition

/-- How a connection is between two turns: open, without messages that have not been
written out, and with no more sent than there was. -/
structure Resting (cl : Client) : Prop where
  opened : cl.connection.closed = false
  messages : cl.connection.pendingPubsubMessages = []
  position : cl.connection.writePosition <= cl.connection.writeBuffer.length

/-!
# Sending
-/

/-- Some of what waited has been sent. -/
structure Wrote (cl cl' : Client) : Prop where
  connection : exists position,
    cl'.connection = { cl.connection with writePosition := position }
  position : cl'.connection.writePosition <= cl'.connection.writeBuffer.length
  output : cl'.output = cl.output

theorem Wrote.refl {cl : Client}
    (h : cl.connection.writePosition <= cl.connection.writeBuffer.length) :
    Wrote cl cl :=
  ⟨⟨_, rfl⟩, h, rfl⟩

theorem Wrote.trans {cl cl1 cl2 : Client} (h : Wrote cl cl1) (h' : Wrote cl1 cl2) :
    Wrote cl cl2 := by
  rcases h.connection with ⟨position, hconnection⟩
  rcases h'.connection with ⟨position', hconnection'⟩
  refine ⟨⟨position', ?_⟩, h'.position, h'.output.trans h.output⟩
  rw [hconnection', hconnection]

theorem wrote_take {cl : Client}
    (h : cl.connection.writePosition <= cl.connection.writeBuffer.length)
    {data : Bytes} (hdata : cl.connection.pendingWrites = some data) (n : Nat) :
    Wrote cl { cl with
      connection := cl.connection.consumeWrites (data.take n).length
      sent := cl.sent ++ data.take n } := by
  have hpending : data =
      cl.connection.writeBuffer.drop cl.connection.writePosition := by
    have hgetD := cl.connection.pendingWrites_getD
    rw [hdata] at hgetD
    exact hgetD
  have hlength : (data.take n).length <=
      cl.connection.writeBuffer.length - cl.connection.writePosition := by
    rw [hpending, List.length_take, List.length_drop]
    exact Nat.min_le_right _ _
  refine ⟨⟨_, rfl⟩, ?_, ?_⟩
  · change cl.connection.writePosition + (data.take n).length <=
      cl.connection.writeBuffer.length
    omega
  · change (cl.sent ++ data.take n) ++ cl.connection.writeBuffer.drop
      (cl.connection.writePosition + (data.take n).length) = _
    rw [← List.drop_drop, ← hpending, List.append_assoc, output, ← hpending]
    congr 1
    rw [List.length_take, List.take_eq_take_min, List.take_append_drop]

theorem wrote_writePending (writes : List SocketWrite) {cl : Client}
    (h : cl.connection.writePosition <= cl.connection.writeBuffer.length) :
    Wrote cl (cl.writePending writes).1 := by
  induction writes generalizing cl with
  | nil => exact Wrote.refl h
  | cons r writes ih =>
      unfold writePending
      cases hdata : cl.connection.pendingWrites with
      | none => exact Wrote.refl h
      | some data =>
          cases r with
          | wouldBlock | failed => exact Wrote.refl h
          | ok n =>
              have htake := wrote_take h hdata n
              simp only
              split
              · exact htake
              · exact htake.trans (ih htake.position)

theorem writable_writePending (writes : List SocketWrite) (cl : Client) :
    (cl.writePending writes).1.writable = cl.writable := by
  induction writes generalizing cl with
  | nil => rfl
  | cons r writes ih =>
      unfold writePending
      cases cl.connection.pendingWrites with
      | none => rfl
      | some data =>
          cases r with
          | wouldBlock | failed => rfl
          | ok n =>
              simp only
              split
              · rfl
              · exact ih _

theorem wrote_onWritable (writes : List SocketWrite) {cl : Client}
    (h : cl.connection.writePosition <= cl.connection.writeBuffer.length) :
    Wrote cl (cl.onWritable writes).1 := by
  have hwrote := wrote_writePending writes h
  unfold onWritable
  simp only
  split
  · exact ⟨hwrote.connection, hwrote.position, hwrote.output⟩
  · exact hwrote

theorem wrote_respond (writes : List SocketWrite) {cl : Client}
    (h : cl.connection.writePosition <= cl.connection.writeBuffer.length) :
    Wrote cl (cl.respond writes).1 := by
  have hwrote := wrote_writePending writes h
  unfold respond
  simp only
  split
  · exact ⟨hwrote.connection, hwrote.position, hwrote.output⟩
  · exact hwrote

/-!
# Delivering
-/

/-- Messages have been delivered to a connection: they are behind its output, and
nothing else of it has changed. -/
structure Told (cl cl' : Client) (messages : List PubSubMessage) : Prop where
  connection : exists buffer position,
    cl'.connection =
      { cl.connection with writeBuffer := buffer, writePosition := position }
  writable : cl'.writable = cl.writable
  position : cl'.connection.writePosition <= cl'.connection.writeBuffer.length
  output : cl'.output = cl.output ++ messageBytes messages
  nothing : messages = [] -> cl' = cl

theorem Told.refl {cl : Client}
    (h : cl.connection.writePosition <= cl.connection.writeBuffer.length) :
    Told cl cl [] :=
  ⟨⟨_, _, rfl⟩, rfl, h, (List.append_nil _).symm, fun _ => rfl⟩

theorem Told.trans {cl cl1 cl2 : Client} {first later : List PubSubMessage}
    (h : Told cl cl1 first) (h' : Told cl1 cl2 later) :
    Told cl cl2 (first ++ later) := by
  rcases h.connection with ⟨buffer, position, hconnection⟩
  rcases h'.connection with ⟨buffer', position', hconnection'⟩
  refine ⟨⟨buffer', position', ?_⟩, h'.writable.trans h.writable, h'.position, ?_,
    fun hnil => ?_⟩
  · rw [hconnection', hconnection]
  · rw [h'.output, h.output, messageBytes_append, List.append_assoc]
  · rcases List.append_eq_nil_iff.mp hnil with ⟨hfirst, hlater⟩
    exact (h'.nothing hlater).trans (h.nothing hfirst)

theorem Told.connectionId {cl cl' : Client} {messages : List PubSubMessage}
    (h : Told cl cl' messages) :
    cl'.connection.connectionId = cl.connection.connectionId := by
  rcases h.connection with ⟨buffer, position, hconnection⟩
  rw [hconnection]

theorem Told.resting {cl cl' : Client} {messages : List PubSubMessage}
    (h : Told cl cl' messages) (hcl : Resting cl) : Resting cl' := by
  rcases h.connection with ⟨buffer, position, hconnection⟩
  refine ⟨?_, ?_, h.position⟩
  · rw [hconnection]
    exact hcl.opened
  · rw [hconnection]
    exact hcl.messages

theorem output_appended {cl cl' : Client} {more : Bytes} (hsent : cl'.sent = cl.sent)
    (happended : Connection.Appended cl.connection cl'.connection more)
    (h : cl.connection.writePosition <= cl.connection.writeBuffer.length) :
    cl'.output = cl.output ++ more ∧
      cl'.connection.writePosition <= cl'.connection.writeBuffer.length := by
  constructor
  · rw [output, output, hsent, happended.position, happended.buffer,
      List.drop_append_of_le_length h, List.append_assoc]
  · rw [happended.position, happended.buffer, List.length_append]
    exact Nat.le_add_right_of_le h

theorem told_deliver (writes : List SocketWrite) (message : PubSubMessage)
    {cl : Client} (h : Resting cl) : Told cl (cl.deliver writes message) [message] := by
  let queued := cl.connection.queuePubsubMessage message
  have hmessages : queued.pendingPubsubMessages = [message] := by
    change cl.connection.pendingPubsubMessages ++ [message] = [message]
    rw [h.messages, List.nil_append]
  have happended := Connection.appended_processPubsubMessages queued
  rw [hmessages] at happended
  have hwritten : Connection.Appended cl.connection queued.processPubsubMessages
      (messageBytes [message]) := ⟨happended.position, happended.buffer⟩
  let written : Client := { cl with connection := queued.processPubsubMessages }
  have hafter := @output_appended cl written _ rfl hwritten h.position
  have hwrote := wrote_writePending writes hafter.2
  rcases hwrote.connection with ⟨position, hconnection⟩
  refine ⟨⟨queued.processPubsubMessages.writeBuffer, position, ?_⟩,
    writable_writePending writes written, hwrote.position,
    hwrote.output.trans hafter.1, by simp⟩
  -- The queue is empty again, as it was.
  have hqueue : cl.connection =
      { cl.connection with pendingPubsubMessages := [] } := by
    rw [← h.messages]
  rw [hqueue]
  exact hconnection

end Client

namespace Worker

def Distinct (w : Worker) : Prop :=
  forall (t t' : Token) (cl cl' : Client), w.connections.lookup t = some cl ->
    w.connections.lookup t' = some cl' ->
    cl.connection.connectionId = cl'.connection.connectionId -> t = t'

def AllResting (w : Worker) : Prop :=
  forall (t : Token) (cl : Client), w.connections.lookup t = some cl -> cl.Resting

theorem tokenOf_cases (w : Worker) (connId : ConnectionId) :
    (exists token cl, w.tokenOf connId = some token ∧
      w.connections.lookup token = some cl ∧ cl.connection.connectionId = connId) ∨
    (w.tokenOf connId = none ∧
      forall (t : Token) (cl : Client), w.connections.lookup t = some cl ->
        cl.connection.connectionId ≠ connId) := by
  unfold tokenOf
  cases hfind : w.connections.entries.find? fun e =>
      e.2.connection.connectionId == connId with
  | none =>
      refine Or.inr ⟨rfl, fun t cl hcl hid => ?_⟩
      rw [List.find?_eq_none] at hfind
      exact hfind ⟨t, cl⟩ (AList.mem_lookup_iff.mp hcl) (beq_iff_eq.mpr hid)
  | some e =>
      have hmem := List.mem_of_find?_eq_some hfind
      have hid := List.find?_some hfind
      exact Or.inl ⟨e.1, e.2, rfl, AList.mem_lookup_iff.mpr hmem,
        beq_iff_eq.mp hid⟩

/-- What deliveries change of a worker. -/
structure Delivered (w w' : Worker) (deliveries : List Delivery) : Prop where
  nextToken : w'.nextToken = w.nextToken
  manager : w'.manager = w.manager
  running : w'.running = w.running
  keys : w'.connections.keys = w.connections.keys
  told : forall (t : Token) (cl : Client), w.connections.lookup t = some cl ->
    exists cl', w'.connections.lookup t = some cl' ∧
      cl.Told cl' (messagesFor cl.connection.connectionId deliveries)

theorem Delivered.refl {w : Worker} (h : w.AllResting) : Delivered w w [] :=
  ⟨rfl, rfl, rfl, rfl, fun t cl hcl => ⟨cl, hcl, .refl (h t cl hcl).position⟩⟩

theorem Delivered.lookup_of_some {w w' : Worker} {deliveries : List Delivery}
    (h : Delivered w w' deliveries) {t : Token} {cl' : Client}
    (hcl' : w'.connections.lookup t = some cl') :
    exists cl, w.connections.lookup t = some cl ∧
      cl.Told cl' (messagesFor cl.connection.connectionId deliveries) := by
  have hmem : t ∈ w.connections := by
    rw [AList.mem_keys, ← h.keys, ← AList.mem_keys, ← AList.lookup_isSome, hcl']
    rfl
  rcases Option.isSome_iff_exists.mp (AList.lookup_isSome.mpr hmem) with ⟨cl, hcl⟩
  rcases h.told t cl hcl with ⟨cl1, hcl1, htold⟩
  cases hcl'.symm.trans hcl1
  exact ⟨cl, hcl, htold⟩

theorem Delivered.allResting {w w' : Worker} {deliveries : List Delivery}
    (h : Delivered w w' deliveries) (hw : w.AllResting) : w'.AllResting := by
  intro t cl' hcl'
  rcases h.lookup_of_some hcl' with ⟨cl, hcl, htold⟩
  exact htold.resting (hw t cl hcl)

theorem Delivered.distinct {w w' : Worker} {deliveries : List Delivery}
    (h : Delivered w w' deliveries) (hw : w.Distinct) : w'.Distinct := by
  intro t t' cl cl' hcl hcl' hid
  rcases h.lookup_of_some hcl with ⟨cl1, hcl1, htold⟩
  rcases h.lookup_of_some hcl' with ⟨cl1', hcl1', htold'⟩
  rw [htold.connectionId, htold'.connectionId] at hid
  exact hw t t' cl1 cl1' hcl1 hcl1' hid

theorem Delivered.trans {w w1 w2 : Worker} {first later : List Delivery}
    (h : Delivered w w1 first) (h' : Delivered w1 w2 later) :
    Delivered w w2 (first ++ later) := by
  refine ⟨h'.nextToken.trans h.nextToken, h'.manager.trans h.manager,
    h'.running.trans h.running, h'.keys.trans h.keys, fun t cl hcl => ?_⟩
  rcases h.told t cl hcl with ⟨cl1, hcl1, htold⟩
  rcases h'.told t cl1 hcl1 with ⟨cl2, hcl2, htold'⟩
  refine ⟨cl2, hcl2, ?_⟩
  rw [htold.connectionId] at htold'
  have hboth := htold.trans htold'
  unfold messagesFor at hboth ⊢
  rw [List.filter_append, List.map_append]
  exact hboth

theorem delivered_deliver (writes : List SocketWrite) {w : Worker} (hw : w.Distinct)
    (h : w.AllResting) (d : Delivery) : Delivered w (w.deliver writes d) [d] := by
  have hother : forall cl : Client, cl.connection.connectionId ≠ d.1 ->
      messagesFor cl.connection.connectionId [d] = [] := by
    intro cl hne
    rw [messagesFor_cons, if_neg (Ne.symm hne)]
    rfl
  unfold deliver
  rcases w.tokenOf_cases d.1 with ⟨token, cl, htoken, hcl, hid⟩ | ⟨htoken, hnone⟩
  · rw [htoken]
    simp only [hcl]
    refine ⟨rfl, rfl, rfl, AList.keys_replace _ _ _, fun t cl' hcl' => ?_⟩
    simp only [lookup_replace]
    by_cases ht : t = token
    · subst ht
      cases hcl.symm.trans hcl'
      rw [if_pos rfl, hcl]
      refine ⟨_, rfl, ?_⟩
      have hmine : messagesFor cl.connection.connectionId [d] = [d.2] := by
        rw [messagesFor_cons, if_pos hid.symm]
        rfl
      rw [hmine]
      exact Client.told_deliver writes d.2 (h t cl hcl)
    · rw [if_neg ht]
      refine ⟨cl', hcl', ?_⟩
      rw [hother cl' fun hid' => ht (hw t token cl' cl hcl' hcl (hid'.trans hid.symm))]
      exact .refl (h t cl' hcl').position
  · rw [htoken]
    refine ⟨rfl, rfl, rfl, rfl, fun t cl hcl => ⟨cl, hcl, ?_⟩⟩
    rw [hother cl (hnone t cl hcl)]
    exact .refl (h t cl hcl).position

theorem delivered_deliverAll (writes : List (List SocketWrite)) {w : Worker}
    (hw : w.Distinct) (h : w.AllResting) (deliveries : List Delivery) :
    Delivered w (w.deliverAll writes deliveries) deliveries := by
  induction deliveries generalizing w writes with
  | nil => exact .refl h
  | cons d deliveries ih =>
      have hfirst := delivered_deliver (writes.headD []) hw h d
      exact hfirst.trans (ih writes.tail (hfirst.distinct hw) (hfirst.allResting h))

end Worker

end FeoxServer
