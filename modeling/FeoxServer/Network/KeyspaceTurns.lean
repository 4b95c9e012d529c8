import FeoxServer.Network.Readings
import FeoxServer.Network.ServedKeyspace

/-!
# Turns of clients of the keyspace

A worker serves its connections in turns.  Each turn answers the requests that have come
in full, and leaves the others and the keyspace for the next turns.
-/

namespace FeoxServer

open Foundation Prog

namespace Keyspace

theorem after_append (ks : Keyspace) (first later : List KeyspaceCommand) :
    ks.after (first ++ later) = (ks.after first).after later :=
  List.foldl_append

theorem replies_append (ks : Keyspace) (first later : List KeyspaceCommand) :
    ks.replies (first ++ later) = ks.replies first ++ (ks.after first).replies later := by
  induction first generalizing ks with
  | nil => rfl
  | cons c first ih => exact congrArg (ks.reply c :: ·) (ih (ks.next c))

theorem fits_append {N : KeyNames} {ks : Keyspace} {first later : List KeyspaceCommand} :
    ks.Fits N (first ++ later) <-> ks.Fits N first ∧ (ks.after first).Fits N later := by
  induction first generalizing ks with
  | nil => exact (and_iff_right trivial).symm
  | cons c first ih =>
      change _ ∧ Fits N (ks.next c) (first ++ later) <-> (_ ∧ _) ∧ _
      rw [ih, and_assoc]
      rfl

end Keyspace

variable {ε : Type} {S : FeoxStore} {P : Platform} {cell : S.State -> Bytes -> ε}
  {view : S.State -> Bytes -> Option Bytes} {N : KeyNames}

theorem Hosts.registered {ks : Keyspace} {l r : Bytes -> Nat} {w : World S P}
    (h : Hosts view N ks l r w) (clients : ClientRegistry) :
    Hosts view N ks l r { w with clients := clients } :=
  ⟨h.strings, h.lists, h.fields, h.tallies.congr _ (fun _ _ => rfl) rfl, h.sizes⟩

namespace Connection

theorem processRead_served (hS : SharedStore S cell view) (hN : N.Separate)
    (todo : List KeyspaceCommand) (fuel : Nat) (data : Bytes) {c : Connection}
    {future : Bytes} {ks : Keyspace} {l r : Bytes -> Nat} {w : World S P}
    (h : c.Expects todo (data ++ future))
    (hhosts : Hosts view N ks (KeyspaceCommand.roomLeft l todo)
      (KeyspaceCommand.roomRight r todo) w) (hfits : ks.Fits N todo) :
    exists done later c' w', (processRead (fuel + 1) c data).run (server S P) w =
        some ((c', .ok []), w') ∧
      Progress view N l r ks todo future c.clearWritten done later c' w' := by
  have hinside := c.clearWritten_position
  rcases c.clearWritten_eq with ⟨buffer, position, hclear⟩
  have hfed : (c.feed data).clearWritten =
      c.within ⟨c.parser.feed data, buffer, position, c.pendingPubsubMessages⟩ := by
    rw [clearWritten_feed, hclear]
    rfl
  rw [hclear] at hinside
  have hbytes : (c.parser.feed data).unconsumed ++ future = requested todo := by
    rw [RespParser.unconsumed_feed, List.append_assoc]
    exact h.bytes
  rcases readLoop_served hS hN todo fuel ((c.parser.feed data).unconsumed.length + 1)
    (e := ⟨c.parser.feed data, buffer, position, c.pendingPubsubMessages⟩) h.idle hinside
    hbytes h.sendable hhosts hfits (Nat.lt_succ_self _) with
    ⟨done, later, c', w', hrun, hprogress⟩
  refine ⟨done, later, c', w', ?_, hprogress.split, hprogress.expects, ?_,
    hprogress.hosts⟩
  · rw [processRead, hfed]
    exact hrun
  · rw [hclear]
    exact ⟨hprogress.written.position, hprogress.written.buffer⟩

end Connection

namespace Reading

variable {fuel : Nat} {threadId : ThreadId}

/-- From `r` to `r'` the first commands of `todo` have been answered, and nothing has
been left to the service. -/
structure Turned (view : S.State -> Bytes -> Option Bytes) (N : KeyNames)
    (left right : Bytes -> Nat) (ks : Keyspace) (todo : List KeyspaceCommand)
    (future : Bytes) (r : Reading S P) (done later : List KeyspaceCommand)
    (r' : Reading S P) : Prop where
  split : todo = done ++ later
  expects : r'.client.connection.Expects later future
  messages : r'.client.connection.pendingPubsubMessages = []
  output : r'.client.output =
    r.client.output ++ (ks.replies done).flatMap formatRespResponse
  pubsub : r'.shared.pubsub = r.shared.pubsub
  deliveries : r'.deliveriesToMake = r.deliveriesToMake
  hosts : Hosts view N (ks.after done) (KeyspaceCommand.roomLeft left later)
    (KeyspaceCommand.roomRight right later) r'.shared.world

theorem Turned.trans {left right : Bytes -> Nat} {ks : Keyspace}
    {todo done later done1 later1 : List KeyspaceCommand} {future future1 : Bytes}
    {r r1 r2 : Reading S P} (h : Turned view N left right ks todo future1 r done later r1)
    (h1 : Turned view N left right (ks.after done) later future r1 done1 later1 r2) :
    Turned view N left right ks todo future r (done ++ done1) later1 r2 where
  split := by rw [h.split, h1.split, List.append_assoc]
  expects := h1.expects
  messages := h1.messages
  output := by
    rw [h1.output, h.output, ks.replies_append, List.flatMap_append, List.append_assoc]
  pubsub := h1.pubsub.trans h.pubsub
  deliveries := h1.deliveries.trans h.deliveries
  hosts := ks.after_append done done1 ▸ h1.hosts

theorem chunk_served (hS : SharedStore S cell view) (hN : N.Separate)
    (todo : List KeyspaceCommand) (data : Bytes) (writes : List SocketWrite)
    {future : Bytes} {ks : Keyspace} {left right : Bytes -> Nat} {r : Reading S P}
    (h : r.client.connection.Expects todo (data ++ future))
    (hmessages : r.client.connection.pendingPubsubMessages = [])
    (hhosts : Hosts view N ks (KeyspaceCommand.roomLeft left todo)
      (KeyspaceCommand.roomRight right todo) r.shared.world)
    (hfits : ks.Fits N todo) :
    exists done later r', r.chunk (fuel + 1) threadId data writes = some (r', true) ∧
      Turned view N left right ks todo future r done later r' := by
  rcases Connection.processRead_served hS hN todo fuel data h hhosts hfits with
    ⟨done, later, c, w, hrun, hprogress⟩
  have hpending : c.pendingPubsubMessages = [] :=
    (Connection.remains_processRead hrun).pending.trans hmessages
  have hwritten : c.processPubsubMessages = c := by
    have hcleared : c.processPubsubMessages = { c with pendingPubsubMessages := [] } := by
      unfold Connection.processPubsubMessages
      rw [hpending]
      rfl
    rw [hcleared, ← hpending]
  have hfinished : (r.finished threadId c [] w).connection = c := hwritten
  have hwrote := @Client.wrote_respond writes
    { r.client with connection := (r.finished threadId c [] w).connection }
    (by rw [hfinished]; exact hprogress.expects.inside)
  rcases hwrote.connection with ⟨position, hconnection⟩
  have hconnection' : (r.answered threadId c [] w writes).client.connection =
      { c with writePosition := position } := by
    refine hconnection.trans ?_
    dsimp only
    rw [hfinished]
  have hopen : (r.answered threadId c [] w writes).client.connection.closed = false := by
    rw [hconnection']
    exact hprogress.expects.idle.open_
  have hchunk : r.chunk (fuel + 1) threadId data writes =
      some (r.answered threadId c [] w writes,
        !(r.answered threadId c [] w writes).client.connection.closed) := by
    unfold chunk
    rw [hrun]
    rfl
  rw [hopen] at hchunk
  refine ⟨done, later, _, hchunk, hprogress.split, ?_, ?_, ?_, rfl,
    List.append_nil _, ?_⟩
  · have hinside := hwrote.position
    have hexpects := hprogress.expects
    change (r.answered threadId c [] w writes).client.connection.writePosition <=
      (r.answered threadId c [] w writes).client.connection.writeBuffer.length at hinside
    rw [hconnection'] at hinside ⊢
    exact ⟨⟨hexpects.idle.open_, hexpects.idle.authenticated, hexpects.idle.unsubscribed,
      hexpects.idle.outside⟩, hinside, hexpects.waits, hexpects.bytes, hexpects.sendable⟩
  · rw [hconnection']
    exact hpending
  · refine hwrote.output.trans ?_
    rw [hfinished]
    have hafter := @Client.output_appended
      { r.client with connection := r.client.connection.clearWritten }
      { r.client with connection := c } _ rfl hprogress.written
      r.client.connection.clearWritten_position
    rw [output_clearWritten] at hafter
    exact hafter.1
  · exact hprogress.hosts.registered _

def arriving : List (SocketRead × List SocketWrite) -> Bytes
  | (.ok data, _) :: answers => data ++ arriving answers
  | _ => []

theorem readLoop_served (hS : SharedStore S cell view) (hN : N.Separate)
    (answers : List (SocketRead × List SocketWrite)) {todo : List KeyspaceCommand}
    {future : Bytes} {ks : Keyspace} {left right : Bytes -> Nat} {r : Reading S P}
    (h : r.client.connection.Expects todo (arriving answers ++ future))
    (hmessages : r.client.connection.pendingPubsubMessages = [])
    (hhosts : Hosts view N ks (KeyspaceCommand.roomLeft left todo)
      (KeyspaceCommand.roomRight right todo) r.shared.world)
    (hfits : ks.Fits N todo) :
    exists done later r', r.readLoop (fuel + 1) threadId answers = some r' ∧
      Turned view N left right ks todo future r done later r' := by
  induction answers generalizing ks r todo with
  | nil => exact ⟨[], todo, r, rfl, rfl, h, hmessages, (List.append_nil _).symm, rfl, rfl, hhosts⟩
  | cons answer answers ih =>
      rcases answer with ⟨answer, writes⟩
      cases answer with
      | wouldBlock =>
          exact ⟨[], todo, r, rfl, rfl, h, hmessages, (List.append_nil _).symm, rfl, rfl, hhosts⟩
      | closed | failed =>
          exact ⟨[], todo, { r with shouldClose := true }, rfl, rfl, h, hmessages,
            (List.append_nil _).symm, rfl, rfl, hhosts⟩
      | ok data =>
          have hbytes : r.client.connection.Expects todo
              (data ++ (arriving answers ++ future)) := by
            rw [← List.append_assoc]
            exact h
          rcases chunk_served hS hN todo data writes hbytes hmessages hhosts hfits with
            ⟨done, later, r1, hchunk, hturned⟩
          have hlater := hturned.split ▸ hfits
          rcases ih hturned.expects hturned.messages hturned.hosts
            (Keyspace.fits_append.mp hlater).2 with ⟨done1, later1, r2, hloop, hturned1⟩
          refine ⟨done ++ done1, later1, r2, ?_, hturned.trans hturned1⟩
          rw [readLoop, hchunk]
          exact hloop

end Reading

def Readiness.arriving (readiness : Readiness) : Bytes :=
  Reading.arriving (readiness.readable.getD [])

namespace Server

variable {fuel : Nat}

/-- A turn answers the commands whose requests have come in full, whatever the socket
takes, and leaves the service alone. -/
theorem serve_served (hS : SharedStore S cell view) (hN : N.Separate)
    (threadId : ThreadId) (sh : Shared S P) (readiness : Readiness)
    {todo : List KeyspaceCommand} {future : Bytes} {ks : Keyspace}
    {left right : Bytes -> Nat} {cl : Client}
    (h : cl.connection.Expects todo (readiness.arriving ++ future))
    (hmessages : cl.connection.pendingPubsubMessages = [])
    (hhosts : Hosts view N ks (KeyspaceCommand.roomLeft left todo)
      (KeyspaceCommand.roomRight right todo) sh.world)
    (hfits : ks.Fits N todo) :
    exists done later r, serve (fuel + 1) threadId sh cl readiness = some r ∧
      Reading.Turned view N left right ks todo future ⟨cl, sh, [], false⟩ done later r := by
  have hwrote := wrote_writeFirst readiness h.inside
  rcases hwrote.connection with ⟨position, hconnection⟩
  have hinside := hwrote.position
  rw [hconnection] at hinside
  have hexpects : (cl.writeFirst readiness).1.connection.Expects todo
      (readiness.arriving ++ future) := by
    rw [hconnection]
    exact ⟨⟨h.idle.open_, h.idle.authenticated, h.idle.unsubscribed, h.idle.outside⟩,
      hinside, h.waits, h.bytes, h.sendable⟩
  have hpending : (cl.writeFirst readiness).1.connection.pendingPubsubMessages = [] := by
    rw [hconnection]
    exact hmessages
  unfold Readiness.arriving at hexpects
  unfold serve
  cases hreadable : readiness.readable with
  | none =>
      rw [hreadable] at hexpects
      exact ⟨[], todo, _, rfl, rfl, hexpects, hpending,
        hwrote.output.trans (List.append_nil _).symm, rfl, rfl, hhosts⟩
  | some answers =>
      rw [hreadable] at hexpects
      rcases Reading.readLoop_served (r := ⟨(cl.writeFirst readiness).1, sh, [],
        (cl.writeFirst readiness).2⟩) hS hN answers hexpects hpending hhosts hfits with
        ⟨done, later, r, hloop, hturned⟩
      exact ⟨done, later, r, hloop, hturned.split, hturned.expects, hturned.messages,
        hturned.output.trans (congrArg (· ++ _) hwrote.output), hturned.pubsub,
        hturned.deliveries, hturned.hosts⟩

end Server

end FeoxServer
