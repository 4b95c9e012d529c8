import FeoxServer.Network.Deliveries

/-!
# Output that waits

What the socket does not take of a reply waits with the stream registered for writing.
What it does not take of a message that is delivered waits without, so only a delivery
can leave a connection with output that nothing asks to be written.
-/

namespace FeoxServer

open Foundation

namespace Client

def Registered (cl : Client) : Prop :=
  cl.connection.pendingWrites ≠ none -> cl.writable = true

theorem writePending_of_none {cl : Client} (h : cl.connection.pendingWrites = none)
    (writes : List SocketWrite) : cl.writePending writes = (cl, false) := by
  cases writes with
  | nil => rfl
  | cons r writes =>
      unfold writePending
      rw [h]

theorem registered_onWritable {cl : Client} (h : cl.Registered)
    (writes : List SocketWrite) : (cl.onWritable writes).1.Registered := by
  intro hpending
  unfold onWritable at hpending ⊢
  simp only at hpending ⊢
  cases hafter : (cl.writePending writes).1.connection.pendingWrites with
  | none =>
      rw [hafter] at hpending
      exact absurd hafter hpending
  | some data =>
      simp only
      rw [writable_writePending]
      refine h fun hnone => ?_
      rw [writePending_of_none hnone, hnone] at hafter
      cases hafter

theorem registered_writeFirst {cl : Client} (h : cl.Registered)
    (readiness : Readiness) : (cl.writeFirst readiness).1.Registered := by
  unfold writeFirst
  cases readiness.writable with
  | none => exact h
  | some writes => exact registered_onWritable h writes

theorem registered_respond (writes : List SocketWrite) (cl : Client) :
    (cl.respond writes).1.Registered := by
  intro hpending
  unfold respond at hpending ⊢
  simp only at hpending ⊢
  cases hafter : (cl.writePending writes).1.connection.pendingWrites with
  | none =>
      rw [hafter] at hpending
      exact absurd hafter hpending
  | some data => rfl

end Client

namespace Reading

variable {S : FeoxStore} {P : Platform} {fuel : Nat} {threadId : ThreadId}

theorem registered_serve {sh : Shared S P} {cl : Client} {readiness : Readiness}
    {r : Reading S P} (h : cl.Registered)
    (hserve : Server.serve fuel threadId sh cl readiness = some r)
    (hkept : r.shouldClose = false) : r.client.Registered := by
  have hloop : r.shouldClose = false -> r.client.Registered := by
    refine @Server.serve_induction _ _ fuel threadId
      (fun r => r.shouldClose = false -> r.client.Registered) sh cl readiness r
      ?_ ?_ ?_ hserve
    · intro r _ hclosed
      cases hclosed
    · intro r data writes r' again _ hchunk
      rcases chunk_cases hchunk with
        ⟨c, result, world, hrun, ⟨e, rfl, rfl, _⟩ | ⟨ops, rfl, rfl, _⟩⟩
      · intro hclosed
        cases hclosed
      · exact fun _ => Client.registered_respond writes _
    · exact fun _ => Client.registered_writeFirst h readiness
  exact hloop hkept

end Reading

namespace Server

variable {S : FeoxStore} {P : Platform} {fuel : Nat}

/-- Something waits for the socket of a connection, and nobody has asked to be told
when the socket takes more. -/
def Stalled (u : ThreadId) (t : Token) (s : Server S P) : Prop :=
  exists cl, s.client u t = some cl ∧ ¬ cl.Registered

theorem registered_of_new {s s' : Server S P} {input : ServerInput} (h : s.Orderly)
    (hstep : s.step fuel input = some s') {u : ThreadId} {t : Token} {cl : Client}
    (hnone : s.client u t = none) (hcl : s'.client u t = some cl) : cl.Registered := by
  have habsent : forall {x : Option Client}, x = s.client u t -> x ≠ some cl := by
    rintro x rfl hx
    rw [hnone] at hx
    cases hx
  cases input with
  | shutdown =>
      cases hstep
      exact absurd hcl (habsent rfl)
  | turn v turn =>
      rcases step_turn hstep with ⟨w, hw, _, hturn⟩
      cases turn with
      | inbox delivered =>
          cases hturn
          have htold := toldOn_inbox h hw delivered
          by_cases hu : u = v
          · subst hu
            rw [htold.absent t hnone] at hcl
            cases hcl
          · exact absurd hcl (habsent (htold.others u t hu))
      | accept addr now =>
          cases hturn
          rw [client_accept hw] at hcl
          split at hcl
          · cases hcl
            exact fun hpending => absurd rfl hpending
          · exact absurd hcl (habsent rfl)
      | ready token readiness =>
          rcases ready_cases hturn with ⟨_, rfl⟩ | ⟨cl0, r, hcl0, hserve, rfl⟩
          · exact absurd hcl (habsent rfl)
          · have hsettled := orderly_settle h hw hcl0
              (Reading.serves_serve (h.worker_resting hw token cl0 hcl0) hserve)
            rcases @worker_settle _ _ s v w token r hw with ⟨w', hw'⟩
            have htold := toldOn_deliverTo hsettled hw' readiness.delivered
              r.deliveriesToMake
            have hkept : (s.settle v w token r).client u t = none := by
              rw [client_settle hw hcl0, if_neg, hnone]
              rintro ⟨rfl, rfl⟩
              rw [client_of_worker hw, hcl0] at hnone
              cases hnone
            by_cases hu : u = v
            · subst hu
              rw [htold.absent t hkept] at hcl
              cases hcl
            · rw [htold.others u t hu, hkept] at hcl
              cases hcl
      | stop =>
          rcases Option.ite_none_right_eq_some.mp hturn with ⟨_, heq⟩
          cases heq
          rw [client_stop hw] at hcl
          exact absurd (Option.ite_none_left_eq_some.mp hcl).2 (habsent rfl)
      | fail =>
          cases hturn
          rw [client_fail hw] at hcl
          exact absurd (Option.ite_none_left_eq_some.mp hcl).2 (habsent rfl)

theorem stalled_step {s s' : Server S P} {input : ServerInput} (h : s.Orderly)
    {u : ThreadId} {t : Token} (hbefore : ¬ s.Stalled u t)
    (hstep : s.step fuel input = some s') (hafter : s'.Stalled u t) :
    exists turn cl, input = .turn u turn ∧ s.client u t = some cl ∧
      messagesFor cl.connection.connectionId (s.deliveries fuel input) ≠ [] := by
  rcases hafter with ⟨cl', hcl', hstalled⟩
  cases hcl : s.client u t with
  | none => exact absurd (registered_of_new h hstep hcl hcl') hstalled
  | some cl =>
      have hregistered : cl.Registered := by
        by_contra hnot
        exact hbefore ⟨cl, hcl, hnot⟩
      by_cases hserved : exists readiness, input = .turn u (.ready t readiness)
      · rcases hserved with ⟨readiness, rfl⟩
        refine ⟨_, cl, rfl, rfl, fun hnil => hstalled ?_⟩
        rcases step_turn hstep with ⟨w, hw, _, hturn⟩
        have hlookup := (client_of_worker hw t).symm.trans hcl
        rcases ready_cases hturn with ⟨hnone, rfl⟩ | ⟨cl0, r, hcl0, hserve, rfl⟩
        · rw [hnone] at hlookup
          cases hlookup
        · cases hcl0.symm.trans hlookup
          have hserves := Reading.serves_serve (h.resting u t cl hcl) hserve
          have hsettled := orderly_settle h hw hcl0 hserves
          rcases @worker_settle _ _ s u w t r hw with ⟨w', hw'⟩
          have htold := toldOn_deliverTo hsettled hw' readiness.delivered
            r.deliveriesToMake
          have hkept := client_settle hw hcl0 r u t
          rw [if_pos ⟨rfl, rfl⟩, keptClient] at hkept
          cases hclose : r.shouldClose with
          | true =>
              rw [hclose, if_pos rfl] at hkept
              rw [htold.absent t hkept] at hcl'
              cases hcl'
          | false =>
              rw [hclose, if_neg Bool.false_ne_true] at hkept
              rcases htold.mine t r.client hkept with ⟨cl1, hcl1, hone⟩
              cases hcl'.symm.trans hcl1
              rw [deliveries_ready hw hcl0 hserve, ← hserves.connectionId] at hnil
              rw [hone.nothing hnil]
              exact Reading.registered_serve hregistered hserve hclose
      · have hother : forall readiness, input ≠ .turn u (.ready t readiness) :=
          fun readiness heq => hserved ⟨readiness, heq⟩
        rcases told_step h hstep hcl hcl' hother with rfl | ⟨turn, rfl, hone⟩
        · exact absurd hregistered hstalled
        · refine ⟨turn, cl, rfl, rfl, fun hnil => hstalled ?_⟩
          rw [hone.nothing hnil]
          exact hregistered

/-- A connection that is stalled has been so since a turn that delivered messages to
it; no reply has ever stalled it. -/
theorem stalled_since_delivery {numThreads : Nat} {config : Config} {world : World S P}
    {inputs : List ServerInput} {s : Server S P}
    (hrun : (new numThreads config world).run fuel inputs = some s) {u : ThreadId}
    {t : Token} (hstalled : s.Stalled u t) :
    exists before input after s1 s2,
      LastOnset (step fuel) (Stalled u t) inputs (new numThreads config world) s before
        input after s1 s2 ∧
      exists turn cl, input = .turn u turn ∧ s1.client u t = some cl ∧
        messagesFor cl.connection.connectionId (s1.deliveries fuel input) ≠ [] := by
  have hstart : ¬ Stalled u t (new numThreads config world) := by
    rintro ⟨cl, hcl, _⟩
    rw [client_new] at hcl
    cases hcl
  rcases exists_lastOnset hrun hstart hstalled with
    ⟨before, input, after, s1, s2, honset⟩
  have horderly := orderly_run (orderly_new numThreads config world) honset.run_before
  exact ⟨before, input, after, s1, s2, honset,
    stalled_step horderly honset.without honset.here
      (honset.lasting [] after s2 rfl rfl)⟩

def stalling : List ServerInput :=
  [.turn 0 (.accept none 5), .turn 0 (.accept none 5), subscribed,
    .turn 0 (.ready 1 { writable := some [.ok 100], readable := none, delivered := [] }),
    .turn 0 (.ready 2
      { writable := none
        readable := some [(.ok (Connection.requests [["PUBLISH", "c", "m"]]), [.ok 100])]
        delivered := [[.ok 3]] })]

theorem stalled_since_delivery_message :
    exists s, quiet.run 0 stalling = some s ∧ s.Stalled 0 1 ∧
      exists before input after s1 s2,
        LastOnset (step 0) (Stalled 0 1) stalling quiet s before input after s1 s2 ∧
        exists turn cl, input = .turn 0 turn ∧ s1.client 0 1 = some cl ∧
          messagesFor cl.connection.connectionId (s1.deliveries 0 input) ≠ [] := by
  have heval : ((quiet.run 0 stalling).bind fun s => s.client 0 1).map
      (fun cl => (cl.connection.pendingWrites.isSome, cl.writable)) =
        some (true, false) := by
    decide +kernel
  rcases Option.map_eq_some_iff.mp heval with ⟨cl, hclient, hwaits⟩
  rcases Option.bind_eq_some_iff.mp hclient with ⟨s, hrun, hcl⟩
  rcases Prod.mk.inj hwaits with ⟨hpending, hwritable⟩
  have hstalled : s.Stalled 0 1 := by
    refine ⟨cl, hcl, fun hregistered => ?_⟩
    rw [hregistered (Option.isSome_iff_ne_none.mp hpending)] at hwritable
    cases hwritable
  exact ⟨s, hrun, hstalled, @stalled_since_delivery mapStore idlePlatform 0 1
    { requirepass := none } Connection.freshShared.world stalling s hrun 0 1 hstalled⟩

end Server

end FeoxServer
