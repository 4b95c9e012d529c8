import FeoxServer.Network.OpenConnections

/-!
# The registry of clients and the connections

The registry of clients has one entry for every connection that is open, with what the
connection says of itself.  Entries without a connection are left only by workers that
have failed.
-/

namespace FeoxServer

open Foundation Prog

/-- The entry of a connection of a worker. -/
def clientEntry (c : Connection) (threadId : ThreadId) : ClientInfo where
  id := c.connectionId
  name := c.clientName
  addr := c.clientAddr
  fd := c.fd
  connectedAt := c.connectedAt
  commandsProcessed := c.commandsProcessed
  flags := c.flags
  threadId := threadId
  db := 0

theorem Client.Told.clientEntry {cl cl' : Client} {messages : List PubSubMessage}
    (h : cl.Told cl' messages) (u : ThreadId) :
    clientEntry cl'.connection u = clientEntry cl.connection u := by
  rcases h.connection with ⟨buffer, position, hconnection⟩
  rw [hconnection]
  rfl

theorem Client.Wrote.clientEntry {cl cl' : Client} (h : cl.Wrote cl') (u : ThreadId) :
    clientEntry cl'.connection u = clientEntry cl.connection u := by
  rcases h.connection with ⟨position, hconnection⟩
  rw [hconnection]
  rfl

theorem updated_clientEntry {c c' : Connection} (u : ThreadId)
    (hid : c'.connectionId = c.connectionId) (horigin : c'.origin = c.origin) :
    ClientRegistry.updated (clientEntry c u) c' = clientEntry c' u := by
  unfold Connection.origin at horigin
  simp only [Prod.mk.injEq] at horigin
  simp only [ClientRegistry.updated, clientEntry, hid, horigin]

/-!
# While a connection is served
-/

/-- The registry while a connection is served: the other entries are as they were, and
its own is that of an earlier moment of the connection, of the present one as long as
the connection is to be kept. -/
structure Reading.Listed {S : FeoxStore} {P : Platform} (u : ThreadId)
    (clients : ClientRegistry) (cl : Client) (r : Reading S P) : Prop where
  serves : r.Serves cl
  others : forall id, id ≠ cl.connection.connectionId ->
    r.shared.world.clients.lookup id = clients.lookup id
  mine : exists c, r.shared.world.clients.lookup cl.connection.connectionId =
      some (clientEntry c u) ∧
    c.connectionId = cl.connection.connectionId ∧ c.origin = cl.connection.origin ∧
    (r.shouldClose = false -> clientEntry c u = clientEntry r.client.connection u)

namespace Reading

variable {S : FeoxStore} {P : Platform} {fuel : Nat} {u : ThreadId}

theorem listed_chunk {clients : ClientRegistry} {cl : Client} {r r' : Reading S P}
    {data : Bytes} {writes : List SocketWrite} {again : Bool}
    (h : r.Listed u clients cl)
    (hchunk : r.chunk fuel u data writes = some (r', again)) :
    r'.Listed u clients cl := by
  have hserves := serves_chunk h.serves hchunk
  rcases h.mine with ⟨c0, hlookup, hid0, horigin0, _⟩
  rcases chunk_cases hchunk with
    ⟨c, result, world, hrun, ⟨e, rfl, rfl, _⟩ | ⟨ops, rfl, rfl, _⟩⟩
  · have hclients := Session.clients_run hrun
    refine ⟨hserves, fun id hid => ?_, c0, ?_, hid0, horigin0, by rintro ⟨⟩⟩
    · change world.clients.lookup id = _
      rw [hclients]
      exact h.others id hid
    · change world.clients.lookup _ = _
      rw [hclients]
      exact hlookup
  · have hclients := Session.clients_run hrun
    -- The entry is completed before the reply is written.
    let c1 := (r.finished u c ops world).connection
    have hupdate : (r.answered u c ops world writes).shared.world.clients =
        r.shared.world.clients.update c1 := by
      rw [← hclients]
      rfl
    have hremains := Connection.remains_processRead hrun
    rcases @finished_connection _ _ u r c ops world with
      ⟨horigin, hid, _, later, hlater⟩
    have hid1 : c1.connectionId = cl.connection.connectionId :=
      hid.trans (hremains.connectionId.trans h.serves.connectionId)
    have horigin1 : c1.origin = cl.connection.origin :=
      horigin.trans (hremains.origin.trans h.serves.origin)
    have hwrote := @Client.wrote_respond writes { r.client with connection := c1 }
      (output_processRead hrun hlater).2
    refine ⟨hserves, fun id hne => ?_, c1, ?_, hid1, horigin1, fun _ => ?_⟩
    · rw [hupdate, ClientRegistry.lookup_update, hid1, if_neg hne]
      exact h.others id hne
    · rw [hupdate, ClientRegistry.lookup_update, hid1, if_pos rfl, hlookup,
        Option.map_some, updated_clientEntry u (hid1.trans hid0.symm)
          (horigin1.trans horigin0.symm)]
    · exact (hwrote.clientEntry u).symm

theorem listed_serve {sh : Shared S P} {cl : Client} {readiness : Readiness}
    {r : Reading S P} (hcl : cl.Resting)
    (hentry : sh.world.clients.lookup cl.connection.connectionId =
      some (clientEntry cl.connection u))
    (hserve : Server.serve fuel u sh cl readiness = some r) :
    r.Listed u sh.world.clients cl := by
  have hwrote := Server.wrote_writeFirst readiness hcl.position
  refine Server.serve_induction ?_ ?_ ?_ hserve
  · rintro r ⟨hserves, hothers, c, hlookup, hid, horigin, _⟩
    exact ⟨⟨hserves.origin, hserves.connectionId, hserves.messages, hserves.position,
      hserves.output, by rintro ⟨⟩⟩, hothers, c, hlookup, hid, horigin, by rintro ⟨⟩⟩
  · intro r data writes r' again h hchunk
    exact listed_chunk h hchunk
  · have hstart : Server.serve fuel u sh cl
        { readiness with readable := none } = some _ := rfl
    exact ⟨serves_serve hcl hstart, fun _ _ => rfl, cl.connection, hentry, rfl, rfl,
      fun _ => (hwrote.clientEntry u).symm⟩

end Reading

/-!
# Between two turns
-/

namespace Server

variable {S : FeoxStore} {P : Platform} {fuel : Nat}

/-- Every open connection has its entry, and every entry is that of an open connection
or was left by one of some workers. -/
structure Listed (failed : Set ThreadId) (s : Server S P) : Prop where
  entries : forall (u : ThreadId) (t : Token) (cl : Client), s.client u t = some cl ->
    s.world.clients.lookup cl.connection.connectionId =
      some (clientEntry cl.connection u)
  connections : forall (id : ConnectionId) (info : ClientInfo),
    s.world.clients.lookup id = some info ->
      (info.threadId ∈ failed ∧ info.id = id) ∨
      exists (t : Token) (cl : Client), s.client info.threadId t = some cl ∧
        cl.connection.connectionId = id

variable {failed : Set ThreadId}

theorem listed_new (numThreads : Nat) (config : Config) (world : World S P) :
    Listed failed (new numThreads config world) := by
  constructor
  · intro u t cl hcl
    rw [client_new] at hcl
    cases hcl
  · intro id info hinfo
    cases hinfo

theorem ToldOn.listed {s s' : Server S P} (h : s.Listed failed) {u : ThreadId}
    {deliveries : List Delivery} (htold : ToldOn u deliveries s s')
    (hworld : s'.world = s.world) : s'.Listed failed := by
  constructor
  · intro v t cl' hcl'
    rw [hworld]
    by_cases hv : v = u
    · subst hv
      cases hcl : s.client v t with
      | none =>
          rw [htold.absent t hcl] at hcl'
          cases hcl'
      | some cl =>
          rcases htold.mine t cl hcl with ⟨cl1, hcl1, hone⟩
          cases hcl'.symm.trans hcl1
          rw [hone.connectionId, hone.clientEntry]
          exact h.entries v t cl hcl
    · rw [htold.others v t hv] at hcl'
      exact h.entries v t cl' hcl'
  · intro id info hinfo
    rw [hworld] at hinfo
    refine (h.connections id info hinfo).imp_right ?_
    rintro ⟨t, cl, hcl, hid⟩
    by_cases hv : info.threadId = u
    · rw [hv] at hcl ⊢
      rcases htold.mine t cl hcl with ⟨cl', hcl', hone⟩
      exact ⟨t, cl', hcl', hone.connectionId.trans hid⟩
    · exact ⟨t, cl, (htold.others _ t hv).trans hcl, hid⟩

theorem listed_accept {s : Server S P} (h : s.Listed failed) (horderly : s.Orderly)
    {u : ThreadId} {w : Worker} (hw : s.workers[u]? = some w) (addr : Option String)
    (now : UInt64) : (s.accept u w addr now).Listed failed := by
  have hclients : (s.accept u w addr now).world.clients =
      s.world.clients.insert s.nextConnectionId
        (clientEntry ((s.shared w).accept u s.config addr s.nextConnectionId now).1 u) :=
    rfl
  have htoken : s.client u w.nextToken = none := by
    cases hcl : s.client u w.nextToken with
    | none => rfl
    | some cl =>
        rw [client_of_worker hw] at hcl
        exact absurd ((horderly.tokens u w hw).2 _ cl hcl).2 (Nat.lt_irrefl _)
  constructor
  · intro v t cl hcl
    rw [client_accept hw] at hcl
    rw [hclients]
    split at hcl
    · rename_i hhere
      cases hcl
      rw [hhere.1]
      exact AList.lookup_insert _
    · rw [AList.lookup_insert_ne (Nat.ne_of_lt (horderly.fresh v t cl hcl))]
      exact h.entries v t cl hcl
  · intro id info hinfo
    rw [hclients] at hinfo
    by_cases hid : id = s.nextConnectionId
    · subst hid
      rw [AList.lookup_insert] at hinfo
      cases hinfo
      let c := ((s.shared w).accept u s.config addr s.nextConnectionId now).1
      refine Or.inr ⟨w.nextToken, ⟨c, [], false⟩, ?_, rfl⟩
      rw [client_accept hw]
      exact if_pos ⟨rfl, rfl⟩
    · rw [AList.lookup_insert_ne hid] at hinfo
      refine (h.connections id info hinfo).imp_right ?_
      rintro ⟨t, cl, hcl, hclid⟩
      refine ⟨t, cl, ?_, hclid⟩
      rw [client_accept hw, if_neg]
      · exact hcl
      · rintro ⟨hu, rfl⟩
        rw [hu, htoken] at hcl
        cases hcl

theorem listed_settle {s : Server S P} (h : s.Listed failed) (horderly : s.Orderly)
    {u : ThreadId} {w : Worker} {token : Token} {cl : Client} {r : Reading S P}
    (hw : s.workers[u]? = some w) (hcl : w.connections.lookup token = some cl)
    (hr : r.Listed u s.world.clients cl) : (s.settle u w token r).Listed failed := by
  have hclient := @client_settle _ _ s u w token cl hw hcl r
  have hhere : s.client u token = some cl := (client_of_worker hw token).trans hcl
  rcases hr.mine with ⟨c, hlookup, hid, _, hcurrent⟩
  have hother : forall (v : ThreadId) (t : Token) (cl' : Client),
      s.client v t = some cl' -> ¬ (v = u ∧ t = token) ->
      cl'.connection.connectionId ≠ cl.connection.connectionId := by
    intro v t cl' hcl' hne hid'
    exact hne (horderly.distinct v u t token cl' cl hcl' hhere hid')
  cases hkept : r.shouldClose with
  | true =>
      have hclients : (s.settle u w token r).world.clients =
          r.shared.world.clients.erase cl.connection.connectionId := by
        rw [settle, if_pos hkept, ← hr.serves.connectionId]
        rfl
      have hgone : keptClient r = none := if_pos hkept
      constructor
      · intro v t cl' hcl'
        rw [hclient] at hcl'
        split at hcl'
        · rw [hgone] at hcl'
          cases hcl'
        · rename_i hne
          have hid' := hother v t cl' hcl' hne
          rw [hclients, AList.lookup_erase_ne hid', hr.others _ hid']
          exact h.entries v t cl' hcl'
      · intro id info hinfo
        rw [hclients] at hinfo
        have hid' : id ≠ cl.connection.connectionId := by
          rintro rfl
          rw [AList.lookup_erase] at hinfo
          cases hinfo
        rw [AList.lookup_erase_ne hid', hr.others _ hid'] at hinfo
        refine (h.connections id info hinfo).imp_right ?_
        rintro ⟨t, cl', hcl', rfl⟩
        refine ⟨t, cl', ?_, rfl⟩
        rw [hclient, if_neg]
        · exact hcl'
        · rintro ⟨hu, rfl⟩
          rw [hu, hhere] at hcl'
          cases hcl'
          exact hid' rfl
  | false =>
      have hclients : (s.settle u w token r).world.clients = r.shared.world.clients := by
        rw [settle, if_neg (Bool.eq_false_iff.mp hkept)]
        rfl
      have hthere : keptClient r = some r.client :=
        if_neg (Bool.eq_false_iff.mp hkept)
      constructor
      · intro v t cl' hcl'
        rw [hclient] at hcl'
        rw [hclients]
        split at hcl'
        · rename_i hhere
          rw [hthere] at hcl'
          cases hcl'
          rw [hr.serves.connectionId, hlookup, hhere.1, hcurrent hkept]
        · rename_i hne
          rw [hr.others _ (hother v t cl' hcl' hne)]
          exact h.entries v t cl' hcl'
      · intro id info hinfo
        rw [hclients] at hinfo
        by_cases hmine : id = cl.connection.connectionId
        · subst hmine
          cases hlookup.symm.trans hinfo
          refine Or.inr ⟨token, r.client, ?_, hr.serves.connectionId⟩
          rw [hclient]
          exact (if_pos ⟨rfl, rfl⟩).trans hthere
        · rw [hr.others _ hmine] at hinfo
          refine (h.connections id info hinfo).imp_right ?_
          rintro ⟨t, cl', hcl', rfl⟩
          refine ⟨t, cl', ?_, rfl⟩
          rw [hclient, if_neg]
          · exact hcl'
          · rintro ⟨hu, rfl⟩
            rw [hu, hhere] at hcl'
            cases hcl'
            exact hmine rfl

theorem lookup_closeAll (entries : List (Sigma fun _ : Token => Client))
    (sh : Shared S P) (id : ConnectionId) :
    (entries.foldl (fun sh e => (sh.close e.2.connection).2) sh).world.clients.lookup
        id =
      if exists e, e ∈ entries ∧ e.2.connection.connectionId = id then none
      else sh.world.clients.lookup id := by
  induction entries generalizing sh with
  | nil => simp
  | cons e entries ih =>
      rw [List.foldl_cons, ih]
      have hclose : (sh.close e.2.connection).2.world.clients =
          sh.world.clients.erase e.2.connection.connectionId := rfl
      rw [hclose]
      by_cases hrest : exists e', e' ∈ entries ∧ e'.2.connection.connectionId = id
      · rcases hrest with ⟨e', hmem, hid⟩
        rw [if_pos ⟨e', hmem, hid⟩, if_pos ⟨e', List.mem_cons_of_mem _ hmem, hid⟩]
      · rw [if_neg hrest]
        by_cases hid : e.2.connection.connectionId = id
        · rw [if_pos ⟨e, List.mem_cons_self, hid⟩, hid, AList.lookup_erase]
        · rw [if_neg, AList.lookup_erase_ne (Ne.symm hid)]
          rintro ⟨e', hmem, hid'⟩
          rcases List.mem_cons.mp hmem with rfl | hmem
          · exact hid hid'
          · exact hrest ⟨e', hmem, hid'⟩

theorem listed_stop {s : Server S P} (h : s.Listed failed) (horderly : s.Orderly)
    {u : ThreadId} {w : Worker} (hw : s.workers[u]? = some w) :
    (s.stop u w).Listed failed := by
  have hlookup := lookup_closeAll w.connections.entries (s.shared w)
  have hmine : forall id : ConnectionId,
      (exists e, e ∈ w.connections.entries ∧ e.2.connection.connectionId = id) <->
        exists (t : Token) (cl : Client), s.client u t = some cl ∧
          cl.connection.connectionId = id := by
    intro id
    simp only [client_of_worker hw]
    constructor
    · rintro ⟨e, hmem, hid⟩
      exact ⟨e.1, e.2, AList.mem_lookup_iff.mpr hmem, hid⟩
    · rintro ⟨t, cl, hcl, hid⟩
      exact ⟨⟨t, cl⟩, AList.mem_lookup_iff.mp hcl, hid⟩
  constructor
  · intro v t cl hcl
    rw [client_stop hw] at hcl
    rcases Option.ite_none_left_eq_some.mp hcl with ⟨hv, hcl⟩
    refine (hlookup _).trans ?_
    rw [if_neg]
    · exact h.entries v t cl hcl
    · rw [hmine]
      rintro ⟨t', cl', hcl', hid⟩
      exact hv (horderly.distinct v u t t' cl cl' hcl hcl' hid.symm).1
  · intro id info hinfo
    have hinfo' := (hlookup id).symm.trans hinfo
    rcases Option.ite_none_left_eq_some.mp hinfo' with ⟨hnone, hinfo'⟩
    refine (h.connections id info hinfo').imp_right ?_
    rintro ⟨t, cl, hcl, hid⟩
    refine ⟨t, cl, ?_, hid⟩
    rw [client_stop hw, if_neg]
    · exact hcl
    · intro hu
      rw [hu] at hcl
      exact hnone ((hmine id).mpr ⟨t, cl, hcl, hid⟩)

theorem listed_fail {s : Server S P} (h : s.Listed failed) {u : ThreadId} {w : Worker}
    (hw : s.workers[u]? = some w) (hu : u ∈ failed) : (s.fail u w).Listed failed := by
  constructor
  · intro v t cl hcl
    rw [client_fail hw] at hcl
    exact h.entries v t cl (Option.ite_none_left_eq_some.mp hcl).2
  · intro id info hinfo
    rcases h.connections id info hinfo with hfailed | ⟨t, cl, hcl, hid⟩
    · exact Or.inl hfailed
    · by_cases hv : info.threadId = u
      · subst hid
        have hentry := (h.entries _ t cl hcl).symm.trans hinfo
        exact Or.inl ⟨hv ▸ hu, (congrArg ClientInfo.id (Option.some.inj hentry)).symm⟩
      · refine Or.inr ⟨t, cl, ?_, hid⟩
        rw [client_fail hw, if_neg hv]
        exact hcl

theorem listed_step {s s' : Server S P} {input : ServerInput}
    (hfailed : forall u, input = .turn u .fail -> u ∈ failed) (horderly : s.Orderly)
    (h : s.Listed failed) (hstep : s.step fuel input = some s') : s'.Listed failed := by
  cases input with
  | shutdown =>
      cases hstep
      exact ⟨h.entries, h.connections⟩
  | turn u turn =>
      rcases step_turn hstep with ⟨w, hw, _, hturn⟩
      cases turn with
      | inbox delivered =>
          cases hturn
          exact (toldOn_inbox horderly hw delivered).listed h rfl
      | accept addr now =>
          cases hturn
          exact listed_accept h horderly hw addr now
      | ready token readiness =>
          rcases ready_cases hturn with ⟨_, rfl⟩ | ⟨cl, r, hcl, hserve, rfl⟩
          · exact h
          · have hentry := h.entries u token cl ((client_of_worker hw token).trans hcl)
            have hr := Reading.listed_serve (horderly.worker_resting hw token cl hcl)
              hentry hserve
            have hsettled := orderly_settle horderly hw hcl hr.serves
            rcases @worker_settle _ _ s u w token r hw with ⟨w', hw'⟩
            refine (toldOn_deliverTo hsettled hw' _ _).listed
              (listed_settle h horderly hw hcl hr) ?_
            rw [deliverTo, hw']
      | stop =>
          rcases Option.ite_none_right_eq_some.mp hturn with ⟨_, heq⟩
          cases heq
          exact listed_stop h horderly hw
      | fail =>
          cases hturn
          exact listed_fail h hw (hfailed u rfl)

theorem listed_run {numThreads : Nat} {config : Config} {world : World S P}
    {inputs : List ServerInput} {s : Server S P}
    (hrun : (new numThreads config world).run fuel inputs = some s) :
    s.Listed {u | ServerInput.turn u .fail ∈ inputs} := by
  have hboth : s.Orderly ∧ s.Listed {u | ServerInput.turn u .fail ∈ inputs} := by
    refine @invariant_runInputs _ _ (step fuel)
      (fun s1 => s1.Orderly ∧ s1.Listed {u | ServerInput.turn u .fail ∈ inputs})
      (fun input => input ∈ inputs) ?_ inputs (fun _ hinput => hinput) _ _
      ⟨orderly_new numThreads config world, listed_new numThreads config world⟩ hrun
    rintro s1 input s2 hinput ⟨horderly, hlisted⟩ hstep
    refine ⟨orderly_step horderly hstep, listed_step ?_ horderly hlisted hstep⟩
    rintro u rfl
    exact hinput
  exact hboth.2

theorem getAllClients_ids {clients : ClientRegistry}
    (h : forall id info, clients.lookup id = some info -> info.id = id) :
    (clients.getAllClients.map ClientInfo.id).Nodup := by
  have hids : clients.getAllClients.map ClientInfo.id = clients.keys := by
    unfold ClientRegistry.getAllClients AList.keys List.keys
    rw [List.map_map]
    refine List.map_congr_left fun e he => ?_
    exact h e.1 e.2 (AList.mem_lookup_iff.mpr he)
  rw [hids]
  exact clients.keys_nodup

theorem mem_getAllClients {clients : ClientRegistry} {info : ClientInfo} :
    info ∈ clients.getAllClients <-> exists id, clients.lookup id = some info := by
  unfold ClientRegistry.getAllClients
  rw [List.mem_map]
  constructor
  · rintro ⟨e, he, rfl⟩
    exact ⟨e.1, AList.mem_lookup_iff.mpr he⟩
  · rintro ⟨id, hinfo⟩
    exact ⟨⟨id, info⟩, AList.mem_lookup_iff.mp hinfo, rfl⟩

/-- Whatever has happened, the list of clients has every open connection, as the
connection is now, and besides these only what workers have left when they failed; no
number is in it twice. -/
theorem clients_listed {numThreads : Nat} {config : Config} {world : World S P}
    {inputs : List ServerInput} {s : Server S P}
    (hrun : (new numThreads config world).run fuel inputs = some s) :
    (forall (u : ThreadId) (t : Token) (cl : Client), s.client u t = some cl ->
      clientEntry cl.connection u ∈ s.world.clients.getAllClients) ∧
    (forall info, info ∈ s.world.clients.getAllClients ->
      ServerInput.turn info.threadId .fail ∈ inputs ∨
        exists (t : Token) (cl : Client), s.client info.threadId t = some cl ∧
          info = clientEntry cl.connection info.threadId) ∧
    (s.world.clients.getAllClients.map ClientInfo.id).Nodup := by
  have h := listed_run hrun
  refine ⟨?_, ?_, getAllClients_ids fun id info hinfo => ?_⟩
  · intro u t cl hcl
    exact mem_getAllClients.mpr ⟨_, h.entries u t cl hcl⟩
  · intro info hmem
    rcases mem_getAllClients.mp hmem with ⟨id, hinfo⟩
    rcases h.connections id info hinfo with ⟨hfailed, _⟩ | ⟨t, cl, hcl, rfl⟩
    · exact Or.inl hfailed
    · have hentry := hinfo.symm.trans (h.entries _ t cl hcl)
      exact Or.inr ⟨t, cl, hcl, Option.some.inj hentry⟩
  · rcases h.connections id info hinfo with ⟨_, hid⟩ | ⟨t, cl, hcl, rfl⟩
    · exact hid
    · have hentry := hinfo.symm.trans (h.entries _ t cl hcl)
      exact congrArg ClientInfo.id (Option.some.inj hentry)

theorem clients_listed_ping :
    exists s cl,
      quiet.run 0 [.turn 0 (.accept none 5), pinged] = some s ∧
      s.client 0 1 = some cl ∧ cl.connection.commandsProcessed = 1 ∧
      clientEntry cl.connection 0 ∈ s.world.clients.getAllClients :=
  ⟨_, _, rfl, rfl, rfl,
    (@clients_listed mapStore idlePlatform 0 1 { requirepass := none }
      Connection.freshShared.world [.turn 0 (.accept none 5), pinged] _ rfl).1 0 1 _ rfl⟩

end Server

end FeoxServer
