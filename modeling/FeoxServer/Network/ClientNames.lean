import FeoxServer.Network.Admission
import FeoxServer.Network.DirectExecution

/-!
# Names of clients

`CLIENT SETNAME` names the connection, and `CLIENT GETNAME` reads the registry of
clients, which takes the name over at the end of a chunk.
-/

namespace FeoxServer

open Foundation Prog

namespace Command

/-- The name in a `CLIENT SETNAME` as it was sent. -/
def nameBytes : Command -> Option Bytes
  | .client subcommand (name :: _) =>
      if toUppercase subcommand = "SETNAME" then some name else none
  | _ => none

theorem givenName_eq (cmd : Command) :
    cmd.givenName = cmd.nameBytes.map fromUtf8Lossy := by
  cases cmd with
  | client subcommand args =>
      cases args with
      | nil => rfl
      | cons name rest =>
          simp only [givenName, nameBytes]
          split <;> rfl
  | _ => rfl

def asksName : Command -> Bool
  | .client subcommand _ => decide (toUppercase subcommand = "GETNAME")
  | _ => false

theorem of_asksName {cmd : Command} (h : cmd.asksName = true) :
    exists subcommand args, cmd = .client subcommand args ∧
      toUppercase subcommand = "GETNAME" := by
  cases cmd with
  | client subcommand args => exact ⟨subcommand, args, rfl, of_decide_eq_true h⟩
  | _ => cases h

theorem of_nameBytes {cmd : Command} {name : Bytes} (h : cmd.nameBytes = some name) :
    exists subcommand rest, cmd = .client subcommand (name :: rest) ∧
      toUppercase subcommand = "SETNAME" := by
  cases cmd with
  | client subcommand args =>
      cases args with
      | nil => cases h
      | cons name' rest =>
          simp only [nameBytes] at h
          split at h
          · rename_i hword
            cases h
            exact ⟨subcommand, rest, rfl, hword⟩
          · cases h
  | _ => cases h

end Command

/-!
# Other clients
-/

/-- The registry before and after work for clients other than one. -/
inductive OtherClients (connectionId : Nat) :
    ClientRegistry -> ClientRegistry -> Prop
  | none (clients : ClientRegistry) : OtherClients connectionId clients clients
  | register {clients clients' : ClientRegistry} (c : Connection)
      (threadId : ThreadId) : c.connectionId ≠ connectionId ->
        OtherClients connectionId (clients.register c threadId) clients' ->
          OtherClients connectionId clients clients'
  | update {clients clients' : ClientRegistry} (c : Connection) :
      c.connectionId ≠ connectionId ->
        OtherClients connectionId (clients.update c) clients' ->
          OtherClients connectionId clients clients'
  | unregister {clients clients' : ClientRegistry} (other : Nat) :
      other ≠ connectionId ->
        OtherClients connectionId (clients.unregister other) clients' ->
          OtherClients connectionId clients clients'

theorem OtherClients.lookup {connectionId : Nat} {clients clients' : ClientRegistry}
    (h : OtherClients connectionId clients clients') :
    clients'.lookup connectionId = clients.lookup connectionId := by
  induction h with
  | none => rfl
  | register c threadId hid _ ih => exact ih.trans (AList.lookup_insert_ne hid.symm)
  | update c hid _ ih =>
      rw [ih, ClientRegistry.lookup_update, if_neg hid.symm]
  | unregister other hid _ ih => exact ih.trans (AList.lookup_erase_ne hid.symm)

/-!
# Names in a run
-/

namespace Connection

variable {fuel : Nat}

theorem dispatch_clientName (fuel : Nat) (c : Connection) (cmd : Command) :
    Returns Anything (fun r : Connection × Flow => r.1.clientName = c.clientName)
      (dispatch fuel c cmd) := by
  by_cases hordinary : cmd.isTransactionCommand = false
  · rw [dispatch_ordinary hordinary]
    split
    · exact Returns.done rfl
    · refine returns_mono (answer_returns fuel c cmd) ?_
      rintro r ⟨n, b, hr⟩
      rw [hr]
  · cases cmd with
    | multi =>
        simp only [dispatch, beginTransaction]
        split <;> exact Returns.done rfl
    | exec =>
        simp only [dispatch, exec]
        split
        · exact Returns.done rfl
        · refine returns_bind (returns_trivial _) fun unchanged _ => ?_
          split
          · exact returns_bind (returns_trivial _) fun _ _ => Returns.done rfl
          · exact Returns.done rfl
    | discard =>
        simp only [dispatch, discard]
        split <;> exact Returns.done rfl
    | watch keys =>
        simp only [dispatch, watch]
        split
        · exact Returns.done rfl
        · exact returns_bind (returns_trivial _) fun _ _ => Returns.done rfl
    | unwatch => exact Returns.done rfl
    | _ => exact absurd rfl hordinary

/-- The command that a frame brings to the dispatcher. -/
def dispatched (c : Connection) (v : RespValue) : Option Command :=
  match c.route v with
  | .dispatched cmd => some cmd
  | _ => none

theorem parsed_of_dispatched {c : Connection} {v : RespValue} {cmd : Command}
    (h : c.dispatched v = some cmd) : Command.fromResp v = .ok cmd := by
  unfold dispatched at h
  split at h
  · rename_i cmd' hroute
    cases h
    exact (dispatched_of_route hroute).parsed
  · cases h

variable {T : Service Call Answer}

theorem processFrame_clientName {c c' : Connection} {v : RespValue} {flow : Flow}
    {s s' : T.State}
    (hrun : (c.processFrame fuel v).run T s = some ((c', flow), s')) :
    c'.clientName = ((c.dispatched v).bind Command.givenName).or c.clientName := by
  rcases run_processFrame.mp hrun with ⟨c1, hframe, rfl⟩
  change c1.clientName = _
  rw [frameFlow_eq] at hframe
  unfold dispatched
  cases hroute : c.route v with
  | fast f =>
      rw [hroute] at hframe
      rcases (run_bind_eq_some _).mp hframe with ⟨r, s1, _, hdone⟩
      cases hdone
      rfl
  | invalid e | quit | refused =>
      rw [hroute] at hframe
      cases hframe
      rfl
  | dispatched cmd =>
      rw [hroute] at hframe
      have hname := run_anything (dispatch_clientName fuel _ cmd) hframe
      rw [noteClientName_given] at hname
      exact hname

theorem route_client {c : Connection} {v : RespValue} {subcommand : String}
    {args : List Bytes}
    (hparsed : Command.fromResp v = .ok (.client subcommand args)) :
    c.route v = if c.isInPubsubMode then .refused
      else .dispatched (.client subcommand args) := by
  have hslow : c.fastPath v = none :=
    fastPath_eq_none hparsed fun f => by cases f <;> exact nofun
  rw [route_of_slow hslow hparsed, if_neg nofun]
  cases c.isInPubsubMode <;> rfl

theorem run_client {c c' : Connection} {v : RespValue} {subcommand : String}
    {args : List Bytes} {flow : Flow} {s s' : T.State}
    (hparsed : Command.fromResp v = .ok (.client subcommand args))
    (hidle : c.transactionState = .none)
    (hconfig : c.authRequired = c.executor.config.authRequired)
    (hrun : (c.processFrame fuel v).run T s = some ((c', flow), s')) :
    (c.isInPubsubMode = true ∧ flow = error notAllowed) ∨
      (c.isInPubsubMode = false ∧ c.authenticated = false ∧
        flow = error "-NOAUTH Authentication required.") ∨
      (c.isInPubsubMode = false ∧ c.authenticated = true ∧
        exists r, flow = .reply r ∧
          (c.executor.clientOps.execute subcommand args
            c.executor.connectionId).run T s = some (r, s')) := by
  rcases run_processFrame.mp hrun with ⟨c1, hframe, _⟩
  rw [frameFlow_eq, route_client hparsed] at hframe
  cases hmode : c.isInPubsubMode with
  | true =>
      rw [hmode] at hframe
      cases hframe
      exact Or.inl ⟨rfl, rfl⟩
  | false =>
      rw [hmode] at hframe
      change (dispatch fuel (c.countCommand.noteClientName _) _).run T s = _ at hframe
      rw [noteClientName_given, dispatch_ordinary rfl, if_neg] at hframe
      · cases hauthenticated : c.authenticated with
        | false =>
            rw [answer] at hframe
            · change (if !c.authenticated then _ else _ : ServerProg _).run T s = _
                at hframe
              rw [hauthenticated] at hframe
              cases hframe
              exact Or.inr (Or.inl ⟨rfl, rfl, rfl⟩)
            · exact nofun
        | true =>
            have htransferable : Transferable c.executor.config
                (.client subcommand args) := by
              refine ⟨rfl, ?_⟩
              intro password heq
              cases heq
            rcases run_answer (c := { c.countCommand with clientName := _ })
              hauthenticated hconfig htransferable hframe with
              ⟨r, n, hflow, _, _, hrespond⟩
            exact Or.inr (Or.inr ⟨rfl, rfl, r, hflow, hrespond⟩)
      · change c.transactionState ≠ .queuing
        rw [hidle]
        exact nofun

end Connection

variable {S : FeoxStore} {P : Platform}

namespace Visit

/-- The command that the frame brings to the dispatcher. -/
def command (x : Visit S P) : Option Command :=
  match x.input with
  | .frame _ v => x.before.connection.dispatched v
  | _ => none

/-- The name that a `CLIENT SETNAME` gave and that was acknowledged. -/
def setName (x : Visit S P) : Option Bytes :=
  match x.input, x.replies with
  | .frame _ v, [(_, .reply (.simpleString text))] =>
      if text = asBytes "OK" then
        (Command.fromResp v).toOption.bind Command.nameBytes
      else none
  | _, _ => none

/-- A `CLIENT GETNAME` that the connection may send. -/
structure AsksName (x : Visit S P) : Prop where
  frame : exists parser v cmd, x.input = .frame parser v ∧
    Command.fromResp v = .ok cmd ∧ cmd.asksName = true
  authenticated : x.before.connection.authenticated = true
  mode : x.before.connection.isInPubsubMode = false

/-- The name that a `CLIENT SETNAME` gave to an authenticated connection. -/
def acknowledged (x : Visit S P) : Option Bytes :=
  if x.before.connection.authenticated then x.command.bind Command.nameBytes
  else none

end Visit

/-- Every `CLIENT GETNAME` is answered with the name that the last acknowledged
`CLIENT SETNAME` before it gave. -/
def ReadsNames : Option Bytes -> List (Visit S P) -> Prop
  | _, [] => True
  | given, x :: visits =>
      (x.AsksName -> exists v, x.replies = [(v, .reply (.bulkString given))]) ∧
        ReadsNames (x.setName.or given) visits

/-- The names behind an input.  A `CLIENT SETNAME` names the connection even when it is
then refused, and the end of a chunk takes the name over into the registry. -/
def Names.track (names : Names) (x : Visit S P) : Names :=
  match x.input with
  | .frame _ _ =>
      { names with current := (x.command.bind Command.givenName).or names.current }
  | .finished => { names with registered := names.current }
  | _ => names

/-- At every `CLIENT GETNAME` the name that was given up to the end of the last chunk
reads like the name that was acknowledged last. -/
def InTime : Names -> Option Bytes -> List (Visit S P) -> Prop
  | _, _, [] => True
  | names, given, x :: visits =>
      (x.AsksName -> names.registered.map asBytes = given) ∧
        InTime (names.track x) (x.acknowledged.or given) visits

namespace Session

variable {fuel : Nat} {threadId : ThreadId}

/-- Between its inputs only work for other clients is done on the registry. -/
def ApartClients (connectionId : Nat) : Session S P -> List (Visit S P) -> Prop
  | _, [] => True
  | ses, x :: visits =>
      OtherClients connectionId ses.shared.world.clients
          x.before.shared.world.clients ∧
        ApartClients connectionId x.after visits

/-- The connection has the one name, and its entry in the registry the other. -/
structure Named (names : Names) (ses : Session S P) : Prop where
  registered : Registered ses
  name : ses.connection.clientName = names.current
  entry : exists info,
    ses.shared.world.clients.lookup ses.connection.connectionId = some info ∧
      info.name = names.registered

theorem named_accept (sh : Shared S P) (config : Config) (addr : Option String)
    (connectionId : Nat) (now : UInt64) :
    Named ⟨none, none⟩
      ⟨(sh.accept threadId config addr connectionId now).1,
        (sh.accept threadId config addr connectionId now).2, []⟩ :=
  ⟨registered_accept sh config addr connectionId now, rfl, _, AList.lookup_insert _,
    rfl⟩

theorem Named.others {names : Names} {ses : Session S P} (h : Named names ses)
    {shared : Shared S P}
    (hothers : OtherClients ses.connection.connectionId ses.shared.world.clients
      shared.world.clients) :
    Named names { ses with shared := shared } := by
  have hlookup := hothers.lookup
  rcases h.registered with ⟨hconfig, hregistry, hclient, info, hinfo, hflags⟩
  rcases h.entry with ⟨info', hinfo', hname⟩
  exact ⟨⟨hconfig, hregistry, hclient, info, hlookup.trans hinfo, hflags⟩, h.name,
    info', hlookup.trans hinfo', hname⟩

theorem named_step {names : Names} {ses ses' : Session S P} {input : Input}
    {replies : Replies} (h : Named names ses)
    (hstep : ses.step fuel threadId input = some (ses', replies)) :
    Named (names.track ⟨ses, input, ses', replies⟩) ses' := by
  have hregistered := registered_step h.registered hstep
  cases input with
  | received data =>
      rcases (ses.connection.feed data).clearWritten_eq with
        ⟨buffer, position, hclear⟩
      rw [step, hclear] at hstep
      cases hstep
      exact ⟨hregistered, h.name, h.entry⟩
  | frame parser v =>
      rcases Option.map_eq_some_iff.mp hstep with ⟨⟨ses1, flow⟩, hframe, heq⟩
      cases heq
      rcases frame_eq_some.mp hframe with ⟨c, world, hrun, heq⟩
      have hname := Connection.processFrame_clientName hrun
      have hclients : world.clients = ses.shared.world.clients := clients_run hrun
      have hid : c.connectionId = ses.connection.connectionId :=
        (Connection.run_anything (Connection.processFrame_lasting fuel
          { ses.connection with parser := parser } v) hrun).connectionId
      subst heq
      refine ⟨hregistered, ?_, ?_⟩
      · change c.clientName = _ at hname
        change c.clientName = ((ses.connection.dispatched v).bind _).or names.current
        rw [hname, ← h.name]
        rfl
      · change exists info, world.clients.lookup c.connectionId = some info ∧ _
        rw [hclients, hid]
        exact h.entry
  | finished =>
      cases hstep
      rcases finish_connection threadId ses with
        ⟨count, flags, pending, buffer, heq⟩
      have hname : (ses.finish threadId).connection.clientName = names.current := by
        rw [heq]
        exact h.name
      have hid : (ses.finish threadId).connection.connectionId =
          ses.connection.connectionId := by
        rw [heq]
      rcases h.entry with ⟨info, hinfo, _⟩
      refine ⟨hregistered, hname,
        ClientRegistry.updated info (ses.finish threadId).connection, ?_, hname⟩
      rw [clients_finish, ClientRegistry.lookup_update, if_pos rfl, hid, hinfo]
      rfl
  | sent n =>
      cases hstep
      exact ⟨hregistered, h.name, h.entry⟩

theorem client_frame {ses ses' : Session S P} {parser : RespParser} {v : RespValue}
    {subcommand : String} {args : List Bytes} {replies : Replies}
    (hregistered : Registered ses)
    (hidle : ses.connection.transactionState = .none)
    (hparsed : Command.fromResp v = .ok (.client subcommand args))
    (hstep : ses.step fuel threadId (.frame parser v) = some (ses', replies)) :
    (ses.connection.isInPubsubMode = true ∧
        replies = [(v, Connection.error Connection.notAllowed)]) ∨
      (ses.connection.isInPubsubMode = false ∧ ses.connection.authenticated = false ∧
        replies = [(v, Connection.error "-NOAUTH Authentication required.")]) ∨
      (ses.connection.isInPubsubMode = false ∧ ses.connection.authenticated = true ∧
        exists r, replies = [(v, .reply r)] ∧
          (ses.connection.executor.clientOps.execute subcommand args
            (some ses.connection.connectionId)).run (server S P) ses.shared.world =
              some (r, ses'.shared.world)) := by
  rcases Option.map_eq_some_iff.mp hstep with ⟨⟨ses1, flow⟩, hframe, heq⟩
  cases heq
  rcases frame_eq_some.mp hframe with ⟨c, world, hrun, heq⟩
  subst heq
  rcases Connection.run_client (c := { ses.connection with parser := parser }) hparsed
      hidle hregistered.config hrun with
    ⟨hmode, rfl⟩ | ⟨hmode, hnoauth, rfl⟩ | ⟨hmode, hauth, r, rfl, hr⟩
  · exact Or.inl ⟨hmode, rfl⟩
  · exact Or.inr (Or.inl ⟨hmode, hnoauth, rfl⟩)
  · have hown : ({ ses.connection with parser := parser } :
        Connection).executor.connectionId = some ses.connection.connectionId :=
      hregistered.client
    rw [hown] at hr
    exact Or.inr (Or.inr ⟨hmode, hauth, r, rfl, hr⟩)

theorem Named.asked {names : Names} {x : Visit S P} (h : Named names x.before)
    (hidle : x.before.connection.transactionState = .none) (hasks : x.AsksName)
    (hstep : x.before.step fuel threadId x.input = some (x.after, x.replies)) :
    exists v, x.replies = [(v, .reply (.bulkString
      (names.registered.map asBytes)))] := by
  rcases hasks.frame with ⟨parser, v, cmd, hinput, hparsed, hget⟩
  rcases Command.of_asksName hget with ⟨subcommand, args, rfl, hword⟩
  rw [hinput] at hstep
  rcases client_frame h.registered hidle hparsed hstep with
    ⟨hmode, _⟩ | ⟨_, hnoauth, _⟩ | ⟨_, _, r, hreplies, hrun⟩
  · rw [hasks.mode] at hmode
    cases hmode
  · rw [hasks.authenticated] at hnoauth
    cases hnoauth
  · refine ⟨v, hreplies.trans ?_⟩
    rcases h.entry with ⟨info, hinfo, hname⟩
    simp only [ClientOperations.execute, hword, ClientOperations.clientGetname,
      h.registered.registry, run_call_bind, World.reply, ClientRegistry.getClient,
      hinfo] at hrun
    rw [← hname]
    exact congrArg (fun r => [(v, Flow.reply r)]) (Prod.mk.inj (Option.some.inj hrun)).1.symm

theorem unnamed_frame {ses ses' : Session S P} {parser : RespParser} {v : RespValue}
    {replies : Replies}
    (hname : (Command.fromResp v).toOption.bind Command.nameBytes = none) :
    Visit.setName ⟨ses, .frame parser v, ses', replies⟩ = none ∧
      Visit.acknowledged ⟨ses, .frame parser v, ses', replies⟩ = none := by
  constructor
  · unfold Visit.setName
    split
    · rename_i hinput hreplies
      cases hinput
      rw [hname, ite_self]
    · rfl
  · have hcommand : (ses.connection.dispatched v).bind Command.nameBytes = none := by
      cases hdispatched : ses.connection.dispatched v with
      | none => rfl
      | some cmd =>
          rw [Connection.parsed_of_dispatched hdispatched] at hname
          exact hname
    change (if ses.connection.authenticated then
      (ses.connection.dispatched v).bind Command.nameBytes else none) = none
    rw [hcommand, ite_self]

theorem naming_frame {ses ses' : Session S P} {parser : RespParser} {v : RespValue}
    {name : Bytes} {cmd : Command} {replies : Replies} (hregistered : Registered ses)
    (hidle : ses.connection.transactionState = .none)
    (hparsed : Command.fromResp v = .ok cmd) (hbytes : cmd.nameBytes = some name)
    (hstep : ses.step fuel threadId (.frame parser v) = some (ses', replies)) :
    Visit.setName ⟨ses, .frame parser v, ses', replies⟩ =
      Visit.acknowledged ⟨ses, .frame parser v, ses', replies⟩ := by
  have hacknowledged : Visit.acknowledged ⟨ses, .frame parser v, ses', replies⟩ =
      if ses.connection.authenticated then
        (ses.connection.dispatched v).bind Command.nameBytes
      else none := rfl
  rcases Command.of_nameBytes hbytes with ⟨subcommand, rest, rfl, hword⟩
  have hroute := ses.connection.route_client hparsed
  rcases client_frame hregistered hidle hparsed hstep with
    ⟨hmode, rfl⟩ | ⟨_, hnoauth, rfl⟩ | ⟨hmode, hauth, r, rfl, hrun⟩
  · rw [hmode, if_pos rfl] at hroute
    rw [hacknowledged, Connection.dispatched, hroute]
    exact (ite_self none).symm
  · rw [hacknowledged, hnoauth]
    rfl
  · rw [hmode, if_neg Bool.false_ne_true] at hroute
    rw [hacknowledged, Connection.dispatched, hroute, hauth]
    simp only [ClientOperations.execute, hword] at hrun
    have hok : r = .simpleString (asBytes "OK") :=
      (Prod.mk.inj (Option.some.inj hrun)).1.symm
    rw [hok]
    change (if asBytes "OK" = asBytes "OK" then
      (Command.fromResp v).toOption.bind Command.nameBytes else none) = _
    rw [if_pos rfl, hparsed]
    rfl

theorem setName_eq_acknowledged {x : Visit S P} (hregistered : Registered x.before)
    (hidle : x.before.connection.transactionState = .none)
    (hstep : x.before.step fuel threadId x.input = some (x.after, x.replies)) :
    x.setName = x.acknowledged := by
  rcases x with ⟨ses, input, ses', replies⟩
  cases input with
  | received data | finished | sent n =>
      change none = if ses.connection.authenticated then none else none
      rw [ite_self]
  | frame parser v =>
      cases hresp : Command.fromResp v with
      | error e =>
          have hnone := @unnamed_frame S P ses ses' parser v replies (by rw [hresp]; rfl)
          rw [hnone.1, hnone.2]
      | ok cmd =>
          cases hname : cmd.nameBytes with
          | none =>
              have hnone := @unnamed_frame S P ses ses' parser v replies
                (by rw [hresp]; exact hname)
              rw [hnone.1, hnone.2]
          | some name => exact naming_frame hregistered hidle hresp hname hstep

/-- In a run outside `MULTI` every `CLIENT GETNAME` is answered with the name that was
acknowledged last if and only if that name was given in time. -/
theorem reads_names_iff {names : Names} {given : Option Bytes} {ses ses' : Session S P}
    {visits : List (Visit S P)} (h : Named names ses)
    (hvisits : Visits fuel threadId ses visits ses')
    (hapart : ApartClients ses.connection.connectionId ses visits)
    (hidle : forall x, x ∈ visits -> x.before.connection.transactionState = .none) :
    ReadsNames given visits <-> InTime names given visits := by
  induction visits generalizing ses names given with
  | nil => exact Iff.rfl
  | cons x visits ih =>
      rcases visits_cons hvisits with ⟨shared, hbefore, hstep, hrest⟩
      have hothers := hapart.1
      rw [hbefore] at hothers
      have hhere := h.others hothers
      rw [← hbefore] at hhere hstep
      have hidlex := hidle x List.mem_cons_self
      have hnext := named_step hhere hstep
      have hid : x.after.connection.connectionId = ses.connection.connectionId := by
        rw [connectionId_step hstep, hbefore]
      have hlater := hapart.2
      rw [← hid] at hlater
      have hset := setName_eq_acknowledged hhere.registered hidlex hstep
      rw [ReadsNames, InTime, hset]
      refine and_congr ?_ (ih hnext hrest hlater fun y hy =>
        hidle y (List.mem_cons_of_mem x hy))
      refine imp_congr_right fun hasks => ?_
      rcases hhere.asked hidlex hasks hstep with ⟨v, hreplies⟩
      constructor
      · rintro ⟨v', hreplies'⟩
        rw [hreplies] at hreplies'
        cases hreplies'
        rfl
      · intro heq
        rw [← heq]
        exact ⟨v, hreplies⟩

/-- In every run of a new connection outside `MULTI`, whatever the chunks, a
`CLIENT GETNAME` is answered with the name that was acknowledged last if and only if
that name was given in time. -/
theorem names_read_iff {sh : Shared S P} {config : Config} {addr : Option String}
    {connectionId : Nat} {now : UInt64} {ses' : Session S P} {visits : List (Visit S P)}
    (hvisits : Visits fuel threadId
      ⟨(sh.accept threadId config addr connectionId now).1,
        (sh.accept threadId config addr connectionId now).2, []⟩ visits ses')
    (hapart : ApartClients connectionId
      ⟨(sh.accept threadId config addr connectionId now).1,
        (sh.accept threadId config addr connectionId now).2, []⟩ visits)
    (hidle : forall x, x ∈ visits -> x.before.connection.transactionState = .none) :
    ReadsNames none visits <-> InTime ⟨none, none⟩ none visits :=
  reads_names_iff (named_accept sh config addr connectionId now) hvisits hapart hidle

section Example

open Connection

def setsName : RespValue :=
  request ["CLIENT", "SETNAME", "x"]

def getsName : RespValue :=
  request ["CLIENT", "GETNAME"]

/-- A newcomer that names itself and asks for its name, with an end of the chunk in
between or without. -/
structure NamesItself (middle : List Input) (given : Option Bytes)
    (visits : List (Visit mapStore idlePlatform)) : Prop where
  inputs : visits.map Visit.input =
    [.frame .new setsName] ++ middle ++ [.frame .new getsName]
  replies : visits.flatMap Visit.replies =
    [(setsName, ok), (getsName, .reply (.bulkString given))]
  run : exists ses', Visits 0 0 ⟨newcomer.1, newcomer.2, []⟩ visits ses'
  apart : ApartClients 0 ⟨newcomer.1, newcomer.2, []⟩ visits
  idle : forall x, x ∈ visits -> x.before.connection.transactionState = .none

theorem names_read_x :
    exists visits,
      NamesItself [.finished] (some (asBytes "x")) visits ∧ ReadsNames none visits := by
  have hrun : exists ses1 ses2 ses3,
      step 0 0 ⟨newcomer.1, newcomer.2, []⟩ (.frame .new setsName) =
        some (ses1, [(setsName, ok)]) ∧
      step 0 0 ses1 .finished = some (ses2, []) ∧
      step 0 0 ses2 (.frame .new getsName) =
        some (ses3, [(getsName, .reply (.bulkString (some (asBytes "x"))))]) ∧
      ses1.connection.transactionState = .none ∧
      ses2.connection.transactionState = .none :=
    ⟨_, _, _, rfl, rfl, rfl, rfl, rfl⟩
  rcases hrun with ⟨ses1, ses2, ses3, hset, hfinish, hget, hidle1, hidle2⟩
  have hvisits : Visits 0 0 ⟨newcomer.1, newcomer.2, []⟩
      [⟨⟨newcomer.1, newcomer.2, []⟩, .frame .new setsName, ses1, [(setsName, ok)]⟩,
        ⟨ses1, .finished, ses2, []⟩,
        ⟨ses2, .frame .new getsName, ses3,
          [(getsName, .reply (.bulkString (some (asBytes "x"))))]⟩] ses3 :=
    .cons newcomer.2 hset (.cons ses1.shared hfinish
      (.cons ses2.shared hget (.nil ses3)))
  have hitself : NamesItself [.finished] (some (asBytes "x")) _ :=
    ⟨rfl, rfl, ⟨ses3, hvisits⟩, ⟨.none _, .none _, .none _, trivial⟩, by
      intro x hx
      simp only [List.mem_cons, List.not_mem_nil, or_false] at hx
      rcases hx with rfl | rfl | rfl
      · rfl
      · exact hidle1
      · exact hidle2⟩
  refine ⟨_, hitself, ?_⟩
  apply (@names_read_iff _ _ 0 0 freshShared { requirepass := none } none 0 0 ses3 _
    hvisits hitself.apart hitself.idle).mpr
  refine ⟨fun _ => rfl, ?_, ?_, trivial⟩
  · rintro ⟨⟨parser, v, cmd, hinput, _⟩, _, _⟩
    cases hinput
  · intro _
    change some (asBytes (fromUtf8Lossy (asBytes "x"))) =
      (if ses1.connection.authenticated then none else none).or (some (asBytes "x"))
    rw [ite_self]
    rfl

/-- A name is not read in its own chunk. -/
theorem name_unread :
    (exists visits, NamesItself [] none visits ∧ ¬ ReadsNames none visits) ∧
      (newcomer.2.read 0 0 newcomer.1
          (requests [["CLIENT", "SETNAME", "x"], ["CLIENT", "GETNAME"]])).map
        (fun outcome => outcome.connection.writeBuffer) =
          some (asBytes "+OK\r\n$-1\r\n") := by
  refine ⟨?_, by decide +kernel⟩
  have hrun : exists ses1 ses2,
      step 0 0 ⟨newcomer.1, newcomer.2, []⟩ (.frame .new setsName) =
        some (ses1, [(setsName, ok)]) ∧
      step 0 0 ses1 (.frame .new getsName) =
        some (ses2, [(getsName, .reply (.bulkString none))]) ∧
      ses1.connection.transactionState = .none ∧
      ses1.connection.authenticated = true ∧ ses1.connection.isInPubsubMode = false :=
    ⟨_, _, rfl, rfl, rfl, rfl, rfl⟩
  rcases hrun with ⟨ses1, ses2, hset, hget, hidle, hauth, hmode⟩
  have hvisits : Visits 0 0 ⟨newcomer.1, newcomer.2, []⟩
      [⟨⟨newcomer.1, newcomer.2, []⟩, .frame .new setsName, ses1, [(setsName, ok)]⟩,
        ⟨ses1, .frame .new getsName, ses2,
          [(getsName, .reply (.bulkString none))]⟩] ses2 :=
    .cons newcomer.2 hset (.cons ses1.shared hget (.nil ses2))
  have hitself : NamesItself [] none _ :=
    ⟨rfl, rfl, ⟨ses2, hvisits⟩, ⟨.none _, .none _, trivial⟩, by
      intro x hx
      simp only [List.mem_cons, List.not_mem_nil, or_false] at hx
      rcases hx with rfl | rfl
      · rfl
      · exact hidle⟩
  refine ⟨_, hitself, ?_⟩
  rintro ⟨_, hread, _⟩
  rcases hread ⟨⟨.new, getsName, .client "GETNAME" [], rfl, rfl, by decide⟩, hauth,
    hmode⟩ with ⟨v, hreplies⟩
  cases hreplies

end Example

end Session

end FeoxServer
