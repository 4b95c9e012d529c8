import FeoxServer.Protocol.ClientOperations

/-!
# What listings show of a client

Two registries with the same clients, apart from the counts of commands and
from the name of one client, are told apart only by the commands that show
this name.
-/

namespace FeoxServer

open Foundation Prog

namespace ClientRegistry

/-- The same clients, apart from counts and the name of one client. -/
structure Related (own : Nat) (clients clients' : ClientRegistry) : Prop where
  keys : clients'.keys = clients.keys
  entry : forall id, (clients'.lookup id).map ClientInfo.anonymous =
    (clients.lookup id).map ClientInfo.anonymous
  name : forall id, id ≠ own -> (clients'.lookup id).map ClientInfo.name =
    (clients.lookup id).map ClientInfo.name

theorem Related.refl (own : Nat) (clients : ClientRegistry) :
    Related own clients clients :=
  ⟨rfl, fun _ => rfl, fun _ _ => rfl⟩

theorem map_snd_eq {l : List (Sigma fun _ : Nat => ClientInfo)}
    (h : l.NodupKeys) :
    l.map (fun e => e.2) = l.keys.filterMap fun id => l.dlookup id := by
  induction l with
  | nil => rfl
  | cons e l ih =>
      rcases e with ⟨id, info⟩
      rw [List.nodupKeys_cons] at h
      have hrest : l.keys.filterMap (fun id' => List.dlookup id' (⟨id, info⟩ :: l)) =
          l.keys.filterMap fun id' => List.dlookup id' l := by
        refine List.filterMap_congr fun id' hmem => ?_
        have hne : id' ≠ id := by
          rintro rfl
          exact h.1 hmem
        exact List.dlookup_cons_ne l (⟨id, info⟩ : Sigma _) hne
      rw [List.map_cons, List.keys_cons, List.filterMap_cons,
        List.dlookup_cons_eq, hrest, ih h.2]

theorem getAllClients_eq (clients : ClientRegistry) :
    clients.getAllClients = clients.keys.filterMap clients.lookup :=
  map_snd_eq clients.nodupKeys

theorem Related.getAllClients_anonymous {own : Nat}
    {clients clients' : ClientRegistry} (h : Related own clients clients') :
    clients'.getAllClients.map ClientInfo.anonymous =
      clients.getAllClients.map ClientInfo.anonymous := by
  rw [getAllClients_eq, getAllClients_eq, h.keys, List.map_filterMap,
    List.map_filterMap]
  exact congrArg (List.filterMap · clients.keys) (funext h.entry)

theorem killClients_anonymous (clients : List ClientInfo) (filterId : Option Nat)
    (filterAddr filterType : Option String) :
    killClients (clients.map ClientInfo.anonymous) filterId filterAddr
        filterType =
      killClients clients filterId filterAddr filterType := by
  rw [killClients, List.filter_map, List.map_map]
  rfl

theorem Related.killClients_eq {own : Nat} {clients clients' : ClientRegistry}
    (h : Related own clients clients') (filterId : Option Nat)
    (filterAddr filterType : Option String) :
    killClients clients'.getAllClients filterId filterAddr filterType =
      killClients clients.getAllClients filterId filterAddr filterType := by
  rw [← killClients_anonymous, h.getAllClients_anonymous, killClients_anonymous]

end ClientRegistry

namespace ClientOperations

/-!
# Descriptions
-/

def describeBefore (separator : String) (client : ClientInfo) : String :=
  separator.intercalate
    ["id=" ++ decimalNat client.id, "addr=" ++ client.addr.getD "N/A",
      "fd=" ++ decimalInt client.fd] ++ separator ++ "name="

def describeAfter (separator : String) (client : ClientInfo) (now : UInt64) :
    String :=
  separator ++ separator.intercalate
    (((properties client now).drop 4).map fun property =>
      property.1 ++ "=" ++ property.2)

theorem describe_eq (separator : String) (client : ClientInfo) (now : UInt64) :
    describe separator client now =
      describeBefore separator client ++ client.name.getD "" ++
        describeAfter separator client now := by
  have hparts : (properties client now).map
      (fun property => property.1 ++ "=" ++ property.2) =
      ["id=" ++ decimalNat client.id, "addr=" ++ client.addr.getD "N/A",
        "fd=" ++ decimalInt client.fd] ++ ("name=" ++ client.name.getD "") ::
          ((properties client now).drop 4).map fun property =>
            property.1 ++ "=" ++ property.2 := rfl
  rw [describe, hparts, String.intercalate_append_of_ne_nil (by simp) (by simp),
    String.intercalate_cons_of_ne_nil (t := "name=" ++ client.name.getD "")
      (by simp [properties])]
  simp only [describeBefore, describeAfter, String.append_assoc]
def shownName (client : ClientInfo) : String :=
  client.name.getD ""

theorem describe_anonymous {client client' : ClientInfo}
    (h : client'.anonymous = client.anonymous) (separator : String)
    (now : UInt64) :
    describe separator client' now =
      describeBefore separator client ++ shownName client' ++
        describeAfter separator client now := by
  rw [describe_eq]
  cases client
  cases client'
  simp only [ClientInfo.anonymous, ClientInfo.mk.injEq] at h
  obtain ⟨rfl, _, rfl, rfl, rfl, _, rfl, rfl, rfl⟩ := h
  rfl

theorem describe_eq_iff {client client' : ClientInfo}
    (h : client'.anonymous = client.anonymous) (separator : String)
    (now : UInt64) :
    describe separator client' now = describe separator client now <->
      shownName client' = shownName client := by
  rw [describe_anonymous h, describe_anonymous rfl, String.append_left_inj,
    String.append_right_inj]

/-!
# Listings
-/

variable {S : FeoxStore} {P : Platform}

theorem run_listLines {own : Nat} {f f' : Nat -> Option ClientInfo}
    (hentry : forall id, (f' id).map ClientInfo.anonymous =
      (f id).map ClientInfo.anonymous)
    (hname : forall id, id ≠ own ->
      (f' id).map ClientInfo.name = (f id).map ClientInfo.name)
    {ids : List Nat} (hnodup : ids.Nodup) {w w' : World S P}
    (hplatform : w'.platform = w.platform) :
    exists text text' p,
      (listLines (ids.filterMap f)).run (server S P) w =
        some (text, { w with platform := p }) ∧
      (listLines (ids.filterMap f')).run (server S P) w' =
        some (text', { w' with platform := p }) ∧
      (own ∉ ids -> text' = text) ∧
      (own ∈ ids -> (text' = text <->
        (f' own).map shownName = (f own).map shownName)) := by
  induction ids generalizing w w' with
  | nil =>
      refine ⟨"", "", w.platform, rfl, ?_, fun _ => rfl, by simp⟩
      rw [← hplatform]
      rfl
  | cons id ids ih =>
      rw [List.nodup_cons] at hnodup
      have hother : id ≠ own -> (f' id).map shownName = (f id).map shownName := by
        intro hne
        have hnames := congrArg (Option.map fun name => name.getD "")
          (hname id hne)
        rwa [Option.map_map, Option.map_map] at hnames
      cases hf : f id with
      | none =>
          have hf' : f' id = none := by
            have hboth := hentry id
            rw [hf, Option.map_none] at hboth
            exact Option.map_eq_none_iff.mp hboth
          rcases ih hnodup.2 hplatform with
            ⟨text, text', p, hrun, hrun', hnotin, hin⟩
          refine ⟨text, text', p, ?_, ?_, ?_, ?_⟩
          · rw [List.filterMap_cons_none hf]
            exact hrun
          · rw [List.filterMap_cons_none hf']
            exact hrun'
          · exact fun h => hnotin fun hmem => h (List.mem_cons_of_mem _ hmem)
          · intro hmem
            rcases List.mem_cons.mp hmem with rfl | hmem
            · rw [hf, hf', hnotin hnodup.1]
              simp
            · exact hin hmem
      | some client =>
          rcases w' with ⟨store', platform', watch', tracker', clients'⟩
          cases hplatform
          rcases Option.map_eq_some_iff.mp
            (show (f' id).map ClientInfo.anonymous = some client.anonymous by
              rw [hentry id, hf]
              rfl) with ⟨client', hf', hanonymous⟩
          rcases @ih hnodup.2
            { w with platform := (P.reply .unixTime w.platform).2 }
            ⟨store', (P.reply .unixTime w.platform).2, watch', tracker', clients'⟩
            rfl with
            ⟨text, text', p, hrun, hrun', hnotin, hin⟩
          have hline : describe " " client' (P.reply .unixTime w.platform).1 =
              describe " " client (P.reply .unixTime w.platform).1 <->
                (f' id).map shownName = (f id).map shownName := by
            rw [describe_eq_iff hanonymous, hf, hf']
            simp
          refine ⟨describe " " client (P.reply .unixTime w.platform).1 ++ "\n" ++
              text,
            describe " " client' (P.reply .unixTime w.platform).1 ++ "\n" ++ text',
            p, ?_, ?_, ?_, ?_⟩
          · rw [List.filterMap_cons_some hf]
            exact (run_bind_eq_some _).mpr ⟨_, _, rfl,
              (run_bind_eq_some _).mpr ⟨_, _, hrun, rfl⟩⟩
          · rw [List.filterMap_cons_some hf']
            exact (run_bind_eq_some _).mpr ⟨_, _, rfl,
              (run_bind_eq_some _).mpr ⟨_, _, hrun', rfl⟩⟩
          · intro hmem
            rw [List.mem_cons, not_or] at hmem
            rw [hline.mpr (hother (Ne.symm hmem.1)), hnotin hmem.2]
          · intro hmem
            rcases List.mem_cons.mp hmem with rfl | hmem
            · rw [hnotin hnodup.1, String.append_left_inj,
                String.append_left_inj]
              exact hline
            · have hne : id ≠ own := by
                rintro rfl
                exact hnodup.1 hmem
              rw [hline.mpr (hother hne), String.append_right_inj]
              exact hin hmem

/-!
# The client commands
-/

/-- What a client command shows of the name of its connection. -/
def shown (subcommand : String) (name : Option String) : Option String :=
  match toUppercase subcommand with
  | "LIST" | "INFO" => some (name.getD "")
  | "GETNAME" => name
  | _ => none

section Related

variable {ops : ClientOperations} {own : Nat} {a b : Option String}
  {w w' : World S P}

/-- Both worlds give results of the same kind, which are equal exactly if the
names that are shown are. -/
def Tells (p : ServerProg RespValue) (w w' : World S P)
    (same : Prop) : Prop :=
  exists r r' platform,
    p.run (server S P) w = some (r, { w with platform := platform }) ∧
    p.run (server S P) w' = some (r', { w' with platform := platform }) ∧
    (r' = r <-> same)

theorem tells_pure (r : RespValue)
    (hplatform : w'.platform = w.platform) :
    Tells (pure r) w w' True := by
  refine ⟨r, r, w.platform, rfl, ?_, by simp⟩
  rw [← hplatform]
  rfl

theorem tells_clientList (hregistry : ops.hasRegistry = true)
    (hclients : w.clients.Related own w'.clients)
    (hplatform : w'.platform = w.platform)
    (ha : (w.clients.lookup own).map ClientInfo.name = some a)
    (hb : (w'.clients.lookup own).map ClientInfo.name = some b) :
    Tells ops.clientList w w' (some (b.getD "") = some (a.getD "")) := by
  have hmem : own ∈ w.clients.keys := by
    rcases Option.map_eq_some_iff.mp ha with ⟨info, hinfo, _⟩
    exact AList.mem_keys.mpr (AList.lookup_isSome.mp (by simp [hinfo]))
  rcases run_listLines hclients.entry hclients.name w.clients.keys_nodup
    hplatform with ⟨text, text', platform, hrun, hrun', _, hiff⟩
  refine ⟨.bulkString (some (asBytes text)), .bulkString (some (asBytes text')),
    platform, ?_, ?_, ?_⟩
  · rw [clientList, if_pos hregistry]
    refine (run_bind_eq_some _).mpr ⟨_, _, rfl, ?_⟩
    change Prog.run (server S P) (listLines w.clients.getAllClients >>= _) w = _
    rw [ClientRegistry.getAllClients_eq]
    exact (run_bind_eq_some _).mpr ⟨_, _, hrun, rfl⟩
  · rw [clientList, if_pos hregistry]
    refine (run_bind_eq_some _).mpr ⟨_, _, rfl, ?_⟩
    change Prog.run (server S P) (listLines w'.clients.getAllClients >>= _) w' = _
    rw [ClientRegistry.getAllClients_eq, hclients.keys]
    exact (run_bind_eq_some _).mpr ⟨_, _, hrun', rfl⟩
  · have hshown : forall {clients : ClientRegistry} {name : Option String},
        (clients.lookup own).map ClientInfo.name = some name ->
          (clients.lookup own).map shownName = some (name.getD "") := by
      intro clients name h
      rcases Option.map_eq_some_iff.mp h with ⟨info, hinfo, rfl⟩
      rw [hinfo]
      rfl
    rw [← hshown ha, ← hshown hb, ← hiff hmem]
    simp only [RespValue.bulkString.injEq, Option.some.injEq]
    exact asBytes_injective.eq_iff

theorem tells_clientGetname (hregistry : ops.hasRegistry = true)
    (hplatform : w'.platform = w.platform)
    (ha : (w.clients.lookup own).map ClientInfo.name = some a)
    (hb : (w'.clients.lookup own).map ClientInfo.name = some b) :
    Tells (ops.clientGetname (some own)) w w' (b = a) := by
  rcases Option.map_eq_some_iff.mp ha with ⟨info, hinfo, rfl⟩
  rcases Option.map_eq_some_iff.mp hb with ⟨info', hinfo', rfl⟩
  refine ⟨.bulkString (info.name.map asBytes), .bulkString (info'.name.map asBytes),
    w.platform, ?_, ?_, ?_⟩
  · simp only [clientGetname, hregistry, run_call_bind, World.reply,
      ClientRegistry.getClient, hinfo]
    rfl
  · simp only [clientGetname, hregistry, run_call_bind, World.reply,
      ClientRegistry.getClient, hinfo', ← hplatform]
    rfl
  · rw [RespValue.bulkString.injEq]
    exact (Option.map_injective asBytes_injective).eq_iff

theorem tells_clientInfo (hregistry : ops.hasRegistry = true)
    (hclients : w.clients.Related own w'.clients)
    (hplatform : w'.platform = w.platform)
    (ha : (w.clients.lookup own).map ClientInfo.name = some a)
    (hb : (w'.clients.lookup own).map ClientInfo.name = some b) :
    Tells (ops.clientInfo (some own)) w w'
      (some (b.getD "") = some (a.getD "")) := by
  rcases Option.map_eq_some_iff.mp ha with ⟨info, hinfo, rfl⟩
  rcases Option.map_eq_some_iff.mp hb with ⟨info', hinfo', rfl⟩
  have hanonymous : info'.anonymous = info.anonymous := by
    have hentry := hclients.entry own
    rw [hinfo, hinfo'] at hentry
    exact Option.some.inj hentry
  refine ⟨.bulkString (some (asBytes
      (describe "\n" info (P.reply .unixTime w.platform).1))),
    .bulkString (some (asBytes
      (describe "\n" info' (P.reply .unixTime w.platform).1))),
    (P.reply .unixTime w.platform).2, ?_, ?_, ?_⟩
  · simp only [clientInfo, hregistry, run_call_bind, World.reply,
      ClientRegistry.getClient, hinfo]
    rfl
  · simp only [clientInfo, hregistry, run_call_bind, World.reply,
      ClientRegistry.getClient, hinfo', ← hplatform]
    rfl
  · rw [RespValue.bulkString.injEq, Option.some.injEq, Option.some.injEq,
      asBytes_injective.eq_iff, describe_eq_iff hanonymous]
    rfl

theorem tells_clientKill (hregistry : ops.hasRegistry = true)
    (hclients : w.clients.Related own w'.clients)
    (hplatform : w'.platform = w.platform) (args : List Bytes) :
    Tells (ops.clientKill args) w w' True := by
  unfold clientKill
  by_cases hargs : args = []
  · rw [if_pos hargs]
    exact tells_pure _ hplatform
  · rw [if_neg hargs, if_pos hregistry]
    have hrun : forall w : World S P,
        Prog.run (server S P) (do
          let clients <- Prog.call Call.getAllClients
          let filters := filtersOf args
          let toKill := ClientRegistry.killClients clients filters.id
            filters.addr filters.type
          pure (RespValue.integer (Int64.ofNat toKill.length))) w =
          some (.integer (Int64.ofNat (ClientRegistry.killClients
            w.clients.getAllClients (filtersOf args).id (filtersOf args).addr
            (filtersOf args).type).length), w) := fun _ => rfl
    refine ⟨_, _, w.platform, hrun w, ?_, iff_of_true rfl trivial⟩
    rw [hrun w', hclients.killClients_eq, ← hplatform]

theorem tells_execute (hregistry : ops.hasRegistry = true)
    (hclients : w.clients.Related own w'.clients)
    (hplatform : w'.platform = w.platform)
    (ha : (w.clients.lookup own).map ClientInfo.name = some a)
    (hb : (w'.clients.lookup own).map ClientInfo.name = some b)
    (subcommand : String) (args : List Bytes) :
    Tells (ops.execute subcommand args (some own)) w w'
      (shown subcommand b = shown subcommand a) := by
  have hquiet : forall {p : ServerProg RespValue},
      (forall name, shown subcommand name = none) -> Tells p w w' True ->
        Tells p w w' (shown subcommand b = shown subcommand a) := by
    intro p hnone hp
    rwa [hnone a, hnone b, eq_self_iff_true]
  unfold execute
  split
  · rename_i h
    exact hquiet (fun name => by simp [shown, h]) (tells_pure _ hplatform)
  · rename_i h
    have hlist := tells_clientList hregistry hclients hplatform ha hb
    simpa only [shown, h] using hlist
  · rename_i h
    exact hquiet (fun name => by simp [shown, h]) (tells_pure _ hplatform)
  · rename_i h
    have hname := tells_clientGetname hregistry hplatform ha hb
    simpa only [shown, h] using hname
  · rename_i h
    exact hquiet (fun name => by simp [shown, h])
      (tells_clientKill hregistry hclients hplatform args)
  · rename_i h
    have hinfo := tells_clientInfo hregistry hclients hplatform ha hb
    simpa only [shown, h] using hinfo
  · rename_i h
    exact hquiet (fun name => by simp [shown, h]) (tells_pure _ hplatform)
  · rename_i h
    exact hquiet (fun name => by simp [shown, h]) (tells_pure _ hplatform)
  · rename_i hlist hname hinfo _ _
    refine hquiet (fun name => ?_) (tells_pure _ hplatform)
    unfold shown
    split <;> first | rfl | exact absurd ‹_› (by assumption)

end Related

end ClientOperations

end FeoxServer
