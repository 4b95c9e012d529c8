import FeoxServer.Network.OpenClients
import FeoxServer.Network.ServerCluster

/-!
# What closed connections leave behind

As long as no worker fails, nothing that is shared between the connections outlives
them: not in the registry of clients, not in the tables of the workers and not in the
registry of the service.
-/

namespace FeoxServer

open Foundation

namespace Server

variable {S : FeoxStore} {P : Platform} {fuel : Nat}

theorem registry_forgets {numThreads : Nat} {config : Config} {world : World S P}
    {inputs : List ServerInput} {s : Server S P}
    (hrun : (new numThreads config world).run fuel inputs = some s)
    (hfails : forall u, ServerInput.turn u .fail ∉ inputs) {kind : SubscriptionType}
    {name : Bytes} (hnobody : s.subscribersOf kind name = ∅) :
    name ∉ s.registry.interests kind ∧ name ∉ s.registry.counters kind := by
  have hnone : {u | ServerInput.turn u .fail ∈ inputs} = ∅ :=
    Set.eq_empty_iff_forall_notMem.mpr hfails
  rcases refines_run hrun with ⟨steps, owner, hrefines⟩
  have hregistry : s.registry = (Cluster.after numThreads steps).registry :=
    congrArg Cluster.registry hrefines.cluster
  have hcluster : (Cluster.after numThreads steps).subscribersOf kind name = ∅ := by
    rw [← hrefines.cluster, subscribersOf_cluster (attended_run hrun) hnone, hnobody]
  rw [hregistry]
  constructor
  · rw [Cluster.mem_interests_iff]
    rintro ⟨connId, hconn⟩
    rw [hcluster] at hconn
    exact hconn
  · rw [← AList.lookup_isSome, Cluster.lookup_counters numThreads hrefines.owned,
      hcluster, Set.ncard_empty, if_pos rfl]
    exact Bool.false_ne_true

theorem subscribersOf_closed {s : Server S P} (hclosed : forall u t, s.client u t = none)
    (kind : SubscriptionType) (name : Bytes) : s.subscribersOf kind name = ∅ := by
  rw [Set.eq_empty_iff_forall_notMem]
  rintro connId ⟨u, w, t, cl, hw, hcl, _⟩
  rw [← client_of_worker hw, hclosed] at hcl
  cases hcl

/-- When all connections are closed and no worker has failed, nothing of them is left:
no client is listed, no table has a subscription, and the registry is empty. -/
theorem nothing_left_behind {numThreads : Nat} {config : Config} {world : World S P}
    {inputs : List ServerInput} {s : Server S P}
    (hrun : (new numThreads config world).run fuel inputs = some s)
    (hfails : forall u, ServerInput.turn u .fail ∉ inputs)
    (hclosed : forall u t, s.client u t = none) :
    s.world.clients.getAllClients = [] ∧
    (forall (u : ThreadId) (w : Worker), s.workers[u]? = some w ->
      forall kind connId name, connId ∉ (w.manager.table kind).subscribers name ∧
        name ∉ (w.manager.table kind).namesOf connId) ∧
    forall kind, s.registry.interests kind = ∅ ∧ s.registry.counters kind = ∅ := by
  refine ⟨?_, ?_, fun kind => ?_⟩
  · rw [List.eq_nil_iff_forall_not_mem]
    intro info hinfo
    rcases mem_getAllClients.mp hinfo with ⟨id, hlookup⟩
    rcases (listed_run hrun).connections id info hlookup with
      ⟨hfailed, _⟩ | ⟨t, cl, hcl, _⟩
    · exact hfails _ hfailed
    · rw [hclosed] at hcl
      cases hcl
  · intro u w hw kind connId name
    have hattends := attended_run hrun u w hw
    have habsent : (connId, name) ∉ w.manager.subscriptions kind := by
      intro hmem
      rcases hattends.here (Or.inr (hfails u)) kind connId name hmem with ⟨t, cl, hcl, _⟩
      rw [← client_of_worker hw, hclosed] at hcl
      cases hcl
    refine ⟨habsent, fun hmem => habsent ?_⟩
    exact ((hattends.inOrder.table kind).mem_names connId name).mp hmem
  · have hforgets := fun name =>
      registry_forgets hrun hfails (subscribersOf_closed hclosed kind name)
    have hempty : forall {β : Type} (table : AList fun _ : Bytes => β),
        (forall name, name ∉ table) -> table = ∅ := by
      intro β table hnone
      apply AList.ext
      rw [List.eq_nil_iff_forall_not_mem.mpr fun e he =>
        hnone e.1 (AList.mem_keys.mpr (List.mem_map.mpr ⟨e, he, rfl⟩))]
      rfl
    exact ⟨hempty _ fun name => (hforgets name).1, hempty _ fun name => (hforgets name).2⟩

theorem nothing_left_behind_stop :
    exists s,
      quiet.run 0 [.turn 0 (.accept none 5), subscribed, .shutdown, .turn 0 .stop] =
        some s ∧
      s.world.clients.getAllClients = [] ∧
      forall kind, s.registry.interests kind = ∅ ∧ s.registry.counters kind = ∅ := by
  have heval : (quiet.run 0 [.turn 0 (.accept none 5), subscribed, .shutdown,
      .turn 0 .stop]).map (fun s => s.workers.map fun w => w.connections.keys) =
        some [[]] := by
    decide +kernel
  rcases Option.map_eq_some_iff.mp heval with ⟨s, hrun, hkeys⟩
  have hclosed : forall u t, s.client u t = none := by
    intro u t
    unfold client
    cases hw : s.workers[u]? with
    | none => rfl
    | some w =>
        have hmem : w.connections.keys ∈ s.workers.map fun w => w.connections.keys :=
          List.mem_map_of_mem (List.mem_of_getElem? hw)
        rw [hkeys, List.mem_singleton] at hmem
        rw [Option.bind_some, AList.lookup_eq_none, AList.mem_keys, hmem]
        exact List.not_mem_nil
  have hnothing := @nothing_left_behind mapStore idlePlatform 0 1
    { requirepass := none } Connection.freshShared.world
    [.turn 0 (.accept none 5), subscribed, .shutdown, .turn 0 .stop] s hrun
    (by simp [subscribed]) hclosed
  exact ⟨s, hrun, hnothing.1, hnothing.2.2⟩

end Server

end FeoxServer
