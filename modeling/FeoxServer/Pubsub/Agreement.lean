import FeoxServer.Pubsub.Handler
import FeoxServer.Pubsub.Interleaving

/-!
# The registry agrees with the threads

Operations that run to completion are a special case of operations in steps: no
other thread comes between, so every deletion is timely.
-/

namespace FeoxServer

open Foundation

/-!
# Completing what is owed
-/

theorem Counters.count_of_subtract {counters : Counters} {name : Bytes}
    (h : (counters.subtract name).2 = true) :
    (counters.subtract name).1.count name = 0 := by
  unfold subtract at h ⊢
  cases hlookup : counters.lookup name with
  | none =>
      rw [hlookup] at h
      cases h
  | some n =>
      rw [hlookup] at h
      simp [count, of_decide_eq_true h]

theorem Interests.isEmpty_of_withdraw {interests : Interests} {name : Bytes}
    {thread : ThreadId} (h : (interests.withdraw name thread).2 = true) :
    ((interests.withdraw name thread).1.threads name).isEmpty = true := by
  unfold withdraw at h ⊢
  cases hlookup : interests.lookup name with
  | none =>
      rw [hlookup] at h
      cases h
  | some entry =>
      rw [hlookup] at h
      simpa [threads] using h

namespace Access

def isDeletion : Access -> Bool
  | deleteCount _ _ | deleteInterest _ _ => true
  | _ => false

theorem timely_next {thread : ThreadId} {r : GlobalRegistry} {access next : Access}
    (h : next ∈ (access.perform thread r).2) :
    (access.perform thread r).2 = [next] ∧
      next.timely (access.perform thread r).1 = true ∧
      (next.perform thread (access.perform thread r).1).2 = [] := by
  cases access with
  | increment kind name => cases h
  | addInterest kind name => cases h
  | deleteCount kind name => cases h
  | deleteInterest kind name => cases h
  | decrement kind name =>
      by_cases hzero : ((r.counters kind).subtract name).2 = true
      · simp only [perform, hzero, if_true, List.mem_singleton] at h ⊢
        subst h
        refine ⟨rfl, ?_, rfl⟩
        simp [timely, Counters.count_of_subtract hzero]
      · simp only [perform, hzero, Bool.false_eq_true, if_false] at h
        cases h
  | removeInterest kind name =>
      by_cases hempty : ((r.interests kind).withdraw name thread).2 = true
      · simp only [perform, hempty, if_true, List.mem_singleton] at h ⊢
        subst h
        refine ⟨rfl, ?_, rfl⟩
        simp [timely, GlobalRegistry.interested_eq,
          Interests.isEmpty_of_withdraw hempty]
      · simp only [perform, hempty, Bool.false_eq_true, if_false] at h
        cases h

theorem timely_of_not_deletion {access : Access}
    (h : access.isDeletion = false) (r : GlobalRegistry) :
    access.timely r = true := by
  cases access <;> first | rfl | cases h

theorem perform_sameMaps {r r' : GlobalRegistry} (h : SameMaps r r')
    (thread : ThreadId) (access : Access) :
    SameMaps (access.perform thread r).1 (access.perform thread r').1 ∧
      (access.perform thread r').2 = (access.perform thread r).2 := by
  have hset : forall kind (i : Interests),
      SameMaps (r.setInterests kind i) (r'.setInterests kind i) := by
    intro kind i
    constructor
    · funext kind'
      by_cases hkind : kind' = kind
      · subst hkind
        simp
      · rw [GlobalRegistry.interests_setInterests_ne _ _ hkind,
          GlobalRegistry.interests_setInterests_ne _ _ hkind, h.interests]
    · funext kind'
      simp [h.counters]
  have hcount : forall kind (c : Counters),
      SameMaps (r.setCounters kind c) (r'.setCounters kind c) := by
    intro kind c
    constructor
    · funext kind'
      simp [h.interests]
    · funext kind'
      by_cases hkind : kind' = kind
      · subst hkind
        simp
      · rw [GlobalRegistry.counters_setCounters_ne _ _ hkind,
          GlobalRegistry.counters_setCounters_ne _ _ hkind, h.counters]
  cases access with
  | increment kind name =>
      simp only [perform, GlobalRegistry.incrementSubscribers_eq, h.counters]
      exact ⟨hcount kind _, trivial⟩
  | decrement kind name =>
      simp only [perform, h.counters]
      exact ⟨hcount kind _, trivial⟩
  | deleteCount kind name =>
      simp only [perform, h.counters]
      exact ⟨hcount kind _, trivial⟩
  | addInterest kind name =>
      simp only [perform, GlobalRegistry.addInterest_eq, h.interests]
      exact ⟨hset kind _, trivial⟩
  | removeInterest kind name =>
      simp only [perform, h.interests]
      exact ⟨hset kind _, trivial⟩
  | deleteInterest kind name =>
      simp only [perform, h.interests]
      exact ⟨hset kind _, trivial⟩

theorem completeAll_sameMaps {r r' : GlobalRegistry} (h : SameMaps r r')
    (thread : ThreadId) (accesses : List Access) :
    SameMaps (completeAll thread r accesses)
      (completeAll thread r' accesses) := by
  have hfold : forall (next : List Access) (r r' : GlobalRegistry),
      SameMaps r r' ->
      SameMaps (next.foldl (fun r access => (access.perform thread r).1) r)
        (next.foldl (fun r access => (access.perform thread r).1) r') := by
    intro next
    induction next with
    | nil => exact fun r r' h => h
    | cons access next ih =>
        exact fun r r' h => ih _ _ (perform_sameMaps h thread access).1
  induction accesses generalizing r r' with
  | nil => exact h
  | cons access accesses ih =>
      refine ih ?_
      rcases perform_sameMaps h thread access with ⟨hperform, hnext⟩
      unfold complete
      simp only [hnext]
      exact hfold _ _ _ hperform

end Access

/-!
# An operation begins with no deletion
-/

namespace ThreadLocalPubSub

def Opens (trace : List Access × ThreadLocalPubSub) : Prop :=
  forall access, access ∈ trace.1 -> access.isDeletion = false

theorem subscribeTrace_opens (kind : SubscriptionType) (connId : ConnectionId)
    (m : ThreadLocalPubSub) (name : Bytes) :
    Opens (subscribeTrace kind connId m name) := by
  intro access hmem
  unfold subscribeTrace at hmem
  split at hmem <;> split at hmem <;> simp at hmem
  · subst hmem
    rfl
  · subst hmem
    rfl
  · rcases hmem with rfl | rfl <;> rfl

theorem leaveTrace_opens (kind : SubscriptionType) (connId : ConnectionId)
    (m : ThreadLocalPubSub) (name : Bytes) :
    Opens (leaveTrace kind connId m name) := by
  intro access hmem
  unfold leaveTrace at hmem
  rcases List.mem_append.mp hmem with hmem | hmem
  · split at hmem
    · rw [List.mem_singleton.mp hmem]
      rfl
    · cases hmem
  · split at hmem
    · rw [List.mem_singleton.mp hmem]
      rfl
    · cases hmem

theorem traceAll_opens {trace : ThreadLocalPubSub -> Bytes ->
      List Access × ThreadLocalPubSub} (h : forall m name, Opens (trace m name))
    (m : ThreadLocalPubSub) (names : List Bytes) :
    Opens (traceAll trace m names) := by
  induction names generalizing m with
  | nil => exact fun _ hmem => nomatch hmem
  | cons name names ih =>
      intro access hmem
      rcases List.mem_append.mp hmem with hfirst | hrest
      · exact h m name access hfirst
      · exact ih (trace m name).2 access hrest

theorem unsubscribeTrace_opens (kind : SubscriptionType) (m : ThreadLocalPubSub)
    (connId : ConnectionId) (names : Option (List Bytes)) :
    Opens (unsubscribeTrace kind m connId names) := by
  cases names with
  | some names =>
      have hgiven : forall m name,
          Opens (unsubscribeGivenTrace kind connId m name) :=
        leaveTrace_opens kind connId
      exact traceAll_opens hgiven m names
  | none =>
      unfold unsubscribeTrace
      cases (m.table kind).names.lookup connId with
      | none => exact fun _ hmem => nomatch hmem
      | some names => exact traceAll_opens (leaveTrace_opens kind connId) _ names

end ThreadLocalPubSub

theorem ClusterOp.trace_opens (op : ClusterOp) (m : ThreadLocalPubSub) :
    ThreadLocalPubSub.Opens (op.trace m) := by
  cases op with
  | subscribe connId channels =>
      exact ThreadLocalPubSub.traceAll_opens
        (ThreadLocalPubSub.subscribeTrace_opens .channel connId) m channels
  | unsubscribe connId channels =>
      exact ThreadLocalPubSub.unsubscribeTrace_opens .channel m connId channels
  | psubscribe connId patterns =>
      exact ThreadLocalPubSub.traceAll_opens
        (ThreadLocalPubSub.subscribeTrace_opens .pattern connId) m patterns
  | punsubscribe connId patterns =>
      exact ThreadLocalPubSub.unsubscribeTrace_opens .pattern m connId patterns
  | connectionDropped connId =>
      intro access hmem
      rcases List.mem_append.mp hmem with hfirst | hsecond
      · exact ThreadLocalPubSub.unsubscribeTrace_opens .channel m connId none
          access hfirst
      · exact ThreadLocalPubSub.unsubscribeTrace_opens .pattern _ connId none
          access hsecond
  | publish channel message => exact fun _ hmem => nomatch hmem
  | processInbox => exact fun _ hmem => nomatch hmem

/-!
# Whole operations as timely runs
-/

namespace Interleaved

theorem timelyRun_append {s : Interleaved} {turns turns' : List (ThreadId × Turn)}
    (h : s.timelyRun turns = true) (h' : (s.run turns).timelyRun turns' = true) :
    s.timelyRun (turns ++ turns') = true := by
  induction turns generalizing s with
  | nil => exact h'
  | cons turn turns ih =>
      rw [timelyRun, Bool.and_eq_true] at h
      rw [List.cons_append, timelyRun, Bool.and_eq_true]
      exact ⟨h.1, ih h.2 h'⟩

theorem step_access {s : Interleaved} {u : ThreadId} {m : ThreadLocalPubSub}
    {access : Access} {owed : List Access}
    (hu : s.workers[u]? = some (m, access :: owed)) :
    s.step (u, .access) =
      { registry := (access.perform u s.registry).1
        workers := s.workers.set u
          (m, (access.perform u s.registry).2 ++ owed) } := by
  unfold step
  rw [hu]

theorem timelyTurn_access {s : Interleaved} {u : ThreadId}
    {m : ThreadLocalPubSub} {access : Access} {owed : List Access}
    (hu : s.workers[u]? = some (m, access :: owed)) :
    s.timelyTurn (u, .access) = access.timely s.registry := by
  unfold timelyTurn
  rw [hu]

theorem run_complete {u : ThreadId} {m : ThreadLocalPubSub} (owed : List Access)
    (hopens : forall access, access ∈ owed -> access.isDeletion = false)
    {s : Interleaved} (hu : s.workers[u]? = some (m, owed)) :
    exists turns, s.timelyRun turns = true ∧
      s.run turns =
        { registry := Access.completeAll u s.registry owed
          workers := s.workers.set u (m, []) } := by
  rcases List.getElem?_eq_some_iff.mp hu with ⟨hlt, hget⟩
  induction owed generalizing s with
  | nil =>
      refine ⟨[], rfl, ?_⟩
      rw [← hget, List.set_getElem_self]
      rfl
  | cons access owed ih =>
      have hrest := fun a ha => hopens a (List.mem_cons_of_mem access ha)
      have htimely : s.timelyTurn (u, .access) = true := by
        rw [timelyTurn_access hu]
        exact Access.timely_of_not_deletion
          (hopens access (List.mem_cons_self)) s.registry
      have hstep := step_access hu
      cases hnext : (access.perform u s.registry).2 with
      | nil =>
          rw [hnext, List.nil_append] at hstep
          have hself : (s.step (u, .access)).workers[u]? = some (m, owed) := by
            rw [hstep]
            exact List.getElem?_set_self hlt
          have hlt' : u < (s.step (u, .access)).workers.length := by
            rw [hstep]
            simpa using hlt
          rcases ih hrest hself hlt' (List.getElem?_eq_some_iff.mp hself).2 with
            ⟨turns, hturns, hrun⟩
          refine ⟨(u, .access) :: turns, ?_, ?_⟩
          · rw [timelyRun, htimely, hturns]
            rfl
          · change (s.step (u, .access)).run turns = _
            rw [hrun, hstep]
            simp only [List.set_set, Access.completeAll, List.foldl_cons,
              Access.complete, hnext, List.foldl_nil]
      | cons deletion others =>
          have hmem : deletion ∈ (access.perform u s.registry).2 := by
            rw [hnext]
            exact List.mem_cons_self
          rcases Access.timely_next hmem with ⟨hsingle, hdeletion, hnone⟩
          rw [hsingle] at hstep hnext
          have hself : (s.step (u, .access)).workers[u]? =
              some (m, deletion :: owed) := by
            rw [hstep]
            exact List.getElem?_set_self hlt
          have hstep' := step_access hself
          have hregistry : (s.step (u, .access)).registry =
              (access.perform u s.registry).1 := by
            rw [hstep]
          rw [hregistry, hnone, List.nil_append] at hstep'
          have htimely' : (s.step (u, .access)).timelyTurn (u, .access) =
              true := by
            rw [timelyTurn_access hself, hregistry]
            exact hdeletion
          have hself' : ((s.step (u, .access)).step (u, .access)).workers[u]? =
              some (m, owed) := by
            rw [hstep', hstep]
            exact List.getElem?_set_self (by simpa using hlt)
          rcases ih hrest hself' (List.getElem?_eq_some_iff.mp hself').1
            (List.getElem?_eq_some_iff.mp hself').2 with ⟨turns, hturns, hrun⟩
          refine ⟨(u, .access) :: (u, .access) :: turns, ?_, ?_⟩
          · rw [timelyRun, htimely, timelyRun, htimely', hturns]
            rfl
          · change ((s.step (u, .access)).step (u, .access)).run turns = _
            rw [hrun, hstep', hstep]
            simp only [List.set_set, Access.completeAll, List.foldl_cons,
              Access.complete, hsingle, List.foldl_nil]

/-- A cluster between operations, as a state of the interleaved system. -/
structure Mirrors (s : Interleaved) (c : Cluster) : Prop where
  workers : s.workers = c.managers.map fun m => (m, [])
  maps : SameMaps s.registry c.registry

theorem mirrors_apply {s : Interleaved} {c : Cluster} (h : s.Mirrors c)
    (hvalid : c.Valid) (step : ThreadId × ClusterOp) :
    exists turns, s.timelyRun turns = true ∧
      (s.run turns).Mirrors (c.apply step) := by
  rcases step with ⟨u, op⟩
  unfold Cluster.apply
  cases hu : c.managers[u]? with
  | none => exact ⟨[], rfl, h⟩
  | some m =>
      have hworker : s.workers[u]? = some (m, []) := by
        rw [h.workers, List.getElem?_map, hu]
        rfl
      have hid := (hvalid.managers u m hu).1
      rcases List.getElem?_eq_some_iff.mp hworker with ⟨hlt, _⟩
      have hbegin : s.step (u, .begin op) =
          { s with
            workers := s.workers.set u ((op.trace m).2, (op.trace m).1) } := by
        unfold Interleaved.step
        rw [hworker]
      have hself : (s.step (u, .begin op)).workers[u]? =
          some ((op.trace m).2, (op.trace m).1) := by
        rw [hbegin]
        exact List.getElem?_set_self hlt
      rcases run_complete (op.trace m).1 (op.trace_opens m) hself with
        ⟨turns, hturns, hrun⟩
      have hperform := op.perform_traced (m, c.registry)
      refine ⟨(u, .begin op) :: turns, ?_, ?_⟩
      · rw [timelyRun, hturns]
        unfold timelyTurn
        rw [hworker]
        rfl
      · change Mirrors ((s.step (u, .begin op)).run turns) _
        rw [hrun, hbegin]
        constructor
        · simp only [List.set_set, h.workers, List.map_set]
          rw [hperform.1]
        · simp only [hid] at hperform
          exact (Access.completeAll_sameMaps h.maps u _).trans hperform.2

theorem mirrors_after (n : Nat) (steps : List (ThreadId × ClusterOp)) :
    exists turns, (new n).timelyRun turns = true ∧
      ((new n).run turns).Mirrors (Cluster.after n steps) := by
  have hfold : forall (s : Interleaved) (c : Cluster), s.Mirrors c -> c.Valid ->
      exists turns, s.timelyRun turns = true ∧
        (s.run turns).Mirrors (steps.foldl Cluster.apply c) := by
    induction steps with
    | nil => exact fun s c h _ => ⟨[], rfl, h⟩
    | cons step steps ih =>
        intro s c h hvalid
        rcases mirrors_apply h hvalid step with ⟨turns, hturns, hmirrors⟩
        rcases ih _ _ hmirrors (Cluster.valid_apply hvalid step) with
          ⟨turns', hturns', hmirrors'⟩
        refine ⟨turns ++ turns', timelyRun_append hturns hturns', ?_⟩
        unfold run at hmirrors' ⊢
        rw [List.foldl_append]
        exact hmirrors'
  refine hfold (new n) (Cluster.new n) ⟨?_, SameMaps.refl _⟩
    (Cluster.valid_new n)
  simp [new, Cluster.new]

end Interleaved

/-!
# No empty entries
-/

/-- The maps hold no empty sets and no zeros. -/
structure Tight (r : GlobalRegistry) : Prop where
  interests : forall kind name entry,
    (r.interests kind).lookup name = some entry -> entry.isEmpty = false
  counters : forall kind name count,
    (r.counters kind).lookup name = some count -> count ≠ 0

theorem tight_new (n : Nat) : Tight (.new n) where
  interests kind name entry h := by
    cases kind <;> cases h
  counters kind name count h := by
    cases kind <;> cases h

theorem Tight.of_sameMaps {r r' : GlobalRegistry} (h : Tight r)
    (hsame : SameMaps r r') : Tight r' where
  interests kind := by
    rw [hsame.interests]
    exact h.interests kind
  counters kind := by
    rw [hsame.counters]
    exact h.counters kind

theorem Tight.setInterests {r : GlobalRegistry} (h : Tight r)
    (kind : SubscriptionType) {interests : Interests}
    (hnew : forall name entry, interests.lookup name = some entry ->
      entry.isEmpty = false) : Tight (r.setInterests kind interests) where
  interests kind' := by
    by_cases hkind : kind' = kind
    · subst hkind
      rw [GlobalRegistry.interests_setInterests_self]
      exact hnew
    · rw [GlobalRegistry.interests_setInterests_ne _ _ hkind]
      exact h.interests kind'
  counters kind' := by
    rw [GlobalRegistry.counters_setInterests]
    exact h.counters kind'

theorem Tight.setCounters {r : GlobalRegistry} (h : Tight r)
    (kind : SubscriptionType) {counters : Counters}
    (hnew : forall name count, counters.lookup name = some count ->
      count ≠ 0) : Tight (r.setCounters kind counters) where
  interests kind' := by
    rw [GlobalRegistry.interests_setCounters]
    exact h.interests kind'
  counters kind' := by
    by_cases hkind : kind' = kind
    · subst hkind
      rw [GlobalRegistry.counters_setCounters_self]
      exact hnew
    · rw [GlobalRegistry.counters_setCounters_ne _ _ hkind]
      exact h.counters kind'

theorem lookup_insert_all {β : Type} {table : AList fun _ : Bytes => β}
    {P : β -> Prop} (h : forall name b, table.lookup name = some b -> P b)
    {name : Bytes} {b : β} (hb : P b) :
    forall name' b', (table.insert name b).lookup name' = some b' -> P b' := by
  intro name' b' hlookup
  by_cases hname : name' = name
  · subst hname
    rw [AList.lookup_insert, Option.some.injEq] at hlookup
    rw [← hlookup]
    exact hb
  · rw [AList.lookup_insert_ne hname] at hlookup
    exact h name' b' hlookup

theorem lookup_erase_all {β : Type} {table : AList fun _ : Bytes => β}
    {P : β -> Prop} (h : forall name b, table.lookup name = some b -> P b)
    (name : Bytes) :
    forall name' b', (table.erase name).lookup name' = some b' -> P b' := by
  intro name' b' hlookup
  by_cases hname : name' = name
  · subst hname
    rw [AList.lookup_erase] at hlookup
    cases hlookup
  · rw [AList.lookup_erase_ne hname] at hlookup
    exact h name' b' hlookup

theorem Tight.complete {r : GlobalRegistry} (h : Tight r) (thread : ThreadId)
    (access : Access) : Tight (access.complete thread r) := by
  cases access with
  | increment kind name =>
      simp only [Access.complete, Access.perform, List.foldl_nil,
        GlobalRegistry.incrementSubscribers_eq]
      exact h.setCounters kind
        (lookup_insert_all (h.counters kind) (Nat.succ_ne_zero _))
  | decrement kind name =>
      rw [Access.complete_decrement,
        show r.decrementSubscribers kind name =
          r.setCounters kind ((r.counters kind).decrement name) by
            cases kind <;> rfl]
      refine h.setCounters kind ?_
      unfold Counters.decrement
      cases (r.counters kind).lookup name with
      | none => exact h.counters kind
      | some count =>
          by_cases hzero : count - 1 = 0
          · simp only [if_pos hzero]
            exact lookup_erase_all (h.counters kind) name
          · simp only [if_neg hzero]
            exact lookup_insert_all (h.counters kind) hzero
  | deleteCount kind name =>
      exact h.setCounters kind (lookup_erase_all (h.counters kind) name)
  | addInterest kind name =>
      simp only [Access.complete, Access.perform, List.foldl_nil,
        GlobalRegistry.addInterest_eq]
      refine h.setInterests kind (lookup_insert_all (h.interests kind) ?_)
      rw [Bool.eq_false_iff]
      intro hempty
      exact ListSet.isEmpty_iff.mp hempty thread
        (ListSet.mem_insert.mpr (Or.inr rfl))
  | removeInterest kind name =>
      rw [Access.complete_removeInterest,
        show r.removeInterest kind name thread =
          r.setInterests kind ((r.interests kind).remove name thread) by
            cases kind <;> rfl]
      refine h.setInterests kind ?_
      unfold Interests.remove
      cases (r.interests kind).lookup name with
      | none => exact h.interests kind
      | some entry =>
          by_cases hempty : (entry.remove thread).isEmpty
          · simp only [if_pos hempty]
            exact lookup_erase_all (h.interests kind) name
          · simp only [if_neg hempty]
            exact lookup_insert_all (h.interests kind) (Bool.eq_false_iff.mpr hempty)
  | deleteInterest kind name =>
      exact h.setInterests kind (lookup_erase_all (h.interests kind) name)

theorem Tight.completeAll {r : GlobalRegistry} (h : Tight r) (thread : ThreadId)
    (accesses : List Access) : Tight (Access.completeAll thread r accesses) := by
  induction accesses generalizing r with
  | nil => exact h
  | cons access accesses ih => exact ih (h.complete thread access)

namespace Cluster

theorem tight_after (n : Nat) (steps : List (ThreadId × ClusterOp)) :
    Tight (after n steps).registry := by
  have hfold : forall c : Cluster, Tight c.registry ->
      Tight (steps.foldl apply c).registry := by
    induction steps with
    | nil => exact fun c h => h
    | cons step steps ih =>
        intro c h
        refine ih (c.apply step) ?_
        unfold apply
        cases c.managers[step.1]? with
        | none => exact h
        | some m =>
            exact (h.completeAll m.threadId _).of_sameMaps
              (step.2.perform_traced (m, c.registry)).2
  exact hfold (new n) (tight_new n)

/-!
# Whose connections
-/

/-- Every connection belongs to one thread. -/
def Owned (owner : ConnectionId -> ThreadId)
    (steps : List (ThreadId × ClusterOp)) : Prop :=
  forall step, step ∈ steps -> forall connId,
    step.2.connection = some connId -> owner connId = step.1

theorem mem_perform {R : Subscriptions} {op : ClusterOp}
    {kind : SubscriptionType} {s : ConnectionId × Bytes}
    (h : s ∈ R.perform op kind) :
    s ∈ R kind ∨ op.connection = some s.1 := by
  have hjoin : forall kind' connId names,
      s ∈ R.join kind' connId names kind -> s ∈ R kind ∨ connId = s.1 := by
    intro kind' connId names hmem
    unfold Subscriptions.join at hmem
    by_cases hkind : kind = kind'
    · subst hkind
      rw [Function.update_self] at hmem
      exact hmem.imp id fun hs => hs.1.symm
    · rw [Function.update_of_ne hkind] at hmem
      exact Or.inl hmem
  have hpart : forall (R : Subscriptions) kind' connId names,
      s ∈ R.part kind' connId names kind -> s ∈ R kind := by
    intro R kind' connId names hmem
    by_cases hkind : kind = kind'
    · subst hkind
      cases names <;>
        (simp only [Subscriptions.part, Function.update_self] at hmem
         exact hmem.1)
    · cases names <;>
        (simp only [Subscriptions.part, Function.update_of_ne hkind] at hmem
         exact hmem)
  cases op with
  | subscribe connId channels =>
      exact (hjoin .channel connId channels h).imp id (congrArg some)
  | unsubscribe connId channels => exact Or.inl (hpart R _ _ _ h)
  | psubscribe connId patterns =>
      exact (hjoin .pattern connId patterns h).imp id (congrArg some)
  | punsubscribe connId patterns => exact Or.inl (hpart R _ _ _ h)
  | connectionDropped connId =>
      exact Or.inl (hpart R .channel connId none
        (hpart (R.part .channel connId none) .pattern connId none h))
  | publish channel message => exact Or.inl h
  | processInbox => exact Or.inl h

/-- Every thread holds the subscriptions of the connections it has worked
for. -/
theorem holds_after {Q : ThreadId -> ConnectionId -> Prop} (n : Nat)
    {steps : List (ThreadId × ClusterOp)}
    (hsteps : forall step, step ∈ steps -> forall connId,
      step.2.connection = some connId -> Q step.1 connId)
    {u : ThreadId} {m : ThreadLocalPubSub}
    (hu : (after n steps).managers[u]? = some m) :
    exists R, Holds m R R ∧ forall kind s, s ∈ R kind -> Q u s.1 := by
  have hfold : forall c : Cluster,
      (forall (u : ThreadId) m, c.managers[u]? = some m ->
        exists R, Holds m R R ∧ forall kind s, s ∈ R kind -> Q u s.1) ->
      forall (u : ThreadId) m, (steps.foldl apply c).managers[u]? = some m ->
        exists R, Holds m R R ∧ forall kind s, s ∈ R kind -> Q u s.1 := by
    clear hu
    induction steps with
    | nil => exact fun c h => h
    | cons step steps ih =>
        intro c h
        refine ih (fun step' hmem => hsteps step' (List.mem_cons_of_mem _ hmem))
          (c.apply step) ?_
        intro v m' hv
        unfold apply at hv
        cases hm : c.managers[step.1]? with
        | none =>
            rw [hm] at hv
            exact h v m' hv
        | some m =>
            rw [hm] at hv
            by_cases hvu : step.1 = v
            · rcases List.getElem?_eq_some_iff.mp hm with ⟨hlt, _⟩
              simp only at hv
              rw [hvu] at hlt hv hm
              rw [List.getElem?_set_self hlt, Option.some.injEq] at hv
              rcases h v m hm with ⟨R, hR, hkept⟩
              refine ⟨_, hv ▸ step.2.perform_holds hR, ?_⟩
              intro kind s hs
              rcases mem_perform hs with hold | hconn
              · exact hkept kind s hold
              · rw [← hvu]
                exact hsteps step List.mem_cons_self s.1 hconn
            · simp only [List.getElem?_set_ne hvu] at hv
              exact h v m' hv
  refine hfold (new n) ?_ u m hu
  intro v m' hv
  simp only [new, List.getElem?_map, Option.map_eq_some_iff] at hv
  rcases hv with ⟨w, _, rfl⟩
  exact ⟨_, holds_new w, fun kind s hs => hs.elim⟩

/-- The connections with a subscription to a name, over all threads. -/
def subscribersOf (c : Cluster) (kind : SubscriptionType) (name : Bytes) :
    Set ConnectionId :=
  {connId | exists (u : ThreadId) (m : ThreadLocalPubSub),
    c.managers[u]? = some m ∧ connId ∈ (m.table kind).subscribers name}

/-- The names of one kind with a subscription on some thread. -/
def subscribedNames (c : Cluster) (kind : SubscriptionType) : Set Bytes :=
  {name | exists connId, connId ∈ c.subscribersOf kind name}

/-- With connections of one thread each, adding up over the threads counts every
subscription once. -/
theorem sum_subscribers {owner : ConnectionId -> ThreadId} (n : Nat)
    {steps : List (ThreadId × ClusterOp)} (hsteps : Owned owner steps)
    (kind : SubscriptionType) (name : Bytes) :
    ((after n steps).managers.map fun m =>
        ((m.table kind).subscribers name).length).sum =
      ((after n steps).subscribersOf kind name).ncard := by
  have howned := fun u m hu =>
    holds_after (Q := fun u connId => owner connId = u) n hsteps (u := u)
      (m := m) hu
  generalize after n steps = c at *
  have hnodup : (c.managers.flatMap fun m =>
      (m.table kind).subscribers name).Nodup := by
    rw [List.nodup_flatMap]
    constructor
    · intro m hm
      rcases List.getElem?_of_mem hm with ⟨u, hu⟩
      rcases howned u m hu with ⟨R, hR, _⟩
      exact (hR.table kind).subscribers_nodup name
    · rw [List.pairwise_iff_getElem]
      intro u v hu hv hlt connId hconn hconn'
      rcases howned u _ (List.getElem?_eq_getElem hu) with ⟨R, hR, howner⟩
      rcases howned v _ (List.getElem?_eq_getElem hv) with ⟨R', hR', howner'⟩
      have hfirst := howner kind (connId, name)
        (((hR.table kind).mem_subscribers connId name).mp hconn)
      have hsecond := howner' kind (connId, name)
        (((hR'.table kind).mem_subscribers connId name).mp hconn')
      exact absurd (hfirst.symm.trans hsecond) (Nat.ne_of_lt hlt)
  rw [ncard_eq_length hnodup, List.length_flatMap]
  intro connId
  unfold subscribersOf
  rw [Set.mem_ofPred_eq, List.mem_flatMap]
  constructor
  · rintro ⟨u, m, hu, hmem⟩
    exact ⟨m, List.mem_of_getElem? hu, hmem⟩
  · rintro ⟨m, hm, hmem⟩
    rcases List.getElem?_of_mem hm with ⟨u, hu⟩
    exact ⟨u, m, hu, hmem⟩

theorem agreement_after (n : Nat) (steps : List (ThreadId × ClusterOp))
    (kind : SubscriptionType) (name : Bytes) :
    (forall u, u ∈ (after n steps).registry.interested kind name <->
      exists m, (after n steps).managers[u]? = some m ∧
        name ∈ (m.table kind).subs) ∧
    ((after n steps).registry.counters kind).count name =
      ((after n steps).managers.map fun m =>
        ((m.table kind).subscribers name).length).sum := by
  rcases Interleaved.mirrors_after n steps with ⟨turns, hturns, hmirrors⟩
  rcases Interleaved.balanced_run (Interleaved.balanced_new n) hturns with
    ⟨share, hbalanced⟩
  have hcomplete : ((Interleaved.new n).run turns).Complete := by
    intro worker hmem
    rw [hmirrors.workers] at hmem
    rcases List.mem_map.mp hmem with ⟨m, _, rfl⟩
    rfl
  rcases Interleaved.agreement_of_balanced hbalanced hcomplete kind name with
    ⟨hinterest, hcount⟩
  constructor
  · intro u
    rw [GlobalRegistry.interested_eq, hmirrors.maps.interests,
      ← GlobalRegistry.interested_eq, hinterest, hmirrors.workers]
    simp only [List.getElem?_map, Option.map_eq_some_iff]
    constructor
    · rintro ⟨worker, ⟨m, hm, rfl⟩, hmem⟩
      exact ⟨m, hm, hmem⟩
    · rintro ⟨m, hm, hmem⟩
      exact ⟨(m, []), ⟨m, hm, rfl⟩, hmem⟩
  · rw [hmirrors.maps.counters, hcount]
    unfold Interleaved.subscriptions
    rw [hmirrors.workers, List.map_map]
    rfl

theorem mem_subscribedNames_iff (n : Nat) (steps : List (ThreadId × ClusterOp))
    (kind : SubscriptionType) (name : Bytes) :
    name ∈ (after n steps).subscribedNames kind <->
      exists (u : ThreadId) (m : ThreadLocalPubSub),
        (after n steps).managers[u]? = some m ∧ name ∈ (m.table kind).subs := by
  constructor
  · rintro ⟨connId, u, m, hu, hmem⟩
    exact ⟨u, m, hu, ThreadLocalPubSub.known_of_subscribed hmem⟩
  · rintro ⟨u, m, hu, hmem⟩
    have hreg := (valid_after n steps).managers u m hu
    rcases Option.isSome_iff_exists.mp (AList.lookup_isSome.mpr hmem) with
      ⟨subs, hsubs⟩
    rcases List.exists_mem_of_ne_nil _ (hreg.2.inhabited kind name subs hsubs)
      with ⟨connId, hconn⟩
    refine ⟨connId, u, m, hu, ?_⟩
    rw [SubscriptionTable.subscribers, hsubs]
    exact hconn

theorem mem_interests_iff (n : Nat) (steps : List (ThreadId × ClusterOp))
    (kind : SubscriptionType) (name : Bytes) :
    name ∈ (after n steps).registry.interests kind <->
      name ∈ (after n steps).subscribedNames kind := by
  have hinterest := (agreement_after n steps kind name).1
  simp only [GlobalRegistry.interested_eq] at hinterest
  rw [mem_subscribedNames_iff]
  constructor
  · intro hmem
    rcases Option.isSome_iff_exists.mp (AList.lookup_isSome.mpr hmem) with
      ⟨entry, hentry⟩
    have hempty := (tight_after n steps).interests kind name entry hentry
    rw [Bool.eq_false_iff, ne_eq, ListSet.isEmpty_iff] at hempty
    push Not at hempty
    rcases hempty with ⟨u, hu⟩
    rcases (hinterest u).mp (by rw [Interests.threads, hentry]; exact hu) with
      ⟨m, hm, hknown⟩
    exact ⟨u, m, hm, hknown⟩
  · rintro ⟨u, m, hm, hknown⟩
    have hu := (hinterest u).mpr ⟨m, hm, hknown⟩
    rw [← AList.lookup_isSome]
    cases hlookup : ((after n steps).registry.interests kind).lookup name with
    | none =>
        rw [Interests.threads, hlookup] at hu
        exact absurd hu (ListSet.mem_empty u)
    | some entry => rfl

theorem lookup_counters {owner : ConnectionId -> ThreadId} (n : Nat)
    {steps : List (ThreadId × ClusterOp)} (hsteps : Owned owner steps)
    (kind : SubscriptionType) (name : Bytes) :
    ((after n steps).registry.counters kind).lookup name =
      if ((after n steps).subscribersOf kind name).ncard = 0 then none
      else some ((after n steps).subscribersOf kind name).ncard := by
  have hcount := (agreement_after n steps kind name).2
  rw [sum_subscribers n hsteps, Counters.count] at hcount
  cases hlookup : ((after n steps).registry.counters kind).lookup name with
  | none =>
      rw [hlookup, Option.getD_none] at hcount
      rw [if_pos hcount.symm]
  | some count =>
      have hpos := (tight_after n steps).counters kind name count hlookup
      rw [hlookup, Option.getD_some] at hcount
      rw [← hcount, if_neg hpos]

/-- After any whole operations of any threads, the registry and the replies of
`PUBSUB` say what the tables of the threads say. -/
theorem registry_agrees {owner : ConnectionId -> ThreadId} (numThreads : Nat)
    (steps : List (ThreadId × ClusterOp)) (hsteps : Owned owner steps) :
    let c := after numThreads steps
    (forall kind name,
      (forall u, u ∈ c.registry.interested kind name <->
        exists m, c.managers[u]? = some m ∧ name ∈ (m.table kind).subs) ∧
      (name ∈ c.registry.interests kind <-> name ∈ c.subscribedNames kind) ∧
      (c.registry.counters kind).lookup name =
        if (c.subscribersOf kind name).ncard = 0 then none
        else some (c.subscribersOf kind name).ncard) ∧
    (forall pattern, exists channels : List Bytes,
      c.registry.channelsReply pattern =
        .array (some (channels.map fun channel => .bulkString (some channel))) ∧
      channels.Nodup ∧
      forall channel, channel ∈ channels <->
        channel ∈ c.subscribedNames .channel ∧
          forall pat, pattern = some pat ->
            GlobalRegistry.globMatch pat channel = true) ∧
    (forall channels, c.registry.numSubReply channels =
      .array (some (channels.flatMap fun channel =>
        [.bulkString (some channel),
          .integer (Int64.ofNat (c.subscribersOf .channel channel).ncard)]))) ∧
    c.registry.numPatReply =
      .integer (Int64.ofNat (c.subscribedNames .pattern).ncard) := by
  intro c
  refine ⟨?_, ?_, ?_, ?_⟩
  · intro kind name
    exact ⟨(agreement_after numThreads steps kind name).1,
      mem_interests_iff numThreads steps kind name,
      lookup_counters numThreads hsteps kind name⟩
  · intro pattern
    have hmem : forall channel, channel ∈ c.registry.getAllChannels <->
        channel ∈ c.subscribedNames .channel := by
      intro channel
      rw [← mem_interests_iff]
      exact AList.mem_keys.symm
    cases pattern with
    | none =>
        refine ⟨c.registry.getAllChannels, rfl, AList.keys_nodup _, ?_⟩
        intro channel
        rw [hmem]
        simp
    | some pat =>
        refine ⟨c.registry.getAllChannels.filter
          fun channel => GlobalRegistry.globMatch pat channel, rfl,
          (AList.keys_nodup _).filter _, ?_⟩
        intro channel
        rw [List.mem_filter, hmem]
        simp
  · intro channels
    unfold GlobalRegistry.numSubReply
    congr 3
    funext channel
    have hcount := (agreement_after numThreads steps .channel channel).2
    rw [sum_subscribers numThreads hsteps] at hcount
    rw [← hcount]
    rfl
  · unfold GlobalRegistry.numPatReply GlobalRegistry.getPatternCount
    have hlength : (c.subscribedNames .pattern).ncard =
        (c.registry.interests .pattern).keys.length := by
      refine ncard_eq_length (AList.keys_nodup _) ?_
      intro name
      rw [← mem_interests_iff]
      exact AList.mem_keys
    rw [hlength]
    unfold AList.keys List.keys
    rw [List.length_map]
    rfl

theorem registry_agrees_two_threads :
    let steps : List (ThreadId × ClusterOp) :=
      [(0, .subscribe 4 [[99], [100]]), (1, .subscribe 7 [[99]]),
        (1, .psubscribe 7 [[42]]), (0, .unsubscribe 4 (some [[99], [99]]))]
    let c := after 2 steps
    (forall kind name,
      (forall u, u ∈ c.registry.interested kind name <->
        exists m, c.managers[u]? = some m ∧ name ∈ (m.table kind).subs) ∧
      (name ∈ c.registry.interests kind <-> name ∈ c.subscribedNames kind) ∧
      (c.registry.counters kind).lookup name =
        if (c.subscribersOf kind name).ncard = 0 then none
        else some (c.subscribersOf kind name).ncard) ∧
    (forall pattern, exists channels : List Bytes,
      c.registry.channelsReply pattern =
        .array (some (channels.map fun channel => .bulkString (some channel))) ∧
      channels.Nodup ∧
      forall channel, channel ∈ channels <->
        channel ∈ c.subscribedNames .channel ∧
          forall pat, pattern = some pat ->
            GlobalRegistry.globMatch pat channel = true) ∧
    (forall channels, c.registry.numSubReply channels =
      .array (some (channels.flatMap fun channel =>
        [.bulkString (some channel),
          .integer (Int64.ofNat (c.subscribersOf .channel channel).ncard)]))) ∧
    c.registry.numPatReply =
      .integer (Int64.ofNat (c.subscribedNames .pattern).ncard) :=
  @registry_agrees (fun connId => if connId = 4 then 0 else 1) 2 _ (by
    simp [Owned, ClusterOp.connection])

end Cluster

end FeoxServer
