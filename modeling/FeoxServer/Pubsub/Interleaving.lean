import FeoxServer.Pubsub.Accesses

/-!
# Operations in steps

The threads work at the same time.  An operation begins with what it does to
its own manager, and its accesses to the shared maps follow one at a time, with
accesses of other threads between them.
-/

namespace FeoxServer

open Foundation

/-- The registry, and every thread with the accesses it still has to make. -/
structure Interleaved where
  registry : GlobalRegistry
  workers : List (ThreadLocalPubSub × List Access)

/-- A thread begins an operation, or makes its next access. -/
inductive Turn where
  | begin (op : ClusterOp)
  | access

namespace Interleaved

def new (numThreads : Nat) : Interleaved where
  registry := .new numThreads
  workers := (List.range numThreads).map fun thread => (.new thread, [])

/-- An operation begins only when the one before is complete. -/
def step (s : Interleaved) (turn : ThreadId × Turn) : Interleaved :=
  match s.workers[turn.1]?, turn.2 with
  | some (m, []), .begin op =>
      { s with
        workers := s.workers.set turn.1 ((op.trace m).2, (op.trace m).1) }
  | some (m, access :: owed), .access =>
      let (r, next) := access.perform turn.1 s.registry
      { registry := r, workers := s.workers.set turn.1 (m, next ++ owed) }
  | _, _ => s

def run (s : Interleaved) (turns : List (ThreadId × Turn)) : Interleaved :=
  turns.foldl step s

/-- No thread is in the middle of an operation. -/
def Complete (s : Interleaved) : Prop :=
  forall worker, worker ∈ s.workers -> worker.2 = []

instance (s : Interleaved) : Decidable s.Complete :=
  inferInstanceAs (Decidable (forall worker, worker ∈ s.workers -> worker.2 = []))

/-- The number of subscriptions to a name over all threads. -/
def subscriptions (s : Interleaved) (kind : SubscriptionType) (name : Bytes) :
    Nat :=
  (s.workers.map fun worker =>
    ((worker.1.table kind).subscribers name).length).sum

end Interleaved

def Access.timely (r : GlobalRegistry) : Access -> Bool
  | deleteCount kind name => (r.counters kind).count name == 0
  | deleteInterest kind name => (r.interested kind name).isEmpty
  | _ => true

namespace Interleaved

def timelyTurn (s : Interleaved) (turn : ThreadId × Turn) : Bool :=
  match s.workers[turn.1]?, turn.2 with
  | some (_, access :: _), .access => access.timely s.registry
  | _, _ => true

/-- In a timely run no thread enters a name between the two steps in which
another thread deletes the empty entry of this name. -/
def timelyRun : Interleaved -> List (ThreadId × Turn) -> Bool
  | _, [] => true
  | s, turn :: turns => s.timelyTurn turn && timelyRun (s.step turn) turns

end Interleaved

/-!
# The registry as the sum of shares

What the registry says is divided among the threads: each has its own interest
and its own number of subscribers in every name.
-/

abbrev Share : Type :=
  SubscriptionType -> Bytes -> Bool × Nat

namespace Access

def effect (kind : SubscriptionType) (name : Bytes) (e : Bool × Nat) :
    Access -> Bool × Nat
  | increment k n => if k = kind ∧ n = name then (e.1, e.2 + 1) else e
  | decrement k n => if k = kind ∧ n = name then (e.1, e.2 - 1) else e
  | addInterest k n => if k = kind ∧ n = name then (true, e.2) else e
  | removeInterest k n => if k = kind ∧ n = name then (false, e.2) else e
  | deleteCount _ _ => e
  | deleteInterest _ _ => e

theorem effect_increment (kind k : SubscriptionType) (name n : Bytes) (e : Bool × Nat) :
    effect kind name e (.increment k n) =
      (e.1, e.2 + if k = kind ∧ n = name then 1 else 0) := by
  simp only [effect]
  split <;> rfl

theorem effect_decrement (kind k : SubscriptionType) (name n : Bytes) (e : Bool × Nat) :
    effect kind name e (.decrement k n) =
      (e.1, e.2 - if k = kind ∧ n = name then 1 else 0) := by
  simp only [effect]
  split <;> rfl

theorem effect_addInterest (kind k : SubscriptionType) (name n : Bytes)
    (e : Bool × Nat) :
    effect kind name e (.addInterest k n) =
      (e.1 || decide (k = kind ∧ n = name), e.2) := by
  simp only [effect]
  split
  · simp [*]
  · simp [*]

theorem effect_removeInterest (kind k : SubscriptionType) (name n : Bytes)
    (e : Bool × Nat) :
    effect kind name e (.removeInterest k n) =
      (e.1 && !decide (k = kind ∧ n = name), e.2) := by
  simp only [effect]
  split
  · simp [*]
  · simp [*]

/-- The accesses lead from one share to another, and subtract only from what is
there. -/
def Leads (kind : SubscriptionType) (name : Bytes) :
    List Access -> Bool × Nat -> Bool × Nat -> Prop
  | [], e, e' => e = e'
  | access :: rest, e, e' =>
      (access = .decrement kind name -> 0 < e.2) ∧
        Leads kind name rest (access.effect kind name e) e'

theorem Leads.append {kind : SubscriptionType} {name : Bytes}
    {as bs : List Access} {e e' e'' : Bool × Nat}
    (h : Leads kind name as e e') (h' : Leads kind name bs e' e'') :
    Leads kind name (as ++ bs) e e'' := by
  induction as generalizing e with
  | nil =>
      cases h
      exact h'
  | cons access as ih => exact ⟨h.1, ih h.2⟩

theorem leads_next {kind : SubscriptionType} {name : Bytes} {thread : ThreadId}
    {r : GlobalRegistry} (access : Access) {owed : List Access}
    {e e' : Bool × Nat} (h : Leads kind name owed e e') :
    Leads kind name ((access.perform thread r).2 ++ owed) e e' := by
  refine Leads.append ?_ h
  cases access with
  | decrement k n =>
      simp only [perform]
      split
      · exact ⟨by rintro ⟨⟩, rfl⟩
      · rfl
  | removeInterest k n =>
      simp only [perform]
      split
      · exact ⟨by rintro ⟨⟩, rfl⟩
      · rfl
  | increment k n => rfl
  | addInterest k n => rfl
  | deleteCount k n => rfl
  | deleteInterest k n => rfl

end Access

/-- The shares of the first `n` threads make up the registry. -/
structure Divided (r : GlobalRegistry) (n : Nat) (share : ThreadId -> Share) :
    Prop where
  interest : forall kind name v,
    v ∈ r.interested kind name <-> v < n ∧ (share v kind name).1 = true
  count : forall kind name,
    (r.counters kind).count name = ∑ v ∈ Finset.range n, (share v kind name).2

theorem divided_new (n : Nat) :
    Divided (.new n) n (fun _ _ _ => (false, 0)) where
  interest kind name v := by
    cases kind <;>
      simp [GlobalRegistry.new, GlobalRegistry.interested, Interests.threads]
  count kind name := by
    cases kind <;>
      simp [GlobalRegistry.new, GlobalRegistry.counters, Counters.count]

/-!
# What an access does to the maps
-/

namespace Counters

theorem count_increment (counters : Counters) (name name' : Bytes) :
    (counters.increment name).count name' =
      counters.count name' + if name = name' then 1 else 0 := by
  unfold count increment
  by_cases h : name = name'
  · subst h
    simp
  · simp [h, Ne.symm h]

theorem count_subtract (counters : Counters) (name name' : Bytes) :
    (counters.subtract name).1.count name' =
      counters.count name' - if name = name' then 1 else 0 := by
  unfold count subtract
  cases hlookup : counters.lookup name with
  | none =>
      by_cases h : name = name'
      · subst h
        simp [hlookup]
      · simp [h]
  | some count =>
      by_cases h : name = name'
      · subst h
        simp [hlookup]
      · simp [h, Ne.symm h]

theorem count_erase (counters : Counters) {name : Bytes}
    (hzero : counters.count name = 0) (name' : Bytes) :
    Counters.count (counters.erase name) name' = counters.count name' := by
  by_cases h : name' = name
  · subst h
    rw [hzero]
    simp [count]
  · simp [count, h]

end Counters

namespace Interests

theorem mem_threads_withdraw {interests : Interests} {name name' : Bytes}
    {thread thread' : ThreadId} :
    thread' ∈ (interests.withdraw name thread).1.threads name' <->
      thread' ∈ interests.threads name' ∧
        ¬ (name' = name ∧ thread' = thread) := by
  unfold withdraw threads
  cases hlookup : interests.lookup name with
  | none =>
      by_cases h : name' = name
      · subst h
        simp [hlookup]
      · simp [h]
  | some entry =>
      by_cases h : name' = name
      · subst h
        simp [hlookup]
      · simp [h]

theorem mem_threads_erase {interests : Interests} {name : Bytes}
    (hempty : forall thread, ¬ thread ∈ interests.threads name)
    {name' : Bytes} {thread : ThreadId} :
    thread ∈ Interests.threads (interests.erase name) name' <->
      thread ∈ interests.threads name' := by
  by_cases h : name' = name
  · subst h
    simp only [hempty, iff_false]
    simp [threads]
  · simp [threads, h]

end Interests

namespace GlobalRegistry

theorem interested_eq (r : GlobalRegistry) (kind : SubscriptionType)
    (name : Bytes) :
    r.interested kind name = (r.interests kind).threads name := by
  cases kind <;> rfl

@[simp] theorem interests_setInterests_self (r : GlobalRegistry)
    (kind : SubscriptionType) (interests : Interests) :
    (r.setInterests kind interests).interests kind = interests := by
  cases kind <;> rfl

theorem interests_setInterests_ne (r : GlobalRegistry)
    {kind kind' : SubscriptionType} (interests : Interests) (h : kind' ≠ kind) :
    (r.setInterests kind interests).interests kind' = r.interests kind' := by
  cases kind <;> cases kind' <;> first | rfl | exact absurd rfl h

@[simp] theorem interests_setCounters (r : GlobalRegistry)
    (kind kind' : SubscriptionType) (counters : Counters) :
    (r.setCounters kind counters).interests kind' = r.interests kind' := by
  cases kind <;> cases kind' <;> rfl

@[simp] theorem counters_setCounters_self (r : GlobalRegistry)
    (kind : SubscriptionType) (counters : Counters) :
    (r.setCounters kind counters).counters kind = counters := by
  cases kind <;> rfl

theorem counters_setCounters_ne (r : GlobalRegistry)
    {kind kind' : SubscriptionType} (counters : Counters) (h : kind' ≠ kind) :
    (r.setCounters kind counters).counters kind' = r.counters kind' := by
  cases kind <;> cases kind' <;> first | rfl | exact absurd rfl h

@[simp] theorem counters_setInterests (r : GlobalRegistry)
    (kind kind' : SubscriptionType) (interests : Interests) :
    (r.setInterests kind interests).counters kind' = r.counters kind' := by
  cases kind <;> cases kind' <;> rfl

theorem incrementSubscribers_eq (r : GlobalRegistry) (kind : SubscriptionType)
    (name : Bytes) :
    r.incrementSubscribers kind name =
      r.setCounters kind ((r.counters kind).increment name) := by
  cases kind <;> rfl

theorem addInterest_eq (r : GlobalRegistry) (kind : SubscriptionType)
    (name : Bytes) (thread : ThreadId) :
    r.addInterest kind name thread =
      r.setInterests kind ((r.interests kind).add name thread) := by
  cases kind <;> rfl

end GlobalRegistry

theorem sum_update {n : Nat} (f : Nat -> Nat) {u : Nat} (hu : u < n) (x : Nat) :
    (∑ v ∈ Finset.range n, Function.update f u x v) + f u =
      (∑ v ∈ Finset.range n, f v) + x := by
  have hmem := Finset.mem_range.mpr hu
  rw [← Finset.add_sum_erase _ _ hmem, ← Finset.add_sum_erase _ f hmem,
    Function.update_self]
  have hrest : ∑ v ∈ (Finset.range n).erase u, Function.update f u x v =
      ∑ v ∈ (Finset.range n).erase u, f v := by
    refine Finset.sum_congr rfl ?_
    intro v hv
    exact Function.update_of_ne (Finset.ne_of_mem_erase hv) x f
  omega

namespace Divided

variable {r r' : GlobalRegistry} {n : Nat} {share : ThreadId -> Share}

/-- Only the counter of one name changes, by what the share of one thread
changes. -/
theorem of_count (h : Divided r n share) {u : ThreadId} (hu : u < n)
    {e : SubscriptionType -> Bytes -> Nat}
    (hinterest : forall kind, r'.interests kind = r.interests kind)
    (hcount : forall kind name,
      (r'.counters kind).count name + (share u kind name).2 =
        (r.counters kind).count name + e kind name) :
    Divided r' n (Function.update share u
      fun kind name => ((share u kind name).1, e kind name)) where
  interest kind name v := by
    rw [GlobalRegistry.interested_eq, hinterest, ← GlobalRegistry.interested_eq,
      h.interest]
    by_cases hv : v = u
    · subst hv
      simp
    · simp [hv]
  count kind name := by
    have hsum : (∑ v ∈ Finset.range n, (Function.update share u
        (fun kind name => ((share u kind name).1, e kind name)) v kind name).2) +
          (share u kind name).2 =
        (∑ v ∈ Finset.range n, (share v kind name).2) + e kind name := by
      rw [← sum_update (fun v => (share v kind name).2) hu (e kind name)]
      refine congrArg (· + _) (Finset.sum_congr rfl ?_)
      intro v _
      by_cases hv : v = u
      · subst hv
        simp
      · simp [hv]
    have hold := h.count kind name
    have hnew := hcount kind name
    omega

theorem of_interest (h : Divided r n share) {u : ThreadId} (hu : u < n)
    {e : SubscriptionType -> Bytes -> Bool}
    (hcount : forall kind, r'.counters kind = r.counters kind)
    (hinterest : forall kind name v, v ∈ r'.interested kind name <->
      if v = u then e kind name = true else v ∈ r.interested kind name) :
    Divided r' n (Function.update share u
      fun kind name => (e kind name, (share u kind name).2)) where
  interest kind name v := by
    rw [hinterest, h.interest]
    by_cases hv : v = u
    · subst hv
      simp [hu]
    · simp [hv]
  count kind name := by
    rw [hcount, h.count]
    refine Finset.sum_congr rfl ?_
    intro v _
    by_cases hv : v = u
    · subst hv
      simp
    · simp [hv]

theorem of_setCounters (h : Divided r n share) {u : ThreadId} (hu : u < n)
    {k : SubscriptionType} {counters : Counters} {e : SubscriptionType -> Bytes -> Nat}
    (hother : forall kind name, kind ≠ k -> e kind name = (share u kind name).2)
    (hcount : forall name, counters.count name + (share u k name).2 =
      (r.counters k).count name + e k name) :
    Divided (r.setCounters k counters) n (Function.update share u
      fun kind name => ((share u kind name).1, e kind name)) := by
  refine h.of_count hu (GlobalRegistry.interests_setCounters r k · counters) ?_
  intro kind name
  by_cases hkind : kind = k
  · subst hkind
    rw [GlobalRegistry.counters_setCounters_self]
    exact hcount name
  · rw [GlobalRegistry.counters_setCounters_ne _ _ hkind, hother kind name hkind]

theorem of_setInterests (h : Divided r n share) {u : ThreadId} (hu : u < n)
    {k : SubscriptionType} {interests : Interests}
    {e : SubscriptionType -> Bytes -> Bool}
    (hother : forall kind name, kind ≠ k -> e kind name = (share u kind name).1)
    (hmember : forall name v, v ∈ interests.threads name <->
      if v = u then e k name = true else v ∈ (r.interests k).threads name) :
    Divided (r.setInterests k interests) n (Function.update share u
      fun kind name => (e kind name, (share u kind name).2)) := by
  refine h.of_interest hu (GlobalRegistry.counters_setInterests r k · interests) ?_
  intro kind name v
  rw [GlobalRegistry.interested_eq, h.interest]
  by_cases hkind : kind = k
  · subst hkind
    rw [GlobalRegistry.interests_setInterests_self, hmember,
      ← GlobalRegistry.interested_eq, h.interest]
  · rw [GlobalRegistry.interests_setInterests_ne _ _ hkind, hother kind name hkind,
      ← GlobalRegistry.interested_eq, h.interest]
    by_cases hv : v = u
    · subst hv
      rw [if_pos rfl, and_iff_right hu]
    · rw [if_neg hv]

theorem mem_threads_iff (h : Divided r n share) (k : SubscriptionType) (name : Bytes)
    (v : ThreadId) :
    v ∈ (r.interests k).threads name <-> v < n ∧ (share v k name).1 = true := by
  rw [← GlobalRegistry.interested_eq, h.interest]

end Divided

def Access.paid (access : Access) (e : Share) : Share :=
  fun kind name => access.effect kind name (e kind name)

namespace Divided

variable {r : GlobalRegistry} {n : Nat} {share : ThreadId -> Share} {u : ThreadId}

theorem increment (h : Divided r n share) (hu : u < n) (k : SubscriptionType)
    (name : Bytes) :
    Divided ((Access.increment k name).perform u r).1 n
      (Function.update share u ((Access.increment k name).paid (share u))) := by
  unfold Access.paid
  simp only [Access.effect_increment, Access.perform,
    GlobalRegistry.incrementSubscribers_eq]
  refine h.of_setCounters hu (fun kind' name' hkind => ?_) fun name' => ?_
  · rw [if_neg fun hk => hkind hk.1.symm, Nat.add_zero]
  · rw [Counters.count_increment]
    simp only [true_and]
    omega

theorem decrement (h : Divided r n share) (hu : u < n) (k : SubscriptionType)
    {name : Bytes} (hpositive : 0 < (share u k name).2) :
    Divided ((Access.decrement k name).perform u r).1 n
      (Function.update share u ((Access.decrement k name).paid (share u))) := by
  unfold Access.paid
  simp only [Access.effect_decrement, Access.perform]
  refine h.of_setCounters hu (fun kind' name' hkind => ?_) fun name' => ?_
  · rw [if_neg fun hk => hkind hk.1.symm, Nat.sub_zero]
  · have hle : (share u k name').2 <= (r.counters k).count name' := by
      rw [h.count]
      exact Finset.single_le_sum (f := fun v => (share v k name').2)
        (fun _ _ => Nat.zero_le _) (Finset.mem_range.mpr hu)
    rw [Counters.count_subtract]
    simp only [true_and]
    split_ifs with hname
    · subst hname
      omega
    · omega

theorem deleteCount (h : Divided r n share) (hu : u < n) {k : SubscriptionType}
    {name : Bytes} (hzero : (r.counters k).count name = 0) :
    Divided ((Access.deleteCount k name).perform u r).1 n
      (Function.update share u ((Access.deleteCount k name).paid (share u))) :=
  h.of_setCounters hu (fun _ _ _ => rfl) fun name' => by
    rw [Counters.count_erase _ hzero]

theorem addInterest (h : Divided r n share) (hu : u < n) (k : SubscriptionType)
    (name : Bytes) :
    Divided ((Access.addInterest k name).perform u r).1 n
      (Function.update share u ((Access.addInterest k name).paid (share u))) := by
  unfold Access.paid
  simp only [Access.effect_addInterest, Access.perform, GlobalRegistry.addInterest_eq]
  refine h.of_setInterests hu (fun kind' name' hkind => ?_) fun name' v => ?_
  · simp [Ne.symm hkind]
  · rw [Interests.mem_threads_add, h.mem_threads_iff]
    by_cases hv : v = u
    · subst hv
      simp [hu, @eq_comm _ name]
    · simp [hv]

theorem removeInterest (h : Divided r n share) (hu : u < n) (k : SubscriptionType)
    (name : Bytes) :
    Divided ((Access.removeInterest k name).perform u r).1 n
      (Function.update share u ((Access.removeInterest k name).paid (share u))) := by
  unfold Access.paid
  simp only [Access.effect_removeInterest, Access.perform]
  refine h.of_setInterests hu (fun kind' name' hkind => ?_) fun name' v => ?_
  · simp [Ne.symm hkind]
  · rw [Interests.mem_threads_withdraw, h.mem_threads_iff]
    by_cases hv : v = u
    · subst hv
      simp [hu, @eq_comm _ name]
    · simp [hv]

theorem deleteInterest (h : Divided r n share) (hu : u < n) {k : SubscriptionType}
    {name : Bytes} (hempty : forall v, ¬ v ∈ (r.interests k).threads name) :
    Divided ((Access.deleteInterest k name).perform u r).1 n
      (Function.update share u ((Access.deleteInterest k name).paid (share u))) := by
  refine h.of_setInterests hu (fun _ _ _ => rfl) fun name' v => ?_
  rw [Interests.mem_threads_erase hempty, h.mem_threads_iff]
  by_cases hv : v = u
  · subst hv
    rw [if_pos rfl, and_iff_right hu]
  · rw [if_neg hv]

end Divided

theorem divided_perform {r : GlobalRegistry} {n : Nat}
    {share : ThreadId -> Share} (h : Divided r n share) {u : ThreadId}
    (hu : u < n) {access : Access} (htimely : access.timely r = true)
    (hpositive : forall kind name, access = .decrement kind name ->
      0 < (share u kind name).2) :
    Divided (access.perform u r).1 n
      (Function.update share u (access.paid (share u))) := by
  cases access with
  | increment k name => exact h.increment hu k name
  | decrement k name => exact h.decrement hu k (hpositive k name rfl)
  | deleteCount k name => exact h.deleteCount hu (eq_of_beq htimely)
  | addInterest k name => exact h.addInterest hu k name
  | removeInterest k name => exact h.removeInterest hu k name
  | deleteInterest k name =>
      refine h.deleteInterest hu fun v => ?_
      rw [← GlobalRegistry.interested_eq]
      exact ListSet.isEmpty_iff.mp htimely v

/-!
# What an operation owes
-/

namespace ThreadLocalPubSub

/-- The share that a thread ought to have. -/
def due (m : ThreadLocalPubSub) : Share :=
  fun kind name => (decide (name ∈ (m.table kind).subs),
    ((m.table kind).subscribers name).length)

def Pays (m : ThreadLocalPubSub)
    (trace : List Access × ThreadLocalPubSub) : Prop :=
  forall kind name,
    Access.Leads kind name trace.1 (m.due kind name) (trace.2.due kind name)

theorem Pays.trans {m : ThreadLocalPubSub}
    {trace trace' : List Access × ThreadLocalPubSub} (h : m.Pays trace)
    (h' : trace.2.Pays trace') : m.Pays (trace.1 ++ trace'.1, trace'.2) :=
  fun kind name => (h kind name).append (h' kind name)

theorem pays_of_due_eq {m m' : ThreadLocalPubSub} (h : m'.due = m.due) :
    m.Pays ([], m') := by
  intro kind name
  exact (congrFun (congrFun h kind) name).symm

theorem known_of_subscribed {m : ThreadLocalPubSub} {kind : SubscriptionType}
    {connId : ConnectionId} {name : Bytes}
    (h : connId ∈ (m.table kind).subscribers name) :
    name ∈ (m.table kind).subs := by
  rw [← AList.lookup_isSome]
  cases hlookup : (m.table kind).subs.lookup name with
  | none =>
      rw [SubscriptionTable.subscribers, hlookup] at h
      cases h
  | some subs => rfl

theorem due_enter (m : ThreadLocalPubSub) (kind kind' : SubscriptionType)
    (connId : ConnectionId) (name name' : Bytes) :
    (enter kind connId name m).due kind' name' =
      if kind = kind' ∧ name = name' then
        (true, (m.due kind' name').2 + 1)
      else m.due kind' name' := by
  unfold due
  by_cases hkind : kind' = kind
  · subst hkind
    rw [table_enter_self, SubscriptionTable.subscribers_add]
    by_cases hname : name' = name
    · subst hname
      simp [SubscriptionTable.mem_subs_add]
    · simp [SubscriptionTable.mem_subs_add, hname, Ne.symm hname]
  · rw [table_enter_ne _ _ _ hkind, if_neg (fun hk => hkind hk.1.symm)]

theorem subscribeTrace_pays (m : ThreadLocalPubSub) (kind : SubscriptionType)
    (connId : ConnectionId) (name : Bytes) :
    m.Pays (subscribeTrace kind connId m name) := by
  intro kind' name'
  unfold subscribeTrace
  by_cases halready : connId ∈ (m.table kind).subscribers name
  · simp [halready, known_of_subscribed halready, Access.Leads]
  · by_cases hkey : kind = kind' ∧ name = name'
    · rcases hkey with ⟨rfl, rfl⟩
      by_cases hknown : name ∈ (m.table kind).subs
      · simp [halready, hknown, Access.Leads, Access.effect, due_enter]
        simp [due, hknown]
      · simp [halready, hknown, Access.Leads, Access.effect, due_enter]
    · by_cases hknown : name ∈ (m.table kind).subs
      · simp [halready, hknown, Access.Leads, Access.effect, due_enter, hkey]
      · simp [halready, hknown, Access.Leads, Access.effect, due_enter, hkey]

theorem due_leave {m : ThreadLocalPubSub} {F B : Subscriptions}
    (h : Holds m F B) (kind kind' : SubscriptionType) (connId : ConnectionId)
    (name name' : Bytes) :
    (leaveTrace kind connId m name).2.due kind' name' =
      if kind = kind' ∧ name = name' then
        ((m.due kind' name').1 && !(m.table kind).leavesEmpty connId name,
          (m.due kind' name').2 -
            if connId ∈ (m.table kind).subscribers name then 1 else 0)
      else m.due kind' name' := by
  have hnodup := (h.table kind).subscribers_nodup name
  unfold due leaveTrace
  simp only
  by_cases hkind : kind' = kind
  · subst hkind
    rw [table_setTable_self, SubscriptionTable.subscribers_leave]
    by_cases hname : name' = name
    · subst hname
      have hlength : (((m.table kind').subscribers name').filter
          (· ≠ connId)).length = ((m.table kind').subscribers name').length -
            if connId ∈ (m.table kind').subscribers name' then 1 else 0 := by
        have herase := hnodup.erase_eq_filter connId
        rw [show ((m.table kind').subscribers name').filter (· ≠ connId) =
            ((m.table kind').subscribers name').erase connId by
          rw [herase]; congr 1; funext v; simp [bne, beq_eq_decide],
          List.length_erase]
        split <;> rfl
      simp only [if_true, and_self, hlength, Prod.mk.injEq, and_true]
      rw [Bool.eq_iff_iff]
      simp [SubscriptionTable.mem_subs_leave]
    · have hne : ¬ name = name' := fun heq => hname heq.symm
      simp only [if_neg hname, hne, and_false, if_false, Prod.mk.injEq, and_true]
      rw [Bool.eq_iff_iff]
      simp [SubscriptionTable.mem_subs_leave, hname]
  · rw [table_setTable_ne _ _ hkind, table_dropFromTrie,
      if_neg (fun hk => hkind hk.1.symm)]

theorem leaveTrace_pays {m : ThreadLocalPubSub} {F B : Subscriptions}
    (h : Holds m F B) (kind : SubscriptionType) (connId : ConnectionId)
    (name : Bytes) : m.Pays (leaveTrace kind connId m name) := by
  intro kind' name'
  rw [due_leave h]
  unfold leaveTrace
  by_cases hmem : connId ∈ (m.table kind).subscribers name
  · have hpos : 0 < (m.due kind name).2 := List.length_pos_of_mem hmem
    by_cases hkey : kind = kind' ∧ name = name'
    · rcases hkey with ⟨rfl, rfl⟩
      by_cases hempty : (m.table kind).leavesEmpty connId name
      · simp [hmem, hempty, hpos, Access.Leads, Access.effect]
      · simp [hmem, hempty, hpos, Access.Leads, Access.effect]
    · by_cases hempty : (m.table kind).leavesEmpty connId name
      · simp [hmem, hempty, Access.Leads, Access.effect, hkey]
      · simp [hmem, hempty, Access.Leads, Access.effect, hkey]
  · have hempty : (m.table kind).leavesEmpty connId name = false := by
      unfold SubscriptionTable.leavesEmpty
      cases hlookup : (m.table kind).subs.lookup name with
      | none => rfl
      | some subs =>
          rw [SubscriptionTable.subscribers, hlookup, Option.getD_some] at hmem
          have hfilter : subs.filter (· ≠ connId) = subs := by
            rw [List.filter_eq_self]
            intro v hv
            have hne : v ≠ connId := fun heq => hmem (heq ▸ hv)
            exact decide_eq_true hne
          simp only [hfilter, decide_eq_false_iff_not]
          exact (h.table kind).inhabited name subs hlookup
    simp [hmem, hempty, Access.Leads]

theorem traceAll_pays {trace : ThreadLocalPubSub -> Bytes ->
      List Access × ThreadLocalPubSub} (Q : ThreadLocalPubSub -> Prop)
    (hstep : forall m name, Q m -> Q (trace m name).2 ∧ m.Pays (trace m name))
    {m : ThreadLocalPubSub} (hm : Q m) (names : List Bytes) :
    m.Pays (traceAll trace m names) := by
  induction names generalizing m with
  | nil => exact fun _ _ => rfl
  | cons name names ih =>
      rcases hstep m name hm with ⟨hkept, hpays⟩
      exact hpays.trans (ih hkept)

theorem holds_of_traced {st st' : PubSubState}
    {trace : List Access × ThreadLocalPubSub} {F B : Subscriptions}
    (htraced : Traced st trace st') (h : Holds st'.1 F B) :
    Holds trace.2 F B := by
  unfold Traced at htraced
  rw [htraced] at h
  exact h

theorem subscribeAll_pays {m : ThreadLocalPubSub} {R : Subscriptions}
    (h : Holds m R R) (kind : SubscriptionType) (connId : ConnectionId)
    (names : List Bytes) :
    m.Pays (traceAll (subscribeTrace kind connId) m names) := by
  refine traceAll_pays (fun m => exists R, Holds m R R) ?_ ⟨R, h⟩ names
  rintro m name ⟨R, hR⟩
  exact ⟨⟨_, holds_of_traced (subscribeName_traced kind connId (m, .new 0) name)
    (subscribeName_holds hR kind connId name)⟩,
    subscribeTrace_pays m kind connId name⟩

theorem due_setTable_of_subs {m : ThreadLocalPubSub} {kind : SubscriptionType}
    {t : SubscriptionTable} (h : t.subs = (m.table kind).subs) :
    (m.setTable kind t).due = m.due := by
  funext kind' name
  unfold due SubscriptionTable.subscribers
  by_cases hkind : kind' = kind
  · subst hkind
    rw [table_setTable_self, h]
  · rw [table_setTable_ne _ _ hkind]

theorem unsubscribeGivenTrace_pays {m : ThreadLocalPubSub} {R : Subscriptions}
    (h : Holds m R R) (kind : SubscriptionType) (connId : ConnectionId)
    (name : Bytes) : m.Pays (unsubscribeGivenTrace kind connId m name) := by
  have hforget := pays_of_due_eq (due_setTable_of_subs
    (SubscriptionTable.subs_forgetName
      ((leaveTrace kind connId m name).2.table kind) connId name))
  have hboth := (leaveTrace_pays h kind connId name).trans hforget
  rw [List.append_nil] at hboth
  exact hboth

theorem unsubscribeTrace_pays {m : ThreadLocalPubSub} {R : Subscriptions}
    (h : Holds m R R) (kind : SubscriptionType) (connId : ConnectionId)
    (names : Option (List Bytes)) :
    m.Pays (unsubscribeTrace kind m connId names) := by
  cases names with
  | some names =>
      refine traceAll_pays (fun m => exists R, Holds m R R) ?_ ⟨R, h⟩ names
      rintro m name ⟨R, hR⟩
      exact ⟨⟨_, holds_of_traced
        (unsubscribeGiven_traced kind connId (m, .new 0) name)
        (unsubscribeGiven_holds hR kind connId name)⟩,
        unsubscribeGivenTrace_pays hR kind connId name⟩
  | none =>
      unfold unsubscribeTrace
      cases (m.table kind).names.lookup connId with
      | none => exact fun _ _ => rfl
      | some names =>
          have hforget := holds_setTable h kind
            ((h.table kind).forgetConnection connId)
          have hdue := pays_of_due_eq (due_setTable_of_subs
            (SubscriptionTable.subs_forgetConnection (m.table kind) connId))
          refine hdue.trans (traceAll_pays (fun m => exists F B, Holds m F B) ?_
            ⟨_, _, hforget⟩ names)
          rintro m name ⟨F, B, hFB⟩
          exact ⟨⟨_, _, holds_of_traced
            (leaveName_traced kind connId (m, .new 0) name)
            (leaveName_holds hFB kind connId name)⟩,
            leaveTrace_pays hFB kind connId name⟩

theorem unsubscribeTrace_holds {m : ThreadLocalPubSub} {R : Subscriptions}
    (h : Holds m R R) (kind : SubscriptionType) (connId : ConnectionId)
    (names : Option (List Bytes)) :
    exists R', Holds (unsubscribeTrace kind m connId names).2 R' R' :=
  ⟨_, holds_of_traced (unsubscribeNames_traced kind (m, .new 0) connId names)
    (unsubscribeNames_holds kind connId names h)⟩

end ThreadLocalPubSub

theorem ClusterOp.trace_pays (op : ClusterOp) {m : ThreadLocalPubSub}
    {R : Subscriptions} (h : Holds m R R) : m.Pays (op.trace m) := by
  cases op with
  | subscribe connId channels =>
      exact ThreadLocalPubSub.subscribeAll_pays h .channel connId channels
  | unsubscribe connId channels =>
      exact ThreadLocalPubSub.unsubscribeTrace_pays h .channel connId channels
  | psubscribe connId patterns =>
      exact ThreadLocalPubSub.subscribeAll_pays h .pattern connId patterns
  | punsubscribe connId patterns =>
      exact ThreadLocalPubSub.unsubscribeTrace_pays h .pattern connId patterns
  | connectionDropped connId =>
      rcases ThreadLocalPubSub.unsubscribeTrace_holds h .channel connId none with
        ⟨R', h'⟩
      exact (ThreadLocalPubSub.unsubscribeTrace_pays h .channel connId none).trans
        (ThreadLocalPubSub.unsubscribeTrace_pays h' .pattern connId none)
  | publish channel message => exact fun _ _ => rfl
  | processInbox => exact fun _ _ => rfl

theorem ClusterOp.trace_holds (op : ClusterOp) {m : ThreadLocalPubSub}
    {R : Subscriptions} (h : Holds m R R) :
    exists R', Holds (op.trace m).2 R' R' := by
  have hperform : Holds (op.perform (m, .new 0)).1 _ _ := op.perform_holds h
  rw [(op.perform_traced (m, .new 0)).1] at hperform
  exact ⟨_, hperform⟩

theorem ClusterOp.threadId_trace (op : ClusterOp) (m : ThreadLocalPubSub) :
    (op.trace m).2.threadId = m.threadId := by
  rw [← (op.perform_traced (m, .new 0)).1]
  exact (op.perform_settled (m, .new 0)).threadId

/-!
# The invariant of all interleavings
-/

namespace Interleaved

/-- The shares make up the registry, and what every thread still has to do makes
its share what it ought to be. -/
structure Balanced (s : Interleaved) (share : ThreadId -> Share) : Prop where
  divided : Divided s.registry s.workers.length share
  threadId : forall (u : ThreadId) (m : ThreadLocalPubSub)
    (owed : List Access), s.workers[u]? = some (m, owed) -> m.threadId = u
  holds : forall (u : ThreadId) (m : ThreadLocalPubSub) (owed : List Access),
    s.workers[u]? = some (m, owed) -> exists R, Holds m R R
  owes : forall (u : ThreadId) (m : ThreadLocalPubSub) (owed : List Access),
    s.workers[u]? = some (m, owed) -> forall kind name,
      Access.Leads kind name owed (share u kind name) (m.due kind name)

theorem balanced_new (n : Nat) :
    Balanced (new n) (fun _ _ _ => (false, 0)) := by
  have hworker : forall (u : ThreadId) (m : ThreadLocalPubSub)
      (owed : List Access), (new n).workers[u]? = some (m, owed) ->
      m = .new u ∧ owed = [] := by
    intro u m owed h
    simp only [new, List.getElem?_map, Option.map_eq_some_iff] at h
    rcases h with ⟨v, hv, heq⟩
    rcases List.getElem?_eq_some_iff.mp hv with ⟨_, hget⟩
    rw [List.getElem_range] at hget
    cases heq
    rw [hget]
    exact ⟨rfl, rfl⟩
  constructor
  · have hlength : (new n).workers.length = n := by
      simp [new]
    rw [hlength]
    exact divided_new n
  · intro u m owed h
    rw [(hworker u m owed h).1]
    rfl
  · intro u m owed h
    rw [(hworker u m owed h).1]
    exact ⟨_, holds_new u⟩
  · intro u m owed h kind name
    rcases hworker u m owed h with ⟨rfl, rfl⟩
    cases kind <;> rfl

theorem worker_set {workers : List (ThreadLocalPubSub × List Access)}
    {u v : ThreadId} {worker worker' : ThreadLocalPubSub × List Access}
    (h : (workers.set u worker)[v]? = some worker') :
    v = u ∧ worker' = worker ∨ v ≠ u ∧ workers[v]? = some worker' := by
  by_cases hv : u = v
  · subst hv
    rw [List.getElem?_set] at h
    split at h
    · split at h
      · injection h with h
        exact Or.inl ⟨rfl, h.symm⟩
      · cases h
    · exact absurd rfl ‹_›
  · rw [List.getElem?_set_ne hv] at h
    exact Or.inr ⟨Ne.symm hv, h⟩

theorem balanced_begin {s : Interleaved} {share : ThreadId -> Share}
    (h : Balanced s share) {u : ThreadId} {m : ThreadLocalPubSub}
    (hu : s.workers[u]? = some (m, [])) (op : ClusterOp) :
    Balanced { s with
      workers := s.workers.set u ((op.trace m).2, (op.trace m).1) } share := by
  rcases h.holds u m [] hu with ⟨R, hR⟩
  constructor
  · rw [List.length_set]
    exact h.divided
  · intro v m' owed hv
    rcases worker_set hv with ⟨rfl, heq⟩ | ⟨_, hv⟩
    · cases heq
      rw [op.threadId_trace]
      exact h.threadId v m [] hu
    · exact h.threadId v m' owed hv
  · intro v m' owed hv
    rcases worker_set hv with ⟨rfl, heq⟩ | ⟨_, hv⟩
    · cases heq
      exact op.trace_holds hR
    · exact h.holds v m' owed hv
  · intro v m' owed hv kind name
    rcases worker_set hv with ⟨rfl, heq⟩ | ⟨_, hv⟩
    · cases heq
      rw [show share v kind name = m.due kind name from h.owes v m [] hu kind name]
      exact op.trace_pays hR kind name
    · exact h.owes v m' owed hv kind name

theorem balanced_access {s : Interleaved} {share : ThreadId -> Share}
    (h : Balanced s share) {u : ThreadId} {m : ThreadLocalPubSub}
    {access : Access} {owed : List Access}
    (hu : s.workers[u]? = some (m, access :: owed))
    (htimely : access.timely s.registry = true) :
    Balanced
      { registry := (access.perform u s.registry).1
        workers := s.workers.set u
          (m, (access.perform u s.registry).2 ++ owed) }
      (Function.update share u
        fun kind name => access.effect kind name (share u kind name)) := by
  rcases List.getElem?_eq_some_iff.mp hu with ⟨hlt, _⟩
  constructor
  · rw [List.length_set]
    refine divided_perform h.divided hlt htimely ?_
    rintro kind name rfl
    exact (h.owes u m _ hu kind name).1 rfl
  · intro v m' owed' hv
    rcases worker_set hv with ⟨rfl, heq⟩ | ⟨_, hv⟩
    · cases heq
      exact h.threadId v m _ hu
    · exact h.threadId v m' owed' hv
  · intro v m' owed' hv
    rcases worker_set hv with ⟨rfl, heq⟩ | ⟨_, hv⟩
    · cases heq
      exact h.holds v m _ hu
    · exact h.holds v m' owed' hv
  · intro v m' owed' hv kind name
    rcases worker_set hv with ⟨rfl, heq⟩ | ⟨hne, hv⟩
    · cases heq
      rw [Function.update_self]
      exact Access.leads_next access (h.owes v m _ hu kind name).2
    · rw [Function.update_of_ne hne]
      exact h.owes v m' owed' hv kind name

theorem balanced_step {s : Interleaved} {share : ThreadId -> Share}
    (h : Balanced s share) {turn : ThreadId × Turn}
    (htimely : s.timelyTurn turn = true) : exists share', Balanced (s.step turn) share' := by
  rcases turn with ⟨u, turn⟩
  unfold timelyTurn at htimely
  unfold step
  cases hu : s.workers[u]? with
  | none => exact ⟨share, h⟩
  | some worker =>
      rcases worker with ⟨m, owed⟩
      cases turn with
      | begin op =>
          cases owed with
          | nil => exact ⟨share, balanced_begin h hu op⟩
          | cons access owed => exact ⟨share, h⟩
      | access =>
          cases owed with
          | nil => exact ⟨share, h⟩
          | cons access owed =>
              simp only [hu] at htimely
              exact ⟨_, balanced_access h hu htimely⟩

theorem balanced_run {s : Interleaved} {share : ThreadId -> Share}
    (h : Balanced s share) {turns : List (ThreadId × Turn)}
    (htimely : s.timelyRun turns = true) :
    exists share', Balanced (s.run turns) share' := by
  induction turns generalizing s share with
  | nil => exact ⟨share, h⟩
  | cons turn turns ih =>
      rw [timelyRun, Bool.and_eq_true] at htimely
      rcases balanced_step h htimely.1 with ⟨share', h'⟩
      exact ih h' htimely.2

/-!
# No lost interest
-/

theorem sum_getElem (workers : List (ThreadLocalPubSub × List Access))
    (f : ThreadLocalPubSub × List Access -> Nat) (share : Nat -> Nat)
    (h : forall (u : Nat) worker, workers[u]? = some worker ->
      share u = f worker) :
    ∑ u ∈ Finset.range workers.length, share u = (workers.map f).sum := by
  induction workers generalizing share with
  | nil => rfl
  | cons worker workers ih =>
      rw [List.length_cons, Finset.sum_range_succ', List.map_cons,
        List.sum_cons, ih (fun u => share (u + 1)) (fun u => h (u + 1)),
        h 0 worker rfl, Nat.add_comm]

theorem agreement_of_balanced {s : Interleaved} {share : ThreadId -> Share}
    (h : Balanced s share) (hcomplete : s.Complete) (kind : SubscriptionType)
    (name : Bytes) :
    (forall u, u ∈ s.registry.interested kind name <->
      exists worker, s.workers[u]? = some worker ∧
        name ∈ (worker.1.table kind).subs) ∧
    (s.registry.counters kind).count name = s.subscriptions kind name := by
  have hshare : forall (u : ThreadId) worker, s.workers[u]? = some worker ->
      share u kind name = worker.1.due kind name := by
    rintro u ⟨m, owed⟩ hu
    have howes := h.owes u m owed hu kind name
    rw [show owed = [] from hcomplete _ (List.mem_of_getElem? hu)] at howes
    exact howes
  constructor
  · intro u
    rw [h.divided.interest]
    constructor
    · rintro ⟨hlt, hmem⟩
      have hu := List.getElem?_eq_getElem hlt
      rw [hshare u _ hu] at hmem
      exact ⟨_, hu, of_decide_eq_true hmem⟩
    · rintro ⟨worker, hu, hmem⟩
      rcases List.getElem?_eq_some_iff.mp hu with ⟨hlt, _⟩
      rw [hshare u worker hu]
      exact ⟨hlt, decide_eq_true hmem⟩
  · rw [h.divided.count]
    refine sum_getElem s.workers _ _ ?_
    intro u worker hu
    rw [hshare u worker hu]
    rfl

/-- If no entry is deleted after another thread has entered the name again, no
interest is lost and the counts are right whenever all operations are
complete. -/
theorem no_lost_interest (numThreads : Nat) (turns : List (ThreadId × Turn))
    (htimely : (new numThreads).timelyRun turns = true)
    (hcomplete : ((new numThreads).run turns).Complete) :
    let s := (new numThreads).run turns
    forall kind name,
      (forall u worker, s.workers[u]? = some worker ->
        (worker.1.table kind).subscribers name ≠ [] ->
          u ∈ s.registry.interested kind name) ∧
      (s.registry.counters kind).count name = s.subscriptions kind name := by
  intro s kind name
  rcases balanced_run (balanced_new numThreads) htimely with ⟨share, h⟩
  rcases agreement_of_balanced h hcomplete kind name with ⟨hinterest, hcount⟩
  refine ⟨?_, hcount⟩
  intro u worker hu hsubs
  refine (hinterest u).mpr ⟨worker, hu, ?_⟩
  rcases List.exists_mem_of_ne_nil _ hsubs with ⟨connId, hmem⟩
  exact ThreadLocalPubSub.known_of_subscribed hmem

/-- A thread with two connections that come and go, and another that subscribes
once the entries are deleted. -/
theorem no_lost_interest_in_turn :
    let turns : List (ThreadId × Turn) :=
      [(0, .begin (.subscribe 1 [[99]])), (0, .access), (0, .access),
        (0, .begin (.unsubscribe 1 none)), (0, .access), (0, .access),
        (1, .begin (.psubscribe 2 [[42]])), (1, .access), (0, .access),
        (0, .access), (1, .access)]
    let s := (new 2).run turns
    forall kind name,
      (forall u worker, s.workers[u]? = some worker ->
        (worker.1.table kind).subscribers name ≠ [] ->
          u ∈ s.registry.interested kind name) ∧
      (s.registry.counters kind).count name = s.subscriptions kind name :=
  no_lost_interest 2 _ (by decide) (by decide)

/-- Thread 1 subscribes after thread 0 has found the entry empty and before it
deletes it. -/
def subscribedInBetween : List (ThreadId × Turn) :=
  [(0, .begin (.subscribe 1 [[99]])), (0, .access), (0, .access),
    (0, .begin (.unsubscribe 1 none)), (0, .access), (0, .access),
    (0, .access), (1, .begin (.subscribe 2 [[99]])), (1, .access),
    (1, .access), (0, .access)]

/-- The new subscriber is not in the interest set any more. -/
theorem interest_lost :
    ¬ forall (numThreads : Nat) (turns : List (ThreadId × Turn)),
      ((new numThreads).run turns).Complete ->
      let s := (new numThreads).run turns
      forall kind name,
        (forall u worker, s.workers[u]? = some worker ->
          (worker.1.table kind).subscribers name ≠ [] ->
            u ∈ s.registry.interested kind name) ∧
        (s.registry.counters kind).count name = s.subscriptions kind name := by
  intro h
  have hlost := (h 2 subscribedInBetween (by decide) .channel [99]).1 1 _ rfl
    (by decide)
  revert hlost
  decide

end Interleaved

end FeoxServer
