import FeoxServer.Network.OpenConnections

/-!
# The number of active connections

A worker that ends, by itself or because it fails, leaves its connections in the
number of active connections.  Otherwise the number is exact.
-/

namespace FeoxServer

open Foundation

theorem sum_map_set {α : Type} (f : α -> Nat) {l : List α} {i : Nat} {a b : α}
    (h : l[i]? = some a) :
    ((l.set i b).map f).sum + f a = (l.map f).sum + f b := by
  induction l generalizing i with
  | nil => cases h
  | cons x l ih =>
      cases i with
      | zero =>
          cases h
          simp only [List.set_cons_zero, List.map_cons, List.sum_cons]
          omega
      | succ i =>
          have hrest := ih h
          simp only [List.set_cons_succ, List.map_cons, List.sum_cons]
          omega

namespace Worker

def load (w : Worker) : Nat :=
  w.connections.keys.length

theorem load_deliverAll (writes : List (List SocketWrite)) (deliveries : List Delivery)
    (w : Worker) : (w.deliverAll writes deliveries).load = w.load := by
  induction deliveries generalizing w writes with
  | nil => rfl
  | cons d deliveries ih =>
      refine (ih _ _).trans ?_
      unfold deliver load
      split
      · rfl
      · split
        · rfl
        · exact congrArg List.length (AList.keys_replace _ _ _)

end Worker

namespace Server

variable {S : FeoxStore} {P : Platform} {fuel : Nat}

/-- How many connections are open. -/
def openCount (s : Server S P) : Nat :=
  (s.workers.map Worker.load).sum

def abandons (s : Server S P) : ServerInput -> Nat
  | .turn u .stop | .turn u .fail => (s.workers[u]?.map Worker.load).getD 0
  | _ => 0

/-- How many connections a run has dropped without counting them out. -/
def abandoned (fuel : Nat) : List ServerInput -> Server S P -> Nat
  | [], _ => 0
  | input :: inputs, s =>
      s.abandons input + ((s.step fuel input).map (abandoned fuel inputs)).getD 0

theorem openCount_set {s s' : Server S P} {u : ThreadId} {w w' : Worker}
    (hw : s.workers[u]? = some w) (hs' : s'.workers = s.workers.set u w') :
    s'.openCount + w.load = s.openCount + w'.load := by
  unfold openCount
  rw [hs']
  exact sum_map_set Worker.load hw

theorem openCount_kept {s s' : Server S P} {u : ThreadId} {w w' : Worker}
    (hw : s.workers[u]? = some w) (hs' : s'.workers = s.workers.set u w')
    (hload : w'.load = w.load) : s'.openCount = s.openCount := by
  have hcount := openCount_set hw hs'
  omega

theorem openCount_inbox {s : Server S P} {u : ThreadId} {w : Worker}
    (hw : s.workers[u]? = some w) (delivered : List (List SocketWrite)) :
    (s.inbox u w delivered).openCount = s.openCount :=
  openCount_kept hw rfl (Worker.load_deliverAll delivered _ w)

theorem openCount_deliverTo (s : Server S P) (u : ThreadId)
    (writes : List (List SocketWrite)) (deliveries : List Delivery) :
    (s.deliverTo u writes deliveries).openCount = s.openCount := by
  unfold deliverTo
  split
  · rename_i w hw
    exact openCount_kept hw rfl (Worker.load_deliverAll writes deliveries w)
  · rfl

theorem activeConnections_deliverTo (s : Server S P) (u : ThreadId)
    (writes : List (List SocketWrite)) (deliveries : List Delivery) :
    (s.deliverTo u writes deliveries).activeConnections = s.activeConnections := by
  unfold deliverTo
  split <;> rfl

theorem openCount_accept {s : Server S P} (h : s.Orderly) {u : ThreadId} {w : Worker}
    (hw : s.workers[u]? = some w) (addr : Option String) (now : UInt64) :
    (s.accept u w addr now).openCount = s.openCount + 1 := by
  have hfree : w.nextToken ∉ w.connections.keys := by
    intro hmem
    rcases Option.isSome_iff_exists.mp
      (AList.lookup_isSome.mpr (AList.mem_keys.mpr hmem)) with ⟨cl, hcl⟩
    exact Nat.lt_irrefl _ ((h.tokens u w hw).2 w.nextToken cl hcl).2
  have hcount := @openCount_set _ _ s (s.accept u w addr now) u w _ hw rfl
  simp only [Worker.load, AList.keys_insert, List.erase_of_not_mem hfree,
    List.length_cons] at hcount
  omega

theorem openCount_settle {s : Server S P} {u : ThreadId} {w : Worker} {token : Token}
    {cl : Client} (hw : s.workers[u]? = some w)
    (hcl : w.connections.lookup token = some cl) (r : Reading S P) :
    (s.settle u w token r).openCount + (if r.shouldClose then 1 else 0) =
      s.openCount := by
  have hmem : token ∈ w.connections.keys := by
    rw [← AList.mem_keys, ← AList.lookup_isSome, hcl]
    rfl
  unfold settle
  cases r.shouldClose with
  | true =>
      have hcount := @openCount_set _ _ s
        { s.leave u { w with connections := w.connections.erase token }
            (r.shared.close r.client.connection).2 with
          activeConnections := s.activeConnections - 1 } u w _ hw rfl
      have hsome := List.length_pos_of_mem hmem
      simp only [Worker.load, AList.keys_erase, List.length_erase_of_mem hmem]
        at hcount
      simp only [if_true]
      omega
  | false =>
      simp only [Bool.false_eq_true, if_false, Nat.add_zero]
      exact openCount_kept hw rfl
        (congrArg List.length (AList.keys_replace token r.client w.connections))

theorem activeConnections_settle (s : Server S P) (u : ThreadId) (w : Worker)
    (token : Token) (r : Reading S P) :
    (s.settle u w token r).activeConnections =
      s.activeConnections - (if r.shouldClose then 1 else 0) := by
  unfold settle
  cases r.shouldClose with
  | true => rfl
  | false => exact (UInt64.sub_zero _).symm

theorem openCount_ended {s s' : Server S P} {u : ThreadId} {w w' : Worker}
    (hw : s.workers[u]? = some w) (hs' : s'.workers = s.workers.set u w')
    (hempty : w'.connections = ∅) : s'.openCount + w.load = s.openCount := by
  have hcount := openCount_set hw hs'
  have hload : w'.load = 0 := by
    rw [Worker.load, hempty]
    rfl
  omega

/-- The number counts what is open and what has been dropped without being counted
out. -/
theorem active_step {s s' : Server S P} {input : ServerInput} {k : Nat}
    (h : s.Orderly) (hactive : s.activeConnections = UInt64.ofNat (s.openCount + k))
    (hstep : s.step fuel input = some s') :
    s'.activeConnections =
      UInt64.ofNat (s'.openCount + (k + s.abandons input)) := by
  cases input with
  | shutdown =>
      cases hstep
      exact hactive
  | turn u turn =>
      rcases step_turn hstep with ⟨w, hw, _, hturn⟩
      cases turn with
      | inbox delivered =>
          cases hturn
          rw [openCount_inbox hw]
          exact hactive
      | accept addr now =>
          cases hturn
          rw [openCount_accept h hw, Nat.add_right_comm, UInt64.ofNat_add]
          exact congrArg (· + 1) hactive
      | ready token readiness =>
          rcases ready_cases hturn with ⟨_, rfl⟩ | ⟨cl, r, hcl, _, rfl⟩
          · exact hactive
          · have hcount := openCount_settle hw hcl r
            rw [activeConnections_deliverTo, openCount_deliverTo,
              activeConnections_settle, hactive, ← hcount]
            change _ = UInt64.ofNat (_ + k)
            rw [Nat.add_right_comm, UInt64.ofNat_add]
            split
            · exact UInt64.add_sub_cancel _ _
            · exact UInt64.add_sub_cancel _ _
      | stop =>
          rcases Option.ite_none_right_eq_some.mp hturn with ⟨_, heq⟩
          cases heq
          have hcount := @openCount_ended _ _ s (s.stop u w) u w _ hw rfl rfl
          have habandons : s.abandons (.turn u .stop) = w.load := by
            rw [abandons, hw]
            rfl
          rw [habandons, Nat.add_comm k, ← Nat.add_assoc, hcount]
          exact hactive
      | fail =>
          cases hturn
          have hcount := @openCount_ended _ _ s (s.fail u w) u w _ hw rfl rfl
          have habandons : s.abandons (.turn u .fail) = w.load := by
            rw [abandons, hw]
            rfl
          rw [habandons, Nat.add_comm k, ← Nat.add_assoc, hcount]
          exact hactive

theorem active_run {inputs : List ServerInput} {s s' : Server S P} {k : Nat}
    (h : s.Orderly) (hactive : s.activeConnections = UInt64.ofNat (s.openCount + k))
    (hrun : s.run fuel inputs = some s') :
    s'.activeConnections =
      UInt64.ofNat (s'.openCount + (k + abandoned fuel inputs s)) := by
  induction inputs generalizing s k with
  | nil =>
      cases hrun
      exact hactive
  | cons input inputs ih =>
      rcases runInputs_cons_eq_some.mp hrun with ⟨s1, hstep, hrest⟩
      have hlater := ih (orderly_step h hstep) (active_step h hactive hstep) hrest
      have habandoned : abandoned fuel (input :: inputs) s =
          s.abandons input + abandoned fuel inputs s1 := by
        rw [abandoned, hstep]
        rfl
      rw [habandoned, ← Nat.add_assoc k]
      exact hlater

theorem openCount_new (numThreads : Nat) (config : Config) (world : World S P) :
    (new numThreads config world).openCount = 0 := by
  refine List.sum_eq_zero fun n hn => ?_
  rcases List.mem_map.mp hn with ⟨w, hw, rfl⟩
  rcases List.mem_map.mp hw with ⟨u, _, rfl⟩
  rfl

/-- The number of active connections is that of the open ones, and of those besides
that a worker has dropped when it stopped or failed. -/
theorem active_connections_counted {numThreads : Nat} {config : Config}
    {world : World S P} {inputs : List ServerInput} {s : Server S P}
    (hrun : (new numThreads config world).run fuel inputs = some s) :
    s.activeConnections =
      UInt64.ofNat
        (s.openCount + abandoned fuel inputs (new numThreads config world)) := by
  have h := @active_run _ _ fuel inputs _ s 0 (orderly_new numThreads config world)
    (by rw [openCount_new]; rfl) hrun
  rw [Nat.zero_add] at h
  exact h

theorem active_connections_counted_stop :
    exists s, quiet.run 0 [.turn 0 (.accept none 5), .shutdown, .turn 0 .stop] = some s ∧
      s.openCount = 0 ∧ s.activeConnections = UInt64.ofNat (0 + 1) :=
  ⟨_, rfl, rfl, @active_connections_counted mapStore idlePlatform 0 1
    { requirepass := none } Connection.freshShared.world
    [.turn 0 (.accept none 5), .shutdown, .turn 0 .stop] _ rfl⟩

end Server

end FeoxServer
