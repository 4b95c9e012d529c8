import FeoxServer.Foundation.Pool
import FeoxServer.Network.Transactions

/-!
# A connection among others

Other threads take turns with a connection on one world, call by call.  Every
run of the connection among them is a run among disturbances, so what is known
of those holds here too.
-/

namespace FeoxServer

open Foundation Prog WatchEvent

/-- A step while a connection works: a call of its own, a call of somebody else
with the store before and after it, or the end of its watching. -/
inductive Deed (S : FeoxStore) where
  | own (c : Call)
  | other (c : Call) (before after : S.State)
  | cleared

namespace Deed

variable {S : FeoxStore}

def callEvent : Call -> Option (WatchEvent Bytes)
  | .notifyKeyModified key => some (.modified key)
  | _ => none

def event : Deed S -> Option (WatchEvent Bytes)
  | own (.getKeyVersion key) => some (.read key)
  | own c => callEvent c
  | other c _ _ => callEvent c
  | cleared => some .cleared

/-- The history that a timeline tells, the latest event first. -/
def events (timeline : List (Deed S)) : History Bytes :=
  timeline.filterMap event

end Deed

/-- The other threads with the world that all share, their turns before each of
the calls to come, and what has happened so far, the latest deed first. -/
structure Among (S : FeoxStore) (P : Platform) (ι β : Type) where
  pool : Pool (server S P) ι β
  schedule : List (List ι)
  timeline : List (Deed S)

namespace Among

variable {S : FeoxStore} {P : Platform} {ι β : Type} [DecidableEq ι]

def turn (σ : Among S P ι β) (j : ι) : Among S P ι β :=
  match σ.pool.thread j with
  | .ask c _ =>
      { σ with
        pool := σ.pool.step j
        timeline := .other c σ.pool.state.store (σ.pool.step j).state.store ::
          σ.timeline }
  | _ => σ

def wait (σ : Among S P ι β) : Among S P ι β :=
  (σ.schedule.headD []).foldl turn { σ with schedule := σ.schedule.tail }

def reply (c : Call) (σ : Among S P ι β) : Answer c × Among S P ι β :=
  let σ := σ.wait
  let (answer, world) := World.reply c σ.pool.state
  (answer,
    { σ with
      pool := { σ.pool with state := world }
      timeline := .own c :: σ.timeline })

end Among

namespace Among

variable {S : FeoxStore} {P : Platform} {ι β : Type} [DecidableEq ι]

def observe (σ : Among S P ι β) : Observed S P where
  world := σ.pool.state
  pending := []
  history := Deed.events σ.timeline

/-!
# Others are disturbances
-/

/-- The others change the registry by notifying keys, and in no other way. -/
structure Notifies (keys : List Bytes) (σ σ' : Among S P ι β) : Prop where
  watch : σ'.pool.state.watch =
    keys.foldl WatchRegistry.notifyKeyModified σ.pool.state.watch
  events : Deed.events σ'.timeline =
    (keys.map .modified).reverse ++ Deed.events σ.timeline

omit [DecidableEq ι] in
theorem Notifies.append {keys keys' : List Bytes} {σ σ1 σ2 : Among S P ι β}
    (h : Notifies keys σ σ1) (h' : Notifies keys' σ1 σ2) :
    Notifies (keys ++ keys') σ σ2 where
  watch := by rw [h'.watch, h.watch, List.foldl_append]
  events := by
    rw [h'.events, h.events, List.map_append, List.reverse_append, List.append_assoc]

end Among

/-!
# Reachable states
-/

section Serving

variable {S : FeoxStore} {P : Platform} {ι β : Type} [DecidableEq ι]

def Among.mark (σ : Among S P ι β) (cleared : Bool) : Among S P ι β :=
  if cleared then { σ with timeline := .cleared :: σ.timeline } else σ

end Serving

end FeoxServer
