import Mathlib.Data.List.AList
import FeoxServer.Foundation.Text

/-!
# The registry of clients
-/

namespace FeoxServer

open Foundation

/-- What is known about a connection; an address appears as its text. -/
structure ClientInfo where
  id : Nat
  name : Option String
  addr : Option String
  fd : Int
  connectedAt : UInt64
  commandsProcessed : UInt64
  flags : List String
  threadId : Nat
  db : Nat

namespace ClientInfo

def uncounted (info : ClientInfo) : ClientInfo :=
  { info with commandsProcessed := 0 }

def anonymous (info : ClientInfo) : ClientInfo :=
  { info with name := none, commandsProcessed := 0 }

end ClientInfo

abbrev ClientRegistry : Type :=
  AList fun _ : Nat => ClientInfo

/-!
# Replacing an entry
-/

theorem dlookup_kreplace {α β : Type} [DecidableEq α] (a a' : α) (b : β)
    (l : List (Sigma fun _ : α => β)) :
    List.dlookup a' (List.kreplace a b l) =
      if a' = a then (List.dlookup a l).map fun _ => b
      else List.dlookup a' l := by
  induction l with
  | nil => simp [List.kreplace]
  | cons e l ih =>
      rcases e with ⟨a1, b1⟩
      by_cases h1 : a = a1
      · subst h1
        have hcons : List.kreplace a b (⟨a, b1⟩ :: l) = ⟨a, b⟩ :: l := by
          simp [List.kreplace]
        rw [hcons]
        by_cases h : a' = a
        · subst h
          simp
        · simp [h]
      · have hcons : List.kreplace a b (⟨a1, b1⟩ :: l) =
            ⟨a1, b1⟩ :: List.kreplace a b l := by
          simp [List.kreplace, h1]
        rw [hcons]
        by_cases h : a' = a1
        · subst h
          simp [Ne.symm h1]
        · have hne : forall b1 : β, a' ≠ (⟨a1, b1⟩ : Sigma fun _ : α => β).1 :=
            fun _ => h
          rw [List.dlookup_cons_ne _ _ (hne b1), ih,
            List.dlookup_cons_ne _ _ (hne b1),
            List.dlookup_cons_ne l (⟨a1, b1⟩ : Sigma fun _ : α => β) h1]

theorem lookup_replace {α β : Type} [DecidableEq α] (a a' : α) (b : β)
    (s : AList fun _ : α => β) :
    (s.replace a b).lookup a' =
      if a' = a then (s.lookup a).map fun _ => b else s.lookup a' :=
  dlookup_kreplace a a' b s.entries

namespace ClientRegistry

def getAllClients (clients : ClientRegistry) : List ClientInfo :=
  clients.entries.map fun entry => entry.2

def getClient (clients : ClientRegistry) (id : Nat) : Option ClientInfo :=
  clients.lookup id

def shouldKill (filterId : Option Nat) (filterAddr filterType : Option String)
    (client : ClientInfo) : Bool :=
  (match filterId with
    | some id => client.id == id
    | none => false) ||
  (match filterAddr, client.addr with
    | some addrStr, some addr => addr == addrStr
    | _, _ => false) ||
  (match filterType with
    | some "normal" => !client.flags.contains "pubsub"
    | some "pubsub" => client.flags.contains "pubsub"
    | _ => false)

/-- `kill_clients` selects the clients; nobody closes them. -/
def killClients (clients : List ClientInfo) (filterId : Option Nat)
    (filterAddr filterType : Option String) : List Nat :=
  (clients.filter (shouldKill filterId filterAddr filterType)).map fun client =>
    client.id

end ClientRegistry

end FeoxServer
