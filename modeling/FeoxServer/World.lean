import FeoxServer.ClientRegistry
import FeoxServer.Store.FeoxStore
import FeoxServer.WatchRegistry

/-!
# What a connection works on

The store, the versions of the keys, the pending counts of the hash commands,
the registry of clients, and the machine.  A command is a program over calls
to these.
-/

namespace FeoxServer

open Foundation

/-- What the server asks of the machine.  `formatTenths n unit` is the
quotient, computed in floating point and printed with one decimal. -/
inductive PlatformCall where
  | unixTime
  | uptime
  | processId
  | flushDue
  | markFlush
  | formatTenths (n unit : UInt64)

abbrev PlatformAnswer : PlatformCall -> Type
  | .unixTime => UInt64
  | .uptime => UInt64
  | .processId => UInt64
  | .flushDue => Bool
  | .markFlush => Unit
  | .formatTenths _ _ => String

abbrev Platform : Type 1 :=
  Service PlatformCall PlatformAnswer

/-- A machine on which no time passes. -/
def idlePlatform : Platform where
  State := Unit
  reply
    | .unixTime, s => (0, s)
    | .uptime, s => (0, s)
    | .processId, s => (1, s)
    | .flushDue, s => (false, s)
    | .markFlush, s => ((), s)
    | .formatTenths _ _, s => ("0.0", s)

/-- `GLOBAL_METADATA_TRACKER`: the changes of the field counts that are not in
the store yet. -/
abbrev MetadataTracker : Type :=
  AList fun _ : Bytes => Int64

namespace MetadataTracker

def maxBatchSize : Nat := 1000

def addUpdate (tracker : MetadataTracker) (key : Bytes) (delta : Int64) :
    MetadataTracker :=
  tracker.insert key ((tracker.lookup key).getD 0 + delta)

end MetadataTracker

inductive Call where
  | store (c : StoreCall)
  | platform (c : PlatformCall)
  | notifyKeyModified (key : Bytes)
  | getKeyVersion (key : Bytes)
  | addUpdate (key : Bytes) (delta : Int64)
  | shouldFlush
  | takeUpdates
  | getAllClients
  | getClient (id : Nat)

abbrev Answer : Call -> Type
  | .store c => StoreAnswer c
  | .platform c => PlatformAnswer c
  | .notifyKeyModified _ => Unit
  | .getKeyVersion _ => UInt64
  | .addUpdate _ _ => Unit
  | .shouldFlush => Bool
  | .takeUpdates => List (Bytes × Int64)
  | .getAllClients => List ClientInfo
  | .getClient _ => Option ClientInfo

abbrev ServerProg (α : Type) : Type :=
  Prog Call Answer α

structure World (S : FeoxStore) (P : Platform) where
  store : S.State
  platform : P.State
  watch : WatchRegistry
  tracker : MetadataTracker
  clients : ClientRegistry

namespace World

variable {S : FeoxStore} {P : Platform}

def reply : (c : Call) -> World S P -> Answer c × World S P
  | .store c, w =>
      let (answer, store) := S.reply c w.store
      (answer, { w with store := store })
  | .platform c, w =>
      let (answer, platform) := P.reply c w.platform
      (answer, { w with platform := platform })
  | .notifyKeyModified key, w =>
      ((), { w with watch := w.watch.notifyKeyModified key })
  | .getKeyVersion key, w => (w.watch.getKeyVersion key, w)
  | .addUpdate key delta, w =>
      ((), { w with tracker := w.tracker.addUpdate key delta })
  | .shouldFlush, w =>
      let (due, platform) := P.reply .flushDue w.platform
      (decide (MetadataTracker.maxBatchSize <= w.tracker.entries.length) || due,
        { w with platform := platform })
  | .takeUpdates, w =>
      let (_, platform) := P.reply .markFlush w.platform
      (w.tracker.entries.map fun e => (e.1, e.2),
        { w with tracker := ∅, platform := platform })
  | .getAllClients, w => (w.clients.getAllClients, w)
  | .getClient id, w => (w.clients.getClient id, w)

end World

abbrev server (S : FeoxStore) (P : Platform) : Service Call Answer where
  State := World S P
  reply := World.reply

def onStore {α : Type} (p : StoreProg α) : ServerProg α :=
  p.hoist Call.store fun _ answer => answer

abbrev callStore (c : StoreCall) : ServerProg (StoreAnswer c) :=
  Prog.call (Call.store c)

abbrev callPlatform (c : PlatformCall) : ServerProg (PlatformAnswer c) :=
  Prog.call (Call.platform c)

abbrev notifyKeyModified (key : Bytes) : ServerProg Unit :=
  Prog.call (Call.notifyKeyModified key)

abbrev getKeyVersion (key : Bytes) : ServerProg UInt64 :=
  Prog.call (Call.getKeyVersion key)

theorem run_onStore {S : FeoxStore} {P : Platform} {α : Type} (p : StoreProg α)
    (w : World S P) :
    (onStore p).run (server S P) w =
      (p.run S w.store).map fun r => (r.1, { w with store := r.2 }) :=
  Prog.run_hoist S (server S P) World.store
    (fun s w => { w with store := s }) (fun _ _ => rfl) (fun _ => rfl)
    (fun _ _ _ => rfl) (fun _ _ => rfl) (fun _ _ => rfl) p w

end FeoxServer
