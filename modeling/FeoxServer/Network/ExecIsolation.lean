import FeoxServer.Network.Company
import FeoxServer.Protocol.HashFootprints

/-!
# EXEC among other threads

Writing a value and notifying its key are two steps, and so are comparing the
versions and running the queue.  `EXEC` is isolated exactly when others notify
what they modify before it compares, and keep off the keys of the queue while
it runs.
-/

namespace FeoxServer

open Foundation Prog WatchEvent

def Call.writes : Call -> Set Bytes
  | .store c => c.writes
  | _ => ∅

namespace Deed

variable {ε : Type} {S : FeoxStore}

def reads (key : Bytes) : Deed S -> Bool
  | own (.getKeyVersion k) => k = key
  | _ => false

end Deed

/-!
# The phases of EXEC
-/

namespace Connection

variable {ε : Type} {S : FeoxStore} {P : Platform} {ι β : Type} [DecidableEq ι]

abbrev setOf (key : String) : Deed mapStore :=
  .other (.store (.insertBytesWithTimestamp (asBytes key) (asBytes "v")))
    (∅ : MapStore.Entries)
    (AList.insert (asBytes key) (asBytes "v", none) ∅ : MapStore.Entries)

end Connection

end FeoxServer
