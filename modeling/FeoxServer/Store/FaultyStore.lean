import FeoxServer.Store.KeyedStore

/-!
# A store whose calls may fail

The environment decides in advance which of the calls fail, and with which
error.  A call that fails has no effect.
-/

namespace FeoxServer

open Foundation

namespace StoreCall

def refusal : (c : StoreCall) -> FeoxError -> Option (StoreAnswer c)
  | getBytes _, e => some (.error e)
  | containsKey _, _ => none
  | insert _ _, e => some (.error e)
  | insertBytes _ _, e => some (.error e)
  | insertWithTimestamp _ _, e => some (.error e)
  | insertBytesWithTimestamp _ _, e => some (.error e)
  | insertBytesWithTtlAndTimestamp _ _ _, e => some (.error e)
  | delete _, e => some (.error e)
  | compareAndSwap _ _ _, e => some (.error e)
  | atomicIncrement _ _, e => some (.error e)
  | updateTtl _ _, e => some (.error e)
  | getTtl _, e => some (.error e)
  | persist _, e => some (.error e)
  | jsonPatch _ _, e => some (.error e)
  | rangeQuery _ _ _, e => some (.error e)
  | stats, _ => none

def isInsert : StoreCall -> Bool
  | insert _ _ | insertBytes _ _ | insertWithTimestamp _ _
  | insertBytesWithTimestamp _ _ | insertBytesWithTtlAndTimestamp _ _ _ => true
  | _ => false

end StoreCall

/-- The faults of the calls to come, one for each call that may fail; the calls
after the last fault succeed. -/
abbrev Faults : Type :=
  List (Option FeoxError)

/-- The store `S` in which the calls of the kind `may` fail as foreseen. -/
def faulty (may : StoreCall -> Bool) (S : FeoxStore) : FeoxStore where
  State := S.State × Faults
  reply c s :=
    let answer := ((S.reply c s.1).1, (S.reply c s.1).2, s.2.tail)
    if may c then
      match s.2.head?.join.bind (c.refusal ·) with
      | some refused => (refused, s.1, s.2.tail)
      | none => answer
    else ((S.reply c s.1).1, (S.reply c s.1).2, s.2)

section Faulty

variable {S : FeoxStore} {may : StoreCall -> Bool}

/-- The state of the store together with the faults to come. -/
def withFaults (s : S.State) (faults : Faults) : (faulty may S).State :=
  (s, faults)

theorem faulty_spared (may : StoreCall -> Bool) {c : StoreCall} (hmay : may c = false) {s s' : S.State}
    {r : StoreAnswer c} (h : S.reply c s = (r, s')) (faults : Faults) :
    (faulty may S).reply c (withFaults s faults) = (r, withFaults s' faults) := by
  simp [faulty, withFaults, hmay, h]

theorem faulty_served (may : StoreCall -> Bool) {c : StoreCall} (hmay : may c = true) {s s' : S.State}
    {r : StoreAnswer c} (h : S.reply c s = (r, s')) {faults : Faults}
    (hhead : faults.head?.join = none) :
    (faulty may S).reply c (withFaults s faults) =
      (r, withFaults s' faults.tail) := by
  simp [faulty, withFaults, hmay, h, hhead]

theorem faulty_refused (may : StoreCall -> Bool) {c : StoreCall} (hmay : may c = true) {e : FeoxError}
    {refused : StoreAnswer c} (hrefusal : c.refusal e = some refused)
    (s : S.State) {faults : Faults} (hhead : faults.head?.join = some e) :
    (faulty may S).reply c (withFaults s faults) =
      (refused, withFaults s faults.tail) := by
  simp [faulty, withFaults, hmay, hhead, hrefusal]

end Faulty

end FeoxServer
