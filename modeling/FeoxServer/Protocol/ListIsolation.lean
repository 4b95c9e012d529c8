import FeoxServer.Protocol.Footprints
import FeoxServer.Protocol.ListCorrectness

/-!
# Lists do not disturb each other

The keys of a list are made from the text of its key.  Two lists are apart
exactly when these texts differ, since octets that are no text are replaced
alike.
-/

namespace FeoxServer

open Foundation Prog

namespace ListOperations

/-- The commands that change the list under `key`. -/
inductive Writes (key : Bytes) : Command -> Prop where
  | lpush (values : List Bytes) : Writes key (.lpush key values)
  | rpush (values : List Bytes) : Writes key (.rpush key values)
  | lpop (count : Option UInt64) : Writes key (.lpop key count)
  | rpop (count : Option UInt64) : Writes key (.rpop key count)

/-- The commands that read the list under `key`. -/
inductive Reads (key : Bytes) : Command -> Prop where
  | llen : Reads key (.llen key)
  | lrange (start stop : Int64) : Reads key (.lrange key start stop)
  | lindex (index : Int64) : Reads key (.lindex key index)

/-- Whatever a client does to the list under `k1`, the replies about the list
under `k2` stay the same. -/
def Isolated (k1 k2 : Bytes) : Prop :=
  forall tracker, Isolates (Writes k1) (Reads k2) tracker

theorem Writes.on_respond {key : Bytes} {cmd : Command} (h : Writes key cmd)
    (fuel : Nat) (x : CommandExecutor) :
    Only (Call.On (keysOf key)) (x.respond fuel cmd) := by
  cases h with
  | lpush values =>
      exact on_modifying key _ _ (on_onStore (onList_push lpushMeta fuel key values))
  | rpush values =>
      exact on_modifying key _ _ (on_onStore (onList_push rpushMeta fuel key values))
  | lpop count =>
      exact on_modifying key _ _ (on_onStore (onList_pop lpopMeta fuel key count))
  | rpop count =>
      exact on_modifying key _ _ (on_onStore (onList_pop rpopMeta fuel key count))

theorem Reads.on_respond {key : Bytes} {cmd : Command} (h : Reads key cmd)
    (fuel : Nat) (x : CommandExecutor) :
    Only (Call.On (keysOf key)) (x.respond fuel cmd) := by
  cases h with
  | llen => exact on_reading _ (on_onStore (onList_llen key))
  | lrange start stop => exact on_reading _ (on_onStore (onList_lrange key start stop))
  | lindex index => exact on_reading _ (on_onStore (onList_lindex key index))

theorem isolated_of_text_ne {k1 k2 : Bytes}
    (h : fromUtf8Lossy k1 ≠ fromUtf8Lossy k2) : Isolated k1 k2 := by
  intro tracker ε S P cell write read fuel x w w' r hS _ hwrite hread hrun
  have hothers := (run_on_others hS (hwrite.on_respond fuel x) hrun).2
  refine run_on_alike hS (hread.on_respond fuel x) fun k hk => ?_
  exact hothers k (Set.disjoint_right.mp (disjoint_keysOf h) hk)

/-!
# Keys of the same text
-/

/-- A server with nothing in it. -/
abbrev emptyServer : World mapStore idlePlatform :=
  { store := (∅ : MapStore.Entries), platform := (), watch := .new,
    tracker := ∅, clients := ∅ }

def lengthIn (v : Bytes -> Option Bytes) (key : Bytes) : Int64 :=
  match v (metaKey key) with
  | some metaBytes => (parseMetadata metaBytes).count.toInt64
  | none => 0

theorem replyOf_llen {S : FeoxStore} {P : Platform}
    {view : S.State -> Bytes -> Option Bytes} (hS : BehavesAsMap S view)
    (w : World S P) (key : Bytes) (fuel : Nat) (x : CommandExecutor) :
    replyOf (x.respond fuel (.llen key)) w =
      some (.integer (lengthIn (view w.store) key)) := by
  unfold replyOf CommandExecutor.respond CommandExecutor.reading llen lengthIn
  rw [run_bind, run_onStore]
  cases hview : view w.store (metaKey key) with
  | none =>
      rcases hS.getBytes_absent hview with ⟨e, s1, hget, _⟩
      rw [run_call_bind, hget]
      rfl
  | some metaBytes =>
      rcases hS.getBytes_present hview with ⟨s1, hget, _⟩
      rw [run_call_bind, hget]
      rfl

theorem lpush_first_run (key value : Bytes) (x : CommandExecutor) :
    exists w', (x.respond 1 (.lpush key [value])).run (server mapStore idlePlatform)
        emptyServer = some (.integer 1, w') ∧
      MapStore.view w'.store = written (MapStore.view (∅ : MapStore.Entries)) key
        (lpushMeta initialMeta).1 (lpushMeta initialMeta).2 (some value) := by
  have habsent : Represents (MapStore.view emptyServer.store) key [] initialMeta :=
    Absent.represents ⟨rfl, fun _ => rfl⟩
  rcases pushOne_run MapStore.behavesAsMap lpushMeta habsent.stored value 0 0 with
    ⟨s1, hpush, hview⟩
  have hmeta := written_metaKey (MapStore.view emptyServer.store) key
    (lpushMeta initialMeta).1 (lpushMeta initialMeta).2 (some value)
  rw [← hview] at hmeta
  rcases MapStore.behavesAsMap.getBytes_present hmeta with ⟨s2, hget, hview2⟩
  have hall : (pushAll lpushMeta 1 key [value]).run mapStore
      (∅ : MapStore.Entries) = some (.ok (), s1) := by
    rw [pushAll, run_bind_of_some _ _ hpush]
    rfl
  have hlpush : (lpush 1 key [value]).run mapStore (∅ : MapStore.Entries) =
      some (.ok 1, s2) := by
    rw [lpush, ListOperations.push, run_bind_of_some _ _ hall]
    simp only [run_call_bind, hget, parseMetadata_buildMetadata]
    rfl
  refine ⟨{ emptyServer with
    store := s2, watch := emptyServer.watch.notifyKeyModified key }, ?_,
    hview2.trans hview⟩
  rw [CommandExecutor.respond, CommandExecutor.push, CommandExecutor.modifying,
    run_bind, run_onStore, hlpush]
  rfl

theorem lengthIn_first (v : Bytes -> Option Bytes) (key value : Bytes) :
    lengthIn (written v key (lpushMeta initialMeta).1 (lpushMeta initialMeta).2
      (some value)) key = 1 := by
  unfold lengthIn
  rw [written_metaKey]
  change (parseMetadata (buildMetadata (lpushMeta initialMeta).1)).count.toInt64 = 1
  rw [parseMetadata_buildMetadata]
  rfl

theorem not_isolated_of_text_eq {k1 k2 : Bytes}
    (h : fromUtf8Lossy k1 = fromUtf8Lossy k2) : ¬ Isolated k1 k2 := by
  intro hisolated
  let x : CommandExecutor := .new { requirepass := none }
  rcases lpush_first_run k1 [118] x with ⟨w', hrun, hview⟩
  have heq := hisolated ∅ MapStore.keyedStore rfl (Writes.lpush [[118]]) Reads.llen
    hrun
  have hkey : metaKey k2 = metaKey k1 := by
    unfold metaKey
    rw [h]
  have hafter : lengthIn (MapStore.view w'.store) k2 = 1 := by
    rw [hview, ← lengthIn_first (MapStore.view (∅ : MapStore.Entries)) k1 [118]]
    unfold lengthIn
    rw [hkey]
  rw [replyOf_llen MapStore.behavesAsMap, replyOf_llen MapStore.behavesAsMap,
    hafter] at heq
  injection heq with heq
  injection heq with heq
  exact absurd (show (1 : Int64) = 0 from heq) (by decide)

/-- A list is isolated from another exactly when the texts of their keys
differ. -/
theorem isolated_iff_text_ne (k1 k2 : Bytes) :
    Isolated k1 k2 <-> fromUtf8Lossy k1 ≠ fromUtf8Lossy k2 :=
  ⟨fun h heq => not_isolated_of_text_eq heq h, isolated_of_text_ne⟩

/-- Two octets that no text begins with are one key to the lists. -/
theorem not_isolated_invalid : [255] ≠ ([254] : Bytes) ∧ ¬ Isolated [255] [254] :=
  ⟨by decide, not_isolated_of_text_eq (by decide +kernel)⟩

end ListOperations

end FeoxServer
