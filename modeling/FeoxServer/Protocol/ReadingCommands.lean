import FeoxServer.Protocol.Footprints
import FeoxServer.Store.SteadfastStore

/-!
# Commands that leave all values

Most commands only look at the store, and those about times to live change
nothing else.
-/

namespace FeoxServer

open Foundation Prog

@[simp] def Call.Observes : Call -> Prop
  | .store c => c.Keeps
  | .platform _ => True
  | .notifyKeyModified _ | .getKeyVersion _ | .addUpdate _ _ | .shouldFlush
  | .takeUpdates | .getAllClients | .getClient _ => False

abbrev Observing {α : Type} (p : ServerProg α) : Prop :=
  Only Call.Observes p

def Command.leavesValues : Command -> Bool
  | .set _ _ _ _ | .del _ | .incr _ | .incrBy _ _ | .decr _ | .decrBy _ _
  | .mset _ | .jsonPatch _ _ | .cas _ _ _ | .lpush _ _ | .rpush _ _ | .lpop _ _
  | .rpop _ _ | .hset _ _ | .hdel _ _ | .hlen _ | .hincrBy _ _ _
  | .client _ _ => false
  | _ => true

namespace HashOperations

theorem observing_hget (key field : Bytes) : Observing (hget key field) := by
  refine only_call_bind_iff.mpr ⟨trivial, fun r => ?_⟩
  cases r <;> exact Only.done _

theorem observing_hmget (key : Bytes) (fields : List Bytes) :
    Observing (hmget key fields) := by
  induction fields with
  | nil => exact Only.done _
  | cons field fields ih =>
      exact only_bind (observing_hget key field) fun _ =>
        only_bind ih fun _ => Only.done _

theorem observing_collect {α : Type} (f : List (Bytes × Bytes) -> List α)
    (key : Bytes) : Observing (collect f key) := by
  refine only_call_bind_iff.mpr ⟨trivial, fun r => ?_⟩
  cases r <;> exact Only.done _

end HashOperations

namespace CommandExecutor

theorem observing_existing (keys : List Bytes) (count : Int64) :
    Observing (existing keys count) := by
  induction keys generalizing count with
  | nil => exact Only.done _
  | cons key keys ih => exact only_call_bind_iff.mpr ⟨trivial, fun _ => ih _⟩

theorem observing_mget (keys : List Bytes) (values : List RespValue) :
    Observing (mget keys values) := by
  induction keys generalizing values with
  | nil => exact Only.done _
  | cons key keys ih =>
      unfold mget
      refine only_call_bind_iff.mpr ⟨trivial, fun r => ?_⟩
      cases r <;> exact ih _

theorem observing_formatBytes (n : UInt64) : Observing (formatBytes n) := by
  unfold formatBytes
  split
  · exact Only.done _
  · exact only_call_bind_iff.mpr ⟨trivial, fun _ => Only.done _⟩

theorem observing_sectionText (sectionName : Option String) (name : String)
    {text : ServerProg String} (h : Observing text) :
    Observing (sectionText sectionName name text) := by
  unfold sectionText
  split
  · exact h
  · exact Only.done _

theorem observing_info (x : CommandExecutor) (sectionName : Option String) :
    Observing (info x sectionName) := by
  have hserver : forall uptime, Observing (serverSection uptime) := fun _ =>
    only_call_bind_iff.mpr ⟨trivial, fun _ => Only.done _⟩
  have hmemory : forall stats, Observing (memorySection stats) := fun _ =>
    only_bind (observing_formatBytes _) fun _ =>
      only_bind (observing_formatBytes _) fun _ => Only.done _
  refine only_call_bind_iff.mpr ⟨trivial, fun uptime => ?_⟩
  refine only_call_bind_iff.mpr ⟨trivial, fun stats => ?_⟩
  refine only_bind (observing_sectionText _ _ (hserver uptime)) fun _ => ?_
  refine only_bind (observing_sectionText _ _ (hmemory stats)) fun _ => ?_
  refine only_bind (observing_sectionText _ _ (Only.done _)) fun _ => ?_
  exact only_bind (observing_sectionText _ _ (Only.done _)) fun _ => Only.done _

theorem observing_keysInRange (pattern : String) (start stop : Bytes) :
    Observing (keysInRange pattern start stop) := by
  refine only_call_bind_iff.mpr ⟨trivial, fun r => ?_⟩
  cases r <;> exact Only.done _

theorem observing_keys (pattern : String) : Observing (keys pattern) := by
  unfold keys
  simp only
  split
  · exact observing_keysInRange _ _ _
  · split
    · refine only_call_bind_iff.mpr ⟨trivial, fun r => ?_⟩
      cases r <;> exact Only.done _
    · exact observing_keysInRange _ _ _

theorem observing_reading {α : Type} (reply : α -> RespValue)
    {p : ServerProg (Except Error α)} (hp : Observing p) :
    Observing (reading reply p) :=
  only_bind hp fun _ => Only.done _

theorem observing_onStore {α : Type} {p : StoreProg α} (hp : Only StoreCall.Keeps p) :
    Observing (onStore p) :=
  only_hoist hp fun _ hc => hc

theorem observing_respond {cmd : Command} (hcmd : cmd.leavesValues = true)
    (fuel : Nat) (x : CommandExecutor) : Observing (respond fuel x cmd) := by
  cases cmd with
  | get key =>
      refine only_call_bind_iff.mpr ⟨trivial, fun r => ?_⟩
      cases r <;> exact Only.done _
  | exists_ keys => exact observing_existing keys 0
  | expire key seconds | pexpire key milliseconds | persist key =>
      exact only_call_bind_iff.mpr ⟨trivial, fun _ => Only.done _⟩
  | ttl key | pttl key =>
      refine only_call_bind_iff.mpr ⟨trivial, fun r => ?_⟩
      rcases r with e | ⟨_ | ttl⟩ <;> exact Only.done _
  | mget keys => exact observing_mget keys []
  | ping msg => cases msg <;> exact Only.done _
  | info sectionName => exact observing_info x sectionName
  | keys pattern => exact observing_keys pattern
  | scan cursor count pattern =>
      refine only_call_bind_iff.mpr ⟨trivial, fun r => ?_⟩
      cases r <;> exact Only.done _
  | llen key =>
      exact observing_reading _ (observing_onStore
        (@ListOperations.only_llen _ key trivial))
  | lrange key start stop =>
      exact observing_reading _ (observing_onStore
        (@ListOperations.only_lrange _ key trivial (fun _ => trivial) start stop))
  | lindex key index =>
      exact observing_reading _ (observing_onStore
        (@ListOperations.only_lindex _ key trivial (fun _ => trivial) index))
  | hget key field =>
      exact only_bind (HashOperations.observing_hget key field) fun _ => Only.done _
  | hmget key fields =>
      exact only_bind (HashOperations.observing_hmget key fields) fun _ => Only.done _
  | hexists key field => exact only_call_bind_iff.mpr ⟨trivial, fun _ => Only.done _⟩
  | hgetall key | hkeys key | hvals key =>
      exact observing_reading _ (HashOperations.observing_collect _ key)
  | set key value ex px | del keys | incr key | incrBy key delta | decr key
  | decrBy key delta | mset pairs | jsonPatch key patch | cas key expected newValue
  | lpush key values | rpush key values | lpop key count | rpop key count
  | hset key fields | hdel key fields | hlen key | hincrBy key field delta
  | client subcommand args => cases hcmd
  | _ => exact Only.done _

end CommandExecutor

end FeoxServer
