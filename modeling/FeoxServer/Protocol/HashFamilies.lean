import FeoxServer.Protocol.HashIsolation
import FeoxServer.Store.SharedStore

/-!
# Several hashes

A command on one of several hashes disturbs no key that belongs to none of their
counters and not to the hash.
-/

namespace FeoxServer

open Foundation Prog

namespace HashOperations

variable {ε : Type} {S : FeoxStore} {P : Platform} {cell : S.State -> Bytes -> ε}
  {view : S.State -> Bytes -> Option Bytes} {H : Set Bytes} {sizes : Bytes -> Nat}
  {key : Bytes}

theorem Tallies.quiet {w : World S P} (h : Tallies view H sizes w) {n : Bytes}
    (hn : forall key, key ∈ H -> n ≠ metaKey key) : Quiet n w := by
  unfold Quiet
  have hnone : w.tracker.lookup n = none := by
    refine AList.lookup_eq_none.mpr fun hmem => ?_
    rcases h.only n hmem with ⟨key, hkey, heq⟩
    exact hn key hkey heq
  rw [hnone]
  rfl

theorem spares_command (hS : KeyedStore S cell) (key : Bytes) (command : HashCommand)
    (fuel : Nat) (x : CommandExecutor) :
    Spares P cell (keysOf key) (x.respond fuel (command.command key)) := by
  have hfields : forall {p : ServerProg RespValue}, Only (Call.On (fieldKeys key)) p ->
      Spares P cell (keysOf key) p := fun hp =>
    spares_mono (spares_of_on hS hp) (fieldKeys_subset key)
  cases command with
  | hset fields => exact (Writes.hset fields).spares hS fuel x
  | hdel fields => exact (Writes.hdel fields).spares hS fuel x
  | hincrby field delta => exact (Writes.hincrBy field delta).spares hS fuel x
  | hget field => exact (Reads.hget field).spares hS fuel x
  | hmget fields => exact hfields (only_bind (on_hmget key fields) fun _ => Only.done _)
  | hexists field => exact hfields (only_bind (on_hexists key field) fun _ => Only.done _)
  | hlen => exact Reads.hlen.spares hS fuel x

theorem view_command (hS : SharedStore S cell view) {command : HashCommand} {fuel : Nat}
    {x : CommandExecutor} {w w' : World S P} {r : RespValue} (h : Tallies view H sizes w)
    (hrun : (x.respond fuel (command.command key)).run (server S P) w = some (r, w'))
    {n : Bytes} (hcounters : forall k, k ∈ H -> n ≠ metaKey k) (hn : n ∉ keysOf key) :
    view w'.store n = view w.store n :=
  hS.value ((spares_command hS.celled key command fuel x n hn hrun).cell_eq
    (h.quiet hcounters))

end HashOperations

end FeoxServer
