import FeoxServer.Foundation.Prog
import FeoxServer.Foundation.Words

/-!
# The store

The server runs on a key-value store that is not part of it.  Here are the
calls the server makes and what it looks at in their answers; how a store
answers is a parameter, and what the server may rely on is stated as laws
about that parameter.
-/

namespace FeoxServer

open Foundation

/-- `FeoxError` as the server sees it: whether it is `KeyNotFound`, and its
text. -/
structure FeoxError where
  keyNotFound : Bool
  text : String

/-- The error type of the server, as far as its commands produce it. -/
inductive Error where
  | database (e : FeoxError)
  | protocol (text : String)
  | system (text : String)

namespace Error

def display : Error -> String
  | database e => "FeOxDB error: " ++ e.text
  | protocol text => "Protocol error: " ++ text
  | system text => "System error: " ++ text

@[simp] theorem display_database (e : FeoxError) :
    (database e).display = "FeOxDB error: " ++ e.text := rfl

end Error

/-- The statistics that the server reports.  The hit rate is a floating point
number; it appears here as the text of its percentage. -/
structure StoreStats where
  memoryUsage : UInt64
  cacheMemory : UInt64
  totalOperations : UInt64
  totalGets : UInt64
  totalInserts : UInt64
  cacheHits : UInt64
  cacheMisses : UInt64
  cacheHitRate : String
  recordCount : UInt64

inductive StoreCall where
  | getBytes (key : Bytes)
  | containsKey (key : Bytes)
  | insert (key value : Bytes)
  | insertBytes (key value : Bytes)
  | insertWithTimestamp (key value : Bytes)
  | insertBytesWithTimestamp (key value : Bytes)
  | insertBytesWithTtlAndTimestamp (key value : Bytes) (ttl : UInt64)
  | delete (key : Bytes)
  | compareAndSwap (key expected newValue : Bytes)
  | atomicIncrement (key : Bytes) (delta : Int64)
  | updateTtl (key : Bytes) (seconds : UInt64)
  | getTtl (key : Bytes)
  | persist (key : Bytes)
  | jsonPatch (key patch : Bytes)
  | rangeQuery (start stop : Bytes) (limit : UInt64)
  | stats

abbrev StoreAnswer : StoreCall -> Type
  | .getBytes _ => Except FeoxError Bytes
  | .containsKey _ => Bool
  | .insert _ _ => Except FeoxError Unit
  | .insertBytes _ _ => Except FeoxError Bool
  | .insertWithTimestamp _ _ => Except FeoxError Unit
  | .insertBytesWithTimestamp _ _ => Except FeoxError Unit
  | .insertBytesWithTtlAndTimestamp _ _ _ => Except FeoxError Unit
  | .delete _ => Except FeoxError Unit
  | .compareAndSwap _ _ _ => Except FeoxError Bool
  | .atomicIncrement _ _ => Except FeoxError Int64
  | .updateTtl _ _ => Except FeoxError Unit
  | .getTtl _ => Except FeoxError (Option UInt64)
  | .persist _ => Except FeoxError Unit
  | .jsonPatch _ _ => Except FeoxError Unit
  | .rangeQuery _ _ _ => Except FeoxError (List (Bytes × Bytes))
  | .stats => StoreStats

abbrev FeoxStore : Type 1 :=
  Service StoreCall StoreAnswer

abbrev StoreProg (α : Type) : Type :=
  Prog StoreCall StoreAnswer α

namespace Store

abbrev getBytes (key : Bytes) : StoreProg (Except FeoxError Bytes) :=
  Prog.call (StoreCall.getBytes key)

abbrev containsKey (key : Bytes) : StoreProg Bool :=
  Prog.call (StoreCall.containsKey key)

abbrev insert (key value : Bytes) : StoreProg (Except FeoxError Unit) :=
  Prog.call (StoreCall.insert key value)

abbrev insertBytes (key value : Bytes) : StoreProg (Except FeoxError Bool) :=
  Prog.call (StoreCall.insertBytes key value)

abbrev insertWithTimestamp (key value : Bytes) : StoreProg
    (Except FeoxError Unit) :=
  Prog.call (StoreCall.insertWithTimestamp key value)

abbrev insertBytesWithTimestamp (key value : Bytes) : StoreProg
    (Except FeoxError Unit) :=
  Prog.call (StoreCall.insertBytesWithTimestamp key value)

abbrev insertBytesWithTtlAndTimestamp (key value : Bytes) (ttl : UInt64) : StoreProg
    (Except FeoxError Unit) :=
  Prog.call (StoreCall.insertBytesWithTtlAndTimestamp key value ttl)

abbrev delete (key : Bytes) : StoreProg (Except FeoxError Unit) :=
  Prog.call (StoreCall.delete key)

abbrev compareAndSwap (key expected newValue : Bytes) : StoreProg
    (Except FeoxError Bool) :=
  Prog.call (StoreCall.compareAndSwap key expected newValue)

abbrev atomicIncrement (key : Bytes) (delta : Int64) : StoreProg
    (Except FeoxError Int64) :=
  Prog.call (StoreCall.atomicIncrement key delta)

abbrev updateTtl (key : Bytes) (seconds : UInt64) : StoreProg
    (Except FeoxError Unit) :=
  Prog.call (StoreCall.updateTtl key seconds)

abbrev getTtl (key : Bytes) : StoreProg (Except FeoxError (Option UInt64)) :=
  Prog.call (StoreCall.getTtl key)

abbrev persist (key : Bytes) : StoreProg (Except FeoxError Unit) :=
  Prog.call (StoreCall.persist key)

abbrev jsonPatch (key patch : Bytes) : StoreProg (Except FeoxError Unit) :=
  Prog.call (StoreCall.jsonPatch key patch)

abbrev rangeQuery (start stop : Bytes) (limit : UInt64) : StoreProg
    (Except FeoxError (List (Bytes × Bytes))) :=
  Prog.call (StoreCall.rangeQuery start stop limit)

abbrev stats : StoreProg StoreStats :=
  Prog.call StoreCall.stats

end Store

/-!
# A store that is a map

`view` shows the keys that are present with their values.  The calls that the
list commands make succeed and act on the map as their names say; nothing is
asked about the texts of errors or about the rest of the state.
-/

structure BehavesAsMap (S : FeoxStore)
    (view : S.State -> Bytes -> Option Bytes) : Prop where
  getBytes_present : forall {s key value}, view s key = some value ->
    exists s', S.reply (.getBytes key) s = (.ok value, s') ∧ view s' = view s
  getBytes_absent : forall {s key}, view s key = none ->
    exists e s', S.reply (.getBytes key) s = (.error e, s') ∧ view s' = view s
  insert : forall s key value,
    exists s', S.reply (.insert key value) s = (.ok (), s') ∧
      view s' = Function.update (view s) key (some value)
  delete_present : forall {s key value}, view s key = some value ->
    exists s', S.reply (.delete key) s = (.ok (), s') ∧
      view s' = Function.update (view s) key none
  delete_absent : forall {s key}, view s key = none ->
    exists e s', S.reply (.delete key) s = (.error e, s') ∧ view s' = view s
  compareAndSwap_equal : forall {s key expected} newValue,
    view s key = some expected ->
      exists s', S.reply (.compareAndSwap key expected newValue) s =
          (.ok true, s') ∧
        view s' = Function.update (view s) key (some newValue)
  compareAndSwap_differs : forall {s key value expected} newValue,
    view s key = some value -> value ≠ expected ->
      exists s', S.reply (.compareAndSwap key expected newValue) s =
          (.ok false, s') ∧ view s' = view s

/-- The calls that the hash commands make besides: they tell whether a key is
present, and count in eight octets as long as the count is in range. -/
structure CountsAsMap (S : FeoxStore)
    (view : S.State -> Bytes -> Option Bytes) : Prop
    extends BehavesAsMap S view where
  containsKey : forall s key,
    exists s', S.reply (.containsKey key) s = ((view s key).isSome, s') ∧
      view s' = view s
  insertBytes : forall s key value,
    exists s', S.reply (.insertBytes key value) s =
        (.ok (view s key).isNone, s') ∧
      view s' = Function.update (view s) key (some value)
  atomicIncrement_absent : forall {s key} delta, view s key = none ->
    exists s', S.reply (.atomicIncrement key delta) s = (.ok delta, s') ∧
      view s' = Function.update (view s) key (some (i64ToLeBytes delta))
  atomicIncrement_present : forall {s key n} delta,
    view s key = some (i64ToLeBytes n) -> InRange (n.toInt + delta.toInt) ->
      exists s', S.reply (.atomicIncrement key delta) s = (.ok (n + delta), s') ∧
        view s' = Function.update (view s) key (some (i64ToLeBytes (n + delta)))

end FeoxServer
