import FeoxServer.Store.FlatStore
import FeoxServer.Store.ValueStore

/-!
# A store for strings, lists and hashes together

Every call works on the entry of its key, of which the value is a part.
-/

namespace FeoxServer

open Foundation

structure SharedStore {ε : Type} (S : FeoxStore) (cell : S.State -> Bytes -> ε)
    (view : S.State -> Bytes -> Option Bytes) : Prop extends NumberStore S view where
  keyNotFound : forall {s key}, view s key = none ->
    exists e s', S.reply (.getBytes key) s = (.error e, s') ∧ e.keyNotFound = true
  celled : KeyedStore S cell
  value : forall {s t key}, cell s key = cell t key -> view s key = view t key

namespace MapStore

theorem sharedStore : SharedStore mapStore cell view where
  toNumberStore := numberStore
  keyNotFound := flatStore.keyNotFound
  celled := keyedStore
  value := view_eq_of_cell

end MapStore

end FeoxServer
