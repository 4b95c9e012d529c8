import FeoxServer.Store.KeyedStore

/-!
# Stores whose keys can be listed

A key that is not there is reported as such, and a range query lists the
present keys of its range in order.
-/

namespace FeoxServer

open Foundation

structure FlatStore (S : FeoxStore) (view : S.State -> Bytes -> Option Bytes) :
    Prop extends CountsAsMap S view where
  keyNotFound : forall {s key}, view s key = none ->
    exists e s', S.reply (.getBytes key) s = (.error e, s') ∧ e.keyNotFound = true
  rangeQuery : forall s start stop limit,
    exists (pairs : List (Bytes × Bytes)) (s' : S.State),
      S.reply (.rangeQuery start stop limit) s =
          (.ok (pairs.take limit.toNat), s') ∧
        pairs.Pairwise (fun a b => a.1 < b.1) ∧
        forall key value, (key, value) ∈ pairs <->
          (start <= key ∧ key <= stop) ∧ view s key = some value

/-- A range query changes no key. -/
structure SteadyStore (S : FeoxStore) (view : S.State -> Bytes -> Option Bytes) :
    Prop extends FlatStore S view where
  rangeQuery_view : forall s start stop limit,
    view (S.reply (.rangeQuery start stop limit) s).2 = view s

namespace MapStore

theorem strictly_sorted_inRange (entries : Entries) (start stop : Bytes) :
    (inRange entries start stop).Pairwise fun a b => a.1 < b.1 := by
  have hdistinct := nodup_inRange entries start stop
  have hsorted := sorted_inRange entries start stop
  refine (hsorted.and hdistinct).imp_of_mem ?_
  rintro ⟨k, v⟩ ⟨k', v'⟩ ha hb ⟨hle, hne⟩
  refine List.not_le.mp fun hge => ?_
  obtain rfl : k = k' := List.le_antisymm hle hge
  have hv := (mem_inRange.mp ha).2
  rw [(mem_inRange.mp hb).2] at hv
  cases hv
  exact hne rfl

theorem flatStore : FlatStore mapStore view where
  toCountsAsMap := countsAsMap
  keyNotFound := by
    intro s key h
    refine ⟨MapStore.keyNotFound, s, ?_, rfl⟩
    simp [mapStore, reply, h]
  rangeQuery := by
    intro s start stop limit
    exact ⟨inRange s start stop, s, rfl, strictly_sorted_inRange s start stop,
      fun _ _ => mem_inRange⟩

theorem steadyStore : SteadyStore mapStore view where
  toFlatStore := flatStore
  rangeQuery_view _ _ _ _ := rfl

end MapStore

end FeoxServer
