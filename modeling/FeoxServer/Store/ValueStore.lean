import FeoxServer.Store.KeyedStore

/-!
# Stores seen through their values

The calls that are not about times to live are answered from the values alone,
and what they do to the values depends on the values alone.
-/

namespace FeoxServer

open Foundation

def StoreCall.OnValues : StoreCall -> Prop
  | .updateTtl _ _ | .getTtl _ | .persist _ | .jsonPatch _ _ | .stats
  | .insertBytesWithTtlAndTimestamp _ _ _ => False
  | _ => True

structure ValueStore (S : FeoxStore) (view : S.State -> Bytes -> Option Bytes) :
    Prop extends CountsAsMap S view where
  insertWithTimestamp : forall s key value,
    exists s', S.reply (.insertWithTimestamp key value) s = (.ok (), s') ∧
      view s' = Function.update (view s) key (some value)
  insertBytesWithTimestamp : forall s key value,
    exists s', S.reply (.insertBytesWithTimestamp key value) s = (.ok (), s') ∧
      view s' = Function.update (view s) key (some value)
  determined : forall {c s t}, c.OnValues -> view s = view t ->
    (S.reply c s).1 = (S.reply c t).1 ∧
      view (S.reply c s).2 = view (S.reply c t).2

/-- A counter of the store is eight octets long, and other values cannot be
counted up. -/
structure NumberStore (S : FeoxStore) (view : S.State -> Bytes -> Option Bytes) :
    Prop extends ValueStore S view where
  atomicIncrement_text : forall {s key value} delta, view s key = some value ->
    value.length ≠ 8 ->
      exists e s', S.reply (.atomicIncrement key delta) s = (.error e, s') ∧
        view s' = view s

/-- Eight octets are counted up, whatever they are. -/
structure CountingStore (S : FeoxStore) (view : S.State -> Bytes -> Option Bytes) :
    Prop extends NumberStore S view where
  atomicIncrement_octets : forall {s key value} delta, view s key = some value ->
    value.length = 8 ->
      exists val s', S.reply (.atomicIncrement key delta) s = (.ok val, s') ∧
        view s' = Function.update (view s) key (some (i64ToLeBytes val))

namespace MapStore

theorem view_eq_map_cell (entries : Entries) (key : Bytes) :
    view entries key = (cell entries key).map Prod.fst := rfl

theorem onEntry_values {c : StoreCall} (hc : c.OnValues) {a b : Entry}
    (h : a.map Prod.fst = b.map Prod.fst) :
    (onEntry c a).1 = (onEntry c b).1 ∧
      (onEntry c a).2.map Prod.fst = (onEntry c b).2.map Prod.fst := by
  have hsome : a.isSome = b.isSome := by
    rw [← Option.isSome_map (f := Prod.fst), h, Option.isSome_map]
  rcases a with _ | ⟨value, ttl⟩
  · rcases b with _ | ⟨value', ttl'⟩
    · exact ⟨rfl, rfl⟩
    · cases h
  · rcases b with _ | ⟨value', ttl'⟩
    · cases h
    · injection h with h
      obtain rfl : value = value' := h
      cases c with
      | compareAndSwap key expected newValue =>
          unfold onEntry
          by_cases hequal : value = expected
          · simp only [if_pos hequal]
            exact ⟨trivial, rfl⟩
          · simp only [if_neg hequal]
            exact ⟨trivial, rfl⟩
      | atomicIncrement key delta =>
          unfold onEntry
          by_cases hlength : value.length = 8
          · simp only [if_pos hlength]
            exact ⟨trivial, rfl⟩
          · simp only [if_neg hlength]
            exact ⟨trivial, rfl⟩
      | updateTtl key seconds => cases hc
      | getTtl key => cases hc
      | persist key => cases hc
      | jsonPatch key patch => cases hc
      | insertBytesWithTtlAndTimestamp key value ttl => cases hc
      | stats => cases hc
      | _ => exact ⟨rfl, rfl⟩

theorem view_reply {c : StoreCall} {key : Bytes} (h : c.key? = some key)
    (s : Entries) :
    view (reply c s).2 =
      Function.update (view s) key ((onEntry c (cell s key)).2.map Prod.fst) := by
  funext k
  rw [view_eq_map_cell, (reply_eq_onEntry h s).2]
  by_cases hk : k = key
  · subst hk
    rw [Function.update_self, Function.update_self]
  · rw [Function.update_of_ne hk, Function.update_of_ne hk]
    rfl

theorem valueStore : ValueStore mapStore view where
  toCountsAsMap := countsAsMap
  insertWithTimestamp := by
    intro s key value
    exact ⟨s.insert key (value, none), rfl, view_insert s key (value, none)⟩
  insertBytesWithTimestamp := by
    intro s key value
    exact ⟨s.insert key (value, none), rfl, view_insert s key (value, none)⟩
  determined := by
    intro c s t hc h
    cases hkey : c.key? with
    | some key =>
        have hvalues := onEntry_values hc (a := cell s key) (b := cell t key)
          (congrFun h key)
        refine ⟨?_, ?_⟩
        · change (reply c s).1 = (reply c t).1
          rw [(reply_eq_onEntry hkey s).1, (reply_eq_onEntry hkey t).1, hvalues.1]
        · refine (view_reply hkey s).trans (Eq.trans ?_ (view_reply hkey t).symm)
          rw [hvalues.2]
          exact congrArg (fun v => Function.update v key _) h
    | none =>
        rcases touches_of_key?_eq_none hkey with ⟨start, stop, limit, rfl⟩ | rfl
        · refine ⟨?_, h⟩
          change Except.ok ((inRange s start stop).take limit.toNat) =
            Except.ok ((inRange t start stop).take limit.toNat)
          rw [inRange_congr fun k _ => congrFun h k]
        · cases hc

theorem numberStore : NumberStore mapStore view where
  toValueStore := valueStore
  atomicIncrement_text := by
    intro s key value delta h hlength
    rcases lookup_of_view h with ⟨ttl, hlookup⟩
    refine ⟨invalidOperation, s, ?_, rfl⟩
    simp [mapStore, reply, atomicIncrement, hlookup, hlength]

theorem countingStore : CountingStore mapStore view where
  toNumberStore := numberStore
  atomicIncrement_octets := by
    intro s key value delta h hlength
    rcases lookup_of_view h with ⟨ttl, hlookup⟩
    have hview := view_insert s key (i64ToLeBytes (i64FromLeBytes value + delta), ttl)
    refine ⟨_, _, ?_, hview⟩
    simp [mapStore, reply, atomicIncrement, hlookup, hlength]

end MapStore

end FeoxServer
