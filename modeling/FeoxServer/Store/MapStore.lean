import FeoxServer.Foundation.Words
import FeoxServer.Store.FeoxStore

/-!
# A store in memory

The simplest store: an association list from keys to values with an optional
time to live.  No key ever expires and no call fails for lack of resources.
-/

namespace FeoxServer

open Foundation

namespace MapStore

abbrev Entries : Type :=
  AList fun _ : Bytes => Bytes × Option UInt64

def keyNotFound : FeoxError :=
  { keyNotFound := true, text := "Key not found" }

def invalidOperation : FeoxError :=
  { keyNotFound := false, text := "Invalid operation" }

def view (entries : Entries) (key : Bytes) : Option Bytes :=
  (entries.lookup key).map Prod.fst

def present (entries : Entries) (key : Bytes) : Bool :=
  (entries.lookup key).isSome

def inRange (entries : Entries) (start stop : Bytes) : List (Bytes × Bytes) :=
  ((entries.entries.map fun e => (e.1, e.2.1)).filter fun e =>
    decide (start <= e.1) && decide (e.1 <= stop)).mergeSort
      fun a b => decide (a.1 <= b.1)

def stats (entries : Entries) : StoreStats where
  memoryUsage := 0
  cacheMemory := 0
  totalOperations := 0
  totalGets := 0
  totalInserts := 0
  cacheHits := 0
  cacheMisses := 0
  cacheHitRate := "0.00"
  recordCount := UInt64.ofNat entries.entries.length

def modify (entries : Entries) (key : Bytes)
    (f : Bytes × Option UInt64 -> Bytes × Option UInt64) :
    Except FeoxError Unit × Entries :=
  match entries.lookup key with
  | some entry => (.ok (), entries.insert key (f entry))
  | none => (.error keyNotFound, entries)

def compareAndSwap (entries : Entries) (key expected newValue : Bytes) :
    Except FeoxError Bool × Entries :=
  match entries.lookup key with
  | some entry =>
      if entry.1 = expected then
        (.ok true, entries.insert key (newValue, entry.2))
      else (.ok false, entries)
  | none => (.error keyNotFound, entries)

def atomicIncrement (entries : Entries) (key : Bytes) (delta : Int64) :
    Except FeoxError Int64 × Entries :=
  match entries.lookup key with
  | none => (.ok delta, entries.insert key (i64ToLeBytes delta, none))
  | some entry =>
      if entry.1.length = 8 then
        let value := i64FromLeBytes entry.1 + delta
        (.ok value, entries.insert key (i64ToLeBytes value, entry.2))
      else (.error invalidOperation, entries)

def reply : (c : StoreCall) -> Entries -> StoreAnswer c × Entries
  | .getBytes key, entries =>
      match view entries key with
      | some value => (.ok value, entries)
      | none => (.error keyNotFound, entries)
  | .containsKey key, entries => (present entries key, entries)
  | .insert key value, entries => (.ok (), entries.insert key (value, none))
  | .insertBytes key value, entries =>
      (.ok (!present entries key), entries.insert key (value, none))
  | .insertWithTimestamp key value, entries =>
      (.ok (), entries.insert key (value, none))
  | .insertBytesWithTimestamp key value, entries =>
      (.ok (), entries.insert key (value, none))
  | .insertBytesWithTtlAndTimestamp key value ttl, entries =>
      (.ok (), entries.insert key (value, some ttl))
  | .delete key, entries =>
      if present entries key then (.ok (), entries.erase key)
      else (.error keyNotFound, entries)
  | .compareAndSwap key expected newValue, entries =>
      compareAndSwap entries key expected newValue
  | .atomicIncrement key delta, entries => atomicIncrement entries key delta
  | .updateTtl key seconds, entries =>
      modify entries key fun entry => (entry.1, some seconds)
  | .getTtl key, entries =>
      match entries.lookup key with
      | some entry => (.ok entry.2, entries)
      | none => (.error keyNotFound, entries)
  | .persist key, entries => modify entries key fun entry => (entry.1, none)
  | .jsonPatch _ _, entries => (.error invalidOperation, entries)
  | .rangeQuery start stop limit, entries =>
      (.ok ((inRange entries start stop).take limit.toNat), entries)
  | .stats, entries => (stats entries, entries)

end MapStore

def mapStore : FeoxStore where
  State := MapStore.Entries
  reply := MapStore.reply

namespace MapStore

theorem view_insert (entries : Entries) (key : Bytes)
    (entry : Bytes × Option UInt64) :
    view (entries.insert key entry) =
      Function.update (view entries) key (some entry.1) := by
  funext k
  unfold view
  by_cases hk : k = key
  · subst hk
    simp
  · simp [hk]

theorem view_erase (entries : Entries) (key : Bytes) :
    view (entries.erase key) = Function.update (view entries) key none := by
  funext k
  unfold view
  by_cases hk : k = key
  · subst hk
    simp
  · simp [hk]

theorem lookup_of_view {entries : Entries} {key value : Bytes}
    (h : view entries key = some value) :
    exists ttl, entries.lookup key = some (value, ttl) := by
  unfold view at h
  rcases Option.map_eq_some_iff.mp h with ⟨entry, hlookup, hvalue⟩
  exact ⟨entry.2, by rw [hlookup, ← hvalue]⟩

theorem lookup_of_view_none {entries : Entries} {key : Bytes}
    (h : view entries key = none) : entries.lookup key = none :=
  Option.map_eq_none_iff.mp h

theorem behavesAsMap : BehavesAsMap mapStore view where
  getBytes_present := by
    intro s key value h
    refine ⟨s, ?_, rfl⟩
    simp [mapStore, reply, h]
  getBytes_absent := by
    intro s key h
    refine ⟨keyNotFound, s, ?_, rfl⟩
    simp [mapStore, reply, h]
  insert := by
    intro s key value
    exact ⟨s.insert key (value, none), rfl, view_insert s key (value, none)⟩
  delete_present := by
    intro s key value h
    rcases lookup_of_view h with ⟨ttl, hlookup⟩
    refine ⟨s.erase key, ?_, view_erase s key⟩
    simp [mapStore, reply, present, hlookup]
  delete_absent := by
    intro s key h
    refine ⟨keyNotFound, s, ?_, rfl⟩
    simp [mapStore, reply, present, lookup_of_view_none h]
  compareAndSwap_equal := by
    intro s key expected newValue h
    rcases lookup_of_view h with ⟨ttl, hlookup⟩
    refine ⟨s.insert key (newValue, ttl), ?_, view_insert s key _⟩
    simp [mapStore, reply, compareAndSwap, hlookup]
  compareAndSwap_differs := by
    intro s key value expected newValue h hne
    rcases lookup_of_view h with ⟨ttl, hlookup⟩
    refine ⟨s, ?_, rfl⟩
    simp [mapStore, reply, compareAndSwap, hlookup, hne]

theorem present_eq (entries : Entries) (key : Bytes) :
    present entries key = (view entries key).isSome := by
  unfold present view
  rw [Option.isSome_map]

theorem absent_eq (entries : Entries) (key : Bytes) :
    (!present entries key) = (view entries key).isNone := by
  rw [present_eq, Option.not_isSome]

theorem countsAsMap : CountsAsMap mapStore view where
  toBehavesAsMap := behavesAsMap
  containsKey := by
    intro s key
    exact ⟨s, Prod.ext (present_eq s key) rfl, rfl⟩
  insertBytes := by
    intro s key value
    refine ⟨s.insert key (value, none), ?_, view_insert s key (value, none)⟩
    exact Prod.ext (congrArg Except.ok (absent_eq s key)) rfl
  atomicIncrement_absent := by
    intro s key delta h
    refine ⟨s.insert key (i64ToLeBytes delta, none), ?_,
      view_insert s key (i64ToLeBytes delta, none)⟩
    simp [mapStore, reply, atomicIncrement, lookup_of_view_none h]
  atomicIncrement_present := by
    intro s key n delta h _
    rcases lookup_of_view h with ⟨ttl, hlookup⟩
    refine ⟨s.insert key (i64ToLeBytes (n + delta), ttl), ?_,
      view_insert s key (i64ToLeBytes (n + delta), ttl)⟩
    simp [mapStore, reply, atomicIncrement, hlookup]

end MapStore

end FeoxServer
