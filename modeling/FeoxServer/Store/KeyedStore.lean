import FeoxServer.Foundation.Cells
import FeoxServer.Store.MapStore

/-!
# One cell for every key

A call works on the entry of the key that it names; a range query reads the
entries of its range, and the statistics depend on all of them.
-/

namespace FeoxServer

open Foundation

namespace StoreCall

def key? : StoreCall -> Option Bytes
  | getBytes key | containsKey key | insert key _ | insertBytes key _
  | insertWithTimestamp key _ | insertBytesWithTimestamp key _
  | insertBytesWithTtlAndTimestamp key _ _ | delete key
  | compareAndSwap key _ _ | atomicIncrement key _ | updateTtl key _
  | getTtl key | persist key | jsonPatch key _ => some key
  | rangeQuery _ _ _ | stats => none

def touches : StoreCall -> Set Bytes
  | rangeQuery start stop _ => { key | start <= key ∧ key <= stop }
  | stats => Set.univ
  | c => { key | c.key? = some key }

def writes : StoreCall -> Set Bytes
  | getBytes _ | containsKey _ | getTtl _ | rangeQuery _ _ _ | stats => ∅
  | c => { key | c.key? = some key }

theorem touches_eq_singleton {c : StoreCall} {key : Bytes}
    (h : c.key? = some key) : c.touches = {key} := by
  have hmem : forall k, c.key? = some k <-> k = key := by
    intro k
    rw [h, Option.some_inj, eq_comm]
  cases c with
  | rangeQuery start stop limit => cases h
  | stats => cases h
  | _ => exact Set.ext hmem

end StoreCall

/-- A store that keeps one entry for every key. -/
abbrev KeyedStore {ε : Type} (S : FeoxStore) (cell : S.State -> Bytes -> ε) :
    Prop :=
  Celled S StoreCall.touches cell

namespace MapStore

/-- The entry of a key. -/
def cell (entries : Entries) (key : Bytes) : Option (Bytes × Option UInt64) :=
  entries.lookup key

theorem view_eq_of_cell {s t : Entries} {key : Bytes}
    (h : cell s key = cell t key) : view s key = view t key := by
  unfold view
  exact congrArg (Option.map Prod.fst) h

theorem cell_insert (entries : Entries) (key : Bytes)
    (entry : Bytes × Option UInt64) :
    cell (entries.insert key entry) =
      Function.update (cell entries) key (some entry) := by
  funext k
  unfold cell
  by_cases hk : k = key
  · subst hk
    simp
  · simp [hk]

theorem cell_erase (entries : Entries) (key : Bytes) :
    cell (entries.erase key) = Function.update (cell entries) key none := by
  funext k
  unfold cell
  by_cases hk : k = key
  · subst hk
    simp
  · simp [hk]

/-!
# Range queries
-/

theorem mem_inRange {entries : Entries} {start stop key value : Bytes} :
    (key, value) ∈ inRange entries start stop <->
      (start <= key ∧ key <= stop) ∧ view entries key = some value := by
  have hmem : (exists ttl, Sigma.mk key (value, ttl) ∈ entries.entries) <->
      view entries key = some value := by
    constructor
    · rintro ⟨ttl, hentry⟩
      have hlookup : entries.lookup key = some (value, ttl) :=
        AList.mem_lookup_iff.mpr hentry
      rw [view, hlookup]
      rfl
    · intro h
      rcases lookup_of_view h with ⟨ttl, hlookup⟩
      exact ⟨ttl, AList.mem_lookup_iff.mp hlookup⟩
  rw [← hmem]
  unfold inRange
  rw [List.mem_mergeSort, List.mem_filter, List.mem_map, Bool.and_eq_true,
    decide_eq_true_iff, decide_eq_true_iff]
  constructor
  · rintro ⟨⟨⟨k, v, ttl⟩, hentry, heq⟩, hrange⟩
    cases heq
    exact ⟨hrange, ttl, hentry⟩
  · rintro ⟨hrange, ttl, hentry⟩
    exact ⟨⟨⟨key, value, ttl⟩, hentry, rfl⟩, hrange⟩

theorem nodup_inRange (entries : Entries) (start stop : Bytes) :
    (inRange entries start stop).Nodup := by
  unfold inRange
  rw [(List.mergeSort_perm _ _).nodup_iff]
  refine List.Nodup.filter _ (List.Nodup.of_map Prod.fst ?_)
  rw [List.map_map]
  exact entries.nodupKeys

theorem sorted_inRange (entries : Entries) (start stop : Bytes) :
    (inRange entries start stop).Pairwise fun a b => a.1 <= b.1 := by
  have hsorted := @List.pairwise_mergeSort (Bytes × Bytes)
    (fun a b => decide (a.1 <= b.1))
    (fun a b c hab hbc => decide_eq_true
      (List.le_trans (of_decide_eq_true hab) (of_decide_eq_true hbc)))
    (fun a b => by
      rw [Bool.or_eq_true, decide_eq_true_iff, decide_eq_true_iff]
      exact List.le_total a.1 b.1)
    (((entries.entries.map fun e => (e.1, e.2.1)).filter fun e =>
      decide (start <= e.1) && decide (e.1 <= stop)))
  exact hsorted.imp fun h => of_decide_eq_true h

theorem inRange_congr {s t : Entries} {start stop : Bytes}
    (h : Set.EqOn (view s) (view t) { key | start <= key ∧ key <= stop }) :
    inRange s start stop = inRange t start stop := by
  have hmem : forall pair, pair ∈ inRange s start stop <->
      pair ∈ inRange t start stop := by
    rintro ⟨key, value⟩
    rw [mem_inRange, mem_inRange]
    constructor
    · rintro ⟨hrange, hview⟩
      exact ⟨hrange, (h hrange).symm.trans hview⟩
    · rintro ⟨hrange, hview⟩
      exact ⟨hrange, (h hrange).trans hview⟩
  refine List.Perm.eq_of_pairwise ?_ (sorted_inRange s start stop)
    (sorted_inRange t start stop)
    ((List.perm_ext_iff_of_nodup (nodup_inRange s start stop)
      (nodup_inRange t start stop)).mpr hmem)
  -- Two pairs of one list with the same key are the same pair.
  rintro ⟨k, v⟩ ⟨k', v'⟩ ha hb hle hge
  obtain rfl : k = k' := List.le_antisymm hle hge
  have hv := (mem_inRange.mp ((hmem _).mp ha)).2
  rw [(mem_inRange.mp hb).2] at hv
  cases hv
  rfl

theorem stats_congr {s t : Entries} (h : cell s = cell t) :
    stats s = stats t := by
  have hperm : s.entries.Perm t.entries :=
    List.lookup_ext s.nodupKeys t.nodupKeys fun key entry => by
      change entry ∈ cell s key <-> entry ∈ cell t key
      rw [h]
  unfold stats
  rw [hperm.length_eq]

/-!
# The cells of the store in memory
-/

abbrev Entry : Type :=
  Option (Bytes × Option UInt64)

/-- The value of an entry. -/
def found (entry : Entry) : Except FeoxError (Bytes × Option UInt64) :=
  match entry with
  | some e => .ok e
  | none => .error keyNotFound

/-- What a call on one key answers from the entry of the key, and the entry it
leaves. -/
def onEntry : (c : StoreCall) -> Entry -> StoreAnswer c × Entry
  | .getBytes _, entry => ((found entry).map Prod.fst, entry)
  | .containsKey _, entry => (entry.isSome, entry)
  | .insert _ value, _ => (.ok (), some (value, none))
  | .insertBytes _ value, entry => (.ok !entry.isSome, some (value, none))
  | .insertWithTimestamp _ value, _ => (.ok (), some (value, none))
  | .insertBytesWithTimestamp _ value, _ => (.ok (), some (value, none))
  | .insertBytesWithTtlAndTimestamp _ value ttl, _ =>
      (.ok (), some (value, some ttl))
  | .delete _, entry => ((found entry).map fun _ => (), none)
  | .compareAndSwap _ expected newValue, some e =>
      if e.1 = expected then (.ok true, some (newValue, e.2))
      else (.ok false, some e)
  | .compareAndSwap _ _ _, none => (.error keyNotFound, none)
  | .atomicIncrement _ delta, none =>
      (.ok delta, some (i64ToLeBytes delta, none))
  | .atomicIncrement _ delta, some e =>
      if e.1.length = 8 then
        (.ok (i64FromLeBytes e.1 + delta),
          some (i64ToLeBytes (i64FromLeBytes e.1 + delta), e.2))
      else (.error invalidOperation, some e)
  | .updateTtl _ seconds, entry =>
      ((found entry).map fun _ => (), entry.map fun e => (e.1, some seconds))
  | .getTtl _, entry => ((found entry).map Prod.snd, entry)
  | .persist _, entry =>
      ((found entry).map fun _ => (), entry.map fun e => (e.1, none))
  | .jsonPatch _ _, entry => (.error invalidOperation, entry)
  | .rangeQuery _ _ _, entry => (.ok [], entry)
  | .stats, entry => (MapStore.stats ∅, entry)

theorem reply_eq_onEntry {c : StoreCall} {key : Bytes} (h : c.key? = some key)
    (s : Entries) :
    (reply c s).1 = (onEntry c (cell s key)).1 ∧
      cell (reply c s).2 =
        Function.update (cell s) key (onEntry c (cell s key)).2 := by
  have hsame : Function.update (cell s) key (cell s key) = cell s :=
    Function.update_eq_self key (cell s)
  cases c with
  | rangeQuery start stop limit => cases h
  | stats => cases h
  | insert k value =>
      cases h
      exact ⟨rfl, cell_insert s key (value, none)⟩
  | insertBytes k value =>
      cases h
      exact ⟨rfl, cell_insert s key (value, none)⟩
  | insertWithTimestamp k value =>
      cases h
      exact ⟨rfl, cell_insert s key (value, none)⟩
  | insertBytesWithTimestamp k value =>
      cases h
      exact ⟨rfl, cell_insert s key (value, none)⟩
  | insertBytesWithTtlAndTimestamp k value ttl =>
      cases h
      exact ⟨rfl, cell_insert s key (value, some ttl)⟩
  | jsonPatch k patch =>
      cases h
      exact ⟨rfl, hsame.symm⟩
  | compareAndSwap k expected newValue =>
      cases h
      cases hentry : cell s key with
      | none =>
          have hlookup : s.lookup key = none := hentry
          rw [hentry] at hsame
          simp [reply, onEntry, compareAndSwap, hlookup, hsame]
      | some entry =>
          have hlookup : s.lookup key = some entry := hentry
          rw [hentry] at hsame
          simp only [reply, onEntry, compareAndSwap, hlookup]
          split
          · exact ⟨rfl, cell_insert s key (newValue, entry.2)⟩
          · exact ⟨rfl, hsame.symm⟩
  | atomicIncrement k delta =>
      cases h
      cases hentry : cell s key with
      | none =>
          have hlookup : s.lookup key = none := hentry
          simp [reply, onEntry, atomicIncrement, hlookup, cell_insert]
      | some entry =>
          have hlookup : s.lookup key = some entry := hentry
          rw [hentry] at hsame
          simp only [reply, onEntry, atomicIncrement, hlookup]
          split
          · exact ⟨rfl, cell_insert s key _⟩
          · exact ⟨rfl, hsame.symm⟩
  | _ k =>
      cases h
      cases hentry : cell s key with
      | none =>
          have hlookup : s.lookup key = none := hentry
          rw [hentry] at hsame
          simp [reply, onEntry, found, present, view, modify, hlookup, hsame,
            Except.map]
      | some entry =>
          have hlookup : s.lookup key = some entry := hentry
          rw [hentry] at hsame
          simp [reply, onEntry, found, present, view, modify, hlookup, hsame,
            cell_insert, cell_erase, Except.map]

theorem touches_of_key?_eq_none {c : StoreCall} (h : c.key? = none) :
    (exists start stop limit, c = .rangeQuery start stop limit) ∨ c = .stats := by
  cases c with
  | rangeQuery start stop limit => exact Or.inl ⟨start, stop, limit, rfl⟩
  | stats => exact Or.inr rfl
  | _ => cases h

theorem keyedStore : KeyedStore mapStore cell where
  answer := by
    intro c s t h
    cases hkey : c.key? with
    | some key =>
        rw [StoreCall.touches_eq_singleton hkey] at h
        change (reply c s).1 = (reply c t).1
        rw [(reply_eq_onEntry hkey s).1, (reply_eq_onEntry hkey t).1, h rfl]
    | none =>
        rcases touches_of_key?_eq_none hkey with ⟨start, stop, limit, rfl⟩ | rfl
        · change Except.ok ((inRange s start stop).take limit.toNat) =
            Except.ok ((inRange t start stop).take limit.toNat)
          rw [inRange_congr fun k hk => view_eq_of_cell (h hk)]
        · exact stats_congr (funext fun k => h (Set.mem_univ k))
  own := by
    intro c s t h k hk
    cases hkey : c.key? with
    | some key =>
        rw [StoreCall.touches_eq_singleton hkey] at h hk
        obtain rfl := Set.mem_singleton_iff.mp hk
        change cell (reply c s).2 k = cell (reply c t).2 k
        rw [(reply_eq_onEntry hkey s).2, (reply_eq_onEntry hkey t).2,
          Function.update_self, Function.update_self, h rfl]
    | none =>
        rcases touches_of_key?_eq_none hkey with ⟨start, stop, limit, rfl⟩ | rfl
        · exact h hk
        · exact h hk
  others := by
    intro c s k hk
    cases hkey : c.key? with
    | some key =>
        rw [StoreCall.touches_eq_singleton hkey] at hk
        change cell (reply c s).2 k = cell s k
        rw [(reply_eq_onEntry hkey s).2,
          Function.update_of_ne (Set.mem_singleton_iff.not.mp hk)]
    | none =>
        rcases touches_of_key?_eq_none hkey with ⟨start, stop, limit, rfl⟩ | rfl
        · rfl
        · rfl

end MapStore

end FeoxServer
