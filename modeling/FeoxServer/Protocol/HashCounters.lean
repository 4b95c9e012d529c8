import FeoxServer.Protocol.DerivedKeys
import FeoxServer.Protocol.Executor

/-!
# The counters of hashes

The changes of all counters are collected in one place and written together, so that a
command on one hash may write the counters of the others.  The number of fields of each
hash is still the counter in the store and the change that is pending for it.
-/

namespace FeoxServer

open Foundation Prog

namespace HashOperations

variable {S : FeoxStore} {P : Platform} {view : S.State -> Bytes -> Option Bytes}
  {H : Set Bytes} {sizes : Bytes -> Nat}

theorem run_callStore {α : Type} {c : StoreCall} {answer : StoreAnswer c}
    {s : S.State} {w : World S P} (h : S.reply c w.store = (answer, s))
    (f : StoreAnswer c -> ServerProg α) :
    (callStore c >>= f).run (server S P) w =
      (f answer).run (server S P) { w with store := s } := by
  change (f (S.reply c w.store).1).run (server S P)
    { w with store := (S.reply c w.store).2 } = _
  rw [h]

theorem eq_ofNat_of_toInt {count : Int64} {n : Nat} (h : count.toInt = n) :
    count = Int64.ofNat n := by
  have hlt : (n : Int) < 2 ^ 63 := h ▸ count.toInt_lt
  apply Int64.toInt_inj.mp
  rw [h, Int64.toInt_ofNat_of_lt (by omega)]

theorem increment_run (hS : CountsAsMap S view) {key : Bytes}
    {s : S.State} {counter : Int64} (delta : Int64) (h : Counter (view s) key counter)
    (hsum : InRange (counter.toInt + delta.toInt)) :
    exists r s', S.reply (.atomicIncrement (metaKey key) delta) s = (r, s') ∧
      Counter (view s') key (counter + delta) ∧
      forall k, k ≠ metaKey key -> view s' k = view s k := by
  rcases h with hsome | ⟨hnone, rfl⟩
  · rcases hS.atomicIncrement_present delta hsome hsum with ⟨s', hreply, hview⟩
    refine ⟨_, s', hreply, Or.inl ?_, fun k hk => ?_⟩
    · rw [hview, Function.update_self]
    · rw [hview, Function.update_of_ne hk]
  · rcases hS.atomicIncrement_absent delta hnone with ⟨s', hreply, hview⟩
    refine ⟨_, s', hreply, Or.inl ?_, fun k hk => ?_⟩
    · rw [hview, Function.update_self, Int64.zero_add]
    · rw [hview, Function.update_of_ne hk]

/-- Changes are pending for hashes of `H` only, and with them the counters give the
sizes. -/
structure Tallies (view : S.State -> Bytes -> Option Bytes) (H : Set Bytes)
    (sizes : Bytes -> Nat) (w : World S P) : Prop where
  only : forall n, n ∈ w.tracker -> exists key, key ∈ H ∧ n = metaKey key
  sum : forall key, key ∈ H -> exists counter, Counter (view w.store) key counter ∧
    0 <= counter.toInt ∧ counter.toInt + (pending key w).toInt = sizes key

theorem Tallies.congr {w : World S P} (h : Tallies view H sizes w) (w' : World S P)
    (hview : forall key, key ∈ H -> view w'.store (metaKey key) = view w.store (metaKey key))
    (htracker : w'.tracker = w.tracker) : Tallies view H sizes w' := by
  refine ⟨by rw [htracker]; exact h.only, fun key hkey => ?_⟩
  unfold Counter pending
  rw [hview key hkey, htracker]
  exact h.sum key hkey

/-!
# Flushing
-/

/-- With the updates that are still to come the counter gives the size. -/
structure Outstanding (updates : List (Bytes × Int64)) (key : Bytes) (counter : Int64)
    (size : Nat) : Prop where
  listed : forall delta, (metaKey key, delta) ∈ updates ->
    counter.toInt + delta.toInt = size
  unlisted : (forall delta, (metaKey key, delta) ∉ updates) -> counter.toInt = size

theorem Outstanding.later {updates : List (Bytes × Int64)} {key n : Bytes} {delta counter : Int64}
    {size : Nat} (h : Outstanding ((n, delta) :: updates) key counter size)
    (hne : metaKey key ≠ n) : Outstanding updates key counter size where
  listed delta' hmem := h.listed delta' (List.mem_cons_of_mem _ hmem)
  unlisted hnone := h.unlisted fun delta' hmem => by
    rcases List.mem_cons.mp hmem with heq | hmem
    · exact hne (congrArg Prod.fst heq)
    · exact hnone delta' hmem

theorem applyUpdates_run (hS : CountsAsMap S view) (hsizes : forall key, key ∈ H ->
      sizes key < 2 ^ 63) (updates : List (Bytes × Int64))
    (hnodup : (updates.map Prod.fst).Nodup)
    (honly : forall update, update ∈ updates ->
      exists key, key ∈ H ∧ update.1 = metaKey key) {w : World S P}
    (h : forall key, key ∈ H -> exists counter, Counter (view w.store) key counter ∧
      Outstanding updates key counter (sizes key)) :
    exists s', (applyUpdates updates).run (server S P) w =
        some ((), { w with store := s' }) ∧
      (forall key, key ∈ H -> Counter (view s') key (Int64.ofNat (sizes key))) ∧
      forall n, (forall key, key ∈ H -> n ≠ metaKey key) ->
        view s' n = view w.store n := by
  induction updates generalizing w with
  | nil =>
      refine ⟨w.store, rfl, fun key hkey => ?_, fun _ _ => rfl⟩
      rcases h key hkey with ⟨counter, hcounter, howes⟩
      rw [← eq_ofNat_of_toInt (howes.unlisted fun _ => List.not_mem_nil)]
      exact hcounter
  | cons update updates ih =>
      rcases update with ⟨n, delta⟩
      rw [List.map_cons, List.nodup_cons] at hnodup
      rcases honly (n, delta) List.mem_cons_self with ⟨own, hown, hn⟩
      change n = metaKey own at hn
      subst hn
      rcases h own hown with ⟨counter, hcounter, howes⟩
      have hsum := howes.listed delta List.mem_cons_self
      have hsize := hsizes own hown
      have hrange : InRange (counter.toInt + delta.toInt) := by
        rw [hsum]
        constructor <;> omega
      -- The counter has its size behind this update, and the others still owe theirs.
      have hlater : forall s1, Counter (view s1) own (counter + delta) ->
          (forall k, k ≠ metaKey own -> view s1 k = view w.store k) ->
            forall key, key ∈ H -> exists counter, Counter (view s1) key counter ∧
              Outstanding updates key counter (sizes key) := by
        intro s1 hcounter1 hothers key hkey
        by_cases heq : key = own
        · subst heq
          refine ⟨counter + delta, hcounter1, fun delta' hmem => ?_, fun _ => ?_⟩
          · exact absurd (List.mem_map_of_mem hmem) hnodup.1
          · rw [toInt_add_of_inRange hrange]
            exact hsum
        · rcases h key hkey with ⟨counter', hcounter', howes'⟩
          have hne : metaKey key ≠ metaKey own := fun h => heq (metaKey_injective h)
          refine ⟨counter', ?_, howes'.later hne⟩
          unfold Counter
          rw [hothers _ hne]
          exact hcounter'
      have hrest := fun s1 hnext => ih hnodup.2
        (fun update hmem => honly update (List.mem_cons_of_mem _ hmem))
        (w := { w with store := s1 }) hnext
      by_cases hdelta : delta = 0
      · subst hdelta
        rw [Int64.add_zero] at hlater
        rcases hrest w.store (hlater w.store hcounter fun _ _ => rfl) with
          ⟨s', hrun, hcounters, hothers⟩
        refine ⟨s', ?_, hcounters, hothers⟩
        rw [applyUpdates, if_neg (not_not.mpr rfl)]
        exact hrun
      · rcases increment_run hS delta hcounter hrange with
          ⟨r, s1, hreply, hcounter1, hothers1⟩
        rcases hrest s1 (hlater s1 hcounter1 hothers1) with
          ⟨s', hrun, hcounters, hothers⟩
        refine ⟨s', ?_, hcounters, fun n hn => ?_⟩
        · rw [applyUpdates, if_pos hdelta, run_callStore hreply]
          exact hrun
        · exact (hothers n hn).trans (hothers1 n (hn own hown))

theorem mem_entries_iff {tracker : MetadataTracker} {n : Bytes} {delta : Int64} :
    (n, delta) ∈ (tracker.entries.map fun e => (e.1, e.2)) <->
      tracker.lookup n = some delta := by
  rw [List.mem_map]
  constructor
  · rintro ⟨⟨k, d⟩, hmem, heq⟩
    cases heq
    exact AList.mem_lookup_iff.mpr hmem
  · intro hlookup
    exact ⟨⟨n, delta⟩, AList.mem_lookup_iff.mp hlookup, rfl⟩

theorem flushMetadata_tallies (hS : CountsAsMap S view) {w : World S P}
    (h : Tallies view H sizes w) (hsizes : forall key, key ∈ H -> sizes key < 2 ^ 63) :
    exists w', flushMetadata.run (server S P) w = some ((), w') ∧
      Tallies view H sizes w' ∧ w'.tracker = ∅ ∧
      forall n, (forall key, key ∈ H -> n ≠ metaKey key) ->
        view w'.store n = view w.store n := by
  have hnodup : ((w.tracker.entries.map fun e => (e.1, e.2)).map Prod.fst).Nodup := by
    rw [List.map_map]
    exact w.tracker.nodupKeys
  have howes : forall key, key ∈ H -> exists counter, Counter (view w.store) key counter ∧
      Outstanding (w.tracker.entries.map fun e => (e.1, e.2)) key counter (sizes key) := by
    intro key hkey
    rcases h.sum key hkey with ⟨counter, hcounter, _, hsum⟩
    refine ⟨counter, hcounter, fun delta hmem => ?_, fun hnone => ?_⟩
    · rw [← hsum, pending, mem_entries_iff.mp hmem]
      rfl
    · have hlookup : w.tracker.lookup (metaKey key) = none := by
        refine Option.eq_none_iff_forall_ne_some.mpr fun delta hdelta => ?_
        exact hnone delta (mem_entries_iff.mpr hdelta)
      rw [← hsum, pending, hlookup]
      exact (add_zero _).symm
  have honly : forall update, update ∈ (w.tracker.entries.map fun e => (e.1, e.2)) ->
      exists key, key ∈ H ∧ update.1 = metaKey key := by
    rintro ⟨n, delta⟩ hmem
    refine h.only n (AList.lookup_isSome.mp ?_)
    rw [mem_entries_iff.mp hmem]
    rfl
  rcases applyUpdates_run hS hsizes _ hnodup honly
    (w := { w with tracker := ∅, platform := (P.reply .markFlush w.platform).2 }) howes with
    ⟨s', hrun, hcounters, hothers⟩
  refine ⟨_, hrun, ⟨fun n hn => absurd hn (AList.notMem_empty n), fun key hkey => ?_⟩,
    rfl, hothers⟩
  have hint : (Int64.ofNat (sizes key)).toInt = sizes key :=
    Int64.toInt_ofNat_of_lt (hsizes key hkey)
  refine ⟨Int64.ofNat (sizes key), hcounters key hkey, ?_, ?_⟩
  · rw [hint]
    omega
  · rw [hint]
    exact add_zero _

theorem updateCount_tallies (hS : CountsAsMap S view) {key : Bytes} (hkey : key ∈ H)
    {w : World S P} (h : Tallies view H sizes w) (n : Nat) (delta : Int64)
    (hn : (n : Int) = sizes key + delta.toInt)
    (hsizes : forall k, k ∈ H -> Function.update sizes key n k < 2 ^ 63) :
    exists w', (updateCount key delta).run (server S P) w = some ((), w') ∧
      Tallies view H (Function.update sizes key n) w' ∧
      forall k, (forall key, key ∈ H -> k ≠ metaKey key) ->
        view w'.store k = view w.store k := by
  have hsize := hsizes key hkey
  rw [Function.update_self] at hsize
  have hadded : Tallies view H (Function.update sizes key n)
      ({ w with tracker := w.tracker.addUpdate (metaKey key) delta } : World S P) := by
    refine ⟨fun k hk => ?_, fun k hk => ?_⟩
    · rcases (AList.mem_insert _).mp hk with rfl | hk
      · exact ⟨key, hkey, rfl⟩
      · exact h.only k hk
    · rcases h.sum k hk with ⟨counter, hcounter, hpos, hsum⟩
      refine ⟨counter, hcounter, hpos, ?_⟩
      by_cases heq : k = key
      · subst heq
        have hlt := counter.toInt_lt
        have hpending : pending k
            ({ w with tracker := w.tracker.addUpdate (metaKey k) delta } : World S P) =
              pending k w + delta := by
          unfold pending MetadataTracker.addUpdate
          simp only [AList.lookup_insert, Option.getD_some]
        rw [Function.update_self, hpending,
          toInt_add_of_inRange (by constructor <;> omega)]
        omega
      · have hpending : pending k
            ({ w with tracker := w.tracker.addUpdate (metaKey key) delta } : World S P) =
              pending k w := by
          unfold pending MetadataTracker.addUpdate
          rw [AList.lookup_insert_ne fun h => heq (metaKey_injective h)]
        rw [Function.update_of_ne heq, hpending]
        exact hsum
  have hstart : (updateCount key delta).run (server S P) w =
      (if decide (MetadataTracker.maxBatchSize <=
            (w.tracker.addUpdate (metaKey key) delta).entries.length) ||
          (P.reply .flushDue w.platform).1 then flushMetadata
        else pure ()).run (server S P)
        { w with
          tracker := w.tracker.addUpdate (metaKey key) delta
          platform := (P.reply .flushDue w.platform).2 } := rfl
  rw [hstart]
  split
  · rcases flushMetadata_tallies hS (w := { w with
      tracker := w.tracker.addUpdate (metaKey key) delta
      platform := (P.reply .flushDue w.platform).2 })
      (hadded.congr _ (fun _ _ => rfl) rfl) hsizes with ⟨w', hrun, htallies, _, hothers⟩
    exact ⟨w', hrun, htallies, hothers⟩
  · exact ⟨_, rfl, hadded.congr _ (fun _ _ => rfl) rfl, fun _ _ => rfl⟩

/-!
# Beside the fields of one hash
-/

def FieldsApart (H : Set Bytes) (key : Bytes) : Prop :=
  forall k, k ∈ H -> metaKey k ∉ fieldKeys key

variable {key : Bytes} {m : FieldMap}

theorem Tallies.fields (hfields : FieldsApart H key) {w : World S P}
    (h : Tallies view H sizes w) {s : S.State}
    (hothers : forall k, k ∉ fieldKeys key -> view s k = view w.store k) :
    Tallies view H sizes { w with store := s } :=
  h.congr _ (fun k hk => hothers _ (hfields k hk)) rfl

theorem update_lt {n : Nat} (h : forall k, k ∈ H -> sizes k < 2 ^ 63) (hn : n < 2 ^ 63) :
    forall k, k ∈ H -> Function.update sizes key n k < 2 ^ 63 := by
  intro k hk
  by_cases heq : k = key
  · rw [heq, Function.update_self]
    exact hn
  · rw [Function.update_of_ne heq]
    exact h k hk

theorem updateCount_fields (hS : CountsAsMap S view) (hkey : key ∈ H)
    (hfields : FieldsApart H key) (hsizes : forall k, k ∈ H -> sizes k < 2 ^ 63)
    {n : Nat} {w : World S P} (hstored : Stored (view w.store) key m)
    (h : Tallies view H (Function.update sizes key n) w) (n' : Nat) (delta : Int64)
    (hn : (n' : Int) = n + delta.toInt) (hn' : n' < 2 ^ 63) :
    exists w', (updateCount key delta).run (server S P) w = some ((), w') ∧
      Stored (view w'.store) key m ∧
      Tallies view H (Function.update sizes key n') w' := by
  have hupdate : Function.update (Function.update sizes key n) key n' =
      Function.update sizes key n' := Function.update_idem _ _ _
  rcases updateCount_tallies hS hkey h n' delta
    (by rw [Function.update_self]; exact hn)
    (by rw [hupdate]; exact update_lt hsizes hn') with ⟨w', hrun, htallies, hothers⟩
  rw [hupdate] at htallies
  refine ⟨w', hrun, fun field => ?_, htallies⟩
  refine (hothers _ fun k hk heq => ?_).trans (hstored field)
  exact hfields k hk ⟨field, heq⟩

theorem parseMetadata_octets (n : Int64) : parseMetadata (i64ToLeBytes n) = n := by
  unfold parseMetadata
  rw [length_i64ToLeBytes, if_neg (by omega),
    List.take_of_length_le (by rw [length_i64ToLeBytes]), i64FromLeBytes_toLeBytes]

end HashOperations

end FeoxServer
