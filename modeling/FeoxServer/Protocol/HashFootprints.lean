import FeoxServer.Protocol.Footprints

/-!
# What hash commands change

Besides the fields of its hash, a command may write the pending changes of all
counters.  A key is undisturbed when its entry, with the change that is pending
for it, stays what it was.
-/

namespace FeoxServer

open Foundation Prog

namespace HashOperations

variable {ε : Type} {S : FeoxStore} {P : Platform}

def bumped (cell : S.State -> Bytes -> ε) (s : S.State) (key : Bytes)
    (delta : Int64) : ε :=
  if delta ≠ 0 then cell (S.reply (.atomicIncrement key delta) s).2 key
  else cell s key

def settled (cell : S.State -> Bytes -> ε) (w : World S P) (key : Bytes) : ε :=
  bumped cell w.store key ((w.tracker.lookup key).getD 0)

def Quiet (key : Bytes) (w : World S P) : Prop :=
  (w.tracker.lookup key).getD 0 = 0

variable {cell : S.State -> Bytes -> ε}

theorem bumped_zero (s : S.State) (key : Bytes) :
    bumped cell s key 0 = cell s key :=
  if_neg fun h => h rfl

theorem Quiet.settled_eq {key : Bytes} {w : World S P} (h : Quiet key w) :
    settled cell w key = cell w.store key := by
  unfold settled
  rw [h, bumped_zero]

theorem bumped_congr (hS : KeyedStore S cell) {s t : S.State} {key : Bytes}
    (h : cell s key = cell t key) (delta : Int64) :
    bumped cell s key delta = bumped cell t key delta := by
  unfold bumped
  split
  · refine hS.own (.atomicIncrement key delta) ?_ rfl
    rintro k hk
    cases hk
    exact h
  · exact h

theorem quiet_of_empty {w : World S P} (h : w.tracker = ∅) (key : Bytes) :
    Quiet key w := by
  unfold Quiet
  rw [h]
  rfl

/-!
# Flushing
-/

def changeOf (updates : List (Bytes × Int64)) (key : Bytes) : Int64 :=
  (updates.lookup key).getD 0

theorem applyUpdates_cells (hS : KeyedStore S cell)
    (updates : List (Bytes × Int64)) (hnodup : (updates.map Prod.fst).Nodup)
    (w : World S P) :
    exists s', (applyUpdates updates).run (server S P) w =
        some ((), { w with store := s' }) ∧
      forall key, cell s' key = bumped cell w.store key (changeOf updates key) := by
  induction updates generalizing w with
  | nil => exact ⟨w.store, rfl, fun key => (bumped_zero w.store key).symm⟩
  | cons update updates ih =>
      rcases update with ⟨k, delta⟩
      rw [List.map_cons, List.nodup_cons] at hnodup
      have hrest : changeOf updates k = 0 := by
        unfold changeOf
        rw [List.lookup_eq_none_iff.mpr]
        · rfl
        · intro u hu
          have hne : k ≠ u.1 := fun heq =>
            hnodup.1 (List.mem_map.mpr ⟨u, hu, heq.symm⟩)
          exact bne_iff_ne.mpr hne
      -- The store after the first update: only the entry of `k` has changed.
      have hfirst : exists s1, (applyUpdates ((k, delta) :: updates)).run (server S P) w =
            (applyUpdates updates).run (server S P) { w with store := s1 } ∧
          cell s1 k = bumped cell w.store k delta ∧
          forall key, key ≠ k -> cell s1 key = cell w.store key := by
        by_cases hdelta : delta = 0
        · refine ⟨w.store, ?_, ?_, fun key _ => rfl⟩
          · rw [applyUpdates, if_neg (not_not.mpr hdelta)]
          · rw [hdelta, bumped_zero]
        · refine ⟨(S.reply (.atomicIncrement k delta) w.store).2, ?_, ?_, ?_⟩
          · rw [applyUpdates, if_pos hdelta]
            rfl
          · exact (if_pos hdelta).symm
          · intro key hkey
            exact hS.others _ _ fun hmem => hkey (Option.some.inj hmem).symm
      rcases hfirst with ⟨s1, hrun, hown, hothers⟩
      rcases ih hnodup.2 { w with store := s1 } with ⟨s', hrun', hcells⟩
      refine ⟨s', hrun.trans hrun', fun key => ?_⟩
      rw [hcells]
      by_cases hkey : key = k
      · subst hkey
        rw [hrest, bumped_zero, hown]
        simp [changeOf]
      · have hne : (key == k) = false := beq_eq_false_iff_ne.mpr hkey
        have hchange : changeOf ((k, delta) :: updates) key = changeOf updates key := by
          unfold changeOf
          rw [List.lookup_cons, hne]
        rw [hchange]
        exact bumped_congr hS (hothers key hkey) _

theorem changeOf_entries (tracker : MetadataTracker) (key : Bytes) :
    changeOf (tracker.entries.map fun e => (e.1, e.2)) key =
      (tracker.lookup key).getD 0 := by
  unfold changeOf AList.lookup
  congr 1
  induction tracker.entries with
  | nil => rfl
  | cons entry entries ih =>
      rcases entry with ⟨k, delta⟩
      rw [List.map_cons, List.lookup_cons]
      by_cases hkey : key = k
      · subst hkey
        simp
      · rw [beq_eq_false_iff_ne.mpr hkey, ih, List.dlookup_cons_ne _ _ hkey]

theorem flushMetadata_cells (hS : KeyedStore S cell) (w : World S P) :
    exists w', flushMetadata.run (server S P) w = some ((), w') ∧
      w'.tracker = ∅ ∧ forall key, cell w'.store key = settled cell w key := by
  have hnodup : ((w.tracker.entries.map fun e => (e.1, e.2)).map Prod.fst).Nodup := by
    rw [List.map_map]
    exact w.tracker.nodupKeys
  rcases applyUpdates_cells hS _ hnodup
    ({ w with tracker := ∅, platform := (P.reply .markFlush w.platform).2 } :
      World S P) with ⟨s', hrun, hcells⟩
  refine ⟨_, hrun, rfl, fun key => ?_⟩
  rw [hcells, changeOf_entries]
  rfl

/-!
# Keys that stay undisturbed
-/

/-- The settled entry of the key is the same in both, and no change becomes
pending for it. -/
structure Undisturbed (cell : S.State -> Bytes -> ε) (key : Bytes)
    (w w' : World S P) : Prop where
  entry : settled cell w' key = settled cell w key
  quiet : Quiet key w -> Quiet key w'

theorem Undisturbed.refl (key : Bytes) (w : World S P) :
    Undisturbed cell key w w :=
  ⟨rfl, id⟩

theorem Undisturbed.trans {key : Bytes} {w w1 w2 : World S P}
    (h : Undisturbed cell key w w1) (h' : Undisturbed cell key w1 w2) :
    Undisturbed cell key w w2 :=
  ⟨h'.entry.trans h.entry, fun hq => h'.quiet (h.quiet hq)⟩

theorem Undisturbed.cell_eq {key : Bytes} {w w' : World S P}
    (h : Undisturbed cell key w w') (hq : Quiet key w) :
    cell w'.store key = cell w.store key := by
  have hafter : settled cell w' key = cell w'.store key := (h.quiet hq).settled_eq
  rw [← hafter, h.entry, hq.settled_eq]

/-- The program disturbs no key outside `K`. -/
abbrev Spares {α : Type} (P : Platform) (cell : S.State -> Bytes -> ε)
    (K : Set Bytes) (p : ServerProg α) : Prop :=
  forall key, key ∉ K -> Within (server S P) (Undisturbed cell key) p

variable {K : Set Bytes}

theorem spares_done {α : Type} (a : α) : Spares P cell K (done a) :=
  fun key _ => within_done (Undisturbed.refl key) a

theorem spares_bind {α β : Type} {p : ServerProg α} {f : α -> ServerProg β}
    (hp : Spares P cell K p) (hf : forall a, Spares P cell K (f a)) :
    Spares P cell K (p >>= f) :=
  fun key hkey => within_bind Undisturbed.trans (hp key hkey) fun a => hf a key hkey

theorem spares_callStore (hS : KeyedStore S cell) {c : StoreCall} (hc : c.touches ⊆ K) :
    Spares P cell K (callStore c) := by
  intro key hkey
  refine within_call fun w => ⟨?_, id⟩
  exact bumped_congr hS (hS.others c w.store fun hmem => hkey (hc hmem)) _

theorem spares_mono {α : Type} {K' : Set Bytes} {p : ServerProg α}
    (hp : Spares P cell K p) (h : K ⊆ K') : Spares P cell K' p :=
  fun key hkey => hp key fun hmem => hkey (h hmem)

theorem spares_of_on (hS : KeyedStore S cell) {α : Type} {p : ServerProg α}
    (hp : Only (Call.On K) p) : Spares P cell K p := by
  intro key hkey w w' a hrun
  rcases run_on_others hS hp hrun with ⟨htracker, hothers⟩
  refine ⟨?_, fun hq => ?_⟩
  · unfold settled
    rw [htracker]
    exact bumped_congr hS (hothers key hkey) _
  · unfold Quiet
    rw [htracker]
    exact hq

theorem spares_notifyKeyModified (key : Bytes) :
    Spares P cell K (notifyKeyModified key) :=
  fun _ _ => within_call fun _ => ⟨rfl, id⟩

theorem spares_flushMetadata (hS : KeyedStore S cell) : Spares P cell K flushMetadata := by
  intro key _ w w' a hrun
  rcases flushMetadata_cells hS w with ⟨w1, hrun1, htracker, hcells⟩
  rw [hrun1] at hrun
  cases hrun
  have hquiet := quiet_of_empty htracker key
  exact ⟨hquiet.settled_eq.trans (hcells key), fun _ => hquiet⟩

theorem spares_updateCount (hS : KeyedStore S cell) {key : Bytes} (hkey : metaKey key ∈ K)
    (delta : Int64) : Spares P cell K (updateCount key delta) := by
  refine spares_bind ?_ fun _ => ?_
  · intro k hk
    refine within_call fun w => ?_
    have hne : k ≠ metaKey key := fun heq => hk (heq ▸ hkey)
    have hlookup : (w.tracker.addUpdate (metaKey key) delta).lookup k =
        w.tracker.lookup k := AList.lookup_insert_ne hne
    refine ⟨?_, ?_⟩
    · change bumped cell w.store k
        (((w.tracker.addUpdate (metaKey key) delta).lookup k).getD 0) = _
      rw [hlookup]
      rfl
    · intro hq
      change (((w.tracker.addUpdate (metaKey key) delta).lookup k).getD 0) = 0
      rw [hlookup]
      exact hq
  · refine spares_bind ?_ fun due => ?_
    · exact fun _ _ => within_call fun _ => ⟨rfl, id⟩
    · split
      · exact spares_flushMetadata hS
      · exact spares_done _

/-!
# Writing
-/

def keysOf (key : Bytes) : Set Bytes :=
  insert (metaKey key) (fieldKeys key)

theorem metaKey_mem (key : Bytes) : metaKey key ∈ keysOf key :=
  Set.mem_insert _ _

theorem fieldKey_mem (key field : Bytes) : fieldKey key field ∈ keysOf key :=
  Set.mem_insert_of_mem _ ⟨field, rfl⟩

theorem touches_fieldKey {c : StoreCall} {key field : Bytes}
    (h : c.key? = some (fieldKey key field)) : c.touches ⊆ keysOf key :=
  touches_subset h (fieldKey_mem key field)

theorem spares_hset (hS : KeyedStore S cell) (key : Bytes)
    (fields : List (Bytes × Bytes)) :
    Spares P cell (keysOf key) (hset key fields) := by
  have hloop : forall count,
      Spares P cell (keysOf key) (hsetLoop key fields count) := by
    induction fields with
    | nil => exact fun count => spares_done _
    | cons pair fields ih =>
        intro count
        rcases pair with ⟨field, value⟩
        unfold hsetLoop
        refine spares_bind (spares_callStore hS (touches_fieldKey rfl)) fun r => ?_
        cases r with
        | ok isNew => exact ih _
        | error e => exact spares_done _
  refine spares_bind (hloop 0) fun r => ?_
  cases r with
  | error e => exact spares_done _
  | ok count =>
      simp only
      split
      · exact spares_bind (spares_updateCount hS (metaKey_mem key) _)
          fun _ => spares_done _
      · exact spares_done _

theorem spares_hdel (hS : KeyedStore S cell) (key : Bytes)
    (fields : List Bytes) : Spares P cell (keysOf key) (hdel key fields) := by
  have hloop : forall count,
      Spares P cell (keysOf key) (hdelLoop key fields count) := by
    induction fields with
    | nil => exact fun count => spares_done _
    | cons field fields ih =>
        intro count
        unfold hdelLoop
        refine spares_bind (spares_callStore hS (touches_fieldKey rfl)) fun r => ?_
        cases r with
        | ok _ => exact ih _
        | error e => exact ih _
  refine spares_bind (hloop 0) fun count => ?_
  split
  · exact spares_bind (spares_updateCount hS (metaKey_mem key) _)
      fun _ => spares_done _
  · exact spares_done _

theorem spares_hincrby (hS : KeyedStore S cell) (key field : Bytes)
    (delta : Int64) : Spares P cell (keysOf key) (hincrby key field delta) := by
  have hincremented : Spares P cell (keysOf key) (incremented key field delta) := by
    unfold incremented
    refine spares_bind (spares_callStore hS (touches_fieldKey rfl)) fun found => ?_
    split
    · refine spares_bind (spares_callStore hS (touches_fieldKey rfl)) fun r => ?_
      cases r with
      | error e => exact spares_done _
      | ok data =>
          simp only
          split
          · exact spares_done _
          · exact spares_done _
    · exact spares_bind (spares_updateCount hS (metaKey_mem key) _)
        fun _ => spares_done _
  refine spares_bind hincremented fun r => ?_
  cases r with
  | error e => exact spares_done _
  | ok n =>
      refine spares_bind (spares_callStore hS (touches_fieldKey rfl)) fun r => ?_
      cases r <;> exact spares_done _

/-!
# Reading
-/

theorem on_hget (key field : Bytes) :
    Only (Call.On (fieldKeys key)) (hget key field) := by
  unfold hget
  refine only_call_bind_iff.mpr ⟨touches_subset rfl ⟨field, rfl⟩, fun r => ?_⟩
  cases r <;> exact Only.done _

theorem on_hmget (key : Bytes) (fields : List Bytes) :
    Only (Call.On (fieldKeys key)) (hmget key fields) := by
  induction fields with
  | nil => exact Only.done _
  | cons field fields ih =>
      unfold hmget
      exact only_bind (on_hget key field) fun _ =>
        only_bind ih fun _ => Only.done _

theorem on_hexists (key field : Bytes) :
    Only (Call.On (fieldKeys key)) (hexists key field) :=
  only_call (touches_subset rfl ⟨field, rfl⟩)

theorem on_collect {α : Type} (f : List (Bytes × Bytes) -> List α)
    (key : Bytes) : Only (Call.On (fieldKeys key)) (collect f key) := by
  unfold collect
  refine only_call_bind_iff.mpr ⟨?_, fun r => ?_⟩
  · rintro k ⟨hstart, hstop⟩
    exact mem_fieldKeys.mpr (prefix_of_le hstart hstop)
  · cases r <;> exact Only.done _

theorem spares_hlen (hS : KeyedStore S cell) (key : Bytes) :
    Spares P cell (keysOf key) (hlen key) := by
  refine spares_bind (spares_flushMetadata hS) fun _ => ?_
  refine spares_bind (spares_callStore hS
    (touches_subset rfl (metaKey_mem key))) fun r => ?_
  cases r <;> exact spares_done _

theorem replyOf_hlen (hS : KeyedStore S cell) (key : Bytes) {w w' : World S P}
    (h : settled cell w (metaKey key) = settled cell w' (metaKey key)) :
    replyOf (hlen key) w = replyOf (hlen key) w' := by
  rcases flushMetadata_cells hS w with ⟨w1, hrun, _, hcells⟩
  rcases flushMetadata_cells hS w' with ⟨w1', hrun', _, hcells'⟩
  unfold replyOf hlen
  rw [run_bind_of_some _ _ hrun, run_bind_of_some _ _ hrun']
  have hsame : Set.EqOn (cell w1.store) (cell w1'.store) {metaKey key} := by
    rintro k rfl
    rw [hcells, hcells', h]
  refine run_on_alike hS ?_ hsame
  refine only_call_bind_iff.mpr ⟨touches_subset rfl rfl, fun r => ?_⟩
  cases r <;> exact Only.done _

end HashOperations

end FeoxServer
