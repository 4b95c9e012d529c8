import FeoxServer.Protocol.HashCorrectness
import FeoxServer.Protocol.HashFootprints

/-!
# Hashes do not disturb each other

A hash and another share a key in the store exactly when one key is nested in
the other.  Apart from that a command on one hash can change another one only by
writing a change that is pending for one of its fields.
-/

namespace FeoxServer

open Foundation Prog

namespace HashOperations

/-- The commands that change the hash under `key`. -/
inductive Writes (key : Bytes) : Command -> Prop where
  | hset (fields : List (Bytes × Bytes)) : Writes key (.hset key fields)
  | hdel (fields : List Bytes) : Writes key (.hdel key fields)
  | hincrBy (field : Bytes) (delta : Int64) :
      Writes key (.hincrBy key field delta)

/-- The commands that read the hash under `key`. -/
inductive Reads (key : Bytes) : Command -> Prop where
  | hget (field : Bytes) : Reads key (.hget key field)
  | hgetall : Reads key (.hgetall key)
  | hkeys : Reads key (.hkeys key)
  | hvals : Reads key (.hvals key)
  | hlen : Reads key (.hlen key)

/-- While the changes of `tracker` are pending, whatever a client does to the
hash under `k1`, the replies about the hash under `k2` stay the same. -/
def Isolated (k1 k2 : Bytes) (tracker : MetadataTracker) : Prop :=
  Isolates (Writes k1) (Reads k2) tracker

/-- The keys differ and neither is nested in the other. -/
def Apart (k1 k2 : Bytes) : Prop :=
  k1 ≠ k2 ∧ ¬ Nested k1 k2 ∧ ¬ Nested k2 k1

instance (k1 k2 : Bytes) : Decidable (Apart k1 k2) :=
  inferInstanceAs (Decidable (_ ∧ _))

theorem Apart.fieldKey_notMem {k1 k2 : Bytes} (h : Apart k1 k2)
    (field : Bytes) : fieldKey k2 field ∉ keysOf k1 := by
  rintro (heq | ⟨field', heq⟩)
  · exact h.2.2 (nested_of_metaKey_eq_fieldKey heq.symm)
  · rcases nested_of_fieldKey_eq h.1 heq with hnested | hnested
    · exact h.2.1 hnested
    · exact h.2.2 hnested

theorem Apart.metaKey_notMem {k1 k2 : Bytes} (h : Apart k1 k2) :
    metaKey k2 ∉ keysOf k1 := by
  rintro (heq | ⟨field, heq⟩)
  · exact h.1 (metaKey_injective heq).symm
  · exact h.2.1 (nested_of_metaKey_eq_fieldKey heq.symm)

section Keyed

variable {ε : Type} {S : FeoxStore} {P : Platform}
  {cell : S.State -> Bytes -> ε}

theorem spares_modifying {α : Type} {K : Set Bytes} (key : Bytes)
    (modified : α -> Bool) (reply : α -> RespValue)
    {p : ServerProg (Except Error α)} (hp : Spares P cell K p) :
    Spares P cell K (CommandExecutor.modifying key modified reply p) := by
  refine spares_bind hp fun r => ?_
  cases r with
  | error e => exact spares_done _
  | ok a =>
      simp only
      split
      · exact spares_bind (spares_notifyKeyModified key) fun _ => spares_done _
      · exact spares_done _

theorem Writes.spares (hS : KeyedStore S cell) {key : Bytes} {cmd : Command}
    (h : Writes key cmd) (fuel : Nat) (x : CommandExecutor) :
    Spares P cell (keysOf key) (x.respond fuel cmd) := by
  cases h with
  | hset fields => exact spares_modifying key _ _ (spares_hset hS key fields)
  | hdel fields => exact spares_modifying key _ _ (spares_hdel hS key fields)
  | hincrBy field delta =>
      exact spares_modifying key _ _ (spares_hincrby hS key field delta)

theorem fieldKeys_subset (key : Bytes) : fieldKeys key ⊆ keysOf key :=
  Set.subset_insert _ _

theorem Reads.spares (hS : KeyedStore S cell) {key : Bytes} {cmd : Command}
    (h : Reads key cmd) (fuel : Nat) (x : CommandExecutor) :
    Spares P cell (keysOf key) (x.respond fuel cmd) := by
  have hon : forall {p : ServerProg RespValue}, Only (Call.On (fieldKeys key)) p ->
      Spares P cell (keysOf key) p := fun hp =>
    spares_mono (spares_of_on hS hp) (fieldKeys_subset key)
  cases h with
  | hget field => exact hon (only_bind (on_hget key field) fun _ => Only.done _)
  | hgetall => exact hon (on_reading _ (on_collect id key))
  | hkeys => exact hon (on_reading _ (on_collect _ key))
  | hvals => exact hon (on_reading _ (on_collect _ key))
  | hlen => exact spares_bind (spares_hlen hS key) fun _ => spares_done _

theorem replyOf_bind {α β : Type} {p : ServerProg α} (f : α -> β)
    {w w' : World S P} (h : replyOf p w = replyOf p w') :
    replyOf (p >>= fun a => pure (f a)) w =
      replyOf (p >>= fun a => pure (f a)) w' := by
  have hmap : forall v : World S P,
      replyOf (p >>= fun a => pure (f a)) v = (replyOf p v).map f := by
    intro v
    unfold replyOf
    rw [run_bind]
    cases p.run (server S P) v <;> rfl
  rw [hmap, hmap, h]

/-- What is read of a hash are the entries of its fields and its settled
counter. -/
theorem Reads.replyOf_eq (hS : KeyedStore S cell) {key : Bytes} {cmd : Command}
    (h : Reads key cmd) (fuel : Nat) (x : CommandExecutor) {w w' : World S P}
    (hfields : Set.EqOn (cell w.store) (cell w'.store) (fieldKeys key))
    (hcounter : settled cell w (metaKey key) = settled cell w' (metaKey key)) :
    replyOf (x.respond fuel cmd) w = replyOf (x.respond fuel cmd) w' := by
  cases h with
  | hget field =>
      exact replyOf_bind _ (run_on_alike hS (on_hget key field) hfields)
  | hgetall => exact run_on_alike hS (on_reading _ (on_collect id key)) hfields
  | hkeys => exact run_on_alike hS (on_reading _ (on_collect _ key)) hfields
  | hvals => exact run_on_alike hS (on_reading _ (on_collect _ key)) hfields
  | hlen => exact replyOf_bind _ (replyOf_hlen hS key hcounter)

end Keyed

theorem isolated_of_apart {k1 k2 : Bytes} {tracker : MetadataTracker}
    (h : Apart k1 k2)
    (hquiet : forall field, (tracker.lookup (fieldKey k2 field)).getD 0 = 0) :
    Isolated k1 k2 tracker := by
  intro ε S P cell write read fuel x w w' r hS htracker hwrite hread hrun
  refine hread.replyOf_eq hS fuel x ?_ ?_
  · rintro k ⟨field, rfl⟩
    refine (hwrite.spares hS fuel x _ (h.fieldKey_notMem field) hrun).cell_eq ?_
    unfold Quiet
    rw [htracker]
    exact hquiet field
  · exact (hwrite.spares hS fuel x _ h.metaKey_notMem hrun).entry

/-!
# Hashes that share a key
-/

abbrev serverWith (P : Platform) (platform : P.State) (entries : MapStore.Entries)
    (tracker : MetadataTracker) : World mapStore P :=
  { store := entries, platform := platform, watch := .new, tracker := tracker,
    clients := ∅ }

theorem replyOf_hget {S : FeoxStore} {P : Platform}
    {view : S.State -> Bytes -> Option Bytes} (hS : BehavesAsMap S view)
    (w : World S P) (key field : Bytes) (fuel : Nat) (x : CommandExecutor) :
    replyOf (x.respond fuel (.hget key field)) w =
      some (.bulkString (view w.store (fieldKey key field))) := by
  unfold replyOf CommandExecutor.respond CommandExecutor.hget hget
  rw [run_bind]
  cases hview : view w.store (fieldKey key field) with
  | none =>
      rcases hS.getBytes_absent hview with ⟨e, s1, hget, _⟩
      rw [run_callStore hget]
      rfl
  | some value =>
      rcases hS.getBytes_present hview with ⟨s1, hget, _⟩
      rw [run_callStore hget]
      rfl

/-- A server whose store holds one string. -/
abbrev serverHolding (key value : Bytes) (tracker : MetadataTracker) :
    World mapStore idlePlatform :=
  serverWith idlePlatform () ((∅ : MapStore.Entries).insert key (value, none))
    tracker

theorem view_serverHolding (key value : Bytes) (tracker : MetadataTracker) :
    MapStore.view (serverHolding key value tracker).store key = some value := by
  rw [MapStore.view_insert, Function.update_self]

theorem hset_known_run (key field value value' : Bytes)
    (tracker : MetadataTracker) (x : CommandExecutor) :
    exists w', (x.respond 0 (.hset key [(field, value')])).run
        (server mapStore idlePlatform)
        (serverHolding (fieldKey key field) value tracker) =
      some (.integer 0, w') ∧
        MapStore.view w'.store (fieldKey key field) = some value' := by
  let w := serverHolding (fieldKey key field) value tracker
  let after : MapStore.Entries :=
    AList.insert (fieldKey key field) (value', none) w.store
  have hreply : mapStore.reply (.insertBytes (fieldKey key field) value') w.store =
      (.ok false, after) := by
    have hpresent : MapStore.present w.store (fieldKey key field) = true := by
      rw [MapStore.present_eq, view_serverHolding _ _ tracker]
      rfl
    simp [mapStore, MapStore.reply, hpresent, after]
  refine ⟨{ w with store := after, watch := w.watch.notifyKeyModified key },
    ?_, ?_⟩
  · unfold CommandExecutor.respond CommandExecutor.modifying hset hsetLoop
    rw [run_bind, run_bind, run_callStore hreply]
    rfl
  · change MapStore.view (AList.insert _ _ w.store) _ = _
    rw [MapStore.view_insert, Function.update_self]

theorem not_isolated_of_fieldKey_eq {k1 k2 : Bytes} (f1 f2 : Bytes)
    (h : fieldKey k1 f1 = fieldKey k2 f2) (tracker : MetadataTracker) :
    ¬ Isolated k1 k2 tracker := by
  intro hisolated
  rcases hset_known_run k1 f1 [1] [2] tracker (.new { requirepass := none }) with
    ⟨w', hrun, hafter⟩
  have heq := hisolated MapStore.keyedStore rfl (Writes.hset [(f1, [2])])
    (Reads.hget f2) hrun
  rw [replyOf_hget MapStore.behavesAsMap, replyOf_hget MapStore.behavesAsMap, ← h,
    hafter, view_serverHolding] at heq
  injection heq with heq
  injection heq with heq
  cases heq

def duePlatform : Platform where
  State := Unit
  reply
    | .flushDue, s => (true, s)
    | c, s => idlePlatform.reply c s

theorem bumped_absent {entries : MapStore.Entries} {key : Bytes} {delta : Int64}
    (h : entries.lookup key = none) (hdelta : delta ≠ 0) :
    bumped (S := mapStore) MapStore.cell entries key delta =
      some (i64ToLeBytes delta, none) := by
  unfold bumped
  rw [if_pos hdelta]
  change MapStore.cell (MapStore.atomicIncrement entries _ _).2 _ = _
  rw [MapStore.atomicIncrement, h]
  change MapStore.cell (entries.insert _ _) _ = _
  rw [MapStore.cell_insert, Function.update_self]

theorem not_isolated_of_pending {k1 k2 field : Bytes} {tracker : MetadataTracker}
    (happart : Apart k1 k2)
    (h : (tracker.lookup (fieldKey k2 field)).getD 0 ≠ 0) :
    ¬ Isolated k1 k2 tracker := by
  intro hisolated
  let x : CommandExecutor := .new { requirepass := none }
  let entries : MapStore.Entries :=
    (∅ : MapStore.Entries).insert (fieldKey k1 []) ([], none)
  let w := serverWith duePlatform () (∅ : MapStore.Entries) tracker
  let w1 := serverWith duePlatform () entries (tracker.addUpdate (metaKey k1) 1)
  have hmember := happart.fieldKey_notMem field
  rcases flushMetadata_cells MapStore.keyedStore w1 with ⟨w2, hflush, _, hcells⟩
  have hrun : (x.respond 0 (.hset k1 [([], [])])).run
      (server mapStore duePlatform) w =
        some (.integer 1, { w2 with watch := w2.watch.notifyKeyModified k1 }) := by
    have hreply : mapStore.reply (.insertBytes (fieldKey k1 []) []) w.store =
        (.ok true, entries) := rfl
    have hupdate : (updateCount k1 1).run (server mapStore duePlatform)
        { w with store := entries } = some ((), w2) := by
      have hdue : ((server mapStore duePlatform).reply .shouldFlush w1).1 = true :=
        Bool.or_true _
      change (if ((server mapStore duePlatform).reply .shouldFlush w1).1 = true
        then flushMetadata else pure ()).run (server mapStore duePlatform) w1 = _
      rw [if_pos hdue]
      exact hflush
    have hset : (hset k1 [([], [])]).run (server mapStore duePlatform) w =
        some (.ok 1, w2) := by
      unfold HashOperations.hset hsetLoop
      rw [run_bind, run_callStore hreply]
      change (updateCount k1 1 >>= fun _ => pure (Except.ok 1)).run
        (server mapStore duePlatform) { w with store := entries } = _
      rw [run_bind_of_some _ _ hupdate]
      rfl
    unfold CommandExecutor.respond CommandExecutor.modifying
    rw [run_bind_of_some _ _ hset]
    rfl
  have heq := hisolated MapStore.keyedStore rfl (Writes.hset [([], [])])
    (Reads.hget field) hrun
  rw [replyOf_hget MapStore.behavesAsMap, replyOf_hget MapStore.behavesAsMap] at heq
  have hlookup : (tracker.addUpdate (metaKey k1) 1).lookup (fieldKey k2 field) =
      tracker.lookup (fieldKey k2 field) :=
    AList.lookup_insert_ne fun hmeta => hmember (hmeta ▸ metaKey_mem k1)
  have habsent : entries.lookup (fieldKey k2 field) = none :=
    AList.lookup_insert_ne fun hfield => hmember (hfield ▸ fieldKey_mem k1 [])
  -- The increment creates the field that was not there.
  have hcell : MapStore.cell w2.store (fieldKey k2 field) =
      some (i64ToLeBytes ((tracker.lookup (fieldKey k2 field)).getD 0), none) := by
    rw [hcells]
    change bumped (S := mapStore) MapStore.cell entries (fieldKey k2 field)
      (((tracker.addUpdate (metaKey k1) 1).lookup (fieldKey k2 field)).getD 0) = _
    rw [hlookup]
    exact bumped_absent habsent h
  have hview : MapStore.view w2.store (fieldKey k2 field) =
      some (i64ToLeBytes ((tracker.lookup (fieldKey k2 field)).getD 0)) :=
    congrArg (Option.map Prod.fst) hcell
  change some (RespValue.bulkString (MapStore.view w2.store (fieldKey k2 field))) =
    some (RespValue.bulkString none) at heq
  rw [hview] at heq
  injection heq with heq
  injection heq with heq
  cases heq

/-- A hash is isolated from another exactly when they are apart and no change is
pending for a field of the other one. -/
theorem isolated_iff_apart (k1 k2 : Bytes) (tracker : MetadataTracker) :
    Isolated k1 k2 tracker <->
      Apart k1 k2 ∧
        forall field, (tracker.lookup (fieldKey k2 field)).getD 0 = 0 := by
  constructor
  · intro h
    have happart : Apart k1 k2 := by
      refine ⟨fun heq => ?_, fun hnested => ?_, fun hnested => ?_⟩
      · subst heq
        exact not_isolated_of_fieldKey_eq [] _ rfl tracker h
      · rcases exists_fieldKey_eq hnested with ⟨f1, f2, heq⟩
        exact not_isolated_of_fieldKey_eq _ _ heq tracker h
      · rcases exists_fieldKey_eq hnested with ⟨f2, f1, heq⟩
        exact not_isolated_of_fieldKey_eq _ _ heq.symm tracker h
    refine ⟨happart, fun field => ?_⟩
    by_contra hpending
    exact not_isolated_of_pending happart hpending h
  · rintro ⟨happart, hquiet⟩
    exact isolated_of_apart happart hquiet

/-- The hash `a:f:b` has the fields of the hash `a` whose names begin with
`b:f:`. -/
theorem not_isolated_nested :
    asBytes "a" ≠ asBytes "a:f:b" ∧
      ¬ Isolated (asBytes "a") (asBytes "a:f:b") ∅ :=
  ⟨by decide, not_isolated_of_fieldKey_eq (asBytes "b:f:x") (asBytes "x")
    (by decide) ∅⟩

end HashOperations

end FeoxServer
