import FeoxServer.Protocol.HashIsolation
import FeoxServer.Protocol.ListIsolation

/-!
# Strings beside lists and hashes

A string is stored under the key that the client gives, so that strings are
apart from a list or a hash as long as no string has one of the keys that are
made for it.
-/

namespace FeoxServer

open Foundation Prog

/-- The commands that change strings whose keys are in `N`. -/
inductive StringWrites (N : Set Bytes) : Command -> Prop where
  | set {key : Bytes} (value : Bytes) (ex px : Option UInt64) :
      key ∈ N -> StringWrites N (.set key value ex px)
  | del {keys : List Bytes} :
      (forall key, key ∈ keys -> key ∈ N) -> StringWrites N (.del keys)
  | incr {key : Bytes} : key ∈ N -> StringWrites N (.incr key)
  | incrBy {key : Bytes} (delta : Int64) :
      key ∈ N -> StringWrites N (.incrBy key delta)
  | decr {key : Bytes} : key ∈ N -> StringWrites N (.decr key)
  | decrBy {key : Bytes} (delta : Int64) :
      key ∈ N -> StringWrites N (.decrBy key delta)
  | mset {pairs : List (Bytes × Bytes)} :
      (forall pair, pair ∈ pairs -> pair.1 ∈ N) -> StringWrites N (.mset pairs)
  | cas {key : Bytes} (expected newValue : Bytes) :
      key ∈ N -> StringWrites N (.cas key expected newValue)
  | jsonPatch {key : Bytes} (patch : Bytes) :
      key ∈ N -> StringWrites N (.jsonPatch key patch)
  | expire {key : Bytes} (seconds : UInt64) :
      key ∈ N -> StringWrites N (.expire key seconds)

/-- The commands that read strings whose keys are in `N`. -/
inductive StringReads (N : Set Bytes) : Command -> Prop where
  | get {key : Bytes} : key ∈ N -> StringReads N (.get key)
  | exists_ {keys : List Bytes} :
      (forall key, key ∈ keys -> key ∈ N) -> StringReads N (.exists_ keys)
  | ttl {key : Bytes} : key ∈ N -> StringReads N (.ttl key)

/-- The commands on the list or the hash under `key`. -/
inductive CollectionCommand (key : Bytes) : Command -> Prop where
  | listWrite {cmd : Command} :
      ListOperations.Writes key cmd -> CollectionCommand key cmd
  | listRead {cmd : Command} :
      ListOperations.Reads key cmd -> CollectionCommand key cmd
  | hashWrite {cmd : Command} :
      HashOperations.Writes key cmd -> CollectionCommand key cmd
  | hashRead {cmd : Command} :
      HashOperations.Reads key cmd -> CollectionCommand key cmd
  | hmget (fields : List Bytes) : CollectionCommand key (.hmget key fields)
  | hexists (field : Bytes) : CollectionCommand key (.hexists key field)

/-- The reads that tell what a collection holds. -/
inductive CollectionReads (key : Bytes) : Command -> Prop where
  | llen : CollectionReads key (.llen key)
  | lrange (start stop : Int64) : CollectionReads key (.lrange key start stop)
  | hgetall : CollectionReads key (.hgetall key)
  | hlen : CollectionReads key (.hlen key)

/-- Strings with keys in `N` and the list and the hash under `key` do not
disturb each other. -/
def CrossIsolated (N : Set Bytes) (key : Bytes) (tracker : MetadataTracker) :
    Prop :=
  Isolates (StringWrites N) (CollectionReads key) tracker ∧
    Isolates (CollectionCommand key) (StringReads N) tracker

/-- The keys of the store that are made for the list and the hash. -/
def collectionKeys (key : Bytes) : Set Bytes :=
  ListOperations.keysOf key ∪ HashOperations.keysOf key

/-!
# Keys of string commands
-/

section Strings

variable {N : Set Bytes}

theorem on_del {keys : List Bytes} (h : forall key, key ∈ keys -> key ∈ N)
    (count : Int64) : Only (Call.On N) (CommandExecutor.del keys count) := by
  induction keys generalizing count with
  | nil => exact Only.done _
  | cons key keys ih =>
      have hrest := ih fun k hk => h k (List.mem_cons_of_mem key hk)
      unfold CommandExecutor.del
      refine only_call_bind_iff.mpr
        ⟨touches_subset rfl (h key List.mem_cons_self), fun r => ?_⟩
      cases r with
      | ok _ => exact only_call_bind_iff.mpr ⟨trivial, fun _ => hrest _⟩
      | error e => exact hrest _

theorem on_mset {pairs : List (Bytes × Bytes)}
    (h : forall pair, pair ∈ pairs -> pair.1 ∈ N) :
    Only (Call.On N) (CommandExecutor.mset pairs) := by
  induction pairs with
  | nil => exact Only.done _
  | cons pair pairs ih =>
      have hrest := ih fun p hp => h p (List.mem_cons_of_mem pair hp)
      have hfirst := h pair List.mem_cons_self
      rcases pair with ⟨key, value⟩
      unfold CommandExecutor.mset
      refine only_call_bind_iff.mpr ⟨touches_subset rfl hfirst, fun r => ?_⟩
      cases r with
      | ok _ => exact only_call_bind_iff.mpr ⟨trivial, fun _ => hrest⟩
      | error e => exact Only.done _

theorem on_set {key : Bytes} (h : key ∈ N) (value : Bytes)
    (ex px : Option UInt64) :
    Only (Call.On N) (CommandExecutor.set key value ex px) := by
  have hcall : Only (Call.On N) (CommandExecutor.setCall key value ex px) := by
    cases ex with
    | some seconds => exact only_call (touches_subset rfl h)
    | none =>
        cases px with
        | some millis => exact only_call (touches_subset rfl h)
        | none => exact only_call (touches_subset rfl h)
  refine only_bind hcall fun r => ?_
  cases r with
  | ok _ => exact only_call_bind_iff.mpr ⟨trivial, fun _ => Only.done _⟩
  | error e => exact Only.done _

theorem on_stringIncr {key : Bytes} (h : key ∈ N) (delta : Int64) :
    Only (Call.On N) (CommandExecutor.stringIncr key delta) := by
  have hwrite : forall n, Only (Call.On N) (CommandExecutor.writeNumber key n) := by
    intro n
    unfold CommandExecutor.writeNumber
    refine only_call_bind_iff.mpr ⟨touches_subset rfl h, fun r => ?_⟩
    cases r with
    | ok _ => exact only_call_bind_iff.mpr ⟨trivial, fun _ => Only.done _⟩
    | error e => exact Only.done _
  unfold CommandExecutor.stringIncr
  refine only_call_bind_iff.mpr ⟨touches_subset rfl h, fun r => ?_⟩
  cases r with
  | ok val => exact only_call_bind_iff.mpr ⟨trivial, fun _ => Only.done _⟩
  | error e =>
      refine only_call_bind_iff.mpr ⟨touches_subset rfl h, fun r => ?_⟩
      cases r with
      | ok data =>
          simp only
          split
          · exact hwrite _
          · exact Only.done _
      | error e =>
          simp only
          split
          · exact hwrite _
          · exact Only.done _

theorem StringWrites.on_respond {cmd : Command} (h : StringWrites N cmd)
    (fuel : Nat) (x : CommandExecutor) :
    Only (Call.On N) (x.respond fuel cmd) := by
  cases h with
  | set value ex px hkey => exact on_set hkey value ex px
  | del hkeys => exact on_del hkeys 0
  | incr hkey => exact on_stringIncr hkey 1
  | incrBy delta hkey => exact on_stringIncr hkey delta
  | decr hkey => exact on_stringIncr hkey (-1)
  | decrBy delta hkey => exact on_stringIncr hkey (-delta)
  | mset hkeys => exact on_mset hkeys
  | cas expected newValue hkey =>
      refine only_call_bind_iff.mpr ⟨touches_subset rfl hkey, fun r => ?_⟩
      cases r <;> exact Only.done _
  | jsonPatch patch hkey =>
      refine only_call_bind_iff.mpr ⟨touches_subset rfl hkey, fun r => ?_⟩
      cases r <;> exact Only.done _
  | expire seconds hkey =>
      exact only_call_bind_iff.mpr
        ⟨touches_subset rfl hkey, fun r => Only.done _⟩

theorem StringReads.on_respond {cmd : Command} (h : StringReads N cmd)
    (fuel : Nat) (x : CommandExecutor) :
    Only (Call.On N) (x.respond fuel cmd) := by
  cases h with
  | get hkey =>
      refine only_call_bind_iff.mpr ⟨touches_subset rfl hkey, fun r => ?_⟩
      cases r <;> exact Only.done _
  | exists_ hkeys =>
      rename_i keys
      have hloop : forall keys : List Bytes, (forall key, key ∈ keys -> key ∈ N) ->
          forall count, Only (Call.On N) (CommandExecutor.existing keys count) := by
        intro keys
        induction keys with
        | nil => exact fun _ count => Only.done _
        | cons key keys ih =>
            intro hkeys count
            unfold CommandExecutor.existing
            exact only_call_bind_iff.mpr
              ⟨touches_subset rfl (hkeys key List.mem_cons_self), fun found =>
                ih (fun k hk => hkeys k (List.mem_cons_of_mem key hk)) _⟩
      exact hloop keys hkeys 0
  | ttl hkey =>
      refine only_call_bind_iff.mpr ⟨touches_subset rfl hkey, fun r => ?_⟩
      rcases r with e | ⟨_ | ttl⟩ <;> exact Only.done _

end Strings

/-!
# Keys of lists and hashes
-/

section Keyed

variable {ε : Type} {S : FeoxStore} {P : Platform}
  {cell : S.State -> Bytes -> ε}

theorem CollectionCommand.spares (hS : KeyedStore S cell) {key : Bytes}
    {cmd : Command} (h : CollectionCommand key cmd) (fuel : Nat)
    (x : CommandExecutor) :
    HashOperations.Spares P cell (collectionKeys key) (x.respond fuel cmd) := by
  have hlists : forall {p : ServerProg RespValue},
      Only (Call.On (ListOperations.keysOf key)) p ->
        HashOperations.Spares P cell (collectionKeys key) p := fun hp =>
    HashOperations.spares_mono (HashOperations.spares_of_on hS hp)
      Set.subset_union_left
  have hhashes : forall {p : ServerProg RespValue},
      HashOperations.Spares P cell (HashOperations.keysOf key) p ->
        HashOperations.Spares P cell (collectionKeys key) p := fun hp =>
    HashOperations.spares_mono hp Set.subset_union_right
  have hfields : forall {p : ServerProg RespValue},
      Only (Call.On (HashOperations.fieldKeys key)) p ->
        HashOperations.Spares P cell (collectionKeys key) p := fun hp =>
    hhashes (HashOperations.spares_mono (HashOperations.spares_of_on hS hp)
      (HashOperations.fieldKeys_subset key))
  cases h with
  | listWrite h => exact hlists (h.on_respond fuel x)
  | listRead h => exact hlists (h.on_respond fuel x)
  | hashWrite h => exact hhashes (h.spares hS fuel x)
  | hashRead h => exact hhashes (h.spares hS fuel x)
  | hmget fields =>
      exact hfields (only_bind (HashOperations.on_hmget key fields)
        fun _ => Only.done _)
  | hexists field =>
      exact hfields (only_bind (HashOperations.on_hexists key field)
        fun _ => Only.done _)

theorem CollectionReads.replyOf_eq (hS : KeyedStore S cell) {key : Bytes}
    {cmd : Command} (h : CollectionReads key cmd) (fuel : Nat)
    (x : CommandExecutor) {w w' : World S P}
    (htracker : w'.tracker = w.tracker)
    (hcells : Set.EqOn (cell w'.store) (cell w.store) (collectionKeys key)) :
    replyOf (x.respond fuel cmd) w' = replyOf (x.respond fuel cmd) w := by
  have hlist := hcells.mono (Set.subset_union_left (t := HashOperations.keysOf key))
  have hhash := hcells.mono (Set.subset_union_right (s := ListOperations.keysOf key))
  have hread : HashOperations.Reads key cmd ->
      replyOf (x.respond fuel cmd) w' = replyOf (x.respond fuel cmd) w := by
    intro h
    refine h.replyOf_eq hS fuel x (hhash.mono (HashOperations.fieldKeys_subset key)) ?_
    unfold HashOperations.settled
    rw [htracker]
    exact HashOperations.bumped_congr hS (hhash (HashOperations.metaKey_mem key)) _
  cases h with
  | llen => exact run_on_alike hS (ListOperations.Reads.llen.on_respond fuel x) hlist
  | lrange start stop =>
      exact run_on_alike hS
        ((ListOperations.Reads.lrange start stop).on_respond fuel x) hlist
  | hgetall => exact hread .hgetall
  | hlen => exact hread .hlen

end Keyed

theorem crossIsolated_of_notMem {N : Set Bytes} {key : Bytes}
    {tracker : MetadataTracker}
    (h : forall name, name ∈ N ->
      name ∉ collectionKeys key ∧ (tracker.lookup name).getD 0 = 0) :
    CrossIsolated N key tracker := by
  constructor
  · intro ε S P cell write read fuel x w w' r hS _ hwrite hread hrun
    rcases run_on_others hS (hwrite.on_respond fuel x) hrun with ⟨htracker, hcells⟩
    refine hread.replyOf_eq hS fuel x htracker fun k hk => ?_
    exact hcells k fun hmem => (h k hmem).1 hk
  · intro ε S P cell write read fuel x w w' r hS htracker hwrite hread hrun
    refine run_on_alike hS (hread.on_respond fuel x) fun k hk => ?_
    refine (hwrite.spares hS fuel x k (h k hk).1 hrun).cell_eq ?_
    unfold HashOperations.Quiet
    rw [htracker]
    exact (h k hk).2

/-!
# Strings under the keys of collections
-/

section Collisions

open HashOperations (serverWith run_callStore)

theorem replyOf_get {S : FeoxStore} {P : Platform}
    {view : S.State -> Bytes -> Option Bytes} (hS : BehavesAsMap S view)
    {w : World S P} {key value : Bytes} (fuel : Nat) (x : CommandExecutor)
    (h : view w.store key = some value) :
    replyOf (x.respond fuel (.get key)) w =
      some (.bulkString (some value)) := by
  rcases hS.getBytes_present h with ⟨s1, hget, _⟩
  unfold replyOf CommandExecutor.respond CommandExecutor.get
  rw [run_callStore hget]
  rfl

theorem set_run (key value : Bytes) (fuel : Nat) (x : CommandExecutor)
    {P : Platform} (w : World mapStore P) :
    (x.respond fuel (.set key value none none)).run (server mapStore P) w =
      some (CommandExecutor.okReply, { w with
        store := AList.insert key (value, none) w.store
        watch := w.watch.notifyKeyModified key }) :=
  rfl

variable {N : Set Bytes} {key name : Bytes} {tracker : MetadataTracker}

theorem getBytes_run (key : Bytes) (s : MapStore.Entries) :
    exists answer, mapStore.reply (.getBytes key) s = (answer, s) ∧
      answer.toOption = MapStore.view s key := by
  cases hview : MapStore.view s key with
  | none => exact ⟨.error MapStore.keyNotFound, by simp [mapStore, MapStore.reply, hview], rfl⟩
  | some value => exact ⟨.ok value, by simp [mapStore, MapStore.reply, hview], rfl⟩

theorem hlen_settles (key : Bytes) (fuel : Nat) (x : CommandExecutor)
    {P : Platform} (w : World mapStore P) :
    exists w', (x.respond fuel (.hlen key)).run (server mapStore P) w =
        some (.integer (((MapStore.view w'.store
          (HashOperations.metaKey key)).map HashOperations.parseMetadata).getD 0), w') ∧
      forall k, MapStore.cell w'.store k =
        HashOperations.settled (S := mapStore) MapStore.cell w k := by
  rcases HashOperations.flushMetadata_cells MapStore.keyedStore w with
    ⟨w1, hflush, _, hcells⟩
  rcases getBytes_run (HashOperations.metaKey key) w1.store with
    ⟨answer, hget, hview⟩
  refine ⟨w1, ?_, hcells⟩
  unfold CommandExecutor.respond CommandExecutor.hlen HashOperations.hlen
  rw [run_bind, run_bind_of_some _ _ hflush, run_callStore hget, ← hview]
  cases answer <;> rfl

theorem not_crossIsolated_of_pending (hname : name ∈ N)
    (h : (tracker.lookup name).getD 0 ≠ 0) : ¬ CrossIsolated N key tracker := by
  intro hisolated
  let w := serverWith idlePlatform () (∅ : MapStore.Entries) tracker
  rcases hlen_settles key 0 (.new { requirepass := none }) w with
    ⟨w', hrun, hcells⟩
  have heq := hisolated.2 MapStore.keyedStore rfl (.hashRead .hlen) (.get hname)
    hrun
  have hcell : MapStore.cell w'.store name =
      some (i64ToLeBytes ((tracker.lookup name).getD 0), none) :=
    (hcells name).trans (HashOperations.bumped_absent rfl h)
  rw [replyOf_get MapStore.behavesAsMap _ _
    (congrArg (Option.map Prod.fst) hcell)] at heq
  injection heq with heq
  injection heq with heq
  cases heq

theorem not_crossIsolated_of_field {field : Bytes}
    (hname : HashOperations.fieldKey key field ∈ N) :
    ¬ CrossIsolated N key tracker := by
  intro hisolated
  rcases HashOperations.hset_known_run key field [1] [2] tracker
    (.new { requirepass := none }) with ⟨w', hrun, hafter⟩
  have heq := hisolated.2 MapStore.keyedStore rfl
    (.hashWrite (.hset [(field, [2])])) (.get hname) hrun
  rw [replyOf_get MapStore.behavesAsMap _ _ hafter,
    replyOf_get MapStore.behavesAsMap _ _
      (HashOperations.view_serverHolding _ [1] tracker)] at heq
  injection heq with heq
  injection heq with heq
  cases heq

theorem not_crossIsolated_of_counter (hname : HashOperations.metaKey key ∈ N)
    (hquiet : (tracker.lookup (HashOperations.metaKey key)).getD 0 = 0) :
    ¬ CrossIsolated N key tracker := by
  intro hisolated
  let x : CommandExecutor := .new { requirepass := none }
  let w := serverWith idlePlatform () (∅ : MapStore.Entries) tracker
  have hrun := set_run (HashOperations.metaKey key) (i64ToLeBytes 1) 0 x w
  have heq := hisolated.1 MapStore.keyedStore rfl
    (.set (i64ToLeBytes 1) none none hname) .hlen hrun
  rcases hlen_settles key 0 x w with ⟨w1, hbefore, hcells⟩
  rcases hlen_settles key 0 x { w with
    store := AList.insert (HashOperations.metaKey key) (i64ToLeBytes 1, none) w.store
    watch := w.watch.notifyKeyModified (HashOperations.metaKey key) } with
    ⟨w2, hafter, hcells'⟩
  have hcell : MapStore.cell w1.store (HashOperations.metaKey key) = none :=
    (hcells _).trans (HashOperations.Quiet.settled_eq (w := w) hquiet)
  have hcell' : MapStore.cell w2.store (HashOperations.metaKey key) =
      some (i64ToLeBytes 1, none) :=
    (hcells' _).trans
      ((HashOperations.Quiet.settled_eq (w := { w with store := _, watch := _ }) hquiet).trans
        (AList.lookup_insert _))
  have hview : MapStore.view w1.store (HashOperations.metaKey key) = none :=
    congrArg (Option.map Prod.fst) hcell
  have hview' : MapStore.view w2.store (HashOperations.metaKey key) =
      some (i64ToLeBytes 1) := congrArg (Option.map Prod.fst) hcell'
  unfold replyOf at heq
  rw [hbefore, hafter, hview, hview'] at heq
  injection heq with heq
  injection heq with heq
  exact absurd heq (by decide)

theorem not_crossIsolated_of_metadata (hname : ListOperations.metaKey key ∈ N) :
    ¬ CrossIsolated N key tracker := by
  intro hisolated
  let x : CommandExecutor := .new { requirepass := none }
  let m : ListOperations.ListMeta := { head := 0, tail := 1, count := 1 }
  let w := serverWith idlePlatform () (∅ : MapStore.Entries) tracker
  have heq := hisolated.1 MapStore.keyedStore rfl
    (.set (ListOperations.buildMetadata m) none none hname) .llen
    (set_run (ListOperations.metaKey key) (ListOperations.buildMetadata m) 0 x w)
  rw [ListOperations.replyOf_llen MapStore.behavesAsMap,
    ListOperations.replyOf_llen MapStore.behavesAsMap] at heq
  have hafter : ListOperations.lengthIn (MapStore.view (AList.insert
      (ListOperations.metaKey key) (ListOperations.buildMetadata m, none) w.store))
      key = 1 := by
    unfold ListOperations.lengthIn
    rw [MapStore.view_insert, Function.update_self]
    change (ListOperations.parseMetadata (ListOperations.buildMetadata m)).count.toInt64 = 1
    rw [ListOperations.parseMetadata_buildMetadata]
    rfl
  rw [hafter] at heq
  injection heq with heq
  injection heq with heq
  exact absurd (show (1 : Int64) = 0 from heq) (by decide)

theorem replyOf_lrange_empty {P : Platform} {w : World mapStore P} (start stop : Int64)
    (fuel : Nat) (x : CommandExecutor)
    (h : forall metaBytes, MapStore.view w.store (ListOperations.metaKey key) =
      some metaBytes -> (ListOperations.parseMetadata metaBytes).count = 0) :
    replyOf (x.respond fuel (.lrange key start stop)) w =
      some (CommandExecutor.bulkArray []) := by
  have hrun : (ListOperations.lrange key start stop).run mapStore w.store =
      some (.ok [], w.store) := by
    rcases getBytes_run (ListOperations.metaKey key) w.store with ⟨answer, hmeta, hview⟩
    unfold ListOperations.lrange
    rw [run_call_bind, hmeta]
    cases answer with
    | error e => rfl
    | ok metaBytes =>
        simp only [h metaBytes hview.symm, if_true]
        rfl
  unfold replyOf CommandExecutor.respond CommandExecutor.reading
  rw [run_bind, run_onStore, hrun]
  rfl

theorem replyOf_lrange_first {P : Platform} {w : World mapStore P} {metaBytes : Bytes}
    {m : ListOperations.ListMeta} (hm : ListOperations.parseMetadata metaBytes = m)
    (hcount : m.count ≠ 0)
    (hbounds : ListOperations.rangeBounds (m.tail - m.head) 0 0 = some (0, 0))
    (fuel : Nat) (x : CommandExecutor)
    (h : MapStore.view w.store (ListOperations.metaKey key) = some metaBytes) :
    replyOf (x.respond fuel (.lrange key 0 0)) w =
      some (CommandExecutor.bulkArray
        (MapStore.view w.store (ListOperations.valueKey key m.head)).toList) := by
  rcases getBytes_run (ListOperations.valueKey key m.head) w.store with
    ⟨answer, hvalue, hview⟩
  have hmeta : mapStore.reply (.getBytes (ListOperations.metaKey key)) w.store =
      (.ok metaBytes, w.store) := by
    simp [mapStore, MapStore.reply, h]
  have hloop : (ListOperations.rangeLoop key m.head 1 0 []).run mapStore w.store =
      some ((MapStore.view w.store (ListOperations.valueKey key m.head)).toList,
        w.store) := by
    unfold ListOperations.rangeLoop
    rw [Int64.add_zero, run_call_bind, hvalue, ← hview]
    cases answer <;> rfl
  have hrun : (ListOperations.lrange key 0 0).run mapStore w.store =
      some (.ok (MapStore.view w.store (ListOperations.valueKey key m.head)).toList,
        w.store) := by
    unfold ListOperations.lrange
    rw [run_call_bind, hmeta]
    simp only [hm, hbounds]
    rw [if_neg hcount]
    change (ListOperations.rangeLoop key m.head 1 0 [] >>= _).run mapStore w.store = _
    rw [run_bind_of_some _ _ hloop]
    rfl
  unfold replyOf CommandExecutor.respond CommandExecutor.reading
  rw [run_bind, run_onStore, hrun]
  rfl

theorem replyOf_lrange_one {P : Platform} {w : World mapStore P} (pos : Int64)
    (fuel : Nat) (x : CommandExecutor)
    (h : MapStore.view w.store (ListOperations.metaKey key) =
      some (ListOperations.buildMetadata { head := pos, tail := pos + 1, count := 1 })) :
    replyOf (x.respond fuel (.lrange key 0 0)) w =
      some (CommandExecutor.bulkArray
        (MapStore.view w.store (ListOperations.valueKey key pos)).toList) := by
  have hbounds : ListOperations.rangeBounds (pos + 1 - pos) 0 0 = some (0, 0) := by
    rw [Int64.add_comm, Int64.add_sub_cancel]
    decide
  have hm := ListOperations.parseMetadata_buildMetadata
    { head := pos, tail := pos + 1, count := 1 }
  have hcount : (1 : UInt64) ≠ 0 := by decide
  exact replyOf_lrange_first hm hcount hbounds fuel x h

theorem not_crossIsolated_of_element {pos : Int64}
    (hname : ListOperations.valueKey key pos ∈ N) :
    ¬ CrossIsolated N key tracker := by
  intro hisolated
  let x : CommandExecutor := .new { requirepass := none }
  let m : ListOperations.ListMeta := { head := pos, tail := pos + 1, count := 1 }
  let w := HashOperations.serverHolding (ListOperations.metaKey key)
    (ListOperations.buildMetadata m) tracker
  have heq := hisolated.1 MapStore.keyedStore rfl (.set [] none none hname)
    (.lrange 0 0) (set_run (ListOperations.valueKey key pos) [] 0 x w)
  have hne := ListOperations.valueKey_ne_metaKey key pos
  have hmeta : MapStore.view w.store (ListOperations.metaKey key) =
      some (ListOperations.buildMetadata m) :=
    HashOperations.view_serverHolding _ _ tracker
  have hvalue : MapStore.view w.store (ListOperations.valueKey key pos) = none := by
    rw [MapStore.view_insert, Function.update_of_ne hne]
    rfl
  rw [replyOf_lrange_one _ 0 x hmeta, hvalue,
    replyOf_lrange_one pos 0 x (by
      rw [MapStore.view_insert, Function.update_of_ne hne.symm, hmeta]),
    MapStore.view_insert, Function.update_self] at heq
  injection heq with heq
  injection heq with heq
  injection heq with heq
  cases heq

end Collisions

/-- Strings and a collection do not disturb each other exactly when no string has
a key that is made for the collection and no change is pending for a string. -/
theorem crossIsolated_iff_notMem (N : Set Bytes) (key : Bytes)
    (tracker : MetadataTracker) :
    CrossIsolated N key tracker <->
      forall name, name ∈ N ->
        name ∉ collectionKeys key ∧ (tracker.lookup name).getD 0 = 0 := by
  constructor
  · intro h name hname
    have hquiet : (tracker.lookup name).getD 0 = 0 := by
      by_contra hpending
      exact not_crossIsolated_of_pending hname hpending h
    refine ⟨?_, hquiet⟩
    rintro ((rfl | ⟨pos, rfl⟩) | (rfl | ⟨field, rfl⟩))
    · exact not_crossIsolated_of_metadata hname h
    · exact not_crossIsolated_of_element hname h
    · exact not_crossIsolated_of_counter hname hquiet h
    · exact not_crossIsolated_of_field hname h
  · exact crossIsolated_of_notMem

/-- The string `L:k:meta` is the metadata of the list `k`. -/
theorem not_crossIsolated_metadata :
    asBytes "L:k:meta" ≠ asBytes "k" ∧
      ¬ CrossIsolated {asBytes "L:k:meta"} (asBytes "k") ∅ := by
  have hkey : asBytes "L:k:meta" = ListOperations.metaKey (asBytes "k") := by
    decide +kernel
  refine ⟨by decide, ?_⟩
  rw [hkey]
  exact not_crossIsolated_of_metadata rfl

end FeoxServer
