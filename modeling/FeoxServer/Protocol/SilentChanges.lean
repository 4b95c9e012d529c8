import FeoxServer.Foundation.DecimalWords
import FeoxServer.Protocol.Announcements
import FeoxServer.Protocol.FlatKeyspace
import FeoxServer.Protocol.HashListings
import FeoxServer.Protocol.PartialWrites

/-!
# Changes that are not announced

For each command that does not announce all its changes there is a server on
which it changes what is shown of a key, and the version of the key stays.
-/

namespace FeoxServer

open Foundation Prog

/-!
# Names that are read for a key
-/

theorem mem_shownKeys {key name : Bytes} :
    name ∈ shownKeys key <->
      name ∈ ListOperations.keysOf key ∨
        exists field, name = HashOperations.fieldKey key field ∧ field <= [255] :=
  or_congr_right (between_append (HashOperations.fieldPrefix key) [255] name)

theorem length_lt_of_shown {key name : Bytes} (h : name ∈ shownKeys key) :
    key.length < name.length := by
  have htext := length_le_fromUtf8Lossy key
  rcases mem_shownKeys.mp h with hlist | ⟨field, rfl, _⟩
  · rcases Set.mem_insert_iff.mp hlist with rfl | ⟨pos, rfl⟩
    · simp only [ListOperations.metaKey, asBytes_append, asBytes_metaMark,
        List.length_append, List.length_cons]
      omega
    · simp only [ListOperations.valueKey, asBytes_append, asBytes_colon,
        List.length_append, List.length_cons]
      omega
  · simp only [HashOperations.fieldKey, HashOperations.fieldPrefix, asBytes_fieldMark,
      List.length_append, List.length_cons]
    omega

theorem ne_of_shown {key name : Bytes} (h : name ∈ shownKeys key) : key ≠ name := by
  intro heq
  have hlength := length_lt_of_shown h
  rw [heq] at hlength
  exact Nat.lt_irrefl _ hlength

/-!
# What is shown of some entries
-/

/-- An executor that has just been made. -/
abbrev reader : CommandExecutor :=
  .new { requirepass := none }

/-- The reply of a server that has these entries. -/
def shown (read : Command) (s : MapStore.Entries) : Option RespValue :=
  replyOf (reader.respond 0 read) (HashOperations.serverWith idlePlatform () s ∅)

section Shown

variable {key name : Bytes} {read : Command} {s t : MapStore.Entries}

theorem shown_congr (h : Shows key read)
    (hview : Set.EqOn (MapStore.view s) (MapStore.view t) (insert key (shownKeys key))) :
    shown read s = shown read t :=
  h.replyOf_eq (MapStore.steadfastStore fun _ _ => none) 0 reader hview

theorem replyOf_eq_shown (h : Shows key read) (w : World mapStore idlePlatform) :
    replyOf (reader.respond 0 read) w = shown read w.store :=
  h.replyOf_eq (MapStore.steadfastStore fun _ _ => none) 0 reader fun _ _ => rfl

theorem replyOf_faulty_eq_shown (h : Shows key read)
    (w : World (insertFaulty mapStore) idlePlatform) :
    replyOf (reader.respond 0 read) w = shown read w.store.1 := by
  have hspared : Only Call.Spared (reader.respond 0 read) := by
    refine only_mono (h.looks 0 reader) fun c hc => ?_
    cases c with
    | store c => cases c <;> first | exact rfl | exact hc.elim
    | _ => exact trivial
  rw [replyOf_reliable hspared, replyOf_eq_shown h]
  rfl

theorem shown_get (key : Bytes) (s : MapStore.Entries) :
    shown (.get key) s = some (.bulkString (MapStore.view s key)) :=
  replyOf_get_view MapStore.flatStore key 0 reader _

theorem shown_get_ne (h : MapStore.view t key ≠ MapStore.view s key) :
    shown (.get key) t ≠ shown (.get key) s := by
  rw [shown_get, shown_get]
  intro heq
  injection heq with heq
  injection heq with heq
  exact h heq

theorem shown_hgetall (key : Bytes) (s : MapStore.Entries) :
    exists all : List (Bytes × Bytes),
      shown (.hgetall key) s = some (CommandExecutor.pairsReply (all.take 10000)) ∧
        (all.map Prod.fst).Nodup ∧
        forall field value, (field, value) ∈ all <->
          ¬ TopField field ∧
            MapStore.view s (HashOperations.fieldKey key field) = some value := by
  rcases hash_range MapStore.flatStore key (HashOperations.serverWith idlePlatform () s ∅)
    with ⟨pairs, s', all, hquery, hfields, hnodup, hmem⟩
  refine ⟨all, ?_, hnodup, hmem⟩
  rw [← hfields]
  exact (hash_shows hquery 0 reader).hgetall

end Shown

/-!
# Names that matter
-/

def zeros : Bytes :=
  asBytes "+00000000000000000000000"

theorem length_zeros : zeros.length = 24 := by decide +kernel

theorem stringNumber_zeros : CommandExecutor.stringNumber zeros = some 0 := by
  decide +kernel

/-- The reading tells when the name loses its zeros to a shorter value or to none,
whatever becomes of the other entries. -/
structure Exposed (key name : Bytes) (read : Command) (s : MapStore.Entries) : Prop where
  shows : Shows key read
  holds : MapStore.view s name = some zeros
  keys : forall k, MapStore.view s k ≠ none -> k ∈ shownKeys key
  changes : forall t, (forall value, MapStore.view t name = some value ->
    value.length < 24) ->
      (forall k, k ≠ name -> MapStore.view t k = none ∨
        MapStore.view t k = MapStore.view s k) ->
          shown read t ≠ shown read s

theorem eq_or_of_view_insert {s : MapStore.Entries} {name k : Bytes}
    {entry : Bytes × Option UInt64} (h : MapStore.view (s.insert name entry) k ≠ none) :
    k = name ∨ MapStore.view s k ≠ none := by
  by_cases hk : k = name
  · exact Or.inl hk
  · rw [MapStore.view_insert, Function.update_of_ne hk] at h
    exact Or.inr h

theorem exposed_metaKey (key : Bytes) :
    exists s, Exposed key (ListOperations.metaKey key) (.lrange key 0 0) s := by
  let m := ListOperations.parseMetadata zeros
  let element := ListOperations.valueKey key m.head
  let s : MapStore.Entries := AList.insert (ListOperations.metaKey key) (zeros, none)
    (AList.insert element ([], none) ∅)
  have hne := ListOperations.valueKey_ne_metaKey key m.head
  have hmeta : MapStore.view s (ListOperations.metaKey key) = some zeros := by
    rw [MapStore.view_insert, Function.update_self]
  have helement : MapStore.view s element = some [] := by
    rw [MapStore.view_insert, Function.update_of_ne hne, MapStore.view_insert,
      Function.update_self]
  refine ⟨s, .lrange 0 0, hmeta, fun k hk => ?_, fun t ht _ => ?_⟩
  · rcases eq_or_of_view_insert hk with rfl | hk
    · exact Or.inl (ListOperations.metaKey_mem key)
    rcases eq_or_of_view_insert hk with rfl | hk
    · exact Or.inl (ListOperations.valueKey_mem key m.head)
    · exact absurd rfl hk
  · have hcount : m.count ≠ 0 := by decide +kernel
    have hbounds : ListOperations.rangeBounds (m.tail - m.head) 0 0 = some (0, 0) := by
      decide +kernel
    have hbefore : shown (.lrange key 0 0) s = some (CommandExecutor.bulkArray
        (MapStore.view s element).toList) :=
      replyOf_lrange_first rfl hcount hbounds 0 reader hmeta
    have hafter : shown (.lrange key 0 0) t = some (CommandExecutor.bulkArray []) :=
      replyOf_lrange_empty 0 0 0 reader fun metaBytes hbytes => by
        rw [ListOperations.parseMetadata, if_pos (ht metaBytes hbytes)]
    rw [hbefore, hafter, helement]
    intro heq
    have hlists := CommandExecutor.bulkArray_injective (Option.some.inj heq)
    cases hlists

theorem exposed_valueKey (key : Bytes) (pos : Int64) :
    exists s, Exposed key (ListOperations.valueKey key pos) (.lrange key 0 0) s := by
  let m : ListOperations.ListMeta := { head := pos, tail := pos + 1, count := 1 }
  let element := ListOperations.valueKey key pos
  let s : MapStore.Entries := AList.insert element (zeros, none)
    (AList.insert (ListOperations.metaKey key) (ListOperations.buildMetadata m, none) ∅)
  have hne := ListOperations.valueKey_ne_metaKey key pos
  have helement : MapStore.view s element = some zeros := by
    rw [MapStore.view_insert, Function.update_self]
  have hmeta : MapStore.view s (ListOperations.metaKey key) =
      some (ListOperations.buildMetadata m) := by
    rw [MapStore.view_insert, Function.update_of_ne hne.symm, MapStore.view_insert,
      Function.update_self]
  refine ⟨s, .lrange 0 0, helement, fun k hk => ?_, fun t ht hothers => ?_⟩
  · rcases eq_or_of_view_insert hk with rfl | hk
    · exact Or.inl (ListOperations.valueKey_mem key pos)
    rcases eq_or_of_view_insert hk with rfl | hk
    · exact Or.inl (ListOperations.metaKey_mem key)
    · exact absurd rfl hk
  · have hbefore : shown (.lrange key 0 0) s = some (CommandExecutor.bulkArray [zeros]) :=
      (replyOf_lrange_one pos 0 reader hmeta).trans (by rw [helement]; rfl)
    intro heq
    rw [hbefore] at heq
    rcases hothers (ListOperations.metaKey key) hne.symm with hgone | hkept
    · have hafter : shown (.lrange key 0 0) t = some (CommandExecutor.bulkArray []) :=
        replyOf_lrange_empty 0 0 0 reader fun metaBytes hbytes => by
          rw [hgone] at hbytes
          cases hbytes
      rw [hafter] at heq
      have hlists := CommandExecutor.bulkArray_injective (Option.some.inj heq)
      cases hlists
    · let w := HashOperations.serverWith idlePlatform () t ∅
      have hafter : shown (.lrange key 0 0) t = some (CommandExecutor.bulkArray
          (MapStore.view t element).toList) :=
        @replyOf_lrange_one key _ w pos 0 reader (hkept.trans hmeta)
      rw [hafter] at heq
      have hlists := CommandExecutor.bulkArray_injective (Option.some.inj heq)
      have hshort := ht zeros (Option.toList_eq_singleton_iff.mp hlists)
      rw [length_zeros] at hshort
      exact Nat.lt_irrefl _ hshort

theorem exposed_fieldKey (key : Bytes) {field : Bytes} (hfield : field <= [255]) :
    exists s, Exposed key (HashOperations.fieldKey key field) (.hgetall key) s := by
  let s : MapStore.Entries := AList.insert (HashOperations.fieldKey key field) (zeros, none) ∅
  have hzeros : MapStore.view s (HashOperations.fieldKey key field) = some zeros := by
    rw [MapStore.view_insert, Function.update_self]
  have hothers : forall k, k ≠ HashOperations.fieldKey key field ->
      MapStore.view s k = none := by
    intro k hk
    rw [MapStore.view_insert, Function.update_of_ne hk]
    rfl
  refine ⟨s, .hgetall, hzeros, fun k hk => ?_, fun t ht _ heq => ?_⟩
  · have hname := (eq_or_of_view_insert hk).resolve_right fun hnone => hnone rfl
    exact mem_shownKeys.mpr (Or.inr ⟨field, hname, hfield⟩)
  · rcases shown_hgetall key s with ⟨before, hbefore, hnodup, hmem⟩
    rcases shown_hgetall key t with ⟨after, hafter, _, hmem'⟩
    have hin : (field, zeros) ∈ before :=
      (hmem field zeros).mpr ⟨(le_top_iff field).mp hfield, hzeros⟩
    have honly : before ⊆ [(field, zeros)] := by
      rintro ⟨f, value⟩ hpair
      have hvalue := ((hmem f value).mp hpair).2
      have hname : HashOperations.fieldKey key f = HashOperations.fieldKey key field := by
        by_contra hne
        rw [hothers _ hne] at hvalue
        cases hvalue
      rw [hname, hzeros] at hvalue
      rw [List.append_cancel_left hname, ← Option.some.inj hvalue]
      exact List.mem_singleton_self _
    have hlength : before.length <= 10000 := by
      have hone := (hnodup.of_map Prod.fst).subperm honly |>.length_le
      exact hone.trans (by simp)
    rw [hbefore, hafter, List.take_of_length_le hlength] at heq
    have hlists := pairsReply_injective (Option.some.inj heq)
    rw [← hlists] at hin
    have hkept := ((hmem' field zeros).mp (List.mem_of_mem_take hin)).2
    have hshort := ht zeros hkept
    rw [length_zeros] at hshort
    exact Nat.lt_irrefl _ hshort

theorem exists_exposed {key name : Bytes} (h : name ∈ shownKeys key) :
    exists read s, Exposed key name read s := by
  rcases mem_shownKeys.mp h with hlist | ⟨field, rfl, hfield⟩
  · rcases Set.mem_insert_iff.mp hlist with rfl | ⟨pos, rfl⟩
    · exact ⟨_, exposed_metaKey key⟩
    · exact ⟨_, exposed_valueKey key pos⟩
  · exact ⟨_, exposed_fieldKey key hfield⟩

theorem exists_overwritten {key name : Bytes} (h : name ∈ shownKeys key) (value : Bytes) :
    exists (read : Command) (s : MapStore.Entries), Shows key read ∧
      forall t, Set.EqOn (MapStore.view t)
          (Function.update (MapStore.view s) name (some value))
          (insert key (shownKeys key)) ->
        shown read t ≠ shown read s := by
  rcases exists_exposed h with ⟨read, s, hexposed⟩
  have hwritten : forall {s' t : MapStore.Entries},
      Function.update (MapStore.view s') name (some value) =
          Function.update (MapStore.view s) name (some value) ->
        Set.EqOn (MapStore.view t) (Function.update (MapStore.view s') name (some value))
          (insert key (shownKeys key)) ->
        shown read t = shown read (s.insert name (value, none)) := by
    intro s' t hsame ht
    refine shown_congr hexposed.shows fun k hk => ?_
    rw [MapStore.view_insert, ← hsame]
    exact ht hk
  by_cases hseen : shown read (s.insert name (value, none)) = shown read s
  · -- The value shows as the zeros do, and so not as if there were none.
    refine ⟨read, s.erase name, hexposed.shows, fun t ht => ?_⟩
    have hsame : Function.update (MapStore.view (s.erase name)) name (some value) =
        Function.update (MapStore.view s) name (some value) := by
      rw [MapStore.view_erase, Function.update_idem]
    rw [hwritten hsame ht, hseen]
    refine (hexposed.changes _ (fun value hvalue => ?_) fun k hk => Or.inr ?_).symm
    · rw [MapStore.view_erase, Function.update_self] at hvalue
      cases hvalue
    · rw [MapStore.view_erase, Function.update_of_ne hk]
  · refine ⟨read, s, hexposed.shows, fun t ht => ?_⟩
    rw [hwritten rfl ht]
    exact hseen

/-!
# Strings
-/

section Silent

variable {patched : Bytes -> Bytes -> Option Bytes}

theorem not_covered {S : FeoxStore} {P : Platform} {view : S.State -> Bytes -> Option Bytes}
    (hS : SteadfastStore patched S view) {α : Type} {p : ServerProg α} {n : Nat}
    {w w' : World S P} {a : α} (hahead : w.watch.Ahead n)
    (hrun : p.run (server S P) w = some (a, w')) {key : Bytes} {read : Command}
    (hread : Shows key read)
    (hreply : replyOf (reader.respond 0 read) w' ≠ replyOf (reader.respond 0 read) w)
    (hversion : w'.watch.getKeyVersion key = w.watch.getKeyVersion key) :
    ¬ Covered patched n p := by
  intro h
  have hgrown := h S P view w w' a hS hahead hrun key read 0 reader hread hreply
  rw [hversion] at hgrown
  exact UInt64.lt_irrefl _ hgrown

section Runs

variable {α : Type} {p : ServerProg α} {n : Nat} {a : α} {key name : Bytes} {read : Command}

theorem not_covered_shown {w w' : World mapStore idlePlatform} (hahead : w.watch.Ahead n)
    (hrun : p.run (server mapStore idlePlatform) w = some (a, w')) (hread : Shows key read)
    (hshown : shown read w'.store ≠ shown read w.store)
    (hversion : w'.watch.getKeyVersion key = w.watch.getKeyVersion key) :
    ¬ Covered patched n p := by
  refine not_covered (MapStore.steadfastStore patched) hahead hrun hread ?_ hversion
  rw [replyOf_eq_shown hread, replyOf_eq_shown hread]
  exact hshown

theorem not_covered_faulty {w w' : World (insertFaulty mapStore) idlePlatform}
    (hahead : w.watch.Ahead n)
    (hrun : p.run (server (insertFaulty mapStore) idlePlatform) w = some (a, w'))
    (hread : Shows key read) (hshown : shown read w'.store.1 ≠ shown read w.store.1)
    (hversion : w'.watch.getKeyVersion key = w.watch.getKeyVersion key) :
    ¬ Covered patched n p := by
  refine not_covered ((MapStore.steadfastStore patched).insertFaulty patched) hahead hrun
    hread ?_ hversion
  rw [replyOf_faulty_eq_shown hread, replyOf_faulty_eq_shown hread]
  exact hshown

theorem not_covered_get {w w' : World mapStore idlePlatform} (hahead : w.watch.Ahead n)
    (hrun : p.run (server mapStore idlePlatform) w = some (a, w'))
    (hview : MapStore.view w'.store name ≠ MapStore.view w.store name)
    (hversion : w'.watch.getKeyVersion name = w.watch.getKeyVersion name) :
    ¬ Covered patched n p :=
  not_covered_shown hahead hrun .get (shown_get_ne hview) hversion

theorem not_covered_get_faulty {w w' : World (insertFaulty mapStore) idlePlatform}
    (hahead : w.watch.Ahead n)
    (hrun : p.run (server (insertFaulty mapStore) idlePlatform) w = some (a, w'))
    (hview : MapStore.view w'.store.1 name ≠ MapStore.view w.store.1 name)
    (hversion : w'.watch.getKeyVersion name = w.watch.getKeyVersion name) :
    ¬ Covered patched n p :=
  not_covered_faulty hahead hrun .get (shown_get_ne hview) hversion

end Runs

theorem not_covered_overwrite {α : Type} {p : ServerProg α} {n : Nat} (hn : n + 1 < 2 ^ 64)
    {key name : Bytes} (hname : name ∈ shownKeys key) (value : Bytes)
    (hp : forall w : World mapStore idlePlatform, exists a s',
      p.run (server mapStore idlePlatform) w = some (a, { w with
        store := s', watch := w.watch.notifyKeyModified name }) ∧
      MapStore.view s' = Function.update (MapStore.view w.store) name (some value)) :
    ¬ Covered patched n p := by
  rcases exists_overwritten hname value with ⟨read, s, hread, hseen⟩
  rcases hp (HashOperations.serverWith idlePlatform () s ∅) with ⟨a, s', hrun, hview⟩
  exact not_covered_shown (WatchRegistry.ahead_new hn) hrun hread
    (hseen s' fun k _ => congrFun hview k)
    (WatchRegistry.getKeyVersion_notify_of_ne _ (ne_of_shown hname))

namespace CommandExecutor

theorem not_covered_set {key name : Bytes} (hname : name ∈ shownKeys key) (value : Bytes)
    (ex px : Option UInt64) : ¬ Covered patched 1 (set name value ex px) := by
  refine not_covered_overwrite (by decide) hname value fun w => ?_
  cases ex with
  | some seconds => exact ⟨_, _, rfl, MapStore.view_insert _ _ _⟩
  | none => cases px <;> exact ⟨_, _, rfl, MapStore.view_insert _ _ _⟩

theorem not_covered_fastSetBytes {key name : Bytes} (hname : name ∈ shownKeys key)
    (value : Bytes) : ¬ Covered patched 1 (fastSetBytes name value) :=
  not_covered_overwrite (by decide) hname value fun _ =>
    ⟨_, _, rfl, MapStore.view_insert _ _ _⟩

theorem stringIncr_zeros_run {name : Bytes} (delta : Int64)
    {w : World mapStore idlePlatform} (h : MapStore.view w.store name = some zeros) :
    (stringIncr name delta).run (server mapStore idlePlatform) w =
      some (.integer (0 + delta), { w with
        store := AList.insert name (asBytes (decimal (0 + delta)), none) w.store
        watch := w.watch.notifyKeyModified name }) := by
  have hcount : mapStore.reply (.atomicIncrement name delta) w.store =
      (.error MapStore.invalidOperation, w.store) := by
    rcases MapStore.lookup_of_view h with ⟨ttl, hlookup⟩
    have hlength : zeros.length ≠ 8 := by
      rw [length_zeros]
      decide
    simp [mapStore, MapStore.reply, MapStore.atomicIncrement, hlookup, hlength]
  have hget : mapStore.reply (.getBytes name) w.store = (.ok zeros, w.store) := by
    simp [mapStore, MapStore.reply, h]
  unfold stringIncr
  rw [HashOperations.run_callStore hcount]
  refine (HashOperations.run_callStore hget _).trans ?_
  simp only [stringNumber_zeros]
  rfl

theorem not_covered_stringIncr {key name : Bytes} (hname : name ∈ shownKeys key)
    (delta : Int64) : ¬ Covered patched 1 (stringIncr name delta) := by
  rcases exists_exposed hname with ⟨read, s, hexposed⟩
  have hrun := stringIncr_zeros_run delta
    (w := HashOperations.serverWith idlePlatform () s ∅) hexposed.holds
  refine not_covered_shown (WatchRegistry.ahead_new (by decide)) hrun hexposed.shows ?_
    (WatchRegistry.getKeyVersion_notify_of_ne _ (ne_of_shown hname))
  refine hexposed.changes _ (fun value hvalue => ?_) fun k hk => Or.inr ?_
  · rw [MapStore.view_insert, Function.update_self] at hvalue
    rw [← Option.some.inj hvalue]
    exact Nat.lt_of_le_of_lt (length_asBytes_decimal _) (by decide)
  · rw [MapStore.view_insert, Function.update_of_ne hk]

theorem del_runs {key : Bytes} (names : List Bytes) (count : Int64)
    {w : World mapStore idlePlatform} (hkey : MapStore.view w.store key = none) :
    exists r w', (del names count).run (server mapStore idlePlatform) w = some (r, w') ∧
      (forall k, MapStore.view w'.store k = none ∨
        k ∉ names ∧ MapStore.view w'.store k = MapStore.view w.store k) ∧
      w'.watch.getKeyVersion key = w.watch.getKeyVersion key := by
  induction names generalizing count w with
  | nil => exact ⟨_, w, rfl, fun k => Or.inr ⟨List.not_mem_nil, rfl⟩, rfl⟩
  | cons name names ih =>
      unfold del
      cases hname : MapStore.view w.store name with
      | none =>
          rcases MapStore.behavesAsMap.delete_absent hname with ⟨e, s', hdelete, hview⟩
          have hkey' : MapStore.view ({ w with store := s' } :
              World mapStore idlePlatform).store key = none := by
            rw [hview]
            exact hkey
          rcases ih count hkey' with ⟨r, w', hrun, hafter, hversion⟩
          refine ⟨r, w', (HashOperations.run_callStore hdelete _).trans hrun, fun k => ?_,
            hversion⟩
          rw [hview] at hafter
          rcases hafter k with hnone | ⟨hnot, hsame⟩
          · exact Or.inl hnone
          by_cases hk : k = name
          · exact Or.inl (hsame.trans (hk ▸ hname))
          · exact Or.inr ⟨List.not_mem_cons_of_ne_of_not_mem hk hnot, hsame⟩
      | some value =>
          rcases MapStore.behavesAsMap.delete_present hname with ⟨s', hdelete, hview⟩
          have hne : key ≠ name := by
            intro heq
            rw [← heq, hkey] at hname
            cases hname
          have hkey' : MapStore.view ({ w with
              store := s', watch := w.watch.notifyKeyModified name } :
              World mapStore idlePlatform).store key = none := by
            rw [hview, Function.update_of_ne hne]
            exact hkey
          rcases ih (count + 1) hkey' with ⟨r, w', hrun, hafter, hversion⟩
          refine ⟨r, w', (HashOperations.run_callStore hdelete _).trans hrun, fun k => ?_,
            hversion.trans (WatchRegistry.getKeyVersion_notify_of_ne _ hne)⟩
          rw [hview] at hafter
          rcases hafter k with hnone | ⟨hnot, hsame⟩
          · exact Or.inl hnone
          by_cases hk : k = name
          · rw [hk, Function.update_self] at hsame
            exact Or.inl (hk ▸ hsame)
          · rw [Function.update_of_ne hk] at hsame
            exact Or.inr ⟨List.not_mem_cons_of_ne_of_not_mem hk hnot, hsame⟩

theorem not_covered_del {key name : Bytes} {names : List Bytes}
    (hsmall : names.length + 1 < 2 ^ 64) (hmem : name ∈ names)
    (hname : name ∈ shownKeys key) : ¬ Covered patched names.length (del names 0) := by
  rcases exists_exposed hname with ⟨read, s, hexposed⟩
  have hkey : MapStore.view s key = none := by
    by_contra hthere
    exact ne_of_shown (hexposed.keys key hthere) rfl
  rcases del_runs names 0 (w := HashOperations.serverWith idlePlatform () s ∅) hkey with
    ⟨r, w', hrun, hafter, hversion⟩
  refine not_covered_shown (WatchRegistry.ahead_new hsmall) hrun hexposed.shows ?_ hversion
  refine hexposed.changes _ (fun value hvalue => ?_) fun k _ =>
    (hafter k).imp_right And.right
  rcases hafter name with hnone | ⟨hnot, _⟩
  · rw [hnone] at hvalue
    cases hvalue
  · exact absurd hmem hnot

theorem exists_unnamed {named : List Bytes} {pairs : List (Bytes × Bytes)}
    (h : ¬ NamedBefore named pairs) :
    exists front name value rest key, pairs = front ++ (name, value) :: rest ∧
      name ∈ shownKeys key ∧ key ∉ named ∧
      forall pair, pair ∈ front -> pair.1 ∉ insert key (shownKeys key) := by
  induction pairs generalizing named with
  | nil => exact absurd trivial h
  | cons pair pairs ih =>
      rcases pair with ⟨name, value⟩
      by_cases hfirst : forall key, name ∈ shownKeys key -> key ∈ named
      · have hrest : ¬ NamedBefore (name :: named) pairs := fun hrest => h ⟨hfirst, hrest⟩
        rcases ih hrest with ⟨front, name', value', rest, key, rfl, hname, hnamed, hfront⟩
        rw [List.mem_cons, not_or] at hnamed
        refine ⟨(name, value) :: front, name', value', rest, key, rfl, hname, hnamed.2,
          fun pair hpair => ?_⟩
        rcases List.mem_cons.mp hpair with rfl | hpair
        · rw [Set.mem_insert_iff, not_or]
          exact ⟨fun heq => hnamed.1 heq.symm, fun hshown => hnamed.2 (hfirst key hshown)⟩
        · exact hfront pair hpair
      · rw [not_forall] at hfirst
        rcases hfirst with ⟨key, hkey⟩
        rw [Classical.not_imp] at hkey
        exact ⟨[], name, value, pairs, key, rfl, hkey.1, hkey.2,
          fun pair hpair => absurd hpair List.not_mem_nil⟩

theorem mset_stops {key name value : Bytes} {front rest : List (Bytes × Bytes)}
    (hname : key ≠ name)
    (hfront : forall pair, pair ∈ front -> pair.1 ∉ insert key (shownKeys key))
    (s : MapStore.Entries) (watch : WatchRegistry) :
    exists r w', (mset (front ++ (name, value) :: rest)).run
        (server (insertFaulty mapStore) idlePlatform)
        { failingServer [] with
          store := (s, List.replicate front.length none ++ [none, some outOfMemory])
          watch := watch } = some (r, w') ∧
      Set.EqOn (MapStore.view w'.store.1)
        (Function.update (MapStore.view s) name (some value)) (insert key (shownKeys key)) ∧
      w'.watch.getKeyVersion key = watch.getKeyVersion key := by
  induction front generalizing s watch with
  | nil =>
      have hview := MapStore.view_insert s name (value, none)
      have hversion := WatchRegistry.getKeyVersion_notify_of_ne watch hname
      cases rest with
      | nil => exact ⟨_, _, rfl, fun k _ => congrFun hview k, hversion⟩
      | cons pair rest => exact ⟨_, _, rfl, fun k _ => congrFun hview k, hversion⟩
  | cons pair front ih =>
      have hpair := hfront pair List.mem_cons_self
      have hkey : key ≠ pair.1 := fun heq => hpair (heq ▸ Set.mem_insert key _)
      rcases ih (fun p hp => hfront p (List.mem_cons_of_mem pair hp))
        (s.insert pair.1 (pair.2, none)) (watch.notifyKeyModified pair.1) with
        ⟨r, w', hrun, hview, hversion⟩
      refine ⟨r, w', hrun, fun k hk => ?_,
        hversion.trans (WatchRegistry.getKeyVersion_notify_of_ne _ hkey)⟩
      have hk' : k ≠ pair.1 := fun heq => hpair (heq ▸ hk)
      rw [hview hk, MapStore.view_insert]
      by_cases hsame : k = name
      · rw [hsame, Function.update_self, Function.update_self]
      · rw [Function.update_of_ne hsame, Function.update_of_ne hsame,
          Function.update_of_ne hk']

theorem not_covered_mset {pairs : List (Bytes × Bytes)}
    (hsmall : pairs.length + 1 < 2 ^ 64) (h : ¬ NamedBefore [] pairs) :
    ¬ Covered patched pairs.length (mset pairs) := by
  rcases exists_unnamed h with ⟨front, name, value, rest, key, rfl, hname, _, hfront⟩
  rcases exists_overwritten hname value with ⟨read, s, hread, hseen⟩
  rcases @mset_stops key name value front rest (ne_of_shown hname) hfront s .new with
    ⟨r, w', hrun, hview, hversion⟩
  exact not_covered_faulty (WatchRegistry.ahead_new hsmall) hrun hread (hseen _ hview)
    hversion

/-!
# Swaps and patches
-/

theorem not_covered_cas {expected newValue : Bytes} (key : Bytes)
    (h : newValue ≠ expected) : ¬ Covered patched 1 (cas key expected newValue) := by
  let w := HashOperations.serverHolding key expected ∅
  have hview : MapStore.view w.store key = some expected :=
    HashOperations.view_serverHolding key expected ∅
  rcases MapStore.behavesAsMap.compareAndSwap_equal newValue hview with ⟨s', hswap, hafter⟩
  have hrun : (cas key expected newValue).run (server mapStore idlePlatform) w =
      some (.integer 1, { w with store := s' }) := by
    unfold cas
    rw [HashOperations.run_callStore hswap]
    rfl
  have hchanged : MapStore.view s' key ≠ MapStore.view w.store key := by
    rw [hafter, Function.update_self, hview]
    exact fun heq => h (Option.some.inj heq)
  exact not_covered_get (WatchRegistry.ahead_new (by decide)) hrun hchanged rfl

theorem replyOf_get_patch (key : Bytes) (w : World (patchStore patched) idlePlatform) :
    replyOf (reader.respond 0 (.get key)) w =
      some (.bulkString (MapStore.view w.store key)) := by
  unfold replyOf respond get
  cases hview : MapStore.view w.store key with
  | none =>
      have hget : (patchStore patched).reply (.getBytes key) w.store =
          (.error MapStore.keyNotFound, w.store) := by
        simp [patchStore, MapStore.reply, hview]
      rw [HashOperations.run_callStore hget]
      rfl
  | some value =>
      have hget : (patchStore patched).reply (.getBytes key) w.store =
          (.ok value, w.store) := by
        simp [patchStore, MapStore.reply, hview]
      rw [HashOperations.run_callStore hget]
      rfl

theorem not_covered_jsonPatch {patch doc doc' : Bytes} (key : Bytes)
    (hpatched : patched doc patch = some doc') (h : doc' ≠ doc) :
    ¬ Covered patched 1 (jsonPatch key patch) := by
  let s : MapStore.Entries := AList.insert key (doc, none) ∅
  let w : World (patchStore patched) idlePlatform :=
    { store := s, platform := (), watch := .new, tracker := ∅, clients := ∅ }
  have hlookup : s.lookup key = some (doc, none) := AList.lookup_insert _
  have hpatch : (patchStore patched).reply (.jsonPatch key patch) w.store =
      (.ok (), AList.insert key (doc', none) s) := by
    change MapStore.jsonPatch patched s key patch = _
    unfold MapStore.jsonPatch
    simp only [hlookup, hpatched]
  have hrun : (jsonPatch key patch).run (server (patchStore patched) idlePlatform) w =
      some (okReply, { w with store := AList.insert key (doc', none) s }) := by
    unfold jsonPatch
    rw [HashOperations.run_callStore hpatch]
    rfl
  refine not_covered (MapStore.steadfastStore_patch patched)
    (WatchRegistry.ahead_new (by decide)) hrun (@Shows.get key) ?_ rfl
  rw [replyOf_get_patch, replyOf_get_patch]
  intro heq
  injection heq with heq
  injection heq with heq
  change MapStore.view (AList.insert key (doc', none) s) key = MapStore.view s key at heq
  rw [MapStore.view_insert, Function.update_self, MapStore.view, hlookup] at heq
  exact h (Option.some.inj heq)

/-!
# Lists and hashes
-/

theorem not_covered_push (pushMeta : ListOperations.ListMeta -> ListOperations.ListMeta × Int64)
    (key : Bytes) {values : List Bytes} (h : values ≠ []) :
    ¬ Covered patched 1 (push key (ListOperations.push pushMeta 1 key values)) := by
  rcases List.exists_cons_of_ne_nil h with ⟨value, values, rfl⟩
  let name := ListOperations.metaKey key
  let after : MapStore.Entries := AList.insert name (ListOperations.buildMetadata (pushMeta
    (ListOperations.parseMetadata ListOperations.initialMetadata)).1, none)
      (AList.insert name (ListOperations.initialMetadata, none) ∅)
  let w' : World (insertFaulty mapStore) idlePlatform :=
    { failingServer [] with store := withFaults after [] }
  have hrun : (push key (ListOperations.push pushMeta 1 key (value :: values))).run
      (server (insertFaulty mapStore) idlePlatform)
      (failingServer [none, none, some outOfMemory]) =
        some (commandError (.database outOfMemory), w') := rfl
  have hchanged : MapStore.view after name ≠ none := by
    rw [MapStore.view_insert, Function.update_self]
    exact Option.some_ne_none _
  exact not_covered_get_faulty (WatchRegistry.ahead_new (by decide)) hrun hchanged rfl

theorem popOne_gap_run {popMeta : ListOperations.ListMeta -> ListOperations.ListMeta × Int64}
    {m : ListOperations.ListMeta} (hone : m.count = 1) (horder : ¬ m.tail <= m.head)
    (hcount : (popMeta m).1.count = 0) (key : Bytes) {s : mapStore.State}
    (hmeta : MapStore.view s (ListOperations.metaKey key) =
      some (ListOperations.buildMetadata m))
    (hgap : forall pos, MapStore.view s (ListOperations.valueKey key pos) = none) :
    exists s', (ListOperations.popOne popMeta key 2 0).run mapStore s =
        some (.ok none, s') ∧
      MapStore.view s' (ListOperations.metaKey key) =
        some (ListOperations.buildMetadata (popMeta m).1) := by
  rcases MapStore.behavesAsMap.getBytes_present hmeta with ⟨s1, hget1, hview1⟩
  rw [← hview1] at hmeta hgap
  rcases MapStore.behavesAsMap.compareAndSwap_equal
    (ListOperations.buildMetadata (popMeta m).1) hmeta with ⟨s2, hswap, hview2⟩
  have habsent : MapStore.view s2 (ListOperations.valueKey key (popMeta m).2) = none := by
    rw [hview2, Function.update_of_ne (ListOperations.valueKey_ne_metaKey key _), hgap]
  rcases MapStore.behavesAsMap.getBytes_absent habsent with ⟨e, s3, hread, hview3⟩
  have hmeta3 : MapStore.view s3 (ListOperations.metaKey key) =
      some (ListOperations.buildMetadata (popMeta m).1) := by
    rw [hview3, hview2, Function.update_self]
  rcases MapStore.behavesAsMap.getBytes_present hmeta3 with ⟨s4, hget4, hview4⟩
  have hempty : (ListOperations.popOne popMeta key 1 0).run mapStore s3 =
      some (.ok none, s4) := by
    unfold ListOperations.popOne
    simp [hget4, hcount]
  refine ⟨s4, ?_, by rw [hview4, hmeta3]⟩
  rw [← hempty]
  conv_lhs => unfold ListOperations.popOne
  simp [hget1, hone, horder, hswap, hread]

theorem not_covered_pop {popMeta : ListOperations.ListMeta -> ListOperations.ListMeta × Int64}
    (hpop : forall m : ListOperations.ListMeta, (popMeta m).1.count = m.count - 1)
    (key : Bytes) {count : Option UInt64} (h : count ≠ some 0) :
    ¬ Covered patched 1 (pop key (ListOperations.pop popMeta 2 key count)) := by
  let m : ListOperations.ListMeta := { head := 0, tail := 1, count := 1 }
  let name := ListOperations.metaKey key
  let w := HashOperations.serverHolding name (ListOperations.buildMetadata m) ∅
  have hmeta : MapStore.view w.store name = some (ListOperations.buildMetadata m) :=
    HashOperations.view_serverHolding _ _ ∅
  have hgap : forall pos, MapStore.view w.store (ListOperations.valueKey key pos) = none := by
    intro pos
    rw [MapStore.view_insert,
      Function.update_of_ne (ListOperations.valueKey_ne_metaKey key pos)]
    rfl
  have hzero : (1 : UInt64) - 1 = 0 := by decide
  have hcount : (popMeta m).1.count = 0 := (hpop m).trans hzero
  rcases popOne_gap_run rfl (by decide) hcount key hmeta hgap with ⟨s', hone, hafter⟩
  have hloop : (ListOperations.pop popMeta 2 key count).run mapStore w.store =
      some (.ok [], s') := by
    have hpos : (count.getD 1).toNat ≠ 0 := by
      intro hzero
      have hzero : count.getD 1 = 0 := UInt64.toNat_inj.mp hzero
      cases count with
      | none => cases hzero
      | some n => exact h (congrArg some hzero)
    rcases Nat.exists_eq_succ_of_ne_zero hpos with ⟨n, hn⟩
    unfold ListOperations.pop
    rw [hn, ListOperations.popLoop, run_bind_of_some _ _ hone]
    rfl
  have hstore := @run_onStore mapStore idlePlatform _ (ListOperations.pop popMeta 2 key count) w
  rw [hloop] at hstore
  have hrun : (pop key (ListOperations.pop popMeta 2 key count)).run
      (server mapStore idlePlatform) w = some (.bulkString none, { w with store := s' }) :=
    modifying_run key (fun values : List Bytes => !values.isEmpty) popReply hstore
  have hchanged : MapStore.view s' name ≠ MapStore.view w.store name := by
    rw [hafter, hmeta]
    intro heq
    have hsame := congrArg ListOperations.parseMetadata (Option.some.inj heq)
    rw [ListOperations.parseMetadata_buildMetadata,
      ListOperations.parseMetadata_buildMetadata] at hsame
    rw [hsame] at hcount
    cases hcount
  exact not_covered_get (WatchRegistry.ahead_new (by decide)) hrun hchanged rfl

theorem fieldKey_ne (key field : Bytes) : HashOperations.fieldKey key field ≠ key := by
  intro heq
  have hlength := congrArg List.length heq
  simp only [HashOperations.fieldKey, HashOperations.fieldPrefix, asBytes_fieldMark,
    List.length_append, List.length_cons] at hlength
  omega

theorem getKeyVersion_fieldKey {watch watch' : WatchRegistry} {key : Bytes}
    (h : watch' = watch ∨ watch' = watch.notifyKeyModified key) (field : Bytes) :
    watch'.getKeyVersion (HashOperations.fieldKey key field) =
      watch.getKeyVersion (HashOperations.fieldKey key field) := by
  rcases h with rfl | rfl
  · rfl
  · exact WatchRegistry.getKeyVersion_notify_of_ne _ (fieldKey_ne key field)

theorem not_covered_hset (key : Bytes) {fields : List (Bytes × Bytes)} (h : fields ≠ []) :
    ¬ Covered patched 1
      (modifying key (fun _ => true) .integer (HashOperations.hset key fields)) := by
  rcases List.exists_cons_of_ne_nil h with ⟨⟨field, value⟩, fields, rfl⟩
  let w := failingServer [none, some outOfMemory]
  let name := HashOperations.fieldKey key field
  have hrun : exists r w', (modifying key (fun _ => true) .integer
      (HashOperations.hset key ((field, value) :: fields))).run
        (server (insertFaulty mapStore) idlePlatform) w = some (r, w') ∧
      (w'.watch = w.watch ∨ w'.watch = w.watch.notifyKeyModified key) ∧
      w'.store.1 = AList.insert name (value, none) (∅ : MapStore.Entries) := by
    cases fields with
    | nil => exact ⟨_, _, rfl, Or.inr rfl, rfl⟩
    | cons field' fields => exact ⟨_, _, rfl, Or.inl rfl, rfl⟩
  rcases hrun with ⟨r, w', hrun, hwatch, hstore⟩
  refine not_covered_get_faulty (WatchRegistry.ahead_new (by decide)) hrun ?_
    (getKeyVersion_fieldKey hwatch field)
  rw [hstore, MapStore.view_insert, Function.update_self]
  exact Option.some_ne_none _

theorem hdelLoop_absent_run (key : Bytes) (fields : List Bytes) (count : Int64)
    {w : World mapStore idlePlatform}
    (h : forall field, MapStore.view w.store (HashOperations.fieldKey key field) = none) :
    (HashOperations.hdelLoop key fields count).run (server mapStore idlePlatform) w =
      some (count, w) := by
  induction fields with
  | nil => rfl
  | cons field fields ih =>
      have hdelete : mapStore.reply (.delete (HashOperations.fieldKey key field)) w.store =
          (.error MapStore.keyNotFound, w.store) := by
        simp [mapStore, MapStore.reply, MapStore.present_eq, h field]
      unfold HashOperations.hdelLoop
      rw [HashOperations.run_callStore hdelete]
      exact ih

theorem not_covered_hdel (key : Bytes) {fields : List Bytes} (h : fields ≠ []) :
    ¬ Covered patched 1 (modifying key (fun count : Int64 => decide (count > 0)) .integer
      (HashOperations.hdel key fields)) := by
  rcases List.exists_cons_of_ne_nil h with ⟨field, fields, rfl⟩
  let name := HashOperations.fieldKey key field
  let w := HashOperations.serverHolding name [] ∅
  have hthere : MapStore.view w.store name = some [] :=
    HashOperations.view_serverHolding name [] ∅
  rcases MapStore.behavesAsMap.delete_present hthere with ⟨s', hdelete, hview⟩
  have hgone : forall k, MapStore.view s' k = none := by
    intro k
    rw [hview]
    by_cases hk : k = name
    · rw [hk, Function.update_self]
    · rw [Function.update_of_ne hk, MapStore.view_insert, Function.update_of_ne hk]
      rfl
  have hloop : (HashOperations.hdelLoop key (field :: fields) 0).run
      (server mapStore idlePlatform) w = some (1, { w with store := s' }) := by
    unfold HashOperations.hdelLoop
    rw [HashOperations.run_callStore hdelete]
    exact hdelLoop_absent_run key fields 1 (w := { w with store := s' })
      fun field => hgone _
  have hrun : exists r w', (modifying key (fun count : Int64 => decide (count > 0)) .integer
      (HashOperations.hdel key (field :: fields))).run (server mapStore idlePlatform) w =
        some (r, w') ∧ w'.watch = w.watch.notifyKeyModified key ∧ w'.store = s' := by
    unfold modifying HashOperations.hdel
    rw [run_bind, run_bind_of_some _ _ hloop]
    exact ⟨_, _, rfl, rfl, rfl⟩
  rcases hrun with ⟨r, w', hrun, hwatch, hstore⟩
  refine not_covered_get (WatchRegistry.ahead_new (by decide)) hrun ?_
    (getKeyVersion_fieldKey (Or.inr hwatch) field)
  rw [hstore, hgone, hthere]
  exact (Option.some_ne_none _).symm

theorem not_covered_hincrby (key field : Bytes) (delta : Int64) :
    ¬ Covered patched 1 (modifying key (fun _ => true) .integer
      (HashOperations.hincrby key field delta)) := by
  let name := HashOperations.fieldKey key field
  let w := HashOperations.serverWith idlePlatform () (∅ : MapStore.Entries) ∅
  have hrun : exists r w', (modifying key (fun _ => true) .integer
      (HashOperations.hincrby key field delta)).run (server mapStore idlePlatform) w =
        some (r, w') ∧ w'.watch = w.watch.notifyKeyModified key ∧
      w'.store = AList.insert name (asBytes (decimal delta), none) w.store :=
    ⟨_, _, rfl, rfl, rfl⟩
  rcases hrun with ⟨r, w', hrun, hwatch, hstore⟩
  refine not_covered_get (WatchRegistry.ahead_new (by decide)) hrun ?_
    (getKeyVersion_fieldKey (Or.inr hwatch) field)
  rw [hstore, MapStore.view_insert, Function.update_self]
  exact Option.some_ne_none _

theorem not_covered_hlen (key : Bytes) : ¬ Covered patched 1 (hlen key) := by
  let name := HashOperations.metaKey key
  let w := HashOperations.serverWith idlePlatform () (∅ : MapStore.Entries)
    (AList.insert name 1 ∅)
  let after : MapStore.Entries := AList.insert name (i64ToLeBytes 1, none) ∅
  let w' : World mapStore idlePlatform := { w with store := after, tracker := ∅ }
  have hflush : HashOperations.flushMetadata.run (server mapStore idlePlatform) w =
      some ((), w') := rfl
  have hview : MapStore.view after name = some (i64ToLeBytes 1) := by
    rw [MapStore.view_insert, Function.update_self]
  have hget : mapStore.reply (.getBytes name) w'.store = (.ok (i64ToLeBytes 1), after) := by
    change MapStore.reply (.getBytes name) after = _
    simp [MapStore.reply, hview]
  have hrun : exists r, (hlen key).run (server mapStore idlePlatform) w = some (r, w') := by
    unfold hlen HashOperations.hlen
    rw [run_bind, run_bind_of_some _ _ hflush, HashOperations.run_callStore hget]
    exact ⟨_, rfl⟩
  rcases hrun with ⟨r, hrun⟩
  have hchanged : MapStore.view after name ≠ none := by
    rw [hview]
    exact Option.some_ne_none _
  exact not_covered_get (WatchRegistry.ahead_new (by decide)) hrun hchanged rfl

/-!
# All commands
-/

theorem covered_of_execute {cmd : Command} {n fuel : Nat}
    (h : Covered patched n (reader.execute fuel cmd)) :
    exists x : CommandExecutor, Covered patched n (x.respond fuel cmd) := by
  let x : CommandExecutor := { reader with commandsProcessed := reader.commandsProcessed + 1 }
  refine ⟨x, fun S P view w w' r hS hahead hrun => ?_⟩
  refine h S P view w w' (r, x) hS hahead ?_
  unfold execute
  rw [run_bind_of_some _ _ hrun]
  rfl

theorem announces_of_covered {cmd : Command} (hsmall : cmd.notices + 1 < 2 ^ 64)
    (h : forall fuel, Covered patched cmd.notices (reader.execute fuel cmd)) :
    cmd.Announces patched := by
  have hrespond := fun fuel => covered_of_execute (h fuel)
  rcases hrespond 1 with ⟨x, hx⟩
  cases cmd with
  | set key value ex px => exact fun k hname => not_covered_set hname value ex px hx
  | incr name | decr name | incrBy name delta | decrBy name delta =>
      exact fun k hname => not_covered_stringIncr hname _ hx
  | del names =>
      exact fun name hmem k hname => not_covered_del hsmall hmem hname hx
  | mset pairs =>
      by_contra hnamed
      exact not_covered_mset hsmall hnamed hx
  | cas key expected newValue =>
      by_contra hne
      exact not_covered_cas key hne hx
  | jsonPatch key patch =>
      intro doc doc' hpatched
      by_contra hne
      exact not_covered_jsonPatch key hpatched hne hx
  | lpush key values | rpush key values =>
      by_contra hne
      exact not_covered_push _ key hne hx
  | lpop key count | rpop key count =>
      rcases hrespond 2 with ⟨x2, hx2⟩
      by_contra hne
      exact not_covered_pop (fun _ => rfl) key hne hx2
  | hset key fields =>
      by_contra hne
      exact not_covered_hset key hne hx
  | hdel key fields =>
      by_contra hne
      exact not_covered_hdel key hne hx
  | hincrBy key field delta => exact not_covered_hincrby key field delta hx
  | hlen key => exact not_covered_hlen key hx
  | _ => exact trivial

end CommandExecutor

end Silent

/-- A command of a size that memory can hold lets no change of a key pass unnoticed
exactly when it announces its changes; and so does the fast path of `SET`. -/
theorem changes_covered_iff (patched : Bytes -> Bytes -> Option Bytes) (cmd : Command)
    (hparts : cmd.notices < 2 ^ 63) (key value : Bytes) :
    ((forall fuel (x : CommandExecutor),
        Covered patched cmd.notices (x.execute fuel cmd)) <-> cmd.Announces patched) ∧
      (Covered patched 1 (CommandExecutor.fastSetBytes key value) <-> Solitary key) := by
  refine ⟨⟨fun h => ?_, fun h => CommandExecutor.covered_execute h⟩, fun h k hkey => ?_,
    fun h => CommandExecutor.covered_fastSetBytes h value⟩
  · have hsmall : cmd.notices + 1 < 2 ^ 64 := by omega
    exact CommandExecutor.announces_of_covered hsmall fun fuel => h fuel reader
  · exact CommandExecutor.not_covered_fastSetBytes hkey value h

/-- A swap of a value for itself is harmless, and writing the metadata of a list as
a string is not. -/
theorem changes_covered_swap :
    (forall fuel (x : CommandExecutor), Covered (fun _ _ => none) 1
        (x.execute fuel (.cas [107] [49] [49]))) ∧
      ¬ Covered (fun _ _ => none) 1
        (CommandExecutor.fastSetBytes (ListOperations.metaKey [107]) [49]) := by
  have h := changes_covered_iff (fun _ _ => none) (.cas [107] [49] [49]) (by decide)
    (ListOperations.metaKey [107]) [49]
  refine ⟨h.1.mpr rfl, fun hcovered => ?_⟩
  exact h.2.mp hcovered [107] (Or.inl (ListOperations.metaKey_mem [107]))

/-- `CAS` changes what `GET` shows, and the version of the key stays. -/
theorem cas_unnoticed : exists r w',
    (reader.execute 0 (.cas [107] [49] [50])).run (server mapStore idlePlatform)
        (HashOperations.serverHolding [107] [49] ∅) = some (r, w') ∧
      replyOf (reader.respond 0 (.get [107])) (HashOperations.serverHolding [107] [49] ∅) =
        some (.bulkString (some [49])) ∧
      replyOf (reader.respond 0 (.get [107])) w' = some (.bulkString (some [50])) ∧
      w'.watch.getKeyVersion [107] =
        (HashOperations.serverHolding [107] [49] ∅).watch.getKeyVersion [107] :=
  ⟨_, _, rfl, rfl, rfl, rfl⟩

end FeoxServer
