import FeoxServer.Protocol.HashCorrectness
import FeoxServer.Protocol.KeyPatterns

/-!
# Listing a hash

`HGETALL`, `HKEYS` and `HVALS` read the keys of a range, `HGET` looks one key up.
-/

namespace FeoxServer

open Foundation Prog

/-- A field that goes on behind a first octet with all bits set. -/
def TopField (field : Bytes) : Prop :=
  exists b more, field = 255 :: b :: more

theorem le_top_iff (field : Bytes) : field <= [255] <-> ¬ TopField field := by
  unfold TopField
  cases field with
  | nil => exact iff_of_true (List.nil_le _) (fun h => by simp at h)
  | cons b more =>
      rw [List.cons_le_cons_iff, List.le_nil]
      have htop : b <= 255 := UInt8.le_iff_toNat_le.mpr (UInt8.toNat_lt_size b).le_pred
      constructor
      · intro h hfield
        rcases hfield with ⟨b', more', hfield⟩
        injection hfield with hb hmore
        rcases h with hlt | ⟨_, hnil⟩
        · rw [hb] at hlt
          exact UInt8.lt_irrefl 255 hlt
        · rw [hnil] at hmore
          cases hmore
      · intro h
        rcases UInt8.lt_or_eq_of_le htop with hlt | heq
        · exact Or.inl hlt
        · apply Or.inr
          refine ⟨heq, ?_⟩
          cases more with
          | nil => rfl
          | cons b' more => exact absurd ⟨b', more, by rw [heq]⟩ h

section HashListings

variable {S : FeoxStore} {P : Platform}
  {view : S.State -> Bytes -> Option Bytes}

/-- The fields that are there. -/
def heldFields (view : S.State -> Bytes -> Option Bytes) (key : Bytes)
    (w : World S P) : Set Bytes :=
  {field | (view w.store (HashOperations.fieldKey key field)).isSome = true}

/-- The replies that list a hash show these fields and values. -/
structure HashShows (fuel : Nat) (x : CommandExecutor) (key : Bytes)
    (w : World S P) (pairs : List (Bytes × Bytes)) : Prop where
  hgetall : replyOf (x.respond fuel (.hgetall key)) w =
    some (CommandExecutor.pairsReply pairs)
  hkeys : replyOf (x.respond fuel (.hkeys key)) w =
    some (CommandExecutor.bulkArray (pairs.map Prod.fst))
  hvals : replyOf (x.respond fuel (.hvals key)) w =
    some (CommandExecutor.bulkArray (pairs.map Prod.snd))

/-- The hash is listed as `HGET` finds it: `HGETALL` shows each field that is
found once and with its value, and `HKEYS` and `HVALS` show the fields and the
values in the same order. -/
def HashListed (fuel : Nat) (x : CommandExecutor) (key : Bytes) (w : World S P) :
    Prop :=
  exists pairs, HashShows fuel x key w pairs ∧ (pairs.map Prod.fst).Nodup ∧
    forall field value, (field, value) ∈ pairs <->
      replyOf (x.respond fuel (.hget key field)) w =
        some (.bulkString (some value))

theorem hget_found (hS : FlatStore S view) (key field : Bytes) (w : World S P) :
    exists w', (HashOperations.hget key field).run (server S P) w =
      some (view w.store (HashOperations.fieldKey key field), w') := by
  unfold HashOperations.hget
  cases hview : view w.store (HashOperations.fieldKey key field) with
  | some value =>
      rcases hS.getBytes_present hview with ⟨s', hget, _⟩
      exact ⟨_, HashOperations.run_callStore hget _⟩
  | none =>
      rcases hS.getBytes_absent hview with ⟨e, s', hget, _⟩
      exact ⟨_, HashOperations.run_callStore hget _⟩

theorem replyOf_hget (hS : FlatStore S view) (key field : Bytes) (fuel : Nat)
    (x : CommandExecutor) (w : World S P) :
    replyOf (x.respond fuel (.hget key field)) w =
      some (.bulkString (view w.store (HashOperations.fieldKey key field))) := by
  rcases hget_found hS key field w with ⟨w', hrun⟩
  unfold replyOf
  change ((HashOperations.hget key field >>= fun value =>
    pure (RespValue.bulkString value)).run (server S P) w).map Prod.fst = _
  rw [run_bind_of_some _ _ hrun]
  rfl

theorem fieldsOf_eq (key : Bytes) {pairs : List (Bytes × Bytes)}
    (h : forall pair, pair ∈ pairs ->
      exists field, pair.1 = HashOperations.fieldKey key field) :
    HashOperations.fieldsOf key pairs = pairs.map fun pair =>
      (pair.1.drop (HashOperations.fieldPrefix key).length, pair.2) := by
  unfold HashOperations.fieldsOf
  congr 1
  apply List.filter_eq_self.mpr
  intro pair hpair
  rcases h pair hpair with ⟨field, hfield⟩
  rw [hfield]
  exact List.isPrefixOf_iff_prefix.mpr (List.prefix_append _ field)

theorem drop_fieldKey (key field : Bytes) :
    (HashOperations.fieldKey key field).drop
      (HashOperations.fieldPrefix key).length = field :=
  List.drop_left

/-- What the range query of a hash finds: all fields but those above the end of
the range, and no more of them than its limit. -/
theorem hash_range (hS : FlatStore S view) (key : Bytes) (w : World S P) :
    exists (pairs : List (Bytes × Bytes)) (s' : S.State)
        (all : List (Bytes × Bytes)),
      S.reply (.rangeQuery (HashOperations.fieldPrefix key)
        (HashOperations.endKey key) 10000) w.store = (.ok pairs, s') ∧
      HashOperations.fieldsOf key pairs = all.take 10000 ∧
      (all.map Prod.fst).Nodup ∧
      forall field value, (field, value) ∈ all <->
        ¬ TopField field ∧
          view w.store (HashOperations.fieldKey key field) = some value := by
  rcases hS.rangeQuery w.store (HashOperations.fieldPrefix key)
    (HashOperations.endKey key) 10000 with ⟨pairs, s', hquery, hsorted, hmem⟩
  have hrange : forall k value, (k, value) ∈ pairs <->
      (exists field, k = HashOperations.fieldKey key field ∧ ¬ TopField field) ∧
        view w.store k = some value := by
    intro k value
    rw [hmem, HashOperations.endKey, between_append]
    simp only [le_top_iff]
    rfl
  have hfields : forall pair, pair ∈ pairs ->
      exists field, pair.1 = HashOperations.fieldKey key field := by
    intro pair hpair
    rcases ((hrange pair.1 pair.2).mp hpair).1 with ⟨field, hfield, _⟩
    exact ⟨field, hfield⟩
  refine ⟨pairs.take (10000 : UInt64).toNat, s', pairs.map fun pair =>
    (pair.1.drop (HashOperations.fieldPrefix key).length, pair.2), hquery, ?_, ?_,
    fun field value => ?_⟩
  · rw [fieldsOf_eq key fun pair hpair => hfields pair (List.mem_of_mem_take hpair),
      List.map_take]
    rfl
  · rw [List.map_map]
    apply List.Nodup.map_on
    · intro pair hpair pair' hpair' heq
      rcases hfields pair hpair with ⟨field, hfield⟩
      rcases hfields pair' hpair' with ⟨field', hfield'⟩
      have hsame : field = field' := by
        have hdrop : pair.1.drop (HashOperations.fieldPrefix key).length =
            pair'.1.drop (HashOperations.fieldPrefix key).length := heq
        rw [hfield, hfield', drop_fieldKey, drop_fieldKey] at hdrop
        exact hdrop
      have hkey : pair.1 = pair'.1 := by rw [hfield, hfield', hsame]
      have hvalue := ((hrange pair.1 pair.2).mp hpair).2
      rw [hkey, ((hrange pair'.1 pair'.2).mp hpair').2] at hvalue
      exact Prod.ext hkey (Option.some.inj hvalue).symm
    · refine hsorted.imp ?_
      intro a b hlt heq
      rw [heq] at hlt
      exact List.lt_irrefl _ hlt
  · rw [List.mem_map]
    constructor
    · intro h
      rcases h with ⟨⟨k, value'⟩, hpair, heq⟩
      rcases (hrange k value').mp hpair with ⟨⟨field', hk, htop⟩, hvalue⟩
      subst hk
      rw [drop_fieldKey] at heq
      injection heq with hfield hvalue'
      subst hfield hvalue'
      exact ⟨htop, hvalue⟩
    · intro h
      refine ⟨(HashOperations.fieldKey key field, value), ?_, ?_⟩
      · exact (hrange _ _).mpr ⟨⟨field, rfl, h.1⟩, h.2⟩
      · rw [drop_fieldKey]

theorem hash_shows {key : Bytes} {w : World S P} {pairs : List (Bytes × Bytes)}
    {s' : S.State}
    (hquery : S.reply (.rangeQuery (HashOperations.fieldPrefix key)
      (HashOperations.endKey key) 10000) w.store = (.ok pairs, s'))
    (fuel : Nat) (x : CommandExecutor) :
    HashShows fuel x key w (HashOperations.fieldsOf key pairs) := by
  have hcollect : forall {α : Type} (f : List (Bytes × Bytes) -> List α),
      (HashOperations.collect f key).run (server S P) w =
        some (.ok (f (HashOperations.fieldsOf key pairs)), { w with store := s' }) :=
    fun f => HashOperations.run_callStore hquery _
  have hreading : forall {α : Type} (reply : List α -> RespValue)
      (f : List (Bytes × Bytes) -> List α),
      replyOf (CommandExecutor.reading reply (HashOperations.collect f key)) w =
        some (reply (f (HashOperations.fieldsOf key pairs))) := by
    intro α reply f
    unfold replyOf CommandExecutor.reading
    rw [run_bind_of_some _ _ (hcollect f)]
    rfl
  exact ⟨hreading _ id, hreading _ _, hreading _ _⟩

theorem pairsReply_injective : Function.Injective CommandExecutor.pairsReply := by
  intro pairs pairs' h
  have hflat := CommandExecutor.bulkArray_injective h
  induction pairs generalizing pairs' with
  | nil =>
      cases pairs' with
      | nil => rfl
      | cons pair' pairs' => cases hflat
  | cons pair pairs ih =>
      cases pairs' with
      | nil => cases hflat
      | cons pair' pairs' =>
          simp only [List.flatMap_cons, List.cons_append, List.nil_append] at hflat
          injection hflat with hfield hflat
          injection hflat with hvalue hflat
          rw [Prod.ext hfield hvalue, ih (congrArg CommandExecutor.bulkArray hflat) hflat]

/-- A hash is listed completely if and only if no field that is there goes on
behind a first octet with all bits set, and there are no more fields than the
limit of the range query. -/
theorem hash_listed_iff (hS : FlatStore S view) (key : Bytes) (fuel : Nat)
    (x : CommandExecutor) (w : World S P) :
    HashListed fuel x key w <->
      (forall field, field ∈ heldFields view key w -> ¬ TopField field) ∧
        (heldFields view key w).encard <= 10000 := by
  rcases hash_range hS key w with ⟨pairs, s', all, hquery, hfields, hnodup, hmem⟩
  have hshows := hash_shows hquery fuel x
  rw [hfields] at hshows
  have hfound : forall field value,
      replyOf (x.respond fuel (.hget key field)) w =
          some (.bulkString (some value)) <->
        view w.store (HashOperations.fieldKey key field) = some value := by
    intro field value
    rw [replyOf_hget hS]
    simp
  -- The reply shows the fields that the range query finds.
  have hlisted : HashListed fuel x key w <->
      forall field value, (field, value) ∈ all.take 10000 <->
        view w.store (HashOperations.fieldKey key field) = some value := by
    constructor
    · intro h
      rcases h with ⟨shown, hshown, _, hexact⟩
      have hreply := hshown.hgetall
      rw [hshows.hgetall] at hreply
      rw [pairsReply_injective (Option.some.inj hreply)]
      intro field value
      rw [hexact, hfound]
    · intro h
      refine ⟨all.take 10000, hshows, ?_, fun field value => ?_⟩
      · rw [List.map_take]
        exact hnodup.sublist (List.take_sublist _ _)
      · rw [h, hfound]
  have hheld : (forall field, field ∈ heldFields view key w -> ¬ TopField field) ->
      heldFields view key w = {field | field ∈ all.map Prod.fst} := by
    intro hlow
    apply Set.ext
    intro field
    constructor
    · intro hfield
      rcases Option.isSome_iff_exists.mp hfield with ⟨value, hvalue⟩
      have hpair := (hmem field value).mpr ⟨hlow field hfield, hvalue⟩
      exact List.mem_map.mpr ⟨(field, value), hpair, rfl⟩
    · intro hfield
      rcases List.mem_map.mp hfield with ⟨⟨field', value⟩, hpair, heq⟩
      have hvalue := ((hmem field' value).mp hpair).2
      rw [show field' = field from heq] at hvalue
      exact Option.isSome_iff_exists.mpr ⟨value, hvalue⟩
  have hcard : ({field | field ∈ all.map Prod.fst} : Set Bytes).encard = all.length := by
    rw [← List.coe_toFinset, Set.encard_coe_eq_coe_finsetCard,
      List.toFinset_card_of_nodup hnodup, List.length_map]
  rw [hlisted]
  constructor
  · intro h
    have hlow : forall field, field ∈ heldFields view key w -> ¬ TopField field := by
      intro field hfield
      rcases Option.isSome_iff_exists.mp hfield with ⟨value, hvalue⟩
      have hpair := List.mem_of_mem_take ((h field value).mpr hvalue)
      exact ((hmem field value).mp hpair).1
    refine ⟨hlow, ?_⟩
    have hall : all ⊆ all.take 10000 := by
      intro pair hpair
      exact (h pair.1 pair.2).mpr ((hmem pair.1 pair.2).mp hpair).2
    have hlength := (hnodup.of_map.subperm hall).length_le
    rw [hheld hlow, hcard]
    have hbound : all.length <= 10000 :=
      Nat.le_trans hlength (List.length_take_le _ _)
    exact_mod_cast hbound
  · intro h
    rcases h with ⟨hlow, hfew⟩
    rw [hheld hlow, hcard] at hfew
    have hbound : all.length <= 10000 := by exact_mod_cast hfew
    rw [List.take_of_length_le hbound]
    intro field value
    rw [hmem]
    constructor
    · intro hpair
      exact hpair.2
    · intro hvalue
      exact ⟨hlow field (Option.isSome_iff_exists.mpr ⟨value, hvalue⟩), hvalue⟩

end HashListings

theorem hash_listed_top : exists w',
    (CommandExecutor.respond 0 (.new { requirepass := none })
        (.hset [104] [([255], [118]), ([97], [119]), ([97, 255], [118])])).run
          (server mapStore idlePlatform) ListOperations.emptyServer =
      some (.integer 3, w') ∧
      heldFields MapStore.view [104] w' = {[255], [97], [97, 255]} ∧
      HashListed 0 (.new { requirepass := none }) [104] w' := by
  have habsent : HashOperations.Absent MapStore.view [104]
      ListOperations.emptyServer :=
    ⟨fun _ => rfl, rfl, rfl⟩
  rcases HashOperations.respond_run MapStore.countsAsMap
    (.hset [([255], [118]), ([97], [119]), ([97, 255], [118])]) 0
    (.new { requirepass := none }) habsent.represents trivial (by decide)
    (by decide) with ⟨w', hrun, hrep⟩
  have hheld : heldFields MapStore.view [104] w' = {[255], [97], [97, 255]} := by
    ext field
    change (MapStore.view w'.store (HashOperations.fieldKey [104] field)).isSome =
      true <-> _
    rw [hrep.stored field, AList.lookup_isSome]
    change field ∈ FiniteMap.insertAll ∅ _ <-> _
    simp only [FiniteMap.insertAll, List.foldl, AList.mem_insert, AList.notMem_empty,
      or_false, Set.mem_insert_iff, Set.mem_singleton_iff]
    tauto
  refine ⟨w', hrun, hheld, (hash_listed_iff MapStore.flatStore [104] 0 _ _).mpr ?_⟩
  rw [hheld]
  constructor
  · rintro field (rfl | rfl | rfl) ⟨b, more, htop⟩ <;> cases htop
  · have hthree := Set.encard_insert_le ({[97], [97, 255]} : Set Bytes) [255]
    have htwo := Set.encard_insert_le ({[97, 255]} : Set Bytes) [97]
    rw [Set.encard_singleton] at htwo
    calc ({[255], [97], [97, 255]} : Set Bytes).encard
        <= ({[97], [97, 255]} : Set Bytes).encard + 1 := hthree
      _ <= 1 + 1 + 1 := by gcongr
      _ <= 10000 := by norm_num

/-- A field of two octets with all bits set is not listed. -/
theorem hash_not_listed : exists w',
    (CommandExecutor.respond 0 (.new { requirepass := none })
        (.hset [104] [([255, 255], [118])])).run (server mapStore idlePlatform)
          ListOperations.emptyServer = some (.integer 1, w') ∧
      ¬ HashListed 0 (.new { requirepass := none }) [104] w' := by
  have habsent : HashOperations.Absent MapStore.view [104]
      ListOperations.emptyServer :=
    ⟨fun _ => rfl, rfl, rfl⟩
  rcases HashOperations.respond_run MapStore.countsAsMap
    (.hset [([255, 255], [118])]) 0 (.new { requirepass := none })
    habsent.represents trivial (by decide) (by decide) with ⟨w', hrun, hrep⟩
  refine ⟨w', hrun, fun hlisted => ?_⟩
  have hfield := hrep.stored [255, 255]
  rcases hash_range MapStore.flatStore [104] w' with
    ⟨pairs, s', all, hquery, hfields, _, hmem⟩
  have hshows := (hash_shows hquery 0 (.new { requirepass := none })).hgetall
  rcases hlisted with ⟨shown, hshown, _, hexact⟩
  have hpair : (([255, 255], [118]) : Bytes × Bytes) ∈ shown := by
    rw [hexact, replyOf_hget MapStore.flatStore, hfield]
    rfl
  have hreply := hshown.hgetall
  rw [hshows, hfields] at hreply
  rw [← pairsReply_injective (Option.some.inj hreply)] at hpair
  have htop := ((hmem _ _).mp (List.mem_of_mem_take hpair)).1
  exact htop ⟨255, [], rfl⟩

end FeoxServer
