import FeoxServer.Protocol.TypeIsolation
import FeoxServer.Store.FlatStore

/-!
# Commands on keys

`EXISTS`, `DEL` and `KEYS` know the keys of the store and nothing of the lists
and hashes that are made of them.
-/

namespace FeoxServer

open Foundation Prog

def tellsData : RespValue -> Bool
  | .bulkString value => value.isSome
  | .integer n => n ≠ 0
  | _ => false

section Keyspace

variable {S : FeoxStore} {P : Platform}
  {view : S.State -> Bytes -> Option Bytes}

def Finds (read : Command) (fuel : Nat) (x : CommandExecutor) (w : World S P) :
    Bool :=
  (replyOf (x.respond fuel read) w).any tellsData

/-- A string, a list or a hash is found under the key. -/
def findsAny (key : Bytes) (fuel : Nat) (x : CommandExecutor) (w : World S P) :
    Bool :=
  Finds (.get key) fuel x w || Finds (.llen key) fuel x w ||
    Finds (.hlen key) fuel x w

/-- The commands on keys agree on which keys there are: `EXISTS` counts them,
`DEL` removes them and `KEYS *` lists them, as far as it lists keys at all. -/
structure KeysAgree
    (found : Bytes -> Nat -> CommandExecutor -> World S P -> Bool)
    (fuel : Nat) (x : CommandExecutor) (w : World S P) : Prop where
  exists_ : forall key, replyOf (x.respond fuel (.exists_ [key])) w =
    some (.integer (if found key fuel x w then 1 else 0))
  del : forall key, exists w', (x.respond fuel (.del [key])).run (server S P) w =
      some (.integer (if found key fuel x w then 1 else 0), w') ∧
    found key fuel x w' = false
  keys : exists keys : List Bytes, replyOf (x.respond fuel (.keys "*")) w =
      some (CommandExecutor.bulkArray (keys.take 100000)) ∧
    keys.Pairwise (· < ·) ∧
    forall key, key ∈ keys <->
      found key fuel x w = true ∧ key <= CommandExecutor.lastKey

theorem replyOf_get_view (hS : FlatStore S view) (key : Bytes) (fuel : Nat)
    (x : CommandExecutor) (w : World S P) :
    replyOf (x.respond fuel (.get key)) w =
      some (.bulkString (view w.store key)) := by
  cases hview : view w.store key with
  | some value => exact replyOf_get hS.toBehavesAsMap fuel x hview
  | none =>
      rcases hS.keyNotFound hview with ⟨e, s', hget, he⟩
      unfold replyOf CommandExecutor.respond CommandExecutor.get
      rw [HashOperations.run_callStore hget]
      simp only [he, if_true]
      rfl

theorem finds_get (hS : FlatStore S view) (key : Bytes) (fuel : Nat)
    (x : CommandExecutor) (w : World S P) :
    Finds (.get key) fuel x w = (view w.store key).isSome := by
  unfold Finds
  rw [replyOf_get_view hS]
  rfl

theorem replyOf_exists (hS : FlatStore S view) (key : Bytes) (fuel : Nat)
    (x : CommandExecutor) (w : World S P) :
    replyOf (x.respond fuel (.exists_ [key])) w =
      some (.integer (if (view w.store key).isSome then 1 else 0)) := by
  rcases hS.containsKey w.store key with ⟨s', hcontains, _⟩
  unfold replyOf CommandExecutor.respond CommandExecutor.existing
  rw [HashOperations.run_callStore hcontains]
  rfl

theorem del_run (hS : FlatStore S view) (key : Bytes) (fuel : Nat)
    (x : CommandExecutor) (w : World S P) :
    exists w', (x.respond fuel (.del [key])).run (server S P) w =
        some (.integer (if (view w.store key).isSome then 1 else 0), w') ∧
      view w'.store = Function.update (view w.store) key none := by
  unfold CommandExecutor.respond CommandExecutor.del
  cases hview : view w.store key with
  | some value =>
      rcases hS.delete_present hview with ⟨s', hdelete, hafter⟩
      refine ⟨{ w with store := s', watch := w.watch.notifyKeyModified key }, ?_,
        hafter⟩
      rw [HashOperations.run_callStore hdelete]
      rfl
  | none =>
      rcases hS.delete_absent hview with ⟨e, s', hdelete, hafter⟩
      refine ⟨{ w with store := s' }, ?_, ?_⟩
      · rw [HashOperations.run_callStore hdelete]
        rfl
      · rw [hafter, Function.update_eq_self_iff.mpr hview.symm]

theorem globLoop_after_star (text : Bytes) (fuel : Nat)
    (h : text.length < fuel) :
    globLoop fuel [] text (some ([], text)) = true := by
  induction text generalizing fuel with
  | nil =>
      cases fuel with
      | zero => exact absurd h (Nat.not_lt_zero _)
      | succ fuel => rfl
  | cons t text ih =>
      cases fuel with
      | zero => exact absurd h (Nat.not_lt_zero _)
      | succ fuel =>
          rw [globLoop]
          exact ih fuel (Nat.lt_of_succ_lt_succ h)

theorem matchPattern_star (key : Bytes) : matchPattern key "*" = true := by
  unfold matchPattern globMatch
  have hstar : asBytes "*" = [42] := by decide +kernel
  rw [hstar]
  cases asBytes (fromUtf8Lossy key) with
  | nil => rfl
  | cons t text =>
      refine globLoop_after_star (t :: text) _ ?_
      simp only [List.length_cons, List.length_nil]
      omega

theorem keys_reply (hS : FlatStore S view) (fuel : Nat) (x : CommandExecutor)
    (w : World S P) :
    exists keys : List Bytes, replyOf (x.respond fuel (.keys "*")) w =
        some (CommandExecutor.bulkArray (keys.take 100000)) ∧
      keys.Pairwise (· < ·) ∧
      forall key, key ∈ keys <->
        (view w.store key).isSome = true ∧ key <= CommandExecutor.lastKey := by
  rcases hS.rangeQuery w.store [] CommandExecutor.lastKey 100000 with
    ⟨pairs, s', hquery, hsorted, hmem⟩
  refine ⟨pairs.map Prod.fst, ?_, List.pairwise_map.mpr hsorted, fun key => ?_⟩
  · have hfront : extractPrefix "*" = "" := by decide +kernel
    have hkeys : x.respond fuel (.keys "*") =
        CommandExecutor.keysInRange "*" [] CommandExecutor.lastKey := by
      change CommandExecutor.keys "*" = _
      rw [CommandExecutor.keys, hfront]
      rfl
    unfold replyOf
    rw [hkeys, CommandExecutor.keysInRange, HashOperations.run_callStore hquery]
    simp only [matchPattern_star, List.filter_true, List.map_take]
    rfl
  · rw [List.mem_map, Option.isSome_iff_exists]
    constructor
    · rintro ⟨⟨k, value⟩, hpair, rfl⟩
      have hentry := (hmem k value).mp hpair
      exact ⟨⟨value, hentry.2⟩, hentry.1.2⟩
    · rintro ⟨⟨value, hvalue⟩, hlast⟩
      exact ⟨(key, value), (hmem key value).mpr ⟨⟨List.nil_le _, hlast⟩, hvalue⟩,
        rfl⟩

/-- The commands on keys agree with `GET`, and `DEL` does not touch the lists
and hashes, except one that is partly stored under the very key. -/
theorem keysAgree_get {ε : Type} {cell : S.State -> Bytes -> ε}
    (hS : FlatStore S view) (hcells : KeyedStore S cell) (fuel : Nat)
    (x : CommandExecutor) (w : World S P) :
    KeysAgree (fun key => Finds (.get key)) fuel x w ∧
      forall key name read r w', key ∉ collectionKeys name ->
        CollectionReads name read ->
          (x.respond fuel (.del [key])).run (server S P) w = some (r, w') ->
            replyOf (x.respond fuel read) w' = replyOf (x.respond fuel read) w := by
  constructor
  · constructor
    · intro key
      rw [replyOf_exists hS, finds_get hS]
    · intro key
      rcases del_run hS key fuel x w with ⟨w', hrun, hview⟩
      refine ⟨w', ?_, ?_⟩
      · rw [hrun, finds_get hS]
      · rw [finds_get hS, hview, Function.update_self]
        rfl
    · rcases keys_reply hS fuel x w with ⟨keys, hreply, hsorted, hmem⟩
      refine ⟨keys, hreply, hsorted, fun key => ?_⟩
      rw [hmem, finds_get hS]
  · intro key name read r w' hkey hread hrun
    have hdel : Only (Call.On {key}) (x.respond fuel (.del [key])) :=
      on_del (fun k hk => List.mem_singleton.mp hk) 0
    rcases run_on_others hcells hdel hrun with ⟨htracker, hothers⟩
    refine hread.replyOf_eq hcells fuel x htracker fun k hk => hothers k ?_
    rintro rfl
    exact hkey hk

end Keyspace

theorem head_of_mem_collectionKeys {key name : Bytes} (h : name ∈ collectionKeys key) :
    name.head? = some 76 ∨ name.head? = some 72 := by
  have hlist : asBytes "L:" = [76, 58] := by decide +kernel
  have hhash : asBytes "H:" = [72, 58] := by decide +kernel
  rcases h with (hmeta | hvalue) | (hmeta | hfield)
  · left
    rw [hmeta, ListOperations.metaKey, String.append_assoc, asBytes_append, hlist]
    rfl
  · left
    rcases hvalue with ⟨pos, rfl⟩
    rw [ListOperations.valueKey, String.append_assoc, String.append_assoc, asBytes_append,
      hlist]
    rfl
  · right
    rw [hmeta, HashOperations.metaKey, hhash]
    rfl
  · right
    rcases hfield with ⟨field, rfl⟩
    rw [HashOperations.fieldKey, HashOperations.fieldPrefix, hhash]
    rfl

/-- Behind a push `EXISTS`, `DEL` and `KEYS` agree with `GET`, and deleting the name of
the list leaves the list. -/
theorem keysAgree_get_pushed :
    let x : CommandExecutor := .new { requirepass := none }
    exists w' r w'',
      (x.respond 1 (.lpush [108] [[97]])).run (server mapStore idlePlatform)
        ListOperations.emptyServer = some (.integer 1, w') ∧
      KeysAgree (fun key => Finds (.get key)) 1 x w' ∧
      (x.respond 1 (.del [[108]])).run (server mapStore idlePlatform) w' =
        some (r, w'') ∧
      replyOf (x.respond 1 (.llen [108])) w'' = replyOf (x.respond 1 (.llen [108])) w' := by
  intro x
  rcases ListOperations.lpush_first_run [108] [97] x with ⟨w', hpush, _⟩
  have hall := keysAgree_get MapStore.flatStore MapStore.keyedStore 1 x w'
  rcases hall.1.del [108] with ⟨w'', hdel, _⟩
  have hname : [108] ∉ collectionKeys [108] := by
    intro hmem
    exact absurd (head_of_mem_collectionKeys hmem) (by decide)
  exact ⟨w', _, w'', hpush, hall.1, hdel, hall.2 _ _ _ _ _ hname .llen hdel⟩

/-- A list that has just been pushed to does not exist for `EXISTS`. -/
theorem not_keysAgree_of_list : exists w',
    (CommandExecutor.respond 1 (.new { requirepass := none })
        (.lpush [108] [[97]])).run (server mapStore idlePlatform)
          ListOperations.emptyServer = some (.integer 1, w') ∧
      ¬ KeysAgree findsAny 0 (.new { requirepass := none }) w' := by
  rcases ListOperations.lpush_first_run [108] [97] (.new { requirepass := none })
    with ⟨w', hrun, hview⟩
  refine ⟨w', hrun, fun hagree => ?_⟩
  have hexists := hagree.exists_ [108]
  have habsent : MapStore.view w'.store [108] = none := by
    rw [hview]
    decide +kernel
  have hlist : findsAny [108] 0 (.new { requirepass := none }) w' = true := by
    unfold findsAny Finds
    rw [ListOperations.replyOf_llen MapStore.behavesAsMap, hview,
      ListOperations.lengthIn_first]
    simp [tellsData]
  rw [replyOf_exists MapStore.flatStore, habsent, hlist] at hexists
  injection hexists with hexists
  injection hexists with hexists
  exact absurd (show (0 : Int64) = 1 from hexists) (by decide)

end FeoxServer
