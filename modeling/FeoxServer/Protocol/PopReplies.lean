import FeoxServer.Protocol.Executor
import FeoxServer.Protocol.ListCorrectness

/-!
# The replies to pops

A pop with a count is answered with an array, and a pop without one with a single
element.  The executor no longer knows whether there was a count; it goes by the number
of the values.
-/

namespace FeoxServer

open Foundation Prog ListOperations

/-- The end of a list from which a pop takes. -/
inductive ListEnd where
  | left
  | right

namespace ListEnd

def command : ListEnd -> Bytes -> Option UInt64 -> Command
  | left, key, count => .lpop key count
  | right, key, count => .rpop key count

/-- The elements of a list in the order in which this end gives them. -/
def order : ListEnd -> List Bytes -> List Bytes
  | left, items => items
  | right, items => items.reverse

def pop : ListEnd -> Nat -> Bytes -> Option UInt64 ->
    StoreProg (Except Error (List Bytes))
  | left => lpop
  | right => rpop

theorem length_order (e : ListEnd) (items : List Bytes) :
    (e.order items).length = items.length := by
  cases e with
  | left => rfl
  | right => exact List.length_reverse

end ListEnd

/-- The reply that a pop is to have: without a count the first element if there is one,
and with a count an array of as many as there are, unless there is no list. -/
def expectedPop (present : Bool) (count : Option UInt64) (elements : List Bytes) :
    RespValue :=
  match count with
  | none => .bulkString elements.head?
  | some n =>
      if present then CommandExecutor.bulkArray (elements.take n.toNat)
      else .bulkString none

namespace CommandExecutor

theorem popReply_eq_bulkArray_iff (values : List Bytes) :
    popReply values = bulkArray values <-> 2 <= values.length := by
  match values with
  | [] => exact iff_of_false nofun (by decide)
  | [value] => exact iff_of_false nofun (by simp)
  | value :: next :: values => exact iff_of_true rfl (by simp)

theorem popReply_take_one (elements : List Bytes) :
    popReply (elements.take 1) = .bulkString elements.head? := by
  cases elements <;> rfl

theorem popReply_eq_expectedPop_iff {present : Bool} (count : Option UInt64)
    {elements : List Bytes} (h : present = false -> elements = []) :
    popReply (elements.take (count.getD 1).toNat) =
        expectedPop present count elements <->
      forall n, count = some n -> present = true ->
        2 <= min n.toNat elements.length := by
  cases count with
  | none => exact iff_of_true (popReply_take_one elements) nofun
  | some n =>
      cases present with
      | true =>
          constructor
          · intro hreply m hm _
            cases hm
            rw [← List.length_take]
            exact (popReply_eq_bulkArray_iff _).mp hreply
          · intro hlong
            have hn := hlong n rfl rfl
            rw [← List.length_take] at hn
            exact (popReply_eq_bulkArray_iff _).mpr hn
      | false =>
          rw [h rfl, List.take_nil]
          exact iff_of_true rfl nofun

variable {S : FeoxStore} {view : S.State -> Bytes -> Option Bytes} {P : Platform}
  {key : Bytes} {items : List Bytes} {m : ListMeta}

theorem pop_run (hS : BehavesAsMap S view) (e : ListEnd) (fuel : Nat)
    (count : Option UInt64) {s : S.State} (h : Represents (view s) key items m) :
    exists s', (e.pop (fuel + 1) key count).run S s =
      some (.ok ((e.order items).take (count.getD 1).toNat), s') := by
  cases e with
  | left =>
      rcases lpop_run_keeping hS (I := fun items m v => Represents v key items m)
        id represents_lpop fuel count h with ⟨s', m', hrun, _⟩
      exact ⟨s', hrun⟩
  | right =>
      rcases rpop_run_keeping hS (I := fun items m v => Represents v key items m)
        id represents_rpop fuel count h with ⟨s', m', hrun, _⟩
      exact ⟨s', hrun⟩

theorem execute_pop_run (hS : BehavesAsMap S view) (e : ListEnd) (fuel : Nat)
    (count : Option UInt64) (x : CommandExecutor) {world : World S P}
    (h : Represents (view world.store) key items m) :
    exists x' world', (x.execute (fuel + 1) (e.command key count)).run (server S P)
        world =
      some ((popReply ((e.order items).take (count.getD 1).toNat), x'), world') := by
  rcases pop_run hS e fuel count h with ⟨s', hpop⟩
  have hrespond : forall y : CommandExecutor, respond (fuel + 1) y (e.command key count) =
      pop key (e.pop (fuel + 1) key count) := by
    intro y
    cases e <;> rfl
  have hstore := @run_onStore S P _ (e.pop (fuel + 1) key count) world
  rw [hpop] at hstore
  have hanswer : exists world', (pop key (e.pop (fuel + 1) key count)).run (server S P)
      world = some (popReply ((e.order items).take (count.getD 1).toNat), world') :=
    ⟨_, modifying_run key (fun values : List Bytes => !values.isEmpty) popReply hstore⟩
  rcases hanswer with ⟨world', hanswer⟩
  refine ⟨{ x with commandsProcessed := x.commandsProcessed + 1 }, world', ?_⟩
  change ((respond (fuel + 1) { x with commandsProcessed := x.commandsProcessed + 1 }
    (e.command key count)) >>= fun response => pure (response,
      { x with commandsProcessed := x.commandsProcessed + 1 })).run (server S P) world = _
  rw [hrespond, run_bind_of_some _ _ hanswer]
  rfl

/-- The reply to a pop is the expected one if and only if there was no count, or no
list, or the pop had two values at least. -/
theorem pop_expected_iff (hS : BehavesAsMap S view) (e : ListEnd) (fuel : Nat)
    (count : Option UInt64) (x : CommandExecutor) {world : World S P}
    (h : Represents (view world.store) key items m) :
    exists reply x' world',
      (x.execute (fuel + 1) (e.command key count)).run (server S P) world =
        some ((reply, x'), world') ∧
      (reply = expectedPop (view world.store (metaKey key)).isSome count
          (e.order items) <->
        forall n, count = some n -> (view world.store (metaKey key)).isSome = true ->
          2 <= min n.toNat items.length) := by
  rcases execute_pop_run hS e fuel count x h with ⟨x', world', hrun⟩
  refine ⟨_, x', world', hrun, ?_⟩
  rw [← e.length_order items]
  apply popReply_eq_expectedPop_iff
  intro habsent
  by_contra hne
  have hitems : items ≠ [] := by
    rintro rfl
    cases e <;> exact hne rfl
  rw [(metaKey_of_ne_nil h hitems).2] at habsent
  cases habsent

section Example

theorem exists_pair :
    exists (world : World mapStore idlePlatform) (m : ListMeta),
      Represents (MapStore.view world.store) (asBytes "k") [[1], [2]] m := by
  have habsent : Absent (MapStore.view ∅) (asBytes "k") := ⟨rfl, fun _ => rfl⟩
  have hroomy : Roomy (asBytes "k") 0 2 2 [] initialMeta (MapStore.view ∅) :=
    ⟨habsent.represents, by decide, by decide, by decide⟩
  rcases push_run MapStore.behavesAsMap (l := fun _ => 0) (r := fun n => n)
    (fun value hroomy => hroomy.rpush value) 0 (List.cons_ne_nil [1] [[2]]) hroomy with
    ⟨s, m, n, _, _, hroomy⟩
  exact ⟨⟨s, (), .new, ∅, ∅⟩, m, hroomy.represents⟩

theorem pop_expected_two :
    exists (world world' : World mapStore idlePlatform) (reply : RespValue)
      (x' : CommandExecutor),
      ((CommandExecutor.new { requirepass := none }).execute 1
          (.rpop (asBytes "k") (some 2))).run (server mapStore idlePlatform) world =
        some ((reply, x'), world') ∧
      reply = expectedPop true (some 2) [[2], [1]] := by
  rcases exists_pair with ⟨world, m, h⟩
  have hmeta := (metaKey_of_ne_nil h nofun).2
  rcases pop_expected_iff MapStore.behavesAsMap .right 0 (some 2)
    (CommandExecutor.new { requirepass := none }) h with ⟨reply, x', world', hrun, hiff⟩
  rw [hmeta] at hiff
  refine ⟨world, world', reply, x', hrun, hiff.mpr ?_⟩
  intro n hn _
  cases hn
  decide

/-- One value is popped with a count, and the reply is no array. -/
theorem pop_one_of_two :
    exists (world world' : World mapStore idlePlatform) (m : ListMeta)
      (x' : CommandExecutor),
      Represents (MapStore.view world.store) (asBytes "k") [[1], [2]] m ∧
      ((CommandExecutor.new { requirepass := none }).execute 1
          (.lpop (asBytes "k") (some 1))).run (server mapStore idlePlatform) world =
        some ((bulk [1], x'), world') ∧
      bulk [1] ≠ expectedPop (MapStore.view world.store (metaKey (asBytes "k"))).isSome
        (some 1) [[1], [2]] := by
  rcases exists_pair with ⟨world, m, h⟩
  rcases execute_pop_run MapStore.behavesAsMap .left 0 (some 1)
    (CommandExecutor.new { requirepass := none }) h with ⟨x', world', hrun⟩
  refine ⟨world, world', m, x', h, hrun, ?_⟩
  rw [(metaKey_of_ne_nil h nofun).2]
  exact nofun

end Example

end CommandExecutor

end FeoxServer
