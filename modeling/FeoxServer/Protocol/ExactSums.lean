import FeoxServer.Network.Counters
import FeoxServer.Protocol.HashCorrectness

/-!
# Exact sums

What an increment of decimal text comes to, over the whole range of both
numbers.
-/

namespace FeoxServer

open Foundation Prog

/-!
# Machine arithmetic
-/

/-- An addition that is checked for overflow; `none` is a panic. -/
def checkedAdd (a b : Int64) : Option Int64 :=
  if -2 ^ 63 <= a.toInt + b.toInt ∧ a.toInt + b.toInt < 2 ^ 63 then some (a + b)
  else none

def checkedNeg (a : Int64) : Option Int64 :=
  if a = Int64.minValue then none else some (-a)

theorem checkedAdd_isSome {a b : Int64} :
    (checkedAdd a b).isSome = true <-> InRange (a.toInt + b.toInt) := by
  unfold checkedAdd InRange
  split_ifs with h
  · exact iff_of_true rfl h
  · exact iff_of_false Bool.false_ne_true h

namespace NumberSlot

/-- The commands that add to a stored number, and what is to be added. -/
inductive Sums : NumberSlot -> Int -> Command -> Prop where
  | incr (key : Bytes) : Sums (.string key) 1 (.incr key)
  | incrBy (key : Bytes) (delta : Int64) :
      Sums (.string key) delta.toInt (.incrBy key delta)
  | decr (key : Bytes) : Sums (.string key) (-1) (.decr key)
  | decrBy (key : Bytes) (delta : Int64) :
      Sums (.string key) (-delta.toInt) (.decrBy key delta)
  | hincrBy (key name : Bytes) (delta : Int64) :
      Sums (.field key name) delta.toInt (.hincrBy key name delta)

/-- The arithmetic of a command on a number in text, with the checks of a build
that makes them. -/
def checkedSum (n : Int64) : Command -> Option Int64
  | .incr _ => checkedAdd n 1
  | .incrBy _ delta => checkedAdd n delta
  | .decr _ => checkedAdd n (-1)
  | .decrBy _ delta => (checkedNeg delta).bind (checkedAdd n)
  | .hincrBy _ _ delta => some (HashOperations.saturatingAdd n delta)
  | _ => none

section Sums

variable {S : FeoxStore} {P : Platform}
  {view : S.State -> Bytes -> Option Bytes}

/-- The command replies the sum and stores it as text, or it replies an error and
leaves the value as it is; and its arithmetic does not panic. -/
def AddsExactly (view : S.State -> Bytes -> Option Bytes) (fuel : Nat)
    (x : CommandExecutor) (cmd : Command) (slot : NumberSlot) (n : Int64)
    (amount : Int) (w : World S P) : Prop :=
  (checkedSum n cmd).isSome = true ∧
  exists r w', (x.respond fuel cmd).run (server S P) w = some (r, w') ∧
    ((exists sum : Int64, sum.toInt = n.toInt + amount ∧ r = .integer sum ∧
        view w'.store slot.key = some (asBytes (decimal sum))) ∨
      (exists text, r = .error text) ∧
        view w'.store slot.key = view w.store slot.key)

/-- A command that replies a number and keeps a value is exact if and only if
they are the sum. -/
theorem addsExactly_of_run {fuel : Nat} {x : CommandExecutor} {cmd : Command}
    {slot : NumberSlot} {n val : Int64} {amount : Int} {w w' : World S P}
    {value : Bytes}
    (hrun : (x.respond fuel cmd).run (server S P) w = some (.integer val, w'))
    (hvalue : view w'.store slot.key = some value) :
    AddsExactly view fuel x cmd slot n amount w <->
      (checkedSum n cmd).isSome = true ∧ val.toInt = n.toInt + amount ∧
        value = asBytes (decimal val) := by
  unfold AddsExactly
  apply and_congr_right
  intro _
  constructor
  · intro h
    rcases h with ⟨r, w'', hrun', hexact | ⟨⟨text, herror⟩, _⟩⟩
    · rcases hexact with ⟨sum, hsum, hreply, hstored⟩
      rw [hrun] at hrun'
      injection hrun' with hrun'
      injection hrun' with hr hw
      subst hw
      rw [← hr] at hreply
      injection hreply with hval
      subst hval
      rw [hvalue] at hstored
      exact ⟨hsum, Option.some.inj hstored⟩
    · rw [hrun, herror] at hrun'
      injection hrun' with hrun'
      injection hrun' with hr _
      cases hr
  · intro h
    exact ⟨_, w', hrun, Or.inl ⟨val, h.1, rfl, by rw [hvalue, h.2]⟩⟩

theorem run_hincrby_text (hS : CountsAsMap S view) {key name : Bytes}
    {digits : String} {n : Int64} (delta : Int64) {w : World S P}
    (htext : view w.store (HashOperations.fieldKey key name) = some (asBytes digits))
    (hnumber : parseI64 digits = some n) (fuel : Nat) (x : CommandExecutor) :
    exists w', (x.respond fuel (.hincrBy key name delta)).run (server S P) w =
        some (.integer (HashOperations.saturatingAdd n delta), w') ∧
      view w'.store (HashOperations.fieldKey key name) =
        some (asBytes (decimal (HashOperations.saturatingAdd n delta))) := by
  rcases hS.containsKey w.store (HashOperations.fieldKey key name) with
    ⟨s1, hcontains, hview1⟩
  rw [htext] at hcontains
  have htext1 : view s1 (HashOperations.fieldKey key name) = some (asBytes digits) := by
    rw [hview1, htext]
  rcases hS.getBytes_present htext1 with ⟨s2, hget, _⟩
  rcases hS.insert s2 (HashOperations.fieldKey key name)
    (asBytes (decimal (HashOperations.saturatingAdd n delta))) with
    ⟨s3, hinsert, hview3⟩
  have hfield : HashOperations.fieldNumber (asBytes digits) = some n := by
    rw [HashOperations.fieldNumber, fromUtf8_asBytes]
    exact hnumber
  have hincremented : (HashOperations.incremented key name delta).run (server S P) w =
      some (.ok (HashOperations.saturatingAdd n delta), { w with store := s2 }) := by
    unfold HashOperations.incremented
    rw [HashOperations.run_callStore hcontains]
    simp only [Option.isSome_some, if_true]
    refine (@HashOperations.run_callStore S P _ _ _ _ { w with store := s1 } hget _).trans ?_
    simp only [hfield]
    rfl
  have hrun : (HashOperations.hincrby key name delta).run (server S P) w =
      some (.ok (HashOperations.saturatingAdd n delta), { w with store := s3 }) := by
    unfold HashOperations.hincrby
    rw [run_bind_of_some _ _ hincremented]
    exact @HashOperations.run_callStore S P _ _ _ _ { w with store := s2 } hinsert _
  refine ⟨_, CommandExecutor.modifying_run key (fun _ => true) .integer hrun, ?_⟩
  change view s3 _ = _
  rw [hview3, Function.update_self]

/-- Text is added to exactly if the arithmetic is right and the text is not taken
for a counter. -/
theorem addsExactly_string_iff (hS : CountingStore S view) {key : Bytes}
    {digits : String} {n delta : Int64} {cmd : Command} {fuel : Nat}
    {x : CommandExecutor} (hcmd : x.respond fuel cmd = CommandExecutor.stringIncr key delta)
    {w : World S P} (hnumber : parseI64 digits = some n)
    (hstored : view w.store key = some (asBytes digits)) (amount : Int) :
    AddsExactly view fuel x cmd (.string key) n amount w <->
      (checkedSum n cmd).isSome = true ∧ (n + delta).toInt = n.toInt + amount ∧
        (asBytes digits).length ≠ 8 := by
  by_cases hlength : (asBytes digits).length = 8
  · rcases hS.atomicIncrement_octets delta hstored hlength with
      ⟨val, s', hincr, hview⟩
    rcases @CounterOp.run_stringIncr_counted key S P w delta val s' hincr with
      ⟨w', hrun, hw'⟩
    rw [← hcmd] at hrun
    have hkept : view w'.store (NumberSlot.string key).key =
        some (i64ToLeBytes val) := by
      change view w'.store key = _
      rw [hw', hview, Function.update_self]
    rw [addsExactly_of_run hrun hkept]
    apply iff_of_false
    · intro h
      exact i64ToLeBytes_ne_decimal val h.2.2
    · intro h
      exact h.2.2 hlength
  · rcases CounterOp.run_stringIncr_text hS.toNumberStore delta hstored hnumber
      hlength with ⟨w', hrun, hview⟩
    rw [← hcmd] at hrun
    have hkept : view w'.store (NumberSlot.string key).key =
        some (asBytes (decimal (n + delta))) :=
      hview
    rw [addsExactly_of_run hrun hkept]
    simp [hlength]

theorem checked_and_exact_iff {n delta : Int64} {amount : Int} {q : Prop}
    (h : delta.toInt = amount) :
    ((checkedAdd n delta).isSome = true ∧ (n + delta).toInt = n.toInt + amount ∧ q) <->
      InRange (n.toInt + amount) ∧ q := by
  subst h
  rw [checkedAdd_isSome]
  apply and_congr_right
  intro hrange
  rw [toInt_add_of_inRange hrange]
  exact and_iff_right rfl

/-- An increment is exact if and only if the sum fits the machine type, no text
is taken for a counter, and no decrement by the least number is asked for. -/
theorem adds_exactly_iff (hS : CountingStore S view) {slot : NumberSlot}
    {amount : Int} {cmd : Command} (hcmd : slot.Sums amount cmd) (fuel : Nat)
    (x : CommandExecutor) (w : World S P) {digits : String} {n : Int64}
    (hnumber : parseI64 digits = some n)
    (hstored : view w.store slot.key = some (asBytes digits)) :
    AddsExactly view fuel x cmd slot n amount w <->
      InRange (n.toInt + amount) ∧
        (forall key, slot = .string key -> (asBytes digits).length ≠ 8) ∧
        cmd ≠ .decrBy slot.key Int64.minValue := by
  have hstring : forall key, (forall k, NumberSlot.string key = .string k ->
      (asBytes digits).length ≠ 8) <-> (asBytes digits).length ≠ 8 := by
    intro key
    constructor
    · intro h
      exact h key rfl
    · intro h _ _
      exact h
  cases hcmd with
  | incr key =>
      change view w.store key = _ at hstored
      rw [addsExactly_string_iff hS rfl hnumber hstored, hstring]
      exact (checked_and_exact_iff rfl).trans (by simp [NumberSlot.key])
  | incrBy key delta =>
      change view w.store key = _ at hstored
      rw [addsExactly_string_iff hS rfl hnumber hstored, hstring]
      exact (checked_and_exact_iff rfl).trans (by simp [NumberSlot.key])
  | decr key =>
      change view w.store key = _ at hstored
      rw [addsExactly_string_iff hS rfl hnumber hstored, hstring]
      exact (checked_and_exact_iff rfl).trans (by simp [NumberSlot.key])
  | decrBy key delta =>
      change view w.store key = _ at hstored
      rw [addsExactly_string_iff hS rfl hnumber hstored, hstring]
      by_cases hmin : delta = Int64.minValue
      · apply iff_of_false
        · intro h
          have hpanic : checkedSum n (.decrBy key delta) = none := by
            rw [checkedSum, checkedNeg, if_pos hmin]
            rfl
          rw [hpanic] at h
          exact absurd h.1 Bool.false_ne_true
        · intro h
          exact h.2.2 (by rw [hmin]; rfl)
      · have hchecked : checkedSum n (.decrBy key delta) = checkedAdd n (-delta) := by
          rw [checkedSum, checkedNeg, if_neg hmin]
          rfl
        have hother : Command.decrBy key delta ≠ .decrBy key Int64.minValue := by
          intro h
          injection h with _ hdelta
          exact hmin hdelta
        rw [hchecked]
        refine (checked_and_exact_iff (toInt_neg_of_ne hmin)).trans ?_
        exact and_congr_right fun _ => (and_iff_left hother).symm
  | hincrBy key name delta =>
      rcases run_hincrby_text hS.toCountsAsMap delta hstored hnumber fuel x with
        ⟨w', hrun, hview⟩
      have hkept : view w'.store (NumberSlot.field key name).key =
          some (asBytes (decimal (HashOperations.saturatingAdd n delta))) :=
        hview
      rw [addsExactly_of_run hrun hkept, HashOperations.toInt_saturatingAdd]
      constructor
      · intro h
        refine ⟨?_, nofun, nofun⟩
        unfold InRange
        omega
      · intro h
        have hrange := h.1
        unfold InRange at hrange
        exact ⟨rfl, by omega, rfl⟩

end Sums

/-- A server that keeps one value. -/
def keeping (key value : Bytes) : World mapStore idlePlatform :=
  { store := AList.insert key (value, none) (∅ : MapStore.Entries)
    platform := ()
    watch := .new
    tracker := ∅
    clients := ∅ }

theorem view_keeping (key value : Bytes) :
    MapStore.view (keeping key value).store key = some value := by
  change MapStore.view (AList.insert key (value, none) ∅) key = _
  rw [MapStore.view_insert, Function.update_self]

theorem adds_exactly_seven :
    AddsExactly MapStore.view 0 (.new { requirepass := none })
        (.decrBy [107] 9) (.string [107]) 7 (-(9 : Int64).toInt)
        (keeping [107] (asBytes "7")) <->
      InRange ((7 : Int64).toInt + -(9 : Int64).toInt) ∧
        (forall key, NumberSlot.string [107] = .string key ->
          (asBytes "7").length ≠ 8) ∧
        Command.decrBy [107] 9 ≠ .decrBy (NumberSlot.string [107]).key Int64.minValue :=
  adds_exactly_iff MapStore.countingStore (.decrBy [107] 9) 0 _ _
    (by decide +kernel) (view_keeping _ _)

/-- The greatest number is counted up to the least one. -/
theorem sum_wraps :
    ¬ AddsExactly MapStore.view 0 (.new { requirepass := none }) (.incr [107])
      (.string [107]) Int64.maxValue 1
      (keeping [107] (asBytes (decimal Int64.maxValue))) := by
  rw [addsExactly_string_iff MapStore.countingStore rfl (parseI64_decimal _)
    (view_keeping _ _)]
  intro h
  exact absurd h.2.1 (by decide +kernel)

end NumberSlot

end FeoxServer
