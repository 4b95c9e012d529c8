import FeoxServer.Foundation.Pool
import FeoxServer.Protocol.Executor
import FeoxServer.Store.ValueStore

/-!
# Increments side by side

An increment of a text reads the number and writes it back in two calls.  Of
several increments that take turns none is lost as long as each writes back
before the next one reads.
-/

namespace FeoxServer

open Foundation Prog

/-- Where a number is kept: under a key of its own, or in a field of a hash. -/
inductive NumberSlot where
  | string (key : Bytes)
  | field (key name : Bytes)

namespace NumberSlot

/-- The key of the store. -/
def key : NumberSlot -> Bytes
  | string key => key
  | field key name => HashOperations.fieldKey key name

/-- The number that the commands see in a value. -/
def number : NumberSlot -> Bytes -> Option Int64
  | string _ => CommandExecutor.stringNumber
  | field _ _ => HashOperations.fieldNumber

theorem number_string (key : Bytes) :
    (string key).number = CommandExecutor.stringNumber :=
  rfl

theorem number_field (key name : Bytes) :
    (field key name).number = HashOperations.fieldNumber :=
  rfl

/-- The commands that add an amount. -/
inductive Adds : NumberSlot -> Int -> Command -> Prop where
  | incr (key : Bytes) : Adds (.string key) 1 (.incr key)
  | incrBy (key : Bytes) (delta : Int64) :
      Adds (.string key) delta.toInt (.incrBy key delta)
  | decr (key : Bytes) : Adds (.string key) (-1) (.decr key)
  | decrBy (key : Bytes) {delta : Int64} (h : delta ≠ Int64.minValue) :
      Adds (.string key) (-delta.toInt) (.decrBy key delta)
  | hincrBy (key name : Bytes) (delta : Int64) :
      Adds (.field key name) delta.toInt (.hincrBy key name delta)

theorem number_decimal (slot : NumberSlot) (n : Int64) :
    slot.number (asBytes (decimal n)) = some n := by
  cases slot with
  | string key =>
      change parseI64 (trim (fromUtf8Lossy (asBytes (decimal n)))) = some n
      rw [fromUtf8Lossy_asBytes, trim_decimal, parseI64_decimal]
  | field key name =>
      change HashOperations.fieldNumber (asBytes (decimal n)) = some n
      rw [HashOperations.fieldNumber, fromUtf8_asBytes]
      exact parseI64_decimal n

end NumberSlot

def readBefore (key : Bytes) : List (Exchange Call Answer) -> Option Bytes
  | [] => none
  | ⟨.store (.getBytes k), r⟩ :: log =>
      if k = key then r.toOption else readBefore key log
  | _ :: log => readBefore key log

def NumberSlot.lastRead (slot : NumberSlot) (log : List (Exchange Call Answer)) :
    Option Int64 :=
  (readBefore slot.key log).bind slot.number

/-- The number is the sum of what was last read and the amount, if there is such a
number. -/
def NumberSlot.SumOf (slot : NumberSlot) (amount : Int)
    (log : List (Exchange Call Answer)) (n : Int64) : Prop :=
  exists current, slot.lastRead log = some current ∧
    (InRange (current.toInt + amount) -> n.toInt = current.toInt + amount)

/-- What is left of an increment, and whether it has written.  It asks for the
number and writes a number back, or fails without having written. -/
inductive Increment (slot : NumberSlot) (amount : Int) :
    Bool -> List (Exchange Call Answer) -> ServerProg RespValue -> Prop where
  | returned {log : List (Exchange Call Answer)} (n : Int64) :
      Increment slot amount true log (.done (.integer n))
  | failed {log : List (Exchange Call Answer)} (text : String) :
      Increment slot amount false log (.done (.error text))
  | notify {log : List (Exchange Call Answer)} {key : Bytes}
      {next : Unit -> ServerProg RespValue} :
      (forall a log', Increment slot amount true log' (next a)) ->
        Increment slot amount true log (.ask (.notifyKeyModified key) next)
  | attempt {log : List (Exchange Call Answer)} {delta : Int64}
      {next : Except FeoxError Int64 -> ServerProg RespValue} :
      (forall e log', Increment slot amount false log' (next (.error e))) ->
        Increment slot amount false log
          (.ask (.store (.atomicIncrement slot.key delta)) next)
  | present {log : List (Exchange Call Answer)} {next : Bool -> ServerProg RespValue} :
      (forall log', Increment slot amount false log' (next true)) ->
        Increment slot amount false log (.ask (.store (.containsKey slot.key)) next)
  | read {log : List (Exchange Call Answer)}
      {next : Except FeoxError Bytes -> ServerProg RespValue} :
      (forall data log', readBefore slot.key log' = some data ->
        Increment slot amount false log' (next (.ok data))) ->
          Increment slot amount false log (.ask (.store (.getBytes slot.key)) next)
  | write {log : List (Exchange Call Answer)} {n : Int64}
      {next : Except FeoxError Unit -> ServerProg RespValue} :
      slot.SumOf amount log n ->
        (forall log', Increment slot amount true log' (next (.ok ()))) ->
          Increment slot amount false log (.ask (.store (.insertBytesWithTimestamp
            slot.key (asBytes (decimal n)))) next)
  | writeField {log : List (Exchange Call Answer)} {n : Int64}
      {next : Except FeoxError Unit -> ServerProg RespValue} :
      slot.SumOf amount log n ->
        (forall log', Increment slot amount true log' (next (.ok ()))) ->
          Increment slot amount false log (.ask (.store (.insert slot.key
            (asBytes (decimal n)))) next)

theorem increment_writeNumber {key : Bytes} {amount : Int}
    {log : List (Exchange Call Answer)} {n : Int64}
    (hsum : NumberSlot.SumOf (.string key) amount log n) :
    Increment (.string key) amount false log (CommandExecutor.writeNumber key n) := by
  have hnext : forall log', Increment (.string key) amount true log'
      (.ask (.notifyKeyModified key) fun _ => .done (.integer n)) :=
    fun log' => .notify fun _ _ => .returned n
  exact @Increment.write (.string key) amount log n _ hsum hnext

theorem stringIncr_eq (key : Bytes) (delta : Int64) :
    CommandExecutor.stringIncr key delta =
      .ask (.store (.atomicIncrement key delta)) fun r =>
        match r with
        | .ok val => .ask (.notifyKeyModified key) fun _ => .done (.integer val)
        | .error _ => .ask (.store (.getBytes key)) fun r =>
            match r with
            | .ok data =>
                match CommandExecutor.stringNumber data with
                | some current => CommandExecutor.writeNumber key (current + delta)
                | none => .done (.error "ERR value is not an integer or out of range")
            | .error e =>
                if e.keyNotFound then CommandExecutor.writeNumber key (0 + delta)
                else .done (CommandExecutor.storeError e) := by
  unfold CommandExecutor.stringIncr
  refine congrArg (Prog.ask _) (funext fun r => ?_)
  cases r with
  | ok val => rfl
  | error e =>
      refine congrArg (Prog.ask _) (funext fun r => ?_)
      cases r with
      | ok data =>
          simp only [Prog.bind]
          generalize CommandExecutor.stringNumber data = number
          cases number <;> rfl
      | error e => rfl

theorem increment_stringIncr (key : Bytes) (delta : Int64)
    (log : List (Exchange Call Answer)) :
    Increment (.string key) delta.toInt false log
      (CommandExecutor.stringIncr key delta) := by
  rw [stringIncr_eq]
  refine .attempt fun _ _ => .read fun data log' hread => ?_
  simp only
  generalize hnumber : CommandExecutor.stringNumber data = number
  cases number with
  | none => exact .failed _
  | some current =>
      refine increment_writeNumber ⟨current, ?_, toInt_add_of_inRange⟩
      rw [NumberSlot.lastRead, hread, NumberSlot.number_string, Option.bind_some, hnumber]

theorem increment_hincrby (key name : Bytes) (delta : Int64)
    (log : List (Exchange Call Answer)) :
    Increment (.field key name) delta.toInt false log
      (CommandExecutor.modifying key (fun _ => true) .integer
        (HashOperations.hincrby key name delta)) := by
  refine @Increment.present (.field key name) _ _ _ fun _ => ?_
  refine @Increment.read (.field key name) _ _ _ fun data log' hread => ?_
  simp only [Prog.bind]
  generalize hnumber : HashOperations.fieldNumber data = number
  cases number with
  | none => exact .failed _
  | some current =>
      have hsum : NumberSlot.SumOf (.field key name) delta.toInt log'
          (HashOperations.saturatingAdd current delta) := by
        refine ⟨current, ?_, fun hrange => ?_⟩
        · rw [NumberSlot.lastRead, hread, NumberSlot.number_field, Option.bind_some, hnumber]
        · rw [HashOperations.saturatingAdd_of_inRange hrange]
          exact toInt_add_of_inRange hrange
      have hnext : forall log', Increment (.field key name) delta.toInt true log'
          (.ask (.notifyKeyModified key) fun _ =>
            .done (.integer (HashOperations.saturatingAdd current delta))) :=
        fun log' => .notify fun _ _ => .returned _
      exact @Increment.writeField (.field key name) _ _
        (HashOperations.saturatingAdd current delta) _ hsum hnext

theorem NumberSlot.Adds.increment {slot : NumberSlot} {amount : Int} {cmd : Command}
    (h : slot.Adds amount cmd) (fuel : Nat) (x : CommandExecutor)
    (log : List (Exchange Call Answer)) :
    Increment slot amount false log (x.respond fuel cmd) := by
  cases h with
  | incr key => exact increment_stringIncr key 1 log
  | incrBy key delta => exact increment_stringIncr key delta log
  | decr key => exact increment_stringIncr key (-1) log
  | @decrBy key delta hmin =>
      rw [← toInt_neg_of_ne hmin]
      exact increment_stringIncr key (-delta) log
  | hincrBy key name delta => exact increment_hincrby key name delta log

section Turns

variable {S : FeoxStore} {P : Platform}
  {view : S.State -> Bytes -> Option Bytes} {n : Nat}

/-- The number in the slot. -/
def stored (view : S.State -> Bytes -> Option Bytes) (slot : NumberSlot)
    (w : World S P) : Option Int64 :=
  (view w.store slot.key).bind slot.number

/-- An increment writes while the number is still the one that it has read, and
the sum is a number.  No text is taken for a counter. -/
def inTurn (view : S.State -> Bytes -> Option Bytes) (slot : NumberSlot)
    (amount : Fin n -> Int) (pool : Pool (server S P) (Fin n) RespValue)
    (i : Fin n) : Bool :=
  match pool.thread i with
  | .ask (.store (.atomicIncrement key _)) _ =>
      ((view pool.state.store key).map List.length) ≠ some 8
  | .ask (.store (.insert _ _)) _
  | .ask (.store (.insertBytesWithTimestamp _ _)) _ =>
      slot.lastRead (pool.log i) = stored view slot pool.state ∧
        (stored view slot pool.state).all fun m => InRange (m.toInt + amount i)
  | _ => true

def Accounted (view : S.State -> Bytes -> Option Bytes) (slot : NumberSlot)
    (amount : Fin n -> Int) (start : Int) (w : World S P)
    (written : Fin n -> Bool) : Prop :=
  exists m, stored view slot w = some m ∧
    m.toInt = start + ∑ i, if written i then amount i else 0

theorem sum_written {amount : Fin n -> Int} {written : Fin n -> Bool} {i : Fin n}
    (h : written i = false) :
    (∑ j, if Function.update written i true j then amount j else 0) =
      (∑ j, if written j then amount j else 0) + amount i := by
  have hsum := sum_update_add (fun j (b : Bool) => if b then amount j else 0) written
    i true
  rw [h] at hsum
  simpa using hsum

theorem Accounted.of_view {slot : NumberSlot} {amount : Fin n -> Int} {start : Int}
    {w w' : World S P} {written : Fin n -> Bool}
    (h : Accounted view slot amount start w written)
    (hview : view w'.store = view w.store) :
    Accounted view slot amount start w' written := by
  unfold Accounted stored at h ⊢
  rw [hview]
  exact h

theorem Accounted.write {slot : NumberSlot} {amount : Fin n -> Int} {start : Int}
    {w w' : World S P} {written : Fin n -> Bool} {i : Fin n} {m : Int64}
    {log : List (Exchange Call Answer)}
    (h : Accounted view slot amount start w written) (hi : written i = false)
    (hview : view w'.store = Function.update (view w.store) slot.key
      (some (asBytes (decimal m))))
    (hm : slot.SumOf (amount i) log m) (hread : slot.lastRead log = stored view slot w)
    (hfits : (stored view slot w).all fun m => InRange (m.toInt + amount i)) :
    Accounted view slot amount start w' (Function.update written i true) := by
  rcases h with ⟨old, hold, hsum⟩
  rcases hm with ⟨current, hcurrent, hadds⟩
  rw [hread, hold] at hcurrent
  obtain rfl := Option.some.inj hcurrent
  rw [hold] at hfits
  refine ⟨m, ?_, ?_⟩
  · unfold stored
    rw [hview, Function.update_self]
    exact slot.number_decimal m
  · rw [hadds (of_decide_eq_true hfits), hsum, sum_written hi, add_assoc]

theorem reply_store {c : StoreCall} {r : StoreAnswer c} {s' : S.State}
    {w : World S P} (h : S.reply c w.store = (r, s')) :
    (server S P).reply (.store c) w = (r, { w with store := s' }) := by
  change ((S.reply c w.store).1, { w with store := (S.reply c w.store).2 }) = _
  rw [h]

theorem increments_run (hS : NumberStore S view) {slot : NumberSlot}
    {amount : Fin n -> Int} {start : Int}
    {pool : Pool (server S P) (Fin n) RespValue} {turns : List (Fin n)}
    (h : pool.Marked (fun i => Increment slot (amount i))
      (Accounted view slot amount start))
    (hturns : pool.Meets (fun pool i => inTurn view slot amount pool i = true) turns) :
    (pool.run turns).Marked (fun i => Increment slot (amount i))
      (Accounted view slot amount start) := by
  refine Pool.run_marked ?_ h hturns
  intro pool i c next mark hthread hlocal hglobal hgood
  have hi := hlocal i
  have hpresent : exists text, view pool.state.store slot.key = some text := by
    rcases hglobal with ⟨m, hm, _⟩
    rcases Option.bind_eq_some_iff.mp hm with ⟨text, htext, _⟩
    exact ⟨text, htext⟩
  rcases hpresent with ⟨text, htext⟩
  unfold inTurn at hgood
  rw [hthread] at hi hgood
  have hsame : Function.update mark i (mark i) = mark := Function.update_eq_self i mark
  generalize hmark : mark i = written at hi
  rw [hmark] at hsame
  cases hi with
  | notify hnext =>
      refine ⟨true, hnext _ _, ?_⟩
      rw [hsame]
      exact hglobal.of_view rfl
  | attempt hnext =>
      rename_i delta next
      have hlength : text.length ≠ 8 := by
        simpa [htext] using hgood
      rcases hS.atomicIncrement_text delta htext hlength with ⟨e, s', hreply, hview⟩
      rw [reply_store hreply]
      exact ⟨false, hnext e _, by rw [hsame]; exact hglobal.of_view hview⟩
  | present hnext =>
      rcases hS.containsKey pool.state.store slot.key with ⟨s', hreply, hview⟩
      rw [htext] at hreply
      rw [reply_store hreply]
      exact ⟨false, hnext _, by rw [hsame]; exact hglobal.of_view hview⟩
  | read hnext =>
      rcases hS.getBytes_present htext with ⟨s', hreply, hview⟩
      rw [reply_store hreply]
      have hlog : readBefore slot.key
          (⟨.store (.getBytes slot.key), .ok text⟩ :: pool.log i) = some text :=
        if_pos rfl
      exact ⟨false, hnext text _ hlog, by rw [hsame]; exact hglobal.of_view hview⟩
  | write hm hnext =>
      rename_i m next
      rcases hS.insertBytesWithTimestamp pool.state.store slot.key
        (asBytes (decimal m)) with ⟨s', hreply, hview⟩
      rw [reply_store hreply]
      rcases of_decide_eq_true hgood with ⟨hread, hfits⟩
      exact ⟨true, hnext _, hglobal.write hmark hview hm hread hfits⟩
  | writeField hm hnext =>
      rename_i m next
      rcases hS.insert pool.state.store slot.key (asBytes (decimal m)) with
        ⟨s', hreply, hview⟩
      rw [reply_store hreply]
      rcases of_decide_eq_true hgood with ⟨hread, hfits⟩
      exact ⟨true, hnext _, hglobal.write hmark hview hm hread hfits⟩

def acknowledged : RespValue -> Bool
  | .integer _ => true
  | _ => false

/-- The number is the one at the start and all that has been acknowledged. -/
def Conserved (view : S.State -> Bytes -> Option Bytes) (slot : NumberSlot)
    (amount : Fin n -> Int) (start : Int64) (w : World S P)
    (replies : Fin n -> RespValue) : Prop :=
  exists final, stored view slot w = some final ∧
    final.toInt = start.toInt + ∑ i, if acknowledged (replies i) then amount i else 0

/-- No increment is lost in a run in which every increment writes in turn. -/
theorem no_lost_increment (hS : NumberStore S view) {slot : NumberSlot}
    {cmd : Fin n -> Command} {amount : Fin n -> Int}
    (hcmd : forall i, slot.Adds (amount i) (cmd i)) (fuel : Nat)
    (x : Fin n -> CommandExecutor) (w : World S P) {start : Int64}
    (hstart : stored view slot w = some start) {turns : List (Fin n)}
    {pool : Pool (server S P) (Fin n) RespValue}
    (hpool : pool = .start w fun i => (x i).respond fuel (cmd i))
    (hturns : pool.Meets (fun pool i => inTurn view slot amount pool i = true) turns)
    {replies : Fin n -> RespValue} (hfinished : (pool.run turns).Finished replies) :
    Conserved view slot amount start (pool.run turns).state replies := by
  have hmarked : pool.Marked (fun i => Increment slot (amount i))
      (Accounted view slot amount start.toInt) := by
    subst hpool
    refine ⟨fun _ => false, fun i => (hcmd i).increment fuel (x i) [], start, hstart, ?_⟩
    simp
  rcases increments_run hS hmarked hturns with ⟨written, hlocal, final, hfinal, hsum⟩
  refine ⟨final, hfinal, hsum.trans (congrArg _ (Finset.sum_congr rfl fun i _ => ?_))⟩
  have hi := hlocal i
  rw [hfinished i] at hi
  generalize written i = b at hi ⊢
  generalize replies i = r at hi ⊢
  cases hi with
  | returned m => rfl
  | failed text => rfl

end Turns

/-- Two clients that count up the same text. -/
abbrev counting : Pool (server mapStore idlePlatform) (Fin 2) RespValue :=
  .start
    { store := AList.insert [107] ([53], none) (∅ : MapStore.Entries)
      platform := ()
      watch := .new
      tracker := ∅
      clients := ∅ }
    fun _ => CommandExecutor.respond 0 (.new { requirepass := none }) (.incr [107])

theorem both_counted :
    Conserved MapStore.view (.string [107]) (fun _ : Fin 2 => 1) 5
      (counting.run [0, 0, 0, 0, 1, 1, 1, 1]).state
      (fun i => .integer (if i = 0 then 6 else 7)) :=
  no_lost_increment MapStore.numberStore (fun _ => .incr [107]) 0
    (fun _ => .new { requirepass := none }) counting.state (by decide +kernel) rfl
    (by decide +kernel) (by
      intro i
      fin_cases i
      · rfl
      · rfl)

/-- Both clients read before one of them writes. -/
theorem increment_lost :
    (counting.run [0, 0, 1, 1, 0, 0, 1, 1]).Finished (fun _ => .integer 6) ∧
      ¬ Conserved MapStore.view (.string [107]) (fun _ : Fin 2 => 1) 5
        (counting.run [0, 0, 1, 1, 0, 0, 1, 1]).state (fun _ => .integer 6) := by
  constructor
  · intro i
    fin_cases i
    · rfl
    · rfl
  · rintro ⟨final, hfinal, hsum⟩
    have hsix : stored MapStore.view (.string [107])
        (counting.run [0, 0, 1, 1, 0, 0, 1, 1]).state = some 6 := by decide +kernel
    obtain rfl : 6 = final := Option.some.inj (hsix.symm.trans hfinal)
    exact absurd hsum (by decide)

end FeoxServer
