import FeoxServer.Foundation.DecimalWords
import FeoxServer.Protocol.TypeIsolation
import FeoxServer.Store.SharedStore

/-!
# Strings are a map

The abstract strings are a map from keys to values, in which a number is decimal text
or the eight octets of a counter.
-/

namespace FeoxServer

open Foundation Prog

/-!
# The map
-/

abbrev StringMap : Type :=
  Bytes -> Option Bytes

/-- The commands on strings. -/
inductive StringCommand where
  | get (key : Bytes)
  | set (key value : Bytes)
  | del (keys : List Bytes)
  | exists_ (keys : List Bytes)
  | mget (keys : List Bytes)
  | mset (pairs : List (Bytes × Bytes))
  | cas (key expected newValue : Bytes)
  | incr (key : Bytes)
  | incrBy (key : Bytes) (delta : Int64)
  | decr (key : Bytes)
  | decrBy (key : Bytes) (delta : Int64)

inductive StringReply where
  | ok
  | value (v : Option Bytes)
  | values (vs : List (Option Bytes))
  | count (n : Nat)
  | swapped (b : Bool)
  | number (n : Int)
  | notNumber
  deriving DecidableEq

namespace StringMap

def setAll (m : StringMap) (pairs : List (Bytes × Bytes)) : StringMap :=
  pairs.foldl (fun m pair => Function.update m pair.1 (some pair.2)) m

def eraseAll (m : StringMap) (keys : List Bytes) : StringMap :=
  keys.foldl (fun m key => Function.update m key none) m

def deletions (m : StringMap) : List Bytes -> Nat
  | [] => 0
  | key :: keys =>
      (if (m key).isSome then 1 else 0) + deletions (Function.update m key none) keys

/-- The number under a key; a key that is absent counts as zero. -/
def number (m : StringMap) (key : Bytes) : Option Int64 :=
  match m key with
  | none => some 0
  | some value =>
      if value.length = 8 then some (i64FromLeBytes value)
      else CommandExecutor.stringNumber value

/-- Text stays text; everything else is a counter in eight octets. -/
def written (m : StringMap) (key : Bytes) (n : Int64) : Bytes :=
  match m key with
  | none => i64ToLeBytes n
  | some value => if value.length = 8 then i64ToLeBytes n else asBytes (decimal n)

def add (m : StringMap) (key : Bytes) (amount : Int) : StringMap :=
  match m.number key with
  | none => m
  | some n => Function.update m key (some (m.written key (Int64.ofInt (n.toInt + amount))))

def sum (m : StringMap) (key : Bytes) (amount : Int) : StringReply :=
  match m.number key with
  | none => .notNumber
  | some n => .number (n.toInt + amount)

def next (m : StringMap) : StringCommand -> StringMap
  | .set key value => Function.update m key (some value)
  | .del keys => m.eraseAll keys
  | .mset pairs => m.setAll pairs
  | .cas key expected newValue =>
      if m key = some expected then Function.update m key (some newValue) else m
  | .incr key => m.add key 1
  | .incrBy key delta => m.add key delta.toInt
  | .decr key => m.add key (-1)
  | .decrBy key delta => m.add key (-delta.toInt)
  | .get _ | .exists_ _ | .mget _ => m

def reply (m : StringMap) : StringCommand -> StringReply
  | .get key => .value (m key)
  | .set _ _ | .mset _ => .ok
  | .del keys => .count (m.deletions keys)
  | .exists_ keys => .count (keys.countP fun key => (m key).isSome)
  | .mget keys => .values (keys.map m)
  | .cas key expected _ => .swapped (decide (m key = some expected))
  | .incr key => m.sum key 1
  | .incrBy key delta => m.sum key delta.toInt
  | .decr key => m.sum key (-1)
  | .decrBy key delta => m.sum key (-delta.toInt)

def Addable (m : StringMap) (key : Bytes) (amount : Int) : Prop :=
  InRange amount ∧ forall n, m.number key = some n -> InRange (n.toInt + amount)

def Applicable (m : StringMap) : StringCommand -> Prop
  | .cas key _ _ => (m key).isSome
  | .incr key => m.Addable key 1
  | .incrBy key delta => m.Addable key delta.toInt
  | .decr key => m.Addable key (-1)
  | .decrBy key delta => m.Addable key (-delta.toInt)
  | _ => True

theorem addable_iff (m : StringMap) (key : Bytes) (amount : Int) :
    (-2 ^ 63 <= amount ∧ amount < 2 ^ 63) ∧ (m.number key).all (fun n =>
        decide (-2 ^ 63 <= n.toInt + amount ∧ n.toInt + amount < 2 ^ 63)) = true <->
      m.Addable key amount := by
  unfold Addable InRange
  cases m.number key with
  | none => simp
  | some n => simp

instance (m : StringMap) (key : Bytes) (amount : Int) : Decidable (m.Addable key amount) :=
  decidable_of_iff _ (addable_iff m key amount)

instance (m : StringMap) (c : StringCommand) : Decidable (m.Applicable c) :=
  match c with
  | .cas key _ _ => inferInstanceAs (Decidable ((m key).isSome = true))
  | .incr key => inferInstanceAs (Decidable (m.Addable key 1))
  | .incrBy key delta => inferInstanceAs (Decidable (m.Addable key delta.toInt))
  | .decr key => inferInstanceAs (Decidable (m.Addable key (-1)))
  | .decrBy key delta => inferInstanceAs (Decidable (m.Addable key (-delta.toInt)))
  | .get _ | .set _ _ | .del _ | .exists_ _ | .mget _ | .mset _ =>
      inferInstanceAs (Decidable True)

end StringMap

namespace StringCommand

/-- The keys that a command names. -/
def keys : StringCommand -> List Bytes
  | get key | set key _ | cas key _ _ | incr key | incrBy key _ | decr key
  | decrBy key _ => [key]
  | del keys | exists_ keys | mget keys => keys
  | mset pairs => pairs.map Prod.fst

/-- A command as a client sends it. -/
def command : StringCommand -> Command
  | get key => .get key
  | set key value => .set key value none none
  | del keys => .del keys
  | exists_ keys => .exists_ keys
  | mget keys => .mget keys
  | mset pairs => .mset pairs
  | cas key expected newValue => .cas key expected newValue
  | incr key => .incr key
  | incrBy key delta => .incrBy key delta
  | decr key => .decr key
  | decrBy key delta => .decrBy key delta

end StringCommand

/-- A reply as a client receives it. -/
def StringReply.toResp : StringReply -> RespValue
  | ok => .simpleString (asBytes "OK")
  | value v => .bulkString v
  | values vs => .array (some (vs.map .bulkString))
  | count n => .integer (Int64.ofNat n)
  | swapped b => .integer (if b then 1 else 0)
  | number n => .integer (Int64.ofInt n)
  | notNumber => .error "ERR value is not an integer or out of range"

/-!
# One command
-/

namespace StringCommand

variable {ε : Type} {S : FeoxStore} {P : Platform} {cell : S.State -> Bytes -> ε}
  {view : S.State -> Bytes -> Option Bytes}

theorem on_respond (c : StringCommand) (fuel : Nat) (x : CommandExecutor) :
    Only (Call.On { key | key ∈ c.keys }) (x.respond fuel c.command) := by
  cases c with
  | get key => exact StringReads.on_respond (.get (List.mem_singleton_self key)) fuel x
  | set key value =>
      exact StringWrites.on_respond (.set value none none (List.mem_singleton_self key))
        fuel x
  | del keys => exact StringWrites.on_respond (.del fun _ hkey => hkey) fuel x
  | exists_ keys => exact StringReads.on_respond (.exists_ fun _ hkey => hkey) fuel x
  | mget keys =>
      change Only (Call.On { key | key ∈ keys }) (CommandExecutor.mget keys [])
      have hloop : forall (rest : List Bytes) values, (forall k, k ∈ rest -> k ∈ keys) ->
          Only (Call.On { key | key ∈ keys }) (CommandExecutor.mget rest values) := by
        intro rest
        induction rest with
        | nil => exact fun values _ => Only.done _
        | cons key rest ih =>
            intro values hrest
            have hlater := fun values =>
              ih values fun k hk => hrest k (List.mem_cons_of_mem key hk)
            unfold CommandExecutor.mget
            refine only_call_bind_iff.mpr
              ⟨touches_subset rfl (hrest key List.mem_cons_self), fun r => ?_⟩
            cases r <;> exact hlater _
      exact hloop keys [] fun _ hkey => hkey
  | mset pairs =>
      exact StringWrites.on_respond (.mset fun pair hpair => List.mem_map_of_mem hpair)
        fuel x
  | cas key expected newValue =>
      exact StringWrites.on_respond
        (.cas expected newValue (List.mem_singleton_self key)) fuel x
  | incr key => exact StringWrites.on_respond (.incr (List.mem_singleton_self key)) fuel x
  | incrBy key delta =>
      exact StringWrites.on_respond (.incrBy delta (List.mem_singleton_self key)) fuel x
  | decr key => exact StringWrites.on_respond (.decr (List.mem_singleton_self key)) fuel x
  | decrBy key delta =>
      exact StringWrites.on_respond (.decrBy delta (List.mem_singleton_self key)) fuel x

variable {key : Bytes}

open HashOperations (run_callStore)

theorem getBytes_run (hS : SharedStore S cell view) (s : S.State) (key : Bytes) :
    exists s', view s' = view s ∧
      ((exists value, view s key = some value ∧
          S.reply (.getBytes key) s = (.ok value, s')) ∨
        (view s key = none ∧ exists e, e.keyNotFound = true ∧
          S.reply (.getBytes key) s = (.error e, s'))) := by
  cases hview : view s key with
  | some value =>
      rcases hS.getBytes_present hview with ⟨s', hget, hsame⟩
      exact ⟨s', hsame, Or.inl ⟨value, rfl, hget⟩⟩
  | none =>
      rcases hS.getBytes_absent hview with ⟨e, s', hget, hsame⟩
      rcases hS.keyNotFound hview with ⟨e', s'', hget', hmissing⟩
      rw [hget] at hget'
      cases hget'
      exact ⟨s', hsame, Or.inr ⟨rfl, e, hmissing, hget⟩⟩

theorem get_run (hS : SharedStore S cell view) (key : Bytes) (w : World S P) :
    exists w', (CommandExecutor.get key).run (server S P) w =
        some (.bulkString (view w.store key), w') ∧
      view w'.store = view w.store := by
  rcases getBytes_run hS w.store key with
    ⟨s', hsame, ⟨value, hview, hget⟩ | ⟨hview, e, hmissing, hget⟩⟩
  · refine ⟨{ w with store := s' }, ?_, hsame⟩
    rw [CommandExecutor.get, run_callStore hget, hview]
    rfl
  · refine ⟨{ w with store := s' }, ?_, hsame⟩
    rw [CommandExecutor.get, run_callStore hget, hview]
    simp only [hmissing, if_true]
    rfl

theorem mget_run (hS : SharedStore S cell view) (keys : List Bytes)
    (values : List RespValue) (w : World S P) :
    exists w', (CommandExecutor.mget keys values).run (server S P) w =
        some (.array (some (values ++
          (keys.map (view w.store)).map .bulkString)), w') ∧
      view w'.store = view w.store := by
  induction keys generalizing values w with
  | nil => exact ⟨w, by rw [List.map_nil, List.map_nil, List.append_nil]; rfl, rfl⟩
  | cons key keys ih =>
      rcases getBytes_run hS w.store key with
        ⟨s', hsame, ⟨value, hview, hget⟩ | ⟨hview, e, _, hget⟩⟩
      · rcases ih (values ++ [CommandExecutor.bulk value]) { w with store := s' } with
          ⟨w', hrun, hafter⟩
        refine ⟨w', ?_, hafter.trans hsame⟩
        rw [CommandExecutor.mget, run_callStore hget]
        refine hrun.trans ?_
        simp only [hsame, List.map_cons, hview, List.append_assoc, List.singleton_append]
        rfl
      · rcases ih (values ++ [.bulkString none]) { w with store := s' } with
          ⟨w', hrun, hafter⟩
        refine ⟨w', ?_, hafter.trans hsame⟩
        rw [CommandExecutor.mget, run_callStore hget]
        refine hrun.trans ?_
        simp only [hsame, List.map_cons, hview, List.append_assoc, List.singleton_append]

theorem existing_run (hS : SharedStore S cell view) (keys : List Bytes) (count : Nat)
    (w : World S P) :
    exists w', (CommandExecutor.existing keys (Int64.ofNat count)).run (server S P) w =
        some (.integer (Int64.ofNat
          (count + keys.countP fun key => (view w.store key).isSome)), w') ∧
      view w'.store = view w.store := by
  induction keys generalizing count w with
  | nil => exact ⟨w, rfl, rfl⟩
  | cons key keys ih =>
      rcases hS.containsKey w.store key with ⟨s', hcontains, hsame⟩
      rcases ih (count + if (view w.store key).isSome then 1 else 0)
        { w with store := s' } with ⟨w', hrun, hafter⟩
      refine ⟨w', ?_, hafter.trans hsame⟩
      rw [CommandExecutor.existing, run_callStore hcontains]
      have hcount : (if (view w.store key).isSome then Int64.ofNat count + 1
          else Int64.ofNat count) =
            Int64.ofNat (count + if (view w.store key).isSome then 1 else 0) := by
        split
        · exact (Int64.ofNat_add count 1).symm
        · rfl
      rw [hcount, hrun, hsame, List.countP_cons, Nat.add_assoc, Nat.add_comm (ite _ _ _)]

theorem del_run (hS : SharedStore S cell view) (keys : List Bytes) (count : Nat)
    (w : World S P) :
    exists w', (CommandExecutor.del keys (Int64.ofNat count)).run (server S P) w =
        some (.integer (Int64.ofNat
          (count + StringMap.deletions (view w.store) keys)), w') ∧
      view w'.store = StringMap.eraseAll (view w.store) keys := by
  induction keys generalizing count w with
  | nil => exact ⟨w, rfl, rfl⟩
  | cons key keys ih =>
      rw [StringMap.deletions, StringMap.eraseAll, List.foldl_cons, ← Nat.add_assoc]
      cases hview : view w.store key with
      | some value =>
          rcases hS.delete_present hview with ⟨s', hdelete, hafter⟩
          rcases ih (count + 1)
            { w with store := s', watch := w.watch.notifyKeyModified key } with
            ⟨w', hrun, hlast⟩
          rw [hafter, Int64.ofNat_add count 1] at hrun
          rw [hafter] at hlast
          refine ⟨w', ?_, hlast⟩
          rw [CommandExecutor.del, run_callStore hdelete]
          exact hrun
      | none =>
          rcases hS.delete_absent hview with ⟨e, s', hdelete, hafter⟩
          have hsame : view s' = Function.update (view w.store) key none := by
            rw [hafter, Function.update_eq_self_iff.mpr hview.symm]
          rcases ih count { w with store := s' } with ⟨w', hrun, hlast⟩
          rw [hsame] at hrun hlast
          refine ⟨w', ?_, hlast⟩
          rw [CommandExecutor.del, run_callStore hdelete]
          exact hrun

theorem set_run (hS : SharedStore S cell view) (key value : Bytes) (w : World S P) :
    exists w', (CommandExecutor.set key value none none).run (server S P) w =
        some (.simpleString (asBytes "OK"), w') ∧
      view w'.store = Function.update (view w.store) key (some value) := by
  rcases hS.insertBytesWithTimestamp w.store key value with ⟨s', hinsert, hafter⟩
  refine ⟨{ w with store := s', watch := w.watch.notifyKeyModified key }, ?_, hafter⟩
  rw [CommandExecutor.set, CommandExecutor.setCall, run_callStore hinsert]
  rfl

theorem mset_run (hS : SharedStore S cell view) (pairs : List (Bytes × Bytes))
    (w : World S P) :
    exists w', (CommandExecutor.mset pairs).run (server S P) w =
        some (.simpleString (asBytes "OK"), w') ∧
      view w'.store = StringMap.setAll (view w.store) pairs := by
  induction pairs generalizing w with
  | nil => exact ⟨w, rfl, rfl⟩
  | cons pair pairs ih =>
      rcases pair with ⟨key, value⟩
      rcases hS.insertWithTimestamp w.store key value with ⟨s', hinsert, hafter⟩
      rcases ih { w with store := s', watch := w.watch.notifyKeyModified key } with
        ⟨w', hrun, hlast⟩
      rw [hafter] at hlast
      refine ⟨w', ?_, hlast⟩
      rw [CommandExecutor.mset, run_callStore hinsert]
      exact hrun

theorem cas_run (hS : SharedStore S cell view) (expected newValue : Bytes)
    {w : World S P} (h : (view w.store key).isSome) :
    exists w', (CommandExecutor.cas key expected newValue).run (server S P) w =
        some (.integer (if decide (view w.store key = some expected) then 1 else 0),
          w') ∧
      view w'.store = if view w.store key = some expected then
        Function.update (view w.store) key (some newValue) else view w.store := by
  rcases Option.isSome_iff_exists.mp h with ⟨value, hvalue⟩
  by_cases hequal : value = expected
  · rw [hequal] at hvalue
    rcases hS.compareAndSwap_equal newValue hvalue with ⟨s', hswap, hafter⟩
    refine ⟨{ w with store := s' }, ?_, ?_⟩
    · rw [CommandExecutor.cas, run_callStore hswap, hvalue]
      simp
    · rw [if_pos hvalue]
      exact hafter
  · have hdiffers : view w.store key ≠ some expected := by
      rw [hvalue]
      exact fun heq => hequal (Option.some.inj heq)
    rcases hS.compareAndSwap_differs newValue hvalue hequal with ⟨s', hswap, hafter⟩
    refine ⟨{ w with store := s' }, ?_, ?_⟩
    · rw [CommandExecutor.cas, run_callStore hswap]
      simp [hdiffers]
    · rw [if_neg hdiffers]
      exact hafter

theorem writeNumber_run (hS : SharedStore S cell view) (key : Bytes) (n : Int64)
    (w : World S P) :
    exists w', (CommandExecutor.writeNumber key n).run (server S P) w =
        some (.integer n, w') ∧
      view w'.store = Function.update (view w.store) key (some (asBytes (decimal n))) := by
  rcases hS.insertBytesWithTimestamp w.store key (asBytes (decimal n)) with
    ⟨s', hinsert, hafter⟩
  refine ⟨{ w with store := s', watch := w.watch.notifyKeyModified key }, ?_, hafter⟩
  rw [CommandExecutor.writeNumber, run_callStore hinsert]
  rfl

theorem ofInt_sum {a b : Int64} : Int64.ofInt (a.toInt + b.toInt) = a + b := by
  rw [Int64.ofInt_add, Int64.ofInt_toInt, Int64.ofInt_toInt]

theorem stringIncr_run (hS : SharedStore S cell view) {delta : Int64} {w : World S P}
    (h : StringMap.Addable (view w.store) key delta.toInt) :
    exists w', (CommandExecutor.stringIncr key delta).run (server S P) w =
        some ((StringMap.sum (view w.store) key delta.toInt).toResp, w') ∧
      view w'.store = StringMap.add (view w.store) key delta.toInt := by
  have hsum := h.2
  unfold StringMap.number at hsum
  unfold StringMap.add StringMap.sum StringMap.written StringMap.number
  unfold CommandExecutor.stringIncr
  cases hview : view w.store key with
  | none =>
      rcases hS.atomicIncrement_absent delta hview with ⟨s', hadd, hafter⟩
      refine ⟨{ w with store := s', watch := w.watch.notifyKeyModified key }, ?_, ?_⟩
      · rw [run_callStore hadd]
        simp only [StringReply.toResp, ofInt_sum, Int64.zero_add]
        rfl
      · simp only [ofInt_sum, Int64.zero_add]
        exact hafter
  | some value =>
      simp only [hview] at hsum ⊢
      by_cases hlength : value.length = 8
      · simp only [if_pos hlength, Option.some.injEq, forall_eq'] at hsum ⊢
        have hoctets : view w.store key = some (i64ToLeBytes (i64FromLeBytes value)) := by
          rw [i64ToLeBytes_fromLeBytes hlength]
          exact hview
        rcases hS.atomicIncrement_present delta hoctets hsum with ⟨s', hadd, hafter⟩
        refine ⟨{ w with store := s', watch := w.watch.notifyKeyModified key }, ?_, ?_⟩
        · rw [run_callStore hadd, StringReply.toResp, ofInt_sum]
          rfl
        · rw [ofInt_sum]
          exact hafter
      · simp only [if_neg hlength]
        -- The store refuses to add to text.
        rcases hS.atomicIncrement_text delta hview hlength with ⟨e, s1, hadd, hsame⟩
        have hview1 : view s1 key = some value := by
          rw [hsame]
          exact hview
        rcases hS.getBytes_present hview1 with ⟨s2, hget, hsame2⟩
        rw [run_callStore hadd]
        dsimp only
        rw [run_callStore (w := { w with store := s1 }) hget]
        cases hnumber : CommandExecutor.stringNumber value with
        | none =>
            refine ⟨{ w with store := s2 }, ?_, hsame2.trans hsame⟩
            simp only [hnumber, StringReply.toResp]
            rfl
        | some current =>
            rcases writeNumber_run (P := P) hS key (current + delta)
              { w with store := s2 } with ⟨w', hwrite, hafter⟩
            refine ⟨w', ?_, ?_⟩
            · simp only [hnumber, StringReply.toResp, ofInt_sum]
              exact hwrite
            · rw [hafter]
              dsimp only
              rw [hsame2, hsame, ofInt_sum]

theorem respond_run (hS : SharedStore S cell view) (c : StringCommand) (fuel : Nat)
    (x : CommandExecutor) {w : World S P}
    (h : StringMap.Applicable (view w.store) c) :
    exists w', (x.respond fuel c.command).run (server S P) w =
        some ((StringMap.reply (view w.store) c).toResp, w') ∧
      view w'.store = StringMap.next (view w.store) c := by
  have hincr : forall {key amount delta}, amount = delta.toInt ->
      StringMap.Addable (view w.store) key amount ->
        exists w', (CommandExecutor.stringIncr key delta).run (server S P) w =
            some ((StringMap.sum (view w.store) key amount).toResp, w') ∧
          view w'.store = StringMap.add (view w.store) key amount := by
    rintro key amount delta rfl haddable
    exact stringIncr_run hS haddable
  cases c with
  | get key => exact get_run hS key w
  | set key value => exact set_run hS key value w
  | del keys =>
      rcases del_run hS keys 0 w with ⟨w', hrun, hafter⟩
      rw [Nat.zero_add] at hrun
      exact ⟨w', hrun, hafter⟩
  | exists_ keys =>
      rcases existing_run hS keys 0 w with ⟨w', hrun, hafter⟩
      rw [Nat.zero_add] at hrun
      exact ⟨w', hrun, hafter⟩
  | mget keys => exact mget_run hS keys [] w
  | mset pairs => exact mset_run hS pairs w
  | cas key expected newValue => exact cas_run hS expected newValue h
  | incr key => exact hincr (by decide) h
  | incrBy key delta => exact hincr rfl h
  | decr key => exact hincr (by decide) h
  | decrBy key delta =>
      have hnegated : -delta.toInt = (-delta).toInt := by
        rw [Int64.toInt_neg, bmod_of_inRange h.1]
      exact hincr hnegated h

end StringCommand

/-!
# Other keys

A command depends on the keys that it names, and changes no others.
-/

namespace StringMap

variable {m m' : StringMap} {k : Bytes}

theorem update_congr (key : Bytes) (value : Option Bytes) (h : m k = m' k) :
    Function.update m key value k = Function.update m' key value k := by
  by_cases hk : k = key
  · rw [hk, Function.update_self, Function.update_self]
  · rw [Function.update_of_ne hk, Function.update_of_ne hk, h]

theorem setAll_congr (pairs : List (Bytes × Bytes)) (h : m k = m' k) :
    m.setAll pairs k = m'.setAll pairs k := by
  induction pairs generalizing m m' with
  | nil => exact h
  | cons pair pairs ih =>
      exact ih (update_congr pair.1 (some pair.2) h)

theorem eraseAll_congr (keys : List Bytes) (h : m k = m' k) :
    m.eraseAll keys k = m'.eraseAll keys k := by
  induction keys generalizing m m' with
  | nil => exact h
  | cons key keys ih =>
      exact ih (update_congr key none h)

theorem deletions_congr (keys : List Bytes) (h : forall k, k ∈ keys -> m k = m' k) :
    m.deletions keys = m'.deletions keys := by
  induction keys generalizing m m' with
  | nil => rfl
  | cons key keys ih =>
      have hlater : forall k, k ∈ keys ->
          Function.update m key none k = Function.update m' key none k :=
        fun k hk => update_congr key none (h k (List.mem_cons_of_mem key hk))
      rw [deletions, deletions, h key List.mem_cons_self, ih hlater]

theorem number_congr {key : Bytes} (h : m key = m' key) : m.number key = m'.number key := by
  unfold number
  rw [h]

theorem sum_congr {key : Bytes} (h : m key = m' key) (amount : Int) :
    m.sum key amount = m'.sum key amount := by
  unfold sum
  rw [number_congr h]

theorem addable_congr {key : Bytes} (h : m key = m' key) (amount : Int) :
    m.Addable key amount <-> m'.Addable key amount := by
  unfold Addable
  rw [number_congr h]

theorem add_congr {key : Bytes} (h : m key = m' key) (hk : m k = m' k) (amount : Int) :
    m.add key amount k = m'.add key amount k := by
  unfold add written
  rw [number_congr h, h]
  cases m'.number key with
  | none => exact hk
  | some n => exact update_congr key _ hk

theorem next_congr {c : StringCommand} (h : forall k, k ∈ c.keys -> m k = m' k)
    (hk : m k = m' k) : m.next c k = m'.next c k := by
  cases c with
  | get key | exists_ keys | mget keys => exact hk
  | set key value => exact update_congr key (some value) hk
  | del keys => exact eraseAll_congr keys hk
  | mset pairs => exact setAll_congr pairs hk
  | cas key expected newValue =>
      change (if m key = some expected then Function.update m key (some newValue) else m) k =
        (if m' key = some expected then Function.update m' key (some newValue) else m') k
      rw [h key List.mem_cons_self]
      split
      · exact update_congr key (some newValue) hk
      · exact hk
  | incr key | incrBy key delta | decr key | decrBy key delta =>
      exact add_congr (h key List.mem_cons_self) hk _

theorem reply_congr {c : StringCommand} (h : forall k, k ∈ c.keys -> m k = m' k) :
    m.reply c = m'.reply c := by
  cases c with
  | get key => exact congrArg StringReply.value (h key List.mem_cons_self)
  | set key value | mset pairs => rfl
  | del keys => exact congrArg StringReply.count (deletions_congr keys h)
  | exists_ keys =>
      refine congrArg StringReply.count (List.countP_congr fun key hkey => ?_)
      rw [h key hkey]
  | mget keys => exact congrArg StringReply.values (List.map_congr_left h)
  | cas key expected newValue =>
      change StringReply.swapped (decide (m key = some expected)) =
        .swapped (decide (m' key = some expected))
      rw [h key List.mem_cons_self]
  | incr key | incrBy key delta | decr key | decrBy key delta =>
      exact sum_congr (h key List.mem_cons_self) _

theorem applicable_congr {c : StringCommand} (h : forall k, k ∈ c.keys -> m k = m' k) :
    m.Applicable c <-> m'.Applicable c := by
  cases c with
  | get key | set key value | del keys | exists_ keys | mget keys | mset pairs =>
      exact Iff.rfl
  | cas key expected newValue =>
      change (m key).isSome = true <-> (m' key).isSome = true
      rw [h key List.mem_cons_self]
  | incr key | incrBy key delta | decr key | decrBy key delta =>
      exact addable_congr (h key List.mem_cons_self) _

end StringMap

end FeoxServer
