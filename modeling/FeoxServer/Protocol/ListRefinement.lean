import FeoxServer.Foundation.Window
import FeoxServer.Protocol.ListOperations

/-!
# Lists are double-ended queues

The abstract list is a double-ended queue.  The stored list represents it: the
metadata gives a window of positions, and the value keys hold the elements
exactly in that window.
-/

namespace FeoxServer

open Foundation Prog

/-!
# The double-ended queue
-/

inductive ListCommand (α : Type) where
  | lpush (values : List α)
  | rpush (values : List α)
  | lpop (count : Option UInt64)
  | rpop (count : Option UInt64)
  | llen
  | lrange (start stop : Int64)
  | lindex (index : Int64)

inductive ListReply (α : Type) where
  | length (n : Int)
  | values (vs : List α)
  | element (v : Option α)
  deriving DecidableEq

namespace Deque

variable {α : Type}

def range (items : List α) (start stop : Int) : List α :=
  let first := if start < 0 then max (items.length + start) 0 else start
  let last := if stop < 0 then items.length + stop else stop
  (items.take (last + 1).toNat).drop first.toNat

def index (items : List α) (i : Int) : Option α :=
  itemAt items (if i < 0 then items.length + i else i)

def next (items : List α) : ListCommand α -> List α
  | .lpush values => values.foldl (fun items value => value :: items) items
  | .rpush values => items ++ values
  | .lpop count => items.drop (count.getD 1).toNat
  | .rpop count => (items.reverse.drop (count.getD 1).toNat).reverse
  | _ => items

def reply (items : List α) (command : ListCommand α) : ListReply α :=
  match command with
  | .lpush _ => .length (next items command).length
  | .rpush _ => .length (next items command).length
  | .lpop count => .values (items.take (count.getD 1).toNat)
  | .rpop count => .values (items.reverse.take (count.getD 1).toNat)
  | .llen => .length items.length
  | .lrange start stop => .values (range items start.toInt stop.toInt)
  | .lindex i => .element (index items i.toInt)

def after (items : List α) (commands : List (ListCommand α)) : List α :=
  commands.foldl next items

def replies (items : List α) : List (ListCommand α) -> List (ListReply α)
  | [] => []
  | command :: commands =>
      reply items command :: replies (next items command) commands

end Deque

namespace ListCommand

variable {α : Type}

def lpushed : ListCommand α -> Nat
  | lpush values => values.length
  | _ => 0

def rpushed : ListCommand α -> Nat
  | rpush values => values.length
  | _ => 0

/-- Pushes carry at least one value. -/
def Nonempty : ListCommand α -> Prop
  | lpush values => values ≠ []
  | rpush values => values ≠ []
  | _ => True

end ListCommand

namespace ListOperations

/-- One command on the list stored under `key`. -/
def perform (fuel : Nat) (key : Bytes) :
    ListCommand Bytes -> StoreProg (Except Error (ListReply Bytes))
  | .lpush values => do
      let r <- lpush fuel key values
      pure (r.map fun n => .length n.toInt)
  | .rpush values => do
      let r <- rpush fuel key values
      pure (r.map fun n => .length n.toInt)
  | .lpop count => do
      let r <- lpop fuel key count
      pure (r.map .values)
  | .rpop count => do
      let r <- rpop fuel key count
      pure (r.map .values)
  | .llen => do
      let r <- llen key
      pure (r.map fun n => .length n.toInt)
  | .lrange start stop => do
      let r <- lrange key start stop
      pure (r.map .values)
  | .lindex index => do
      let r <- lindex key index
      pure (r.map .element)

def performAll (fuel : Nat) (key : Bytes) : List (ListCommand Bytes) ->
    StoreProg (List (Except Error (ListReply Bytes)))
  | [] => pure []
  | command :: commands => do
      let r <- perform fuel key command
      let rs <- performAll fuel key commands
      pure (r :: rs)

/-!
# The keys of one list
-/

theorem decimal_ne_meta (pos : Int64) : decimal pos ≠ "meta" := by
  intro h
  have hm : 'm' ∈ (decimalInt pos.toInt).toList := by
    change 'm' ∈ (decimal pos).toList
    rw [h]
    decide
  rcases mem_decimalInt hm with hminus | hdigit
  · contradiction
  · contradiction

theorem valueKey_ne_metaKey (key : Bytes) (pos : Int64) :
    valueKey key pos ≠ metaKey key := by
  intro h
  have htext := congrArg String.toList (asBytes_injective h)
  simp only [String.toList_append, List.append_assoc,
    List.append_cancel_left_eq] at htext
  have htail : ":".toList ++ (decimal pos).toList =
      ":".toList ++ "meta".toList := htext
  exact decimal_ne_meta pos (String.toList_inj.mp (List.append_cancel_left htail))

theorem valueKey_injective (key : Bytes) :
    Function.Injective (valueKey key) := by
  intro p q h
  have htext := congrArg String.toList (asBytes_injective h)
  simp only [String.toList_append, List.append_cancel_left_eq] at htext
  exact decimal_injective (String.toList_inj.mp htext)

/-!
# Representation
-/

def initialMeta : ListMeta :=
  { head := initialPosition, tail := initialPosition, count := 0 }

/-- The metadata in the store; a list without metadata counts as one with the
initial metadata. -/
def Stored (v : Bytes -> Option Bytes) (key : Bytes) (m : ListMeta) : Prop :=
  v (metaKey key) = some (buildMetadata m) ∨
    v (metaKey key) = none ∧ m = initialMeta

/-- The map `v` keeps `items` under `key`, with metadata `m`. -/
structure Represents (v : Bytes -> Option Bytes) (key : Bytes)
    (items : List Bytes) (m : ListMeta) : Prop where
  stored : Stored v key m
  count : m.count.toNat = items.length
  window : m.tail.toInt = m.head.toInt + items.length
  holds : Foundation.Holds Int64.toInt (fun pos => v (valueKey key pos))
    m.head.toInt items

/-- The three numbers of the metadata agree, and value keys are in the store
exactly at the positions between head and tail. -/
def Consistent (v : Bytes -> Option Bytes) (key : Bytes) : Prop :=
  exists m, Stored v key m ∧ m.tail.toInt - m.head.toInt = m.count.toNat ∧
    forall pos, (v (valueKey key pos)).isSome <-> m.head <= pos ∧ pos < m.tail

theorem Represents.consistent {v : Bytes -> Option Bytes} {key : Bytes}
    {items : List Bytes} {m : ListMeta} (h : Represents v key items m) :
    Consistent v key := by
  have hcount := h.count
  have hwindow := h.window
  refine ⟨m, h.stored, by omega, ?_⟩
  intro pos
  rw [h.holds.isSome_iff pos, Int64.le_iff_toInt_le, Int64.lt_iff_toInt_lt,
    hwindow]

/-- No key of the list is in the store. -/
def Absent (v : Bytes -> Option Bytes) (key : Bytes) : Prop :=
  v (metaKey key) = none ∧ forall pos, v (valueKey key pos) = none

theorem Absent.represents {v : Bytes -> Option Bytes} {key : Bytes}
    (h : Absent v key) : Represents v key [] initialMeta where
  stored := Or.inr ⟨h.1, rfl⟩
  count := rfl
  window := rfl
  holds := Foundation.Holds.nil h.2

/-- What a push or a pop writes: new metadata and one value key. -/
def written (v : Bytes -> Option Bytes) (key : Bytes) (m : ListMeta)
    (pos : Int64) (value : Option Bytes) : Bytes -> Option Bytes :=
  Function.update (Function.update v (metaKey key) (some (buildMetadata m)))
    (valueKey key pos) value

theorem written_metaKey (v : Bytes -> Option Bytes) (key : Bytes)
    (m : ListMeta) (pos : Int64) (value : Option Bytes) :
    written v key m pos value (metaKey key) = some (buildMetadata m) := by
  unfold written
  rw [Function.update_of_ne (valueKey_ne_metaKey key pos).symm,
    Function.update_self]

theorem written_valueKeys (v : Bytes -> Option Bytes) (key : Bytes)
    (m : ListMeta) (pos : Int64) (value : Option Bytes) :
    (fun p => written v key m pos value (valueKey key p)) =
      Function.update (fun p => v (valueKey key p)) pos value := by
  funext p
  unfold written
  by_cases hp : p = pos
  · rw [hp, Function.update_self, Function.update_self]
  · rw [Function.update_of_ne hp,
      Function.update_of_ne ((valueKey_injective key).ne hp),
      Function.update_of_ne (valueKey_ne_metaKey key p)]

theorem represents_written {v : Bytes -> Option Bytes} {key : Bytes}
    {items : List Bytes} {m : ListMeta} {pos : Int64} {value : Option Bytes}
    (hcount : m.count.toNat = items.length)
    (hwindow : m.tail.toInt = m.head.toInt + items.length)
    (hholds : Foundation.Holds Int64.toInt
      (Function.update (fun p => v (valueKey key p)) pos value)
      m.head.toInt items) :
    Represents (written v key m pos value) key items m where
  stored := Or.inl (written_metaKey v key m pos value)
  count := hcount
  window := hwindow
  holds := by
    rw [written_valueKeys]
    exact hholds

theorem toInt_injective : Function.Injective Int64.toInt :=
  fun _ _ h => Int64.toInt_inj.mp h

theorem count_eq_zero_iff {v : Bytes -> Option Bytes} {key : Bytes}
    {items : List Bytes} {m : ListMeta} (h : Represents v key items m) :
    m.count = 0 <-> items = [] := by
  have hcount := h.count
  rw [← UInt64.toNat_inj, hcount]
  exact List.length_eq_zero_iff

theorem metaKey_of_ne_nil {v : Bytes -> Option Bytes} {key : Bytes}
    {items : List Bytes} {m : ListMeta} (h : Represents v key items m)
    (hne : items ≠ []) :
    m.count ≠ 0 ∧ v (metaKey key) = some (buildMetadata m) := by
  have hcount : m.count ≠ 0 := fun hzero => hne ((count_eq_zero_iff h).mp hzero)
  rcases h.stored with hmeta | ⟨_, hinitial⟩
  · exact ⟨hcount, hmeta⟩
  · rw [hinitial] at hcount
    exact absurd rfl hcount

theorem toInt_tail_sub_head {v : Bytes -> Option Bytes} {key : Bytes}
    {items : List Bytes} {m : ListMeta} (h : Represents v key items m)
    (hlength : items.length < 2 ^ 63) :
    (m.tail - m.head).toInt = items.length := by
  have hwindow := h.window
  rw [toInt_sub_of_inRange]
  · omega
  · unfold InRange
    omega

/-- An empty list has both ends at one position, so the special case of the
first element changes nothing. -/
theorem lpushMeta_tail {v : Bytes -> Option Bytes} {key : Bytes}
    {items : List Bytes} {m : ListMeta} (h : Represents v key items m) :
    (lpushMeta m).1.tail.toInt = m.tail.toInt := by
  unfold lpushMeta
  by_cases hzero : m.count = 0
  · have hwindow := h.window
    rw [(count_eq_zero_iff h).mp hzero] at hwindow
    simp only [if_pos hzero]
    simpa using hwindow.symm
  · simp only [if_neg hzero]

theorem rpushMeta_head {v : Bytes -> Option Bytes} {key : Bytes}
    {items : List Bytes} {m : ListMeta} (h : Represents v key items m) :
    (rpushMeta m).1.head.toInt = m.head.toInt := by
  unfold rpushMeta
  by_cases hzero : m.count = 0
  · have hwindow := h.window
    rw [(count_eq_zero_iff h).mp hzero] at hwindow
    simp only [if_pos hzero]
    simpa using hwindow
  · simp only [if_neg hzero]

theorem toNat_add_one {n : UInt64} {k : Nat} (h : n.toNat = k)
    (hk : k + 1 < 2 ^ 64) : (n + 1).toNat = k + 1 := by
  have hone : (1 : UInt64).toNat = 1 := rfl
  rw [UInt64.toNat_add, h, hone, Nat.mod_eq_of_lt hk]

theorem toNat_sub_one {n : UInt64} {k : Nat} (h : n.toNat = k + 1) :
    (n - 1).toNat = k := by
  have hle : (1 : UInt64) <= n := by
    rw [UInt64.le_iff_toNat_le, h]
    exact Nat.succ_le_succ (Nat.zero_le k)
  have hone : (1 : UInt64).toNat = 1 := rfl
  rw [UInt64.toNat_sub_of_le _ _ hle, h, hone]
  rfl

theorem represents_lpush {v : Bytes -> Option Bytes} {key : Bytes}
    {items : List Bytes} {m : ListMeta} (h : Represents v key items m)
    (hroom : -2 ^ 63 < m.head.toInt) (hlength : items.length + 1 < 2 ^ 64)
    (value : Bytes) :
    Represents (written v key (lpushMeta m).1 (lpushMeta m).2 (some value)) key
      (value :: items) (lpushMeta m).1 := by
  have hhead : (lpushMeta m).1.head.toInt = m.head.toInt - 1 :=
    toInt_sub_one hroom
  apply represents_written
  · exact toNat_add_one h.count hlength
  · rw [lpushMeta_tail h, hhead, h.window, List.length_cons]
    omega
  · rw [hhead]
    exact h.holds.pushFront toInt_injective hhead value

theorem represents_rpush {v : Bytes -> Option Bytes} {key : Bytes}
    {items : List Bytes} {m : ListMeta} (h : Represents v key items m)
    (hroom : m.tail.toInt < 2 ^ 63 - 1) (hlength : items.length + 1 < 2 ^ 64)
    (value : Bytes) :
    Represents (written v key (rpushMeta m).1 (rpushMeta m).2 (some value)) key
      (items ++ [value]) (rpushMeta m).1 := by
  have htail : (rpushMeta m).1.tail.toInt = m.tail.toInt + 1 := toInt_add_one hroom
  apply represents_written
  · rw [List.length_append]
    exact toNat_add_one h.count hlength
  · rw [htail, rpushMeta_head h, h.window, List.length_append]
    simp only [List.length_singleton]
    omega
  · rw [rpushMeta_head h]
    exact h.holds.pushBack toInt_injective h.window value

theorem represents_lpop {v : Bytes -> Option Bytes} {key value : Bytes}
    {items : List Bytes} {m : ListMeta}
    (h : Represents v key (value :: items) m) :
    Represents (written v key (lpopMeta m).1 (lpopMeta m).2 none) key items
      (lpopMeta m).1 := by
  have htail := m.tail.toInt_lt
  have hwindow := h.window
  have hhead' : (lpopMeta m).1.head.toInt = m.head.toInt + 1 := by
    rw [List.length_cons] at hwindow
    exact toInt_add_one (by omega)
  apply represents_written
  · exact toNat_sub_one h.count
  · change m.tail.toInt = _
    rw [hhead', hwindow, List.length_cons]
    omega
  · rw [hhead']
    exact h.holds.popFront toInt_injective rfl

theorem represents_rpop {v : Bytes -> Option Bytes} {key value : Bytes}
    {items : List Bytes} {m : ListMeta}
    (h : Represents v key (items ++ [value]) m) :
    Represents (written v key (rpopMeta m).1 (rpopMeta m).2 none) key items
      (rpopMeta m).1 := by
  have hhead := m.head.le_toInt
  have hwindow := h.window
  have hcount := h.count
  rw [List.length_append, List.length_singleton] at hwindow hcount
  have htail' : (rpopMeta m).2.toInt = m.tail.toInt - 1 := toInt_sub_one (by omega)
  apply represents_written
  · exact toNat_sub_one hcount
  · change (rpopMeta m).2.toInt = m.head.toInt + items.length
    omega
  · exact h.holds.popBack toInt_injective (by omega)

end ListOperations

end FeoxServer
