import FeoxServer.Foundation.FiniteMap
import FeoxServer.Protocol.HashOperations
import FeoxServer.Store.MapStore

/-!
# Hashes are finite maps

The abstract hash is a finite map from fields to values.  The store represents
it field by field.  The number of fields is divided between the counter in the
store and the change that is still pending; flushing moves it from one to the
other at any time.
-/

namespace FeoxServer

open Foundation Prog

/-!
# The finite map
-/

abbrev FieldMap : Type :=
  FiniteMap Bytes Bytes

/-- The commands on one hash. -/
inductive HashCommand where
  | hset (fields : List (Bytes × Bytes))
  | hdel (fields : List Bytes)
  | hincrby (field : Bytes) (delta : Int64)
  | hget (field : Bytes)
  | hmget (fields : List Bytes)
  | hexists (field : Bytes)
  | hlen

inductive HashReply where
  | count (n : Nat)
  | number (n : Int)
  | value (v : Option Bytes)
  | values (vs : List (Option Bytes))
  | found (b : Bool)
  deriving DecidableEq

namespace FieldMap

/-- The number that a field holds as decimal text; an absent field counts as
zero. -/
def number (m : FieldMap) (field : Bytes) : Option Int64 :=
  match m.lookup field with
  | none => some 0
  | some text => (fromUtf8 text).bind parseI64

def incremented (m : FieldMap) (field : Bytes) (delta : Int64) : Int :=
  ((m.number field).getD 0).toInt + delta.toInt

def next (m : FieldMap) : HashCommand -> FieldMap
  | .hset fields => m.insertAll fields
  | .hdel fields => m.eraseAll fields
  | .hincrby field delta =>
      m.insert field (asBytes (decimalInt (m.incremented field delta)))
  | .hget _ | .hmget _ | .hexists _ | .hlen => m

def reply (m : FieldMap) : HashCommand -> HashReply
  | .hset fields => .count (m.newKeys (fields.map Prod.fst))
  | .hdel fields => .count (m.knownKeys fields)
  | .hincrby field delta => .number (m.incremented field delta)
  | .hget field => .value (m.lookup field)
  | .hmget fields => .values (fields.map fun field => m.lookup field)
  | .hexists field => .found (m.lookup field).isSome
  | .hlen => .count m.size

def after (m : FieldMap) (commands : List HashCommand) : FieldMap :=
  commands.foldl next m

def replies (m : FieldMap) : List HashCommand -> List HashReply
  | [] => []
  | command :: commands =>
      m.reply command :: replies (m.next command) commands

/-- Increments apply to absent fields and to decimal numbers, and their sums
stay in range. -/
def Applicable (m : FieldMap) : HashCommand -> Prop
  | .hincrby field delta =>
      (m.number field).isSome ∧ InRange (m.incremented field delta)
  | _ => True

/-- All commands apply, and there is room for the fields. -/
def Fits (m : FieldMap) : List HashCommand -> Prop
  | [] => True
  | command :: commands =>
      m.Applicable command ∧ (m.next command).size < 2 ^ 63 ∧
        Fits (m.next command) commands

instance (m : FieldMap) (command : HashCommand) :
    Decidable (m.Applicable command) :=
  match command with
  | .hincrby field delta =>
      inferInstanceAs (Decidable ((m.number field).isSome ∧
        -2 ^ 63 <= m.incremented field delta ∧
          m.incremented field delta < 2 ^ 63))
  | .hset _ | .hdel _ | .hget _ | .hmget _ | .hexists _ | .hlen =>
      inferInstanceAs (Decidable True)

instance decidableFits (m : FieldMap) (commands : List HashCommand) :
    Decidable (m.Fits commands) :=
  match commands with
  | [] => inferInstanceAs (Decidable True)
  | command :: commands =>
      have := decidableFits (m.next command) commands
      inferInstanceAs (Decidable (m.Applicable command ∧
        (m.next command).size < 2 ^ 63 ∧ (m.next command).Fits commands))

end FieldMap

namespace HashOperations

/-!
# The keys of a hash
-/

theorem fieldKey_ne_metaKey (key field : Bytes) :
    fieldKey key field ≠ metaKey key := by
  intro h
  unfold fieldKey fieldPrefix metaKey at h
  rw [List.append_assoc, List.append_right_inj] at h
  have hfield : asBytes ":f:" = [58, 102, 58] := by decide
  have hmeta : asBytes ":meta" = [58, 109, 101, 116, 97] := by decide
  rw [hfield, hmeta] at h
  simp at h

theorem fieldKey_injective (key : Bytes) :
    Function.Injective (fieldKey key) := by
  intro a b h
  exact List.append_cancel_left h

/-!
# What the store holds
-/

def Stored (v : Bytes -> Option Bytes) (key : Bytes) (m : FieldMap) : Prop :=
  forall field, v (fieldKey key field) = m.lookup field

def Counter (v : Bytes -> Option Bytes) (key : Bytes) (n : Int64) : Prop :=
  v (metaKey key) = some (i64ToLeBytes n) ∨ v (metaKey key) = none ∧ n = 0

variable {S : FeoxStore} {P : Platform}
  {view : S.State -> Bytes -> Option Bytes}

/-- The change of the counter that is not in the store yet. -/
def pending (key : Bytes) (w : World S P) : Int64 :=
  (w.tracker.lookup (metaKey key)).getD 0

/-- No other hash has a change pending, and the counter and the pending change
add up to `n`. -/
structure Counts (view : S.State -> Bytes -> Option Bytes) (key : Bytes)
    (n : Nat) (w : World S P) : Prop where
  only : forall k, k ∈ w.tracker -> k = metaKey key
  sum : exists counter, Counter (view w.store) key counter ∧
    0 <= counter.toInt ∧ counter.toInt + (pending key w).toInt = n

/-- The world keeps the map `m` under `key`, and counts its fields. -/
structure Represents (view : S.State -> Bytes -> Option Bytes) (key : Bytes)
    (m : FieldMap) (w : World S P) : Prop where
  stored : Stored (view w.store) key m
  counts : Counts view key m.size w

/-- Nothing of the hash is in the store, and no change is pending. -/
structure Absent (view : S.State -> Bytes -> Option Bytes) (key : Bytes)
    (w : World S P) : Prop where
  fields : forall field, view w.store (fieldKey key field) = none
  counter : view w.store (metaKey key) = none
  tracker : w.tracker = ∅

theorem Absent.represents {key : Bytes} {w : World S P}
    (h : Absent view key w) : Represents view key ∅ w where
  stored field := h.fields field
  counts :=
    { only := by
        rw [h.tracker]
        exact fun k hk => absurd hk (AList.notMem_empty k)
      sum := by
        refine ⟨0, Or.inr ⟨h.counter, rfl⟩, le_refl _, ?_⟩
        unfold pending
        rw [h.tracker]
        rfl }

theorem Stored.update {v : Bytes -> Option Bytes} {key : Bytes} {m : FieldMap}
    (h : Stored v key m) (field value : Bytes) :
    Stored (Function.update v (fieldKey key field) (some value)) key
      (m.insert field value) := by
  intro field'
  by_cases hfield : field' = field
  · subst hfield
    rw [Function.update_self, AList.lookup_insert]
  · rw [Function.update_of_ne fun heq => hfield (fieldKey_injective key heq),
      AList.lookup_insert_ne hfield]
    exact h field'

theorem Stored.erase {v : Bytes -> Option Bytes} {key : Bytes} {m : FieldMap}
    (h : Stored v key m) (field : Bytes) :
    Stored (Function.update v (fieldKey key field) none) key (m.erase field) := by
  intro field'
  by_cases hfield : field' = field
  · subst hfield
    rw [Function.update_self, AList.lookup_erase]
  · rw [Function.update_of_ne fun heq => hfield (fieldKey_injective key heq),
      AList.lookup_erase_ne hfield]
    exact h field'

theorem Stored.congr {v v' : Bytes -> Option Bytes} {key : Bytes} {m : FieldMap}
    (h : Stored v key m) (hv : forall k, k ≠ metaKey key -> v' k = v k) :
    Stored v' key m :=
  fun field => (hv _ (fieldKey_ne_metaKey key field)).trans (h field)

end HashOperations

end FeoxServer
