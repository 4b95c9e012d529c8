import FeoxServer.Foundation.Decimal
import FeoxServer.Foundation.Words
import FeoxServer.Store.FeoxStore

/-!
# List commands

A list lives in the store under one metadata key and one key for every
element.  The pushes differ from each other only in where they put the value
and how they move the metadata, and so do the pops.
-/

namespace FeoxServer

open Foundation Prog

namespace ListOperations

def initialPosition : Int64 := 1000000000

def maxRetries : Nat := 10

structure ListMeta where
  head : Int64
  tail : Int64
  count : UInt64
  deriving DecidableEq

def parseMetadata (data : Bytes) : ListMeta :=
  if data.length < 24 then
    { head := initialPosition, tail := initialPosition, count := 0 }
  else
    { head := i64FromLeBytes (data.take 8)
      tail := i64FromLeBytes ((data.drop 8).take 8)
      count := u64FromLeBytes ((data.drop 16).take 8) }

def buildMetadata (m : ListMeta) : Bytes :=
  i64ToLeBytes m.head ++ i64ToLeBytes m.tail ++ u64ToLeBytes m.count

@[simp] theorem parseMetadata_buildMetadata (m : ListMeta) :
    parseMetadata (buildMetadata m) = m := by
  have hlength : ¬ (buildMetadata m).length < 24 := by
    simp [buildMetadata]
  have hhead : (buildMetadata m).take 8 = i64ToLeBytes m.head := by
    simp [buildMetadata]
  have htail : ((buildMetadata m).drop 8).take 8 = i64ToLeBytes m.tail := by
    simp [buildMetadata]
  have hcount : ((buildMetadata m).drop 16).take 8 = u64ToLeBytes m.count := by
    simp [buildMetadata, List.drop_append, List.take_of_length_le]
  unfold parseMetadata
  rw [if_neg hlength, hhead, htail, hcount]
  simp only [i64FromLeBytes_toLeBytes, u64FromLeBytes_toLeBytes]

/-- `L:{key}:meta`. -/
def metaKey (key : Bytes) : Bytes :=
  asBytes ("L:" ++ fromUtf8Lossy key ++ ":meta")

/-- `L:{key}:{position}`. -/
def valueKey (key : Bytes) (pos : Int64) : Bytes :=
  asBytes ("L:" ++ fromUtf8Lossy key ++ ":" ++ decimal pos)

def initialMetadata : Bytes :=
  buildMetadata { head := initialPosition, tail := initialPosition, count := 0 }

/-!
# Pushing
-/

/-- The metadata after a push, and the position of the new element. -/
def lpushMeta (m : ListMeta) : ListMeta × Int64 :=
  ({ head := m.head - 1
     tail := if m.count = 0 then m.head else m.tail
     count := m.count + 1 }, m.head - 1)

def rpushMeta (m : ListMeta) : ListMeta × Int64 :=
  ({ head := if m.count = 0 then m.tail else m.head
     tail := m.tail + 1
     count := m.count + 1 }, m.tail)

/-- Read the metadata, or create it: its octets and whether it is new, and
nothing when somebody else created it in between. -/
def readOrCreate (key : Bytes) : StoreProg (Option (Bytes × Bool)) := do
  match <- Store.getBytes (metaKey key) with
  | .ok bytes => pure (some (bytes, false))
  | .error _ =>
      match <- Store.insert (metaKey key) initialMetadata with
      | .ok _ => pure (some (initialMetadata, true))
      | .error _ => pure none

def writeMetadata (key metaBytes newMeta : Bytes) (isNew : Bool) :
    StoreProg (Except Error Bool) :=
  if isNew then do
    match <- Store.insert (metaKey key) newMeta with
    | .ok _ => pure (.ok true)
    | .error _ => pure (.ok false)
  else do
    match <- Store.compareAndSwap (metaKey key) metaBytes newMeta with
    | .ok swapped => pure (.ok swapped)
    | .error e => pure (.error (.database e))

/-- The loop that pushes one value.  A failed creation is retried without a
limit, a failed swap at most `maxRetries` times. -/
def pushOne (pushMeta : ListMeta -> ListMeta × Int64) (key value : Bytes) :
    Nat -> Nat -> StoreProg (Except Error Unit)
  | 0, _ => .exhausted
  | fuel + 1, retries => do
      match <- readOrCreate key with
      | none => pushOne pushMeta key value fuel retries
      | some (metaBytes, isNew) =>
          let (newMeta, pos) := pushMeta (parseMetadata metaBytes)
          match <- writeMetadata key metaBytes (buildMetadata newMeta) isNew with
          | .error e => pure (.error e)
          | .ok true =>
              match <- Store.insert (valueKey key pos) value with
              | .ok _ => pure (.ok ())
              | .error e => pure (.error (.database e))
          | .ok false =>
              if retries + 1 >= maxRetries then
                pure (.error (.system "Operation failed due to contention"))
              else pushOne pushMeta key value fuel (retries + 1)

def pushAll (pushMeta : ListMeta -> ListMeta × Int64) (fuel : Nat)
    (key : Bytes) : List Bytes -> StoreProg (Except Error Unit)
  | [] => pure (.ok ())
  | value :: values => do
      match <- pushOne pushMeta key value fuel 0 with
      | .ok _ => pushAll pushMeta fuel key values
      | .error e => pure (.error e)

def push (pushMeta : ListMeta -> ListMeta × Int64) (fuel : Nat) (key : Bytes)
    (values : List Bytes) : StoreProg (Except Error Int64) := do
  match <- pushAll pushMeta fuel key values with
  | .error e => pure (.error e)
  | .ok _ =>
      match <- Store.getBytes (metaKey key) with
      | .ok metaBytes => pure (.ok (parseMetadata metaBytes).count.toInt64)
      | .error e => pure (.error (.database e))

def lpush : Nat -> Bytes -> List Bytes -> StoreProg (Except Error Int64) :=
  push lpushMeta

def rpush : Nat -> Bytes -> List Bytes -> StoreProg (Except Error Int64) :=
  push rpushMeta

/-!
# Popping
-/

def lpopMeta (m : ListMeta) : ListMeta × Int64 :=
  ({ head := m.head + 1, tail := m.tail, count := m.count - 1 }, m.head)

def rpopMeta (m : ListMeta) : ListMeta × Int64 :=
  ({ head := m.head, tail := m.tail - 1, count := m.count - 1 }, m.tail - 1)

/-- The loop that pops one value, or ends the command: `.ok none` is the early
return.  A gap in the list is passed over without counting as a retry. -/
def popOne (popMeta : ListMeta -> ListMeta × Int64) (key : Bytes) :
    Nat -> Nat -> StoreProg (Except Error (Option Bytes))
  | 0, _ => .exhausted
  | fuel + 1, retries => do
      match <- Store.getBytes (metaKey key) with
      | .error _ => pure (.ok none)
      | .ok metaBytes =>
          let m := parseMetadata metaBytes
          if m.count = 0 ∨ m.tail <= m.head then pure (.ok none)
          else
            let (newMeta, pos) := popMeta m
            match <- Store.compareAndSwap (metaKey key) metaBytes
                (buildMetadata newMeta) with
            | .error e => pure (.error (.database e))
            | .ok true =>
                match <- Store.getBytes (valueKey key pos) with
                | .ok value =>
                    match <- Store.delete (valueKey key pos) with
                    | .ok _ => pure (.ok (some value))
                    | .error e => pure (.error (.database e))
                | .error _ => popOne popMeta key fuel retries
            | .ok false =>
                if retries + 1 >= maxRetries then pure (.ok none)
                else popOne popMeta key fuel (retries + 1)

def popLoop (popMeta : ListMeta -> ListMeta × Int64) (fuel : Nat)
    (key : Bytes) : Nat -> List Bytes -> StoreProg (Except Error (List Bytes))
  | 0, popped => pure (.ok popped)
  | n + 1, popped => do
      match <- popOne popMeta key fuel 0 with
      | .error e => pure (.error e)
      | .ok none => pure (.ok popped)
      | .ok (some value) => popLoop popMeta fuel key n (popped ++ [value])

def pop (popMeta : ListMeta -> ListMeta × Int64) (fuel : Nat) (key : Bytes)
    (count : Option UInt64) : StoreProg (Except Error (List Bytes)) :=
  popLoop popMeta fuel key (count.getD 1).toNat []

def lpop : Nat -> Bytes -> Option UInt64 ->
    StoreProg (Except Error (List Bytes)) :=
  pop lpopMeta

def rpop : Nat -> Bytes -> Option UInt64 ->
    StoreProg (Except Error (List Bytes)) :=
  pop rpopMeta

/-!
# Reading
-/

def llen (key : Bytes) : StoreProg (Except Error Int64) := do
  match <- Store.getBytes (metaKey key) with
  | .ok metaBytes => pure (.ok (parseMetadata metaBytes).count.toInt64)
  | .error _ => pure (.ok 0)

/-- The values at `n` indices in a row; a gap is skipped. -/
def rangeLoop (key : Bytes) (head : Int64) : Nat -> Int64 -> List Bytes ->
    StoreProg (List Bytes)
  | 0, _, results => pure results
  | n + 1, i, results => do
      match <- Store.getBytes (valueKey key (head + i)) with
      | .ok value => rangeLoop key head n (i + 1) (results ++ [value])
      | .error _ => rangeLoop key head n (i + 1) results

/-- The window that the two indices select in a list of length `len`: its
first and its last index. -/
def rangeBounds (len start stop : Int64) : Option (Int64 × Int64) :=
  let start := if start < 0 then max (len + start) 0 else start
  let stop := if stop < 0 then len + stop else stop
  if start >= len ∨ stop < 0 then none
  else
    let start := min (max start 0) (len - 1)
    let stop := min (max stop 0) (len - 1)
    if start > stop then none else some (start, stop)

def lrange (key : Bytes) (start stop : Int64) :
    StoreProg (Except Error (List Bytes)) := do
  match <- Store.getBytes (metaKey key) with
  | .error _ => pure (.ok [])
  | .ok metaBytes =>
      let m := parseMetadata metaBytes
      if m.count = 0 then pure (.ok [])
      else
        match rangeBounds (m.tail - m.head) start stop with
        | none => pure (.ok [])
        | some (first, last) => do
            let results <- rangeLoop key m.head
              (last.toInt - first.toInt + 1).toNat first []
            pure (.ok results)

/-- The index counted from the head, if it lies in a list of length `len`. -/
def actualIndex (len index : Int64) : Option Int64 :=
  if index < 0 then
    let positiveIndex := len + index
    if positiveIndex < 0 then none else some positiveIndex
  else if index >= len then none
  else some index

def lindex (key : Bytes) (index : Int64) :
    StoreProg (Except Error (Option Bytes)) := do
  match <- Store.getBytes (metaKey key) with
  | .error _ => pure (.ok none)
  | .ok metaBytes =>
      let m := parseMetadata metaBytes
      if m.count = 0 then pure (.ok none)
      else
        match actualIndex (m.tail - m.head) index with
        | none => pure (.ok none)
        | some index =>
            match <- Store.getBytes (valueKey key (m.head + index)) with
            | .ok value => pure (.ok (some value))
            | .error _ => pure (.ok none)

end ListOperations

end FeoxServer
