import FeoxServer.Foundation.Decimal
import FeoxServer.Foundation.Words
import FeoxServer.World

/-!
# Hash commands

A hash lives in the store under one key for every field.  The number of its
fields is kept under a metadata key, whose changes are collected and written
later.
-/

namespace FeoxServer

open Foundation

namespace HashOperations

/-- `H:{key}:f:`, which every key of a field starts with. -/
def fieldPrefix (key : Bytes) : Bytes :=
  asBytes "H:" ++ key ++ asBytes ":f:"

def fieldKey (key field : Bytes) : Bytes :=
  fieldPrefix key ++ field

/-- `H:{key}:meta`. -/
def metaKey (key : Bytes) : Bytes :=
  asBytes "H:" ++ key ++ asBytes ":meta"

def parseMetadata (data : Bytes) : Int64 :=
  if data.length < 8 then 0 else i64FromLeBytes (data.take 8)

/-!
# The collected changes
-/

def applyUpdates : List (Bytes × Int64) -> ServerProg Unit
  | [] => pure ()
  | (key, delta) :: updates => do
      if delta ≠ 0 then
        let _ <- callStore (.atomicIncrement key delta)
        applyUpdates updates
      else applyUpdates updates

def flushMetadata : ServerProg Unit := do
  let updates <- Prog.call Call.takeUpdates
  applyUpdates updates

def maybeFlushMetadata : ServerProg Unit := do
  let shouldFlush <- Prog.call Call.shouldFlush
  if shouldFlush then flushMetadata else pure ()

/-- Collect a change of a field count, and write the changes when it is
time. -/
def updateCount (key : Bytes) (delta : Int64) : ServerProg Unit := do
  let _ <- Prog.call (Call.addUpdate (metaKey key) delta)
  maybeFlushMetadata

/-!
# Writing
-/

/-- Insert the fields in order and count the new ones, from `count` on. -/
def hsetLoop (key : Bytes) : List (Bytes × Bytes) -> Int64 ->
    ServerProg (Except Error Int64)
  | [], count => pure (.ok count)
  | (field, value) :: fields, count => do
      match <- callStore (.insertBytes (fieldKey key field) value) with
      | .ok isNew => hsetLoop key fields (if isNew then count + 1 else count)
      | .error e => pure (.error (.database e))

def hset (key : Bytes) (fields : List (Bytes × Bytes)) :
    ServerProg (Except Error Int64) := do
  match <- hsetLoop key fields 0 with
  | .error e => pure (.error e)
  | .ok newFieldsCount =>
      if newFieldsCount > 0 then
        let _ <- updateCount key newFieldsCount
        pure (.ok newFieldsCount)
      else pure (.ok newFieldsCount)

/-- Delete the fields in order and count the deletions, from `count` on. -/
def hdelLoop (key : Bytes) : List Bytes -> Int64 -> ServerProg Int64
  | [], count => pure count
  | field :: fields, count => do
      match <- callStore (.delete (fieldKey key field)) with
      | .ok _ => hdelLoop key fields (count + 1)
      | .error _ => hdelLoop key fields count

def hdel (key : Bytes) (fields : List Bytes) :
    ServerProg (Except Error Int64) := do
  let deletedCount <- hdelLoop key fields 0
  if deletedCount > 0 then
    let _ <- updateCount key (-deletedCount)
    pure (.ok deletedCount)
  else pure (.ok deletedCount)

def saturatingAdd (a b : Int64) : Int64 :=
  Int64.ofInt (max (-2 ^ 63) (min (2 ^ 63 - 1) (a.toInt + b.toInt)))

theorem toInt_saturatingAdd (a b : Int64) :
    (saturatingAdd a b).toInt =
      max (-2 ^ 63) (min (2 ^ 63 - 1) (a.toInt + b.toInt)) := by
  unfold saturatingAdd
  rw [Int64.toInt_ofInt]
  apply bmod_of_inRange
  unfold InRange
  omega

theorem saturatingAdd_of_inRange {a b : Int64} (h : InRange (a.toInt + b.toInt)) :
    saturatingAdd a b = a + b := by
  rcases h with ⟨hlow, hhigh⟩
  apply Int64.toInt_inj.mp
  rw [toInt_saturatingAdd, toInt_add_of_inRange ⟨hlow, hhigh⟩,
    min_eq_right (by omega), max_eq_right (by omega)]

def fieldNumber (data : Bytes) : Option Int64 :=
  match fromUtf8 data with
  | some text => parseI64 text
  | none => if data.length = 8 then some (i64FromLeBytes data) else none

def incremented (key field : Bytes) (delta : Int64) :
    ServerProg (Except Error Int64) := do
  let fieldExists <- callStore (.containsKey (fieldKey key field))
  if fieldExists then
    match <- callStore (.getBytes (fieldKey key field)) with
    | .ok data =>
        match fieldNumber data with
        | some current => pure (.ok (saturatingAdd current delta))
        | none => pure (.error (.protocol "hash value is not an integer"))
    | .error _ => pure (.ok delta)
  else do
    let _ <- updateCount key 1
    pure (.ok delta)

def hincrby (key field : Bytes) (delta : Int64) :
    ServerProg (Except Error Int64) := do
  match <- incremented key field delta with
  | .error e => pure (.error e)
  | .ok newValue =>
      match <- callStore
          (.insert (fieldKey key field) (asBytes (decimal newValue))) with
      | .ok _ => pure (.ok newValue)
      | .error e => pure (.error (.database e))

/-!
# Reading
-/

def hget (key field : Bytes) : ServerProg (Option Bytes) := do
  match <- callStore (.getBytes (fieldKey key field)) with
  | .ok value => pure (some value)
  | .error _ => pure none

def hmget (key : Bytes) : List Bytes -> ServerProg (List (Option Bytes))
  | [] => pure []
  | field :: fields => do
      let value <- hget key field
      let values <- hmget key fields
      pure (value :: values)

def hexists (key field : Bytes) : ServerProg Bool :=
  callStore (.containsKey (fieldKey key field))

def endKey (key : Bytes) : Bytes :=
  fieldPrefix key ++ [255]

def fieldsOf (key : Bytes) (pairs : List (Bytes × Bytes)) :
    List (Bytes × Bytes) :=
  (pairs.filter fun pair => (fieldPrefix key).isPrefixOf pair.1).map fun pair =>
    (pair.1.drop (fieldPrefix key).length, pair.2)

def collect {α : Type} (f : List (Bytes × Bytes) -> List α) (key : Bytes) :
    ServerProg (Except Error (List α)) := do
  match <- callStore (.rangeQuery (fieldPrefix key) (endKey key) 10000) with
  | .ok pairs => pure (.ok (f (fieldsOf key pairs)))
  | .error e => pure (.error (.database e))

def hgetall : Bytes -> ServerProg (Except Error (List (Bytes × Bytes))) :=
  collect id

def hkeys : Bytes -> ServerProg (Except Error (List Bytes)) :=
  collect fun pairs => pairs.map Prod.fst

def hvals : Bytes -> ServerProg (Except Error (List Bytes)) :=
  collect fun pairs => pairs.map Prod.snd

def hlen (key : Bytes) : ServerProg Int64 := do
  let _ <- flushMetadata
  match <- callStore (.getBytes (metaKey key)) with
  | .ok metaBytes => pure (parseMetadata metaBytes)
  | .error _ => pure 0

end HashOperations

end FeoxServer
