import FeoxServer.Foundation.Checked
import FeoxServer.Protocol.RespParser

/-!
# The parser with its panics

The parser once more, with every index, every slice, every sum of lengths and the
request for the elements of an array checked.  Lengths come from the network; all but
the checks of announced lengths are passed whatever these are.
-/

namespace FeoxServer

open Foundation Checked

/-- Whether a line end stands at a place; the second octet is only looked at where
the first one fits. -/
def crlfAtChecked (buf : Bytes) (place : Nat) : Checked Bool := do
  let first <- Checked.index buf place
  if first = 13 then
    let next <- Checked.add place 1
    let second <- Checked.index buf next
    pure (decide (second = 10))
  else pure false

/-- The test of the loop of `find_crlf` at a place. -/
def startsCrlfChecked (buf : Bytes) (crPos : Nat) : Checked Bool := do
  let last <- Checked.sub buf.length 1
  if crPos < last then crlfAtChecked buf crPos else pure false

def findCrlfFromChecked : Nat -> Bytes -> Nat -> Checked (Option Nat)
  | 0, _, _ => pure none
  | fuel + 1, buf, pos => do
      let last <- Checked.sub buf.length 1
      if pos < last then
        let rest <- Checked.sliceFrom buf pos
        match memchr2 13 10 rest with
        | some i =>
            let crPos <- Checked.add pos i
            let found <- startsCrlfChecked buf crPos
            if found then pure (some crPos)
            else
              let next <- Checked.add crPos 1
              findCrlfFromChecked fuel buf next
        | none => pure none
      else pure none

def findCrlfChecked (buf : Bytes) : Checked (Option Nat) :=
  findCrlfFromChecked buf.length buf 0

def parseSimpleStringChecked (buf : Bytes) : Checked ParseResult := do
  match <- findCrlfChecked buf with
  | some stop =>
      let data <- Checked.slice buf 1 stop
      let consumed <- Checked.add stop 2
      pure (.ok (some (.simpleString data, consumed)))
  | none => pure (.ok none)

def parseErrorChecked (buf : Bytes) : Checked ParseResult := do
  match <- findCrlfChecked buf with
  | some stop =>
      let line <- Checked.slice buf 1 stop
      match fromUtf8 line with
      | some msg =>
          let consumed <- Checked.add stop 2
          pure (.ok (some (.error msg, consumed)))
      | none => pure (.error "Invalid UTF-8 in error")
  | none => pure (.ok none)

def parseIntegerChecked (buf : Bytes) : Checked ParseResult := do
  match <- findCrlfChecked buf with
  | some stop =>
      let line <- Checked.slice buf 1 stop
      match fromUtf8 line with
      | some numStr =>
          match parseI64 numStr with
          | some num =>
              let consumed <- Checked.add stop 2
              pure (.ok (some (.integer num, consumed)))
          | none => pure (.error ("Invalid integer: " ++ numStr))
      | none => pure (.error "Invalid UTF-8 in integer")
  | none => pure (.ok none)

def parseLengthChecked (noun : String) (buf : Bytes) :
    Checked (Except String (Option (Int64 × Nat))) := do
  match <- findCrlfChecked buf with
  | none => pure (.ok none)
  | some lenEnd =>
      let line <- Checked.slice buf 1 lenEnd
      match fromUtf8 line with
      | none => pure (.error ("Invalid UTF-8 in " ++ noun ++ " length"))
      | some lenStr =>
          match parseI64 lenStr with
          | some len => pure (.ok (some (len, lenEnd)))
          | none => pure (.error ("Invalid " ++ noun ++ " length: " ++ lenStr))

/-- `parse_bulk_string` once there are bytes enough: the line end behind the data is
looked at, and then the data is copied. -/
def takeBulkStringChecked (buf : Bytes) (dataStart dataEnd : Nat) :
    Checked ParseResult := do
  let ended <- crlfAtChecked buf dataEnd
  if !ended then pure (.error "Missing CRLF after bulk string")
  else
    let data <- Checked.slice buf dataStart dataEnd
    let consumed <- Checked.add dataEnd 2
    pure (.ok (some (.bulkString (some data), consumed)))

def parseBulkStringChecked (buf : Bytes) : Checked ParseResult := do
  match <- parseLengthChecked "bulk string" buf with
  | .error e => pure (.error e)
  | .ok none => pure (.ok none)
  | .ok (some (len, lenEnd)) =>
      let dataStart <- Checked.add lenEnd 2
      if len < 0 then pure (.ok (some (.bulkString none, dataStart)))
      else
        let dataEnd <- Checked.add dataStart len.toInt.toNat
        let needed <- Checked.add dataEnd 2
        if buf.length < needed then pure (.ok none)
        else takeBulkStringChecked buf dataStart dataEnd

def parseElementsChecked (parseValue : Bytes -> Checked ParseResult) (buf : Bytes) :
    Nat -> Nat -> List RespValue -> Checked ParseResult
  | 0, pos, elements => pure (.ok (some (.array (some elements), pos)))
  | n + 1, pos, elements => do
      let rest <- Checked.sliceFrom buf pos
      match <- parseValue rest with
      | .error e => pure (.error e)
      | .ok none => pure (.ok none)
      | .ok (some (value, consumed)) =>
          let next <- Checked.add pos consumed
          parseElementsChecked parseValue buf n next (elements ++ [value])

/-- `parse_array`; an element takes `size` bytes. -/
def parseArrayChecked (size : Nat) (parseValue : Bytes -> Checked ParseResult)
    (buf : Bytes) : Checked ParseResult := do
  match <- parseLengthChecked "array" buf with
  | .error e => pure (.error e)
  | .ok none => pure (.ok none)
  | .ok (some (len, lenEnd)) =>
      let start <- Checked.add lenEnd 2
      if len < 0 then pure (.ok (some (.array none, start)))
      else
        Checked.withCapacity size len.toInt.toNat
        parseElementsChecked parseValue buf len.toInt.toNat start []

def parseValueFuelChecked (size : Nat) : Nat -> Bytes -> Checked ParseResult
  | 0, _ => pure (.ok none)
  | fuel + 1, buf =>
      match buf with
      | [] => pure (.ok none)
      | kind :: _ =>
          if kind = 43 then parseSimpleStringChecked buf
          else if kind = 45 then parseErrorChecked buf
          else if kind = 58 then parseIntegerChecked buf
          else if kind = 36 then parseBulkStringChecked buf
          else if kind = 42 then
            parseArrayChecked size (parseValueFuelChecked size fuel) buf
          else
            pure (.error ("Invalid RESP type: " ++
              String.singleton (Char.ofNat kind.toNat)))

def parseValueChecked (size : Nat) (buf : Bytes) : Checked ParseResult :=
  parseValueFuelChecked size (buf.length + 1) buf

/-- `parse_next` on the buffer and the position. -/
def parseNextChecked (size : Nat) (buffer : Bytes) (position : Nat) :
    Checked (Except String (Option RespValue) × Bytes × Nat) := do
  if buffer.length <= position then pure (.ok none, buffer, position)
  else
    let remaining <- Checked.sliceFrom buffer position
    match <- parseValueChecked size remaining with
    | .ok (some (value, consumed)) =>
        let moved <- Checked.add position consumed
        if buffer.length / 2 < moved then
          let kept <- Checked.sliceFrom buffer moved
          pure (.ok (some value), kept, 0)
        else pure (.ok (some value), buffer, moved)
    | .ok none => pure (.ok none, buffer, position)
    | .error e => pure (.error e, buffer, position)

end FeoxServer
