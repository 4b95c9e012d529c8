import FeoxServer.Foundation.Decimal
import FeoxServer.Foundation.Incremental

/-!
# The wire format

RESP values, the writer, and the parser of one value.
-/

namespace FeoxServer

open Foundation

inductive RespValue where
  | simpleString (s : Bytes)
  | error (e : String)
  | integer (n : Int64)
  | bulkString (s : Option Bytes)
  | array (items : Option (List RespValue))

namespace RespValue

theorem induction {P : RespValue -> Prop}
    (simpleString : forall s, P (.simpleString s))
    (error : forall e, P (.error e))
    (integer : forall n, P (.integer n))
    (bulkString : forall s, P (.bulkString s))
    (nullArray : P (.array none))
    (array : forall items, (forall v, v ∈ items -> P v) -> P (.array (some items))) :
    forall v, P v
  | .simpleString s => simpleString s
  | .error e => error e
  | .integer n => integer n
  | .bulkString s => bulkString s
  | .array none => nullArray
  | .array (some items) =>
      array items fun v _ =>
        induction simpleString error integer bulkString nullArray array v

end RespValue

def crlf : Bytes := [13, 10]

/-!
# Writing
-/

mutual

/-- `write_resp_value`: append the encoding of a value to a buffer. -/
def writeRespValue (buf : Bytes) : RespValue -> Bytes
  | .simpleString s => buf ++ asBytes "+" ++ s ++ crlf
  | .error e => buf ++ asBytes "-" ++ asBytes e ++ crlf
  | .integer n => buf ++ asBytes ":" ++ asBytes (decimal n) ++ crlf
  | .bulkString (some s) =>
      buf ++ asBytes "$" ++ asBytes (decimalNat s.length) ++ crlf ++ s ++ crlf
  | .bulkString none => buf ++ asBytes "$-1" ++ crlf
  | .array (some items) =>
      writeRespValues
        (buf ++ asBytes "*" ++ asBytes (decimalNat items.length) ++ crlf) items
  | .array none => buf ++ asBytes "*-1" ++ crlf

def writeRespValues (buf : Bytes) : List RespValue -> Bytes
  | [] => buf
  | item :: items => writeRespValues (writeRespValue buf item) items

end

/-- `format_resp_response`: the encoding of one value. -/
def formatRespResponse (v : RespValue) : Bytes :=
  writeRespValue [] v

theorem writeRespValues_of_append {items : List RespValue}
    (h : forall v, v ∈ items -> forall buf,
      writeRespValue buf v = buf ++ formatRespResponse v) (buf : Bytes) :
    writeRespValues buf items = buf ++ items.flatMap formatRespResponse := by
  induction items generalizing buf with
  | nil => simp [writeRespValues]
  | cons item items ih =>
      rw [writeRespValues, h item List.mem_cons_self,
        ih (fun v hv => h v (List.mem_cons_of_mem _ hv))]
      simp [List.append_assoc]

theorem writeRespValue_eq_append (v : RespValue) :
    forall buf, writeRespValue buf v = buf ++ formatRespResponse v := by
  induction v using RespValue.induction with
  | simpleString s => intro buf; simp [writeRespValue, formatRespResponse]
  | error e => intro buf; simp [writeRespValue, formatRespResponse]
  | integer n => intro buf; simp [writeRespValue, formatRespResponse]
  | bulkString s =>
      intro buf
      cases s <;> simp [writeRespValue, formatRespResponse]
  | nullArray => intro buf; simp [writeRespValue, formatRespResponse]
  | array items ih =>
      intro buf
      unfold formatRespResponse writeRespValue
      rw [writeRespValues_of_append ih, writeRespValues_of_append ih]
      simp [List.append_assoc]

theorem writeRespValues_eq_append (items : List RespValue) (buf : Bytes) :
    writeRespValues buf items = buf ++ items.flatMap formatRespResponse :=
  writeRespValues_of_append (fun v _ => writeRespValue_eq_append v) buf

theorem formatRespResponse_array (items : List RespValue) :
    formatRespResponse (.array (some items)) =
      asBytes "*" ++ asBytes (decimalNat items.length) ++ crlf ++
        items.flatMap formatRespResponse := by
  simp only [formatRespResponse, writeRespValue, writeRespValues_eq_append,
    List.nil_append]

/-!
# Parsing
-/

/-- `memchr2`: the first place of either octet. -/
def memchr2 (a b : UInt8) (buf : Bytes) : Option Nat :=
  buf.findIdx? fun x => x == a || x == b

/-- The loop of `find_crlf` from position `pos`. -/
def findCrlfFrom : Nat -> Bytes -> Nat -> Option Nat
  | 0, _, _ => none
  | fuel + 1, buf, pos =>
      if pos < buf.length - 1 then
        match memchr2 13 10 (buf.drop pos) with
        | some i =>
            let crPos := pos + i
            if crPos < buf.length - 1 ∧ buf[crPos]? = some 13 ∧
                buf[crPos + 1]? = some 10 then
              some crPos
            else findCrlfFrom fuel buf (crPos + 1)
        | none => none
      else none

/-- `find_crlf`: the place of the first carriage return that a line feed
follows.  Every round moves the position, so the length bounds the loop. -/
def findCrlf (buf : Bytes) : Option Nat :=
  findCrlfFrom buf.length buf 0

abbrev ParseResult : Type := Decoded String RespValue

/-- The slice `buf[start..stop]`. -/
def slice (buf : Bytes) (start stop : Nat) : Bytes :=
  (buf.take stop).drop start

def parseSimpleString (buf : Bytes) : ParseResult :=
  match findCrlf buf with
  | some stop => .ok (some (.simpleString (slice buf 1 stop), stop + 2))
  | none => .ok none

def parseError (buf : Bytes) : ParseResult :=
  match findCrlf buf with
  | some stop =>
      match fromUtf8 (slice buf 1 stop) with
      | some msg => .ok (some (.error msg, stop + 2))
      | none => .error "Invalid UTF-8 in error"
  | none => .ok none

def parseInteger (buf : Bytes) : ParseResult :=
  match findCrlf buf with
  | some stop =>
      match fromUtf8 (slice buf 1 stop) with
      | some numStr =>
          match parseI64 numStr with
          | some num => .ok (some (.integer num, stop + 2))
          | none => .error ("Invalid integer: " ++ numStr)
      | none => .error "Invalid UTF-8 in integer"
  | none => .ok none

/-- The length line of a bulk string or an array, with the place of its end.
The two parsers differ only in the noun of their messages. -/
def parseLength (noun : String) (buf : Bytes) :
    Except String (Option (Int64 × Nat)) :=
  match findCrlf buf with
  | none => .ok none
  | some lenEnd =>
      match fromUtf8 (slice buf 1 lenEnd) with
      | none => .error ("Invalid UTF-8 in " ++ noun ++ " length")
      | some lenStr =>
          match parseI64 lenStr with
          | some len => .ok (some (len, lenEnd))
          | none => .error ("Invalid " ++ noun ++ " length: " ++ lenStr)

def parseBulkString (buf : Bytes) : ParseResult :=
  match parseLength "bulk string" buf with
  | .error e => .error e
  | .ok none => .ok none
  | .ok (some (len, lenEnd)) =>
      if len < 0 then .ok (some (.bulkString none, lenEnd + 2))
      else
        let dataStart := lenEnd + 2
        let dataEnd := dataStart + len.toInt.toNat
        if buf.length < dataEnd + 2 then .ok none
        else if buf[dataEnd]? ≠ some 13 ∨ buf[dataEnd + 1]? ≠ some 10 then
          .error "Missing CRLF after bulk string"
        else
          .ok (some (.bulkString (some (slice buf dataStart dataEnd)),
            dataEnd + 2))

/-- The element loop of `parse_array`: `n` more values from position `pos`. -/
def parseElements (parseValue : Bytes -> ParseResult) (buf : Bytes) :
    Nat -> Nat -> List RespValue -> ParseResult
  | 0, pos, elements => .ok (some (.array (some elements), pos))
  | n + 1, pos, elements =>
      match parseValue (buf.drop pos) with
      | .error e => .error e
      | .ok none => .ok none
      | .ok (some (value, consumed)) =>
          parseElements parseValue buf n (pos + consumed) (elements ++ [value])

def parseArray (parseValue : Bytes -> ParseResult) (buf : Bytes) : ParseResult :=
  match parseLength "array" buf with
  | .error e => .error e
  | .ok none => .ok none
  | .ok (some (len, lenEnd)) =>
      if len < 0 then .ok (some (.array none, lenEnd + 2))
      else parseElements parseValue buf len.toInt.toNat (lenEnd + 2) []

/-- `parse_value` with a bound on the nesting. -/
def parseValueFuel : Nat -> Bytes -> ParseResult
  | 0, _ => .ok none
  | fuel + 1, buf =>
      match buf with
      | [] => .ok none
      | kind :: _ =>
          if kind = 43 then parseSimpleString buf
          else if kind = 45 then parseError buf
          else if kind = 58 then parseInteger buf
          else if kind = 36 then parseBulkString buf
          else if kind = 42 then parseArray (parseValueFuel fuel) buf
          else
            .error ("Invalid RESP type: " ++
              String.singleton (Char.ofNat kind.toNat))

/-- `parse_value`.  A nested value starts behind the length line of the array
around it, so the length of the buffer bounds the nesting. -/
def parseValue (buf : Bytes) : ParseResult :=
  parseValueFuel (buf.length + 1) buf

end FeoxServer
