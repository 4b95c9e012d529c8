import FeoxServer.Protocol.RespStability

/-!
# Round trip

What the writer emits for a value is read back as that value, whatever bytes
follow, and only then: the lines of the format carry their payload without any
escape, so a payload with a line end in it is cut there.
-/

namespace FeoxServer

open Foundation

def OneLine (b : Bytes) : Prop :=
  forall j, ¬ CrlfAt b j

instance (b : Bytes) : Decidable (OneLine b) :=
  decidable_of_iff (findCrlf b = none) findCrlf_eq_none_iff

/-- Every simple string and every error in the value is one line. -/
inductive LineSafe : RespValue -> Prop where
  | simpleString {s : Bytes} : OneLine s -> LineSafe (.simpleString s)
  | error {e : String} : OneLine (asBytes e) -> LineSafe (.error e)
  | integer (n : Int64) : LineSafe (.integer n)
  | bulkString (s : Option Bytes) : LineSafe (.bulkString s)
  | nullArray : LineSafe (.array none)
  | array {items : List RespValue} :
      (forall v, v ∈ items -> LineSafe v) -> LineSafe (.array (some items))

/-- The lengths that a `Bytes` and a `Vec` can have: no allocation is larger
than `isize::MAX`. -/
inductive Fits : RespValue -> Prop where
  | simpleString (s : Bytes) : Fits (.simpleString s)
  | error (e : String) : Fits (.error e)
  | integer (n : Int64) : Fits (.integer n)
  | bulkString {s : Bytes} : s.length < 2 ^ 63 -> Fits (.bulkString (some s))
  | nullBulkString : Fits (.bulkString none)
  | nullArray : Fits (.array none)
  | array {items : List RespValue} : items.length < 2 ^ 63 ->
      (forall v, v ∈ items -> Fits v) -> Fits (.array (some items))

/-!
# Lines
-/

theorem oneLine_of_not_mem {b : Bytes} (h : (13 : UInt8) ∉ b) : OneLine b :=
  fun _ hat => h (List.mem_of_getElem? hat.1)

theorem oneLine_cons {kind : UInt8} {b : Bytes} (hkind : kind ≠ 13) :
    OneLine (kind :: b) <-> OneLine b := by
  constructor
  · intro h j hat
    exact h (j + 1) hat
  · intro h j hat
    cases j with
    | zero =>
        have hget := hat.1
        simp only [List.getElem?_cons_zero, Option.some.injEq] at hget
        exact hkind hget
    | succ j => exact h j hat

theorem oneLine_decimal (n : Int64) : OneLine (asBytes (decimal n)) := by
  apply oneLine_of_not_mem
  intro hmem
  have hlt := lt_of_mem_asBytes_decimalInt hmem
  contradiction

theorem oneLine_decimalNat (n : Nat) : OneLine (asBytes (decimalNat n)) := by
  apply oneLine_of_not_mem
  intro hmem
  have hlt := lt_of_mem_asBytes_decimalNat hmem
  contradiction

theorem slice_head (kind : UInt8) (line rest : Bytes) :
    slice (kind :: line ++ crlf ++ rest) 1 (line.length + 1) = line := by
  simp [slice]

theorem findCrlf_headed {kind : UInt8} {line : Bytes} (rest : Bytes)
    (hkind : kind ≠ 13) (h : OneLine line) :
    findCrlf (kind :: line ++ crlf ++ rest) = some (line.length + 1) :=
  findCrlf_line ((oneLine_cons hkind).mpr h)

theorem parseLength_line {kind : UInt8} (noun : String) {len : String}
    {n : Int64} (rest : Bytes) (hkind : kind ≠ 13) (hline : OneLine (asBytes len))
    (hlen : parseI64 len = some n) :
    parseLength noun (kind :: asBytes len ++ crlf ++ rest) =
      .ok (some (n, (asBytes len).length + 1)) := by
  unfold parseLength
  rw [findCrlf_headed rest hkind hline]
  simp only [slice_head, fromUtf8_asBytes, hlen]

theorem parseLength_header (kind : UInt8) (noun : String) (len : Nat)
    (rest : Bytes) (hkind : kind ≠ 13) (hlen : len < 2 ^ 63) :
    parseLength noun (kind :: asBytes (decimalNat len) ++ crlf ++ rest) =
      .ok (some (Int64.ofNat len, (asBytes (decimalNat len)).length + 1)) :=
  parseLength_line noun rest hkind (oneLine_decimalNat len)
    (parseI64_decimalNat hlen)

theorem parseLength_null {kind : UInt8} (noun : String) (rest : Bytes)
    (hkind : kind ≠ 13) :
    parseLength noun (kind :: asBytes "-1" ++ crlf ++ rest) =
      .ok (some (-1, 3)) :=
  parseLength_line noun rest hkind (by decide) (by decide)

theorem int64_ofNat_nonneg {n : Nat} (h : n < 2 ^ 63) :
    ¬ Int64.ofNat n < 0 := by
  have hint := Int64.toInt_ofNat_of_lt h
  rw [Int64.lt_iff_toInt_lt, hint]
  simp

/-!
# The written forms
-/

theorem formatRespResponse_ne_nil (v : RespValue) : formatRespResponse v ≠ [] := by
  have hcrlf : forall b : Bytes, b ++ crlf ≠ [] := fun b hnil =>
    absurd (List.append_eq_nil_iff.mp hnil).2 nofun
  cases v with
  | simpleString s => exact hcrlf _
  | error e => exact hcrlf _
  | integer n => exact hcrlf _
  | bulkString s =>
      cases s with
      | none => exact hcrlf _
      | some s => exact hcrlf _
  | array items =>
      cases items with
      | none => exact hcrlf _
      | some items =>
          rw [formatRespResponse_array]
          exact fun hnil => hcrlf _ (List.append_eq_nil_iff.mp hnil).1

theorem formatRespResponse_bulkString (s : Bytes) :
    formatRespResponse (.bulkString (some s)) =
      36 :: asBytes (decimalNat s.length) ++ crlf ++ (s ++ crlf) := by
  simp only [formatRespResponse, writeRespValue, List.nil_append,
    List.append_assoc]
  rfl

theorem formatRespResponse_items (items : List RespValue) :
    formatRespResponse (.array (some items)) =
      42 :: asBytes (decimalNat items.length) ++ crlf ++
        items.flatMap formatRespResponse :=
  formatRespResponse_array items

/-!
# Reading a written value
-/

/-- The parser reads `v` back from its encoding, at every nesting bound that
is larger than the encoding. -/
def ReadsBack (v : RespValue) : Prop :=
  forall fuel rest, (formatRespResponse v).length < fuel ->
    parseValueFuel fuel (formatRespResponse v ++ rest) =
      .ok (some (v, (formatRespResponse v).length))

theorem parseValueFuel_array (fuel : Nat) (buf : Bytes) :
    parseValueFuel (fuel + 1) (42 :: buf) =
      parseArray (parseValueFuel fuel) (42 :: buf) := rfl

theorem parseSimpleString_line {s : Bytes} (h : OneLine s) (rest : Bytes) :
    parseSimpleString (43 :: s ++ crlf ++ rest) =
      .ok (some (.simpleString s, (43 :: s ++ crlf).length)) := by
  unfold parseSimpleString
  rw [findCrlf_headed rest (by decide) h]
  simp only [slice_head]
  simp [crlf]

theorem parseError_line {e : String} (h : OneLine (asBytes e)) (rest : Bytes) :
    parseError (45 :: asBytes e ++ crlf ++ rest) =
      .ok (some (.error e, (45 :: asBytes e ++ crlf).length)) := by
  unfold parseError
  rw [findCrlf_headed rest (by decide) h]
  simp only [slice_head, fromUtf8_asBytes]
  simp [crlf]

theorem parseInteger_line (n : Int64) (rest : Bytes) :
    parseInteger (58 :: asBytes (decimal n) ++ crlf ++ rest) =
      .ok (some (.integer n, (58 :: asBytes (decimal n) ++ crlf).length)) := by
  unfold parseInteger
  rw [findCrlf_headed rest (by decide) (oneLine_decimal n)]
  simp only [slice_head, fromUtf8_asBytes, parseI64_decimal]
  simp [crlf]

/-- The payload of a bulk string behind its length line, and the line end
behind the payload. -/
theorem payload_end (header s rest : Bytes) :
    slice (header ++ (s ++ crlf ++ rest)) header.length
        (header.length + s.length) = s ∧
      (header ++ (s ++ crlf ++ rest))[header.length + s.length]? = some 13 ∧
      (header ++ (s ++ crlf ++ rest))[header.length + s.length + 1]? =
        some 10 := by
  refine ⟨?_, ?_, ?_⟩
  · simp [slice, List.take_append]
  · simp [crlf]
  · rw [Nat.add_assoc, List.getElem?_append_right (by omega),
      List.append_assoc, List.getElem?_append_right (by omega)]
    simp [crlf]

theorem parseBulkString_payload {s : Bytes} (h : s.length < 2 ^ 63)
    (rest : Bytes) :
    parseBulkString (36 :: asBytes (decimalNat s.length) ++ crlf ++
        (s ++ crlf ++ rest)) =
      .ok (some (.bulkString (some s),
        (36 :: asBytes (decimalNat s.length) ++ crlf ++ (s ++ crlf)).length)) := by
  have hheader := parseLength_header 36 "bulk string" s.length
    (s ++ crlf ++ rest) (by decide) h
  have hint : (Int64.ofNat s.length).toInt = (s.length : Int) :=
    Int64.toInt_ofNat_of_lt h
  have hlength : (asBytes (decimalNat s.length)).length + 1 + 2 =
      (36 :: asBytes (decimalNat s.length) ++ crlf).length := by
    simp [crlf]
  rcases payload_end (36 :: asBytes (decimalNat s.length) ++ crlf) s rest with
    ⟨hslice, hcr, hlf⟩
  unfold parseBulkString
  rw [hheader]
  simp only [if_neg (int64_ofNat_nonneg h), hint, Int.toNat_natCast, hlength]
  rw [if_neg (by simp [crlf]; omega), if_neg (not_or.mpr ⟨not_not.mpr hcr, not_not.mpr hlf⟩), hslice]
  simp [crlf]
  omega

theorem parseElements_items {parse : Bytes -> ParseResult}
    {items : List RespValue} (rest : Bytes)
    (h : forall v, v ∈ items -> forall rest,
      parse (formatRespResponse v ++ rest) =
        .ok (some (v, (formatRespResponse v).length)))
    (header : Bytes) (elements : List RespValue) :
    parseElements parse
        (header ++ items.flatMap formatRespResponse ++ rest) items.length
        header.length elements =
      .ok (some (.array (some (elements ++ items)),
        (header ++ items.flatMap formatRespResponse).length)) := by
  induction items generalizing header elements with
  | nil => simp [parseElements]
  | cons item items ih =>
      have hhead := h item List.mem_cons_self
        (items.flatMap formatRespResponse ++ rest)
      have htail := ih (fun v hv => h v (List.mem_cons_of_mem _ hv))
        (header ++ formatRespResponse item) (elements ++ [item])
      have hdrop : (header ++ (item :: items).flatMap formatRespResponse ++
          rest).drop header.length =
          formatRespResponse item ++
            (items.flatMap formatRespResponse ++ rest) := by
        simp [List.append_assoc]
      rw [List.length_cons, parseElements, hdrop, hhead]
      simpa [List.append_assoc] using htail

/-- Reading a written array is running the element loop behind its length
line. -/
theorem parseArray_items {items : List RespValue} {rest : Bytes} {fuel : Nat}
    (hlength : items.length < 2 ^ 63) :
    parseValueFuel (fuel + 1)
        (42 :: asBytes (decimalNat items.length) ++ crlf ++
          items.flatMap formatRespResponse ++ rest) =
      parseElements (parseValueFuel fuel)
        (42 :: asBytes (decimalNat items.length) ++ crlf ++
          items.flatMap formatRespResponse ++ rest) items.length
        (42 :: asBytes (decimalNat items.length) ++ crlf).length [] := by
  have hheader := parseLength_header 42 "array" items.length
    (items.flatMap formatRespResponse ++ rest) (by decide) hlength
  have hint : (Int64.ofNat items.length).toInt = (items.length : Int) :=
    Int64.toInt_ofNat_of_lt hlength
  have hstart : (asBytes (decimalNat items.length)).length + 1 + 2 =
      (42 :: asBytes (decimalNat items.length) ++ crlf).length := by
    simp [crlf]
  rw [← List.append_assoc] at hheader
  simp only [List.cons_append] at hheader ⊢
  rw [parseValueFuel_array]
  unfold parseArray
  rw [hheader]
  simp only [if_neg (int64_ofNat_nonneg hlength), hint, Int.toNat_natCast,
    hstart, List.cons_append]

theorem readsBack_array {items : List RespValue}
    (hlength : items.length < 2 ^ 63)
    (h : forall v, v ∈ items -> ReadsBack v) :
    ReadsBack (.array (some items)) := by
  intro fuel rest hfuel
  rw [formatRespResponse_items] at hfuel ⊢
  cases fuel with
  | zero => omega
  | succ fuel =>
      have hitem : forall v, v ∈ items -> forall rest,
          parseValueFuel fuel (formatRespResponse v ++ rest) =
            .ok (some (v, (formatRespResponse v).length)) := by
        intro v hv rest'
        apply h v hv
        have hle : (formatRespResponse v).length <=
            (items.flatMap formatRespResponse).length :=
          (List.sublist_flatten_of_mem
            (List.mem_map.mpr ⟨v, hv, rfl⟩)).length_le
        simp only [List.length_append, List.length_cons] at hfuel
        omega
      rw [parseArray_items hlength]
      exact parseElements_items rest hitem
        (42 :: asBytes (decimalNat items.length) ++ crlf) []

theorem parseBulkString_null (rest : Bytes) :
    parseBulkString (36 :: asBytes "-1" ++ crlf ++ rest) =
      .ok (some (.bulkString none, 5)) := by
  unfold parseBulkString
  rw [parseLength_null "bulk string" rest (by decide)]
  rfl

theorem parseArray_null (parse : Bytes -> ParseResult) (rest : Bytes) :
    parseArray parse (42 :: asBytes "-1" ++ crlf ++ rest) =
      .ok (some (.array none, 5)) := by
  unfold parseArray
  rw [parseLength_null "array" rest (by decide)]
  rfl

theorem readsBack_of_lineSafe {v : RespValue} (hsafe : LineSafe v)
    (hfits : Fits v) : ReadsBack v := by
  induction v using RespValue.induction with
  | simpleString s =>
      intro fuel rest hfuel
      cases fuel with
      | zero => omega
      | succ fuel =>
          cases hsafe with
          | simpleString h => exact parseSimpleString_line h rest
  | error e =>
      intro fuel rest hfuel
      cases fuel with
      | zero => omega
      | succ fuel =>
          cases hsafe with
          | error h => exact parseError_line h rest
  | integer n =>
      intro fuel rest hfuel
      cases fuel with
      | zero => omega
      | succ fuel => exact parseInteger_line n rest
  | bulkString s =>
      intro fuel rest hfuel
      cases fuel with
      | zero => omega
      | succ fuel =>
          cases hfits with
          | nullBulkString => exact parseBulkString_null rest
          | bulkString h =>
              rename_i payload
              rw [formatRespResponse_bulkString, List.append_assoc]
              exact parseBulkString_payload h rest
  | nullArray =>
      intro fuel rest hfuel
      cases fuel with
      | zero => omega
      | succ fuel => exact parseArray_null _ rest
  | array items ih =>
      cases hsafe with
      | array hsafe =>
          cases hfits with
          | array hlength hfits =>
              exact readsBack_array hlength
                (fun v hv => ih v hv (hsafe v hv) (hfits v hv))

theorem parseValue_formatRespResponse {v : RespValue} (hsafe : LineSafe v)
    (hfits : Fits v) (rest : Bytes) :
    parseValue (formatRespResponse v ++ rest) =
      .ok (some (v, (formatRespResponse v).length)) := by
  apply readsBack_of_lineSafe hsafe hfits
  rw [List.length_append]
  omega

/-- Round trip of the wire format: the bytes that writing a value adds to a
buffer are read back as the value, and no byte more. -/
theorem writeRespValue_roundTrip (buf : Bytes) {v : RespValue}
    (hsafe : LineSafe v) (hfits : Fits v) :
    exists written, writeRespValue buf v = buf ++ written ∧
      forall rest,
        parseValue (written ++ rest) = .ok (some (v, written.length)) :=
  ⟨formatRespResponse v, writeRespValue_eq_append v buf,
    parseValue_formatRespResponse hsafe hfits⟩

/-- A carriage return alone does no harm in a line, and a whole line end does
none in a bulk string. -/
theorem writeRespValue_roundTrip_nested :
    exists written,
      writeRespValue [] (.array (some
        [.simpleString [13, 65, 13], .bulkString (some crlf), .integer (-7),
          .array (some []), .array none, .bulkString none])) = [] ++ written ∧
      forall rest,
        parseValue (written ++ rest) = .ok (some (.array (some
          [.simpleString [13, 65, 13], .bulkString (some crlf),
            .integer (-7), .array (some []), .array none, .bulkString none]),
          written.length)) := by
  apply writeRespValue_roundTrip
  · apply LineSafe.array
    simp only [List.forall_mem_cons]
    refine ⟨.simpleString (by decide), .bulkString _, .integer _, .array ?_,
      .nullArray, .bulkString _, ?_⟩
    · exact List.forall_mem_nil _
    · exact List.forall_mem_nil _
  · apply Fits.array (by decide)
    simp only [List.forall_mem_cons]
    refine ⟨.simpleString _, .bulkString (by decide), .integer _,
      .array (by decide) ?_, .nullArray, .nullBulkString, ?_⟩
    · exact List.forall_mem_nil _
    · exact List.forall_mem_nil _

/-!
# What can be read back at all
-/

theorem oneLine_of_slice {kind : UInt8} {line rest : Bytes} {stop : Nat}
    (hfind : findCrlf (kind :: line ++ crlf ++ rest) = some stop)
    (hslice : slice (kind :: line ++ crlf ++ rest) 1 stop = line) :
    OneLine line := by
  rcases findCrlf_eq_some_iff.mp hfind with ⟨_, hfirst⟩
  have hlt := findCrlf_lt hfind
  have hlength := congrArg List.length hslice
  simp only [slice, List.length_drop, List.length_take] at hlength
  intro j hat
  have hj := crlfAt_lt hat
  apply hfirst (j + 1) (by omega)
  have hline : CrlfAt (kind :: line) (j + 1) := hat
  rw [List.append_assoc]
  exact (crlfAt_append_iff (by rw [List.length_cons]; omega)).mpr hline

/-- `v` is line safe if it is read back at a nesting bound that is larger than
its encoding. -/
def SafeIfRead (v : RespValue) : Prop :=
  forall fuel rest n, (formatRespResponse v).length < fuel ->
    parseValueFuel fuel (formatRespResponse v ++ rest) = .ok (some (v, n)) ->
      LineSafe v

theorem safeIfRead_simpleString (s : Bytes) : SafeIfRead (.simpleString s) := by
  intro fuel rest n hfuel h
  cases fuel with
  | zero => omega
  | succ fuel =>
      change parseSimpleString (43 :: s ++ crlf ++ rest) = _ at h
      unfold parseSimpleString at h
      cases hfind : findCrlf (43 :: s ++ crlf ++ rest) with
      | none =>
          rw [hfind] at h
          cases h
      | some stop =>
          simp only [hfind, Except.ok.injEq, Option.some.injEq, Prod.mk.injEq,
            RespValue.simpleString.injEq] at h
          exact .simpleString (oneLine_of_slice hfind h.1)

theorem safeIfRead_error (e : String) : SafeIfRead (.error e) := by
  intro fuel rest n hfuel h
  cases fuel with
  | zero => omega
  | succ fuel =>
      change parseError (45 :: asBytes e ++ crlf ++ rest) = _ at h
      unfold parseError at h
      cases hfind : findCrlf (45 :: asBytes e ++ crlf ++ rest) with
      | none =>
          rw [hfind] at h
          cases h
      | some stop =>
          cases hutf : fromUtf8 (slice (45 :: asBytes e ++ crlf ++ rest) 1 stop)
            with
          | none =>
              simp only [hfind, hutf] at h
              cases h
          | some msg =>
              simp only [hfind, hutf, Except.ok.injEq, Option.some.injEq,
                Prod.mk.injEq, RespValue.error.injEq] at h
              rw [h.1] at hutf
              exact .error (oneLine_of_slice hfind (asBytes_of_fromUtf8 hutf).symm)

theorem parseElements_prefix {parse : Bytes -> ParseResult} {buf : Bytes}
    {k pos : Nat} {elements all : List RespValue} {n : Nat}
    (h : parseElements parse buf k pos elements =
      .ok (some (.array (some all), n))) : elements <+: all := by
  induction k generalizing pos elements with
  | zero =>
      simp only [parseElements, Except.ok.injEq, Option.some.injEq,
        Prod.mk.injEq, RespValue.array.injEq] at h
      rw [h.1]
  | succ k ih =>
      unfold parseElements at h
      cases hvalue : parse (buf.drop pos) with
      | error e => simp [hvalue] at h
      | ok r =>
          cases r with
          | none => simp [hvalue] at h
          | some taken =>
              simp only [hvalue] at h
              exact (List.prefix_append elements [taken.1]).trans (ih h)

theorem safe_of_parseElements {parse : Bytes -> ParseResult}
    {items : List RespValue} {rest : Bytes} {n : Nat}
    (hsafe : forall v, v ∈ items -> forall rest n,
      parse (formatRespResponse v ++ rest) = .ok (some (v, n)) -> LineSafe v)
    (hlength : forall v, v ∈ items -> LineSafe v -> forall rest,
      parse (formatRespResponse v ++ rest) =
        .ok (some (v, (formatRespResponse v).length)))
    (header : Bytes) (elements : List RespValue)
    (h : parseElements parse
        (header ++ items.flatMap formatRespResponse ++ rest) items.length
        header.length elements =
      .ok (some (.array (some (elements ++ items)), n))) :
    forall v, v ∈ items -> LineSafe v := by
  induction items generalizing header elements with
  | nil => exact List.forall_mem_nil _
  | cons item items ih =>
      have hdrop : (header ++ (item :: items).flatMap formatRespResponse ++
          rest).drop header.length =
          formatRespResponse item ++
            (items.flatMap formatRespResponse ++ rest) := by
        simp [List.append_assoc]
      rw [List.length_cons, parseElements, hdrop] at h
      cases hvalue : parse (formatRespResponse item ++
          (items.flatMap formatRespResponse ++ rest)) with
      | error e => simp [hvalue] at h
      | ok r =>
          cases r with
          | none => simp [hvalue] at h
          | some taken =>
              rcases taken with ⟨value, consumed⟩
              simp only [hvalue] at h
              -- The first element of the result is the value just taken.
              have hprefix := parseElements_prefix h
              have heq : value = item := by
                rcases hprefix with ⟨tail, htail⟩
                simp only [List.append_assoc, List.append_cancel_left_eq,
                  List.singleton_append, List.cons.injEq] at htail
                exact htail.1
              subst heq
              have hhead := hsafe value List.mem_cons_self _ _ hvalue
              have hconsumed := hlength value List.mem_cons_self hhead
                (items.flatMap formatRespResponse ++ rest)
              rw [hvalue] at hconsumed
              injection hconsumed with hconsumed
              injection hconsumed with hconsumed
              injection hconsumed with _ hconsumed
              have htail := ih
                (fun v hv => hsafe v (List.mem_cons_of_mem _ hv))
                (fun v hv => hlength v (List.mem_cons_of_mem _ hv))
                (header ++ formatRespResponse value) (elements ++ [value])
                (by simpa [hconsumed, List.append_assoc] using h)
              exact List.forall_mem_cons.mpr ⟨hhead, htail⟩

theorem safeIfRead_array {items : List RespValue}
    (hlength : items.length < 2 ^ 63)
    (hfits : forall v, v ∈ items -> Fits v)
    (hsafe : forall v, v ∈ items -> SafeIfRead v) :
    SafeIfRead (.array (some items)) := by
  intro fuel rest n hfuel h
  rw [formatRespResponse_items] at hfuel h
  cases fuel with
  | zero => omega
  | succ fuel =>
      have hfuelItem : forall v, v ∈ items ->
          (formatRespResponse v).length < fuel := by
        intro v hv
        have hle : (formatRespResponse v).length <=
            (items.flatMap formatRespResponse).length :=
          (List.sublist_flatten_of_mem
            (List.mem_map.mpr ⟨v, hv, rfl⟩)).length_le
        simp only [List.length_append, List.length_cons] at hfuel
        omega
      rw [parseArray_items hlength] at h
      exact .array (safe_of_parseElements
        (fun v hv rest n hread => hsafe v hv fuel rest n (hfuelItem v hv) hread)
        (fun v hv hline rest =>
          readsBack_of_lineSafe hline (hfits v hv) fuel rest (hfuelItem v hv))
        (42 :: asBytes (decimalNat items.length) ++ crlf) [] h)

theorem safeIfRead_of_fits {v : RespValue} (hfits : Fits v) : SafeIfRead v := by
  induction v using RespValue.induction with
  | simpleString s => exact safeIfRead_simpleString s
  | error e => exact safeIfRead_error e
  | integer n => exact fun _ _ _ _ _ => .integer n
  | bulkString s => exact fun _ _ _ _ _ => .bulkString s
  | nullArray => exact fun _ _ _ _ _ => .nullArray
  | array items ih =>
      cases hfits with
      | array hlength hfits =>
          exact safeIfRead_array hlength hfits (fun v hv => ih v hv (hfits v hv))

/-- A value that fits is read back from its encoding exactly when it is line
safe. -/
theorem parseValue_formatRespResponse_iff {v : RespValue} (hfits : Fits v)
    (rest : Bytes) :
    (exists n, parseValue (formatRespResponse v ++ rest) = .ok (some (v, n))) <->
      LineSafe v := by
  constructor
  · rintro ⟨n, hread⟩
    exact safeIfRead_of_fits hfits _ rest n
      (by rw [List.length_append]; omega) hread
  · intro hsafe
    exact ⟨_, parseValue_formatRespResponse hsafe hfits rest⟩

/-!
# Streams of written values
-/

theorem drain_formatRespResponse {vs : List RespValue}
    (h : forall v, v ∈ vs -> LineSafe v ∧ Fits v) :
    drain parseValue (vs.flatMap formatRespResponse) = (vs, .waiting []) := by
  induction vs with
  | nil => rfl
  | cons v vs ih =>
      have hhead := h v List.mem_cons_self
      have hread := parseValue_formatRespResponse hhead.1 hhead.2
        (vs.flatMap formatRespResponse)
      have htail := ih (fun w hw => h w (List.mem_cons_of_mem _ hw))
      rw [List.flatMap_cons, parseValue_incremental.drain_of_value hread,
        List.drop_left, htail]

/-- One written value drains to exactly itself if and only if it is line
safe. -/
theorem drain_formatRespResponse_iff {v : RespValue} (hfits : Fits v) :
    drain parseValue (formatRespResponse v) = ([v], .waiting []) <->
      LineSafe v := by
  constructor
  · intro h
    apply (parseValue_formatRespResponse_iff hfits []).mp
    rw [List.append_nil]
    cases hread : parseValue (formatRespResponse v) with
    | error e =>
        rw [Incremental.drain_of_error hread] at h
        cases h
    | ok r =>
        cases r with
        | none =>
            rw [Incremental.drain_of_none hread] at h
            cases h
        | some taken =>
            rcases taken with ⟨w, n⟩
            rw [parseValue_incremental.drain_of_value hread] at h
            injection h with hvalues _
            injection hvalues with hvalue _
            exact ⟨n, by rw [hvalue]⟩
  · intro hsafe
    have hall : forall w, w ∈ [v] -> LineSafe w ∧ Fits w :=
      List.forall_mem_singleton.mpr ⟨hsafe, hfits⟩
    have hdrain := drain_formatRespResponse hall
    simpa using hdrain

end FeoxServer
