import FeoxServer.Protocol.RespRoundTrip
import FeoxServer.Protocol.RespSafety

/-!
# The grammar of the wire format

Which bytes stand for a value, said without a parser.  The parser accepts these bytes
for the value and no others, and so no bytes stand for two values.
-/

namespace FeoxServer

open Foundation

/-- The encodings of a value.  A number may be written with a sign and with zeros in
front, and any negative length stands for null. -/
inductive Encodes : RespValue -> Bytes -> Prop
  | simpleString {s : Bytes} : OneLine s -> Encodes (.simpleString s) (43 :: s ++ crlf)
  | error {e : String} : OneLine (asBytes e) -> Encodes (.error e) (45 :: asBytes e ++ crlf)
  | integer {text : String} {n : Int64} : parseI64 text = some n ->
      Encodes (.integer n) (58 :: asBytes text ++ crlf)
  | bulkString {text : String} {n : Int64} {s : Bytes} : parseI64 text = some n ->
      n.toInt = s.length ->
        Encodes (.bulkString (some s)) (36 :: asBytes text ++ crlf ++ (s ++ crlf))
  | nullBulkString {text : String} {n : Int64} : parseI64 text = some n -> n < 0 ->
      Encodes (.bulkString none) (36 :: asBytes text ++ crlf)
  | array {text : String} {n : Int64} {items : List RespValue} {parts : List Bytes} :
      parseI64 text = some n -> n.toInt = items.length ->
        List.Forall₂ Encodes items parts ->
          Encodes (.array (some items)) (42 :: asBytes text ++ crlf ++ parts.flatten)
  | nullArray {text : String} {n : Int64} : parseI64 text = some n -> n < 0 ->
      Encodes (.array none) (42 :: asBytes text ++ crlf)

/-!
# Lines
-/

theorem isDigit_of_parseDigits {cs : List Char} {n : Nat}
    (h : parseDigits cs = some n) {c : Char} (hc : c ∈ cs) : c.isDigit = true := by
  unfold parseDigits at h
  rcases Option.ite_none_right_eq_some.mp h with ⟨⟨_, hall⟩, _⟩
  exact List.all_eq_true.mp hall c hc

theorem oneLine_of_parseI64 {text : String} {n : Int64} (h : parseI64 text = some n) :
    OneLine (asBytes text) := by
  have hchars : forall c, c ∈ text.toList -> c = '-' ∨ c = '+' ∨ c.isDigit = true := by
    unfold parseI64 at h
    cases hint : parseInt text with
    | none =>
        rw [hint] at h
        cases h
    | some i =>
        unfold parseInt at hint
        intro c hc
        split at hint
        · rename_i digits hlist
          rcases Option.map_eq_some_iff.mp hint with ⟨m, hdigits, _⟩
          rw [hlist] at hc
          rcases List.mem_cons.mp hc with rfl | hc
          · exact Or.inl rfl
          · exact Or.inr (Or.inr (isDigit_of_parseDigits hdigits hc))
        · rename_i digits hlist
          rcases Option.map_eq_some_iff.mp hint with ⟨m, hdigits, _⟩
          rw [hlist] at hc
          rcases List.mem_cons.mp hc with rfl | hc
          · exact Or.inr (Or.inl rfl)
          · exact Or.inr (Or.inr (isDigit_of_parseDigits hdigits hc))
        · rcases Option.map_eq_some_iff.mp hint with ⟨m, hdigits, _⟩
          exact Or.inr (Or.inr (isDigit_of_parseDigits hdigits hc))
  apply oneLine_of_not_mem
  intro hmem
  have hascii : forall c, c ∈ text.toList -> c.utf8Size = 1 := by
    intro c hc
    rcases hchars c hc with rfl | rfl | hdigit
    · decide
    · decide
    · exact utf8Size_of_isDigit hdigit
  rcases mem_asBytes_of_ascii hascii hmem with ⟨c, hc, hbyte⟩
  rcases hchars c hc with rfl | rfl | hdigit
  · exact absurd hbyte (by decide)
  · exact absurd hbyte (by decide)
  · simp only [Char.isDigit, Bool.and_eq_true, decide_eq_true_eq, ge_iff_le,
      UInt32.le_iff_toNat_le] at hdigit
    have hcode := congrArg UInt8.toNat hbyte
    rw [UInt32.toNat_toUInt8] at hcode
    have hlow : ('0' : Char).val.toNat = 48 := rfl
    have hhigh : ('9' : Char).val.toNat = 57 := rfl
    have hcr : (13 : UInt8).toNat = 13 := rfl
    omega

theorem line_of_findCrlf {kind : UInt8} {tail : Bytes} {stop : Nat} (hkind : kind ≠ 13)
    (hfind : findCrlf (kind :: tail) = some stop) :
    exists line rest, kind :: tail = kind :: line ++ crlf ++ rest ∧ OneLine line ∧
      stop = line.length + 1 ∧ slice (kind :: tail) 1 stop = line := by
  rcases findCrlf_eq_some_iff.mp hfind with ⟨⟨hcr, hlf⟩, hfirst⟩
  have hlt := findCrlf_lt hfind
  cases stop with
  | zero =>
      injection hcr with hhere
      exact absurd hhere hkind
  | succ k =>
      have hlength : (tail.take k).length = k := by
        rw [List.length_cons] at hlt
        rw [List.length_take]
        omega
      have hsplit : tail = tail.take k ++ crlf ++ tail.drop (k + 2) := by
        rcases List.getElem?_eq_some_iff.mp hcr with ⟨hk, hk13⟩
        rcases List.getElem?_eq_some_iff.mp hlf with ⟨hk1, hk10⟩
        simp only [List.getElem_cons_succ, List.length_cons] at hk13 hk10 hk hk1
        have hdrop : tail.drop k = 13 :: 10 :: tail.drop (k + 2) := by
          rw [List.drop_eq_getElem_cons (by omega), hk13,
            List.drop_eq_getElem_cons (by omega), hk10]
        calc tail = tail.take k ++ tail.drop k := (List.take_append_drop k tail).symm
          _ = tail.take k ++ crlf ++ tail.drop (k + 2) := by
              rw [hdrop, List.append_assoc]
              rfl
      refine ⟨tail.take k, tail.drop (k + 2), ?_, ?_, by rw [hlength], rfl⟩
      · rw [List.cons_append, List.cons_append, ← hsplit]
      · intro j hat
        have hj := crlfAt_lt hat
        apply hfirst (j + 1) (by omega)
        have hline : CrlfAt (kind :: tail.take k) (j + 1) := hat
        have hwhole : kind :: tail =
            (kind :: tail.take k) ++ (crlf ++ tail.drop (k + 2)) := by
          rw [List.cons_append, ← List.append_assoc, ← hsplit]
        rw [hwhole]
        exact (crlfAt_append_iff (by rw [List.length_cons]; omega)).mpr hline

/-!
# What is accepted is in the grammar
-/

def BeginsWith (buf : Bytes) (v : RespValue) (n : Nat) : Prop :=
  exists enc rest, buf = enc ++ rest ∧ enc.length = n ∧ Encodes v enc

variable {tail : Bytes} {v : RespValue} {n : Nat}

theorem length_line (kind : UInt8) (line : Bytes) :
    (kind :: line ++ crlf).length = line.length + 1 + 2 := by
  simp [crlf]

theorem parseSimpleString_sound
    (h : parseSimpleString (43 :: tail) = .ok (some (v, n))) :
    BeginsWith (43 :: tail) v n := by
  unfold parseSimpleString at h
  cases hfind : findCrlf (43 :: tail) with
  | none =>
      rw [hfind] at h
      cases h
  | some stop =>
      rcases line_of_findCrlf (by decide) hfind with ⟨line, rest, hbuf, hline, rfl, hslice⟩
      simp only [hfind, hslice, Except.ok.injEq, Option.some.injEq, Prod.mk.injEq] at h
      rcases h with ⟨rfl, rfl⟩
      exact ⟨_, rest, hbuf, length_line 43 line, .simpleString hline⟩

theorem parseError_sound (h : parseError (45 :: tail) = .ok (some (v, n))) :
    BeginsWith (45 :: tail) v n := by
  unfold parseError at h
  cases hfind : findCrlf (45 :: tail) with
  | none =>
      rw [hfind] at h
      cases h
  | some stop =>
      rcases line_of_findCrlf (by decide) hfind with ⟨line, rest, hbuf, hline, rfl, hslice⟩
      cases hutf : fromUtf8 line with
      | none =>
          simp only [hfind, hslice, hutf] at h
          cases h
      | some msg =>
          have hbytes := asBytes_of_fromUtf8 hutf
          simp only [hfind, hslice, hutf, Except.ok.injEq, Option.some.injEq,
            Prod.mk.injEq] at h
          rcases h with ⟨rfl, rfl⟩
          rw [← hbytes] at hbuf hline
          exact ⟨_, rest, hbuf, (length_line 45 _).trans (by rw [hbytes]), .error hline⟩

theorem parseLength_sound {kind : UInt8} {noun : String} {len : Int64} {lenEnd : Nat}
    (hkind : kind ≠ 13)
    (h : parseLength noun (kind :: tail) = .ok (some (len, lenEnd))) :
    exists text rest, kind :: tail = kind :: asBytes text ++ crlf ++ rest ∧
      parseI64 text = some len ∧
      (kind :: asBytes text ++ crlf).length = lenEnd + 2 := by
  unfold parseLength at h
  cases hfind : findCrlf (kind :: tail) with
  | none =>
      rw [hfind] at h
      cases h
  | some stop =>
      rcases line_of_findCrlf hkind hfind with ⟨line, rest, hbuf, hline, rfl, hslice⟩
      cases hutf : fromUtf8 line with
      | none =>
          simp only [hfind, hslice, hutf] at h
          cases h
      | some text =>
          have hbytes := asBytes_of_fromUtf8 hutf
          cases hnumber : parseI64 text with
          | none =>
              simp only [hfind, hslice, hutf, hnumber] at h
              cases h
          | some number =>
              simp only [hfind, hslice, hutf, hnumber, Except.ok.injEq,
                Option.some.injEq, Prod.mk.injEq] at h
              rcases h with ⟨rfl, rfl⟩
              rw [← hbytes] at hbuf
              exact ⟨text, rest, hbuf, hnumber,
                (length_line kind _).trans (by rw [hbytes])⟩

theorem parseInteger_sound (h : parseInteger (58 :: tail) = .ok (some (v, n))) :
    BeginsWith (58 :: tail) v n := by
  unfold parseInteger at h
  cases hfind : findCrlf (58 :: tail) with
  | none =>
      rw [hfind] at h
      cases h
  | some stop =>
      rcases line_of_findCrlf (by decide) hfind with ⟨line, rest, hbuf, _, rfl, hslice⟩
      cases hutf : fromUtf8 line with
      | none =>
          simp only [hfind, hslice, hutf] at h
          cases h
      | some text =>
          have hbytes := asBytes_of_fromUtf8 hutf
          cases hnumber : parseI64 text with
          | none =>
              simp only [hfind, hslice, hutf, hnumber] at h
              cases h
          | some number =>
              simp only [hfind, hslice, hutf, hnumber, Except.ok.injEq,
                Option.some.injEq, Prod.mk.injEq] at h
              rcases h with ⟨rfl, rfl⟩
              rw [← hbytes] at hbuf
              exact ⟨_, rest, hbuf, (length_line 58 _).trans (by rw [hbytes]),
                .integer hnumber⟩

theorem payload_of_slice {header rest : Bytes} {k : Nat}
    (hcr : (header ++ rest)[header.length + k]? = some 13)
    (hlf : (header ++ rest)[header.length + k + 1]? = some 10) :
    rest = rest.take k ++ crlf ++ rest.drop (k + 2) ∧
      slice (header ++ rest) header.length (header.length + k) = rest.take k := by
  rw [List.getElem?_append_right (Nat.le_add_right _ _), Nat.add_sub_cancel_left] at hcr
  rw [Nat.add_assoc, List.getElem?_append_right (Nat.le_add_right _ _),
    Nat.add_sub_cancel_left] at hlf
  rcases List.getElem?_eq_some_iff.mp hcr with ⟨hk, hk13⟩
  rcases List.getElem?_eq_some_iff.mp hlf with ⟨hk1, hk10⟩
  have hdrop : rest.drop k = 13 :: 10 :: rest.drop (k + 2) := by
    rw [List.drop_eq_getElem_cons hk, hk13, List.drop_eq_getElem_cons hk1, hk10]
  constructor
  · calc rest = rest.take k ++ rest.drop k := (List.take_append_drop k rest).symm
      _ = rest.take k ++ crlf ++ rest.drop (k + 2) := by
          rw [hdrop, List.append_assoc]
          rfl
  · simp [slice, List.take_append]

theorem parseBulkString_sound (h : parseBulkString (36 :: tail) = .ok (some (v, n))) :
    BeginsWith (36 :: tail) v n := by
  unfold parseBulkString at h
  cases hlen : parseLength "bulk string" (36 :: tail) with
  | error e =>
      rw [hlen] at h
      cases h
  | ok r =>
      cases r with
      | none =>
          rw [hlen] at h
          cases h
      | some lenLine =>
          rcases lenLine with ⟨len, lenEnd⟩
          rcases parseLength_sound (by decide) hlen with
            ⟨text, rest, hbuf, hnumber, hheader⟩
          simp only [hlen] at h
          by_cases hneg : len < 0
          · simp only [if_pos hneg, Except.ok.injEq, Option.some.injEq,
              Prod.mk.injEq] at h
            rcases h with ⟨rfl, rfl⟩
            exact ⟨_, rest, hbuf, hheader, .nullBulkString hnumber hneg⟩
          · rw [if_neg hneg, ← hheader, hbuf] at h
            split at h
            · cases h
            · rename_i hlong
              split at h
              · cases h
              · rename_i hends
                rcases not_or.mp hends with ⟨hcr, hlf⟩
                rw [List.length_append] at hlong
                rcases @payload_of_slice (36 :: asBytes text ++ crlf) rest
                  len.toInt.toNat (not_not.mp hcr) (not_not.mp hlf) with
                  ⟨hrest, hslice⟩
                have hnonneg : (len.toInt.toNat : Int) = len.toInt := by
                  rw [Int64.lt_iff_toInt_lt] at hneg
                  exact Int.toNat_of_nonneg (Int.not_lt.mp hneg)
                have htake : (rest.take len.toInt.toNat).length = len.toInt.toNat := by
                  rw [List.length_take]
                  omega
                rw [hslice] at h
                cases h
                refine ⟨_, rest.drop (len.toInt.toNat + 2), ?_, ?_,
                  .bulkString hnumber (by rw [htake, hnonneg])⟩
                · rw [hbuf, List.append_assoc (36 :: asBytes text ++ crlf), ← hrest]
                · have hpayload : (rest.take len.toInt.toNat ++ crlf).length =
                      len.toInt.toNat + 2 := by
                    rw [List.length_append, htake]
                    rfl
                  rw [List.length_append, hpayload, Nat.add_assoc]

theorem parseElements_sound {parse : Bytes -> ParseResult} {buf : Bytes}
    {start : Nat} (hparse : forall (pos : Nat) v n, start <= pos ->
      parse (buf.drop pos) = .ok (some (v, n)) -> BeginsWith (buf.drop pos) v n)
    {k pos : Nat} {elements : List RespValue} (hstart : start <= pos)
    (h : parseElements parse buf k pos elements = .ok (some (v, n))) :
    exists items parts rest, v = .array (some (elements ++ items)) ∧
      items.length = k ∧ List.Forall₂ Encodes items parts ∧
      buf.drop pos = parts.flatten ++ rest ∧ n = pos + parts.flatten.length := by
  induction k generalizing pos elements with
  | zero =>
      cases h
      exact ⟨[], [], _, by rw [List.append_nil], rfl, .nil, rfl, rfl⟩
  | succ k ih =>
      unfold parseElements at h
      cases hfirst : parse (buf.drop pos) with
      | error e =>
          rw [hfirst] at h
          cases h
      | ok r =>
          cases r with
          | none =>
              rw [hfirst] at h
              cases h
          | some found =>
              rcases found with ⟨value, consumed⟩
              simp only [hfirst] at h
              rcases hparse pos value consumed hstart hfirst with
                ⟨enc, after, hbegins, rfl, hencodes⟩
              rcases ih (Nat.le_add_right_of_le hstart) h with ⟨items, parts, rest, rfl, rfl, hparts, hdrop, rfl⟩
              refine ⟨value :: items, enc :: parts, rest, ?_, rfl, .cons hencodes hparts,
                ?_, ?_⟩
              · rw [List.append_assoc]
                rfl
              · rw [← List.drop_drop, hbegins, List.drop_left] at hdrop
                rw [hbegins, hdrop, List.flatten_cons, List.append_assoc]
              · rw [List.flatten_cons, List.length_append, Nat.add_assoc]

theorem parseArray_sound
    (hparse : forall buf v n, buf.length < (42 :: tail).length ->
      parseValue buf = .ok (some (v, n)) -> BeginsWith buf v n)
    (h : parseArray parseValue (42 :: tail) = .ok (some (v, n))) :
    BeginsWith (42 :: tail) v n := by
  unfold parseArray at h
  cases hlen : parseLength "array" (42 :: tail) with
  | error e =>
      rw [hlen] at h
      cases h
  | ok r =>
      cases r with
      | none =>
          rw [hlen] at h
          cases h
      | some lenLine =>
          rcases lenLine with ⟨len, lenEnd⟩
          rcases parseLength_sound (by decide) hlen with
            ⟨text, rest, hbuf, hnumber, hheader⟩
          simp only [hlen] at h
          by_cases hneg : len < 0
          · simp only [if_pos hneg, Except.ok.injEq, Option.some.injEq,
              Prod.mk.injEq] at h
            rcases h with ⟨rfl, rfl⟩
            exact ⟨_, rest, hbuf, hheader, .nullArray hnumber hneg⟩
          · rw [if_neg hneg] at h
            have hnonneg : (len.toInt.toNat : Int) = len.toInt := by
              rw [Int64.lt_iff_toInt_lt] at hneg
              exact Int.toNat_of_nonneg (Int.not_lt.mp hneg)
            -- An element is shorter than the array that it is in.
            have hshorter : forall pos v n, lenEnd + 2 <= pos ->
                parseValue ((42 :: tail).drop pos) = .ok (some (v, n)) ->
                  BeginsWith ((42 :: tail).drop pos) v n := by
              intro pos v n hpos
              apply hparse
              rw [List.length_drop, List.length_cons]
              omega
            rcases parseElements_sound hshorter (Nat.le_refl _) h with
              ⟨items, parts, after, rfl, hcount, hparts, hdrop, rfl⟩
            rw [← hheader, hbuf, List.drop_left] at hdrop
            change BeginsWith _ (.array (some items)) _
            refine ⟨_, after, ?_, ?_, .array hnumber (by rw [hcount, hnonneg]) hparts⟩
            · rw [hbuf, hdrop]
              exact (List.append_assoc ..).symm
            · rw [List.length_append, hheader]

theorem parseValue_sound {buf : Bytes} (h : parseValue buf = .ok (some (v, n))) :
    BeginsWith buf v n := by
  induction hlength : buf.length using Nat.strong_induction_on generalizing buf v n with
  | _ length ih =>
      cases buf with
      | nil => cases h
      | cons kind tail =>
          by_cases hstar : kind = 42
          · subst hstar
            rw [parseValue_array rfl] at h
            refine parseArray_sound (fun buf v n hlt hvalue => ?_) h
            exact ih buf.length (hlength ▸ hlt) hvalue rfl
          · change parseValueFuel (tail.length + 1 + 1) (kind :: tail) = _ at h
            unfold parseValueFuel at h
            simp only [if_neg hstar] at h
            split at h
            · rename_i hkind
              subst hkind
              exact parseSimpleString_sound h
            · split at h
              · rename_i hkind
                subst hkind
                exact parseError_sound h
              · split at h
                · rename_i hkind
                  subst hkind
                  exact parseInteger_sound h
                · split at h
                  · rename_i hkind
                    subst hkind
                    exact parseBulkString_sound h
                  · cases h

/-!
# What is in the grammar is accepted
-/

theorem parseInteger_complete {text : String} {number : Int64}
    (h : parseI64 text = some number) (rest : Bytes) :
    parseInteger (58 :: asBytes text ++ crlf ++ rest) =
      .ok (some (.integer number, (58 :: asBytes text ++ crlf).length)) := by
  unfold parseInteger
  rw [findCrlf_headed rest (by decide) (oneLine_of_parseI64 h)]
  simp only [slice_head, fromUtf8_asBytes, h]
  rw [length_line]

theorem not_neg_of_length {len : Int64} {k : Nat} (h : len.toInt = k) : ¬ len < 0 := by
  rw [Int64.lt_iff_toInt_lt, h]
  exact Int.not_lt.mpr (Int.natCast_nonneg k)

theorem parseBulkString_complete {text : String} {len : Int64} {s : Bytes}
    (h : parseI64 text = some len) (hlength : len.toInt = s.length) (rest : Bytes) :
    parseBulkString (36 :: asBytes text ++ crlf ++ (s ++ crlf) ++ rest) =
      .ok (some (.bulkString (some s),
        (36 :: asBytes text ++ crlf ++ (s ++ crlf)).length)) := by
  have hheader := parseLength_line "bulk string" (s ++ crlf ++ rest)
    (show (36 : UInt8) ≠ 13 by decide) (oneLine_of_parseI64 h) h
  rcases payload_end (36 :: asBytes text ++ crlf) s rest with ⟨hslice, hcr, hlf⟩
  rw [List.append_assoc (36 :: asBytes text ++ crlf)]
  unfold parseBulkString
  rw [hheader]
  simp only [if_neg (not_neg_of_length hlength), hlength, Int.toNat_natCast,
    ← length_line 36]
  rw [if_neg (by simp [crlf]; omega),
    if_neg (not_or.mpr ⟨not_not.mpr hcr, not_not.mpr hlf⟩), hslice]
  simp [crlf]
  omega

theorem parseElements_complete {parse : Bytes -> ParseResult} {items : List RespValue}
    {parts : List Bytes} (rest : Bytes)
    (h : List.Forall₂ (fun v enc => forall rest,
      parse (enc ++ rest) = .ok (some (v, enc.length))) items parts)
    (header : Bytes) (elements : List RespValue) :
    parseElements parse (header ++ parts.flatten ++ rest) items.length header.length
        elements =
      .ok (some (.array (some (elements ++ items)),
        (header ++ parts.flatten).length)) := by
  induction h generalizing header elements with
  | nil => simp [parseElements]
  | @cons item enc items parts hfirst _ ih =>
      have htail := ih (header ++ enc) (elements ++ [item])
      have hdrop : (header ++ (enc :: parts).flatten ++ rest).drop header.length =
          enc ++ (parts.flatten ++ rest) := by
        simp [List.append_assoc]
      rw [List.length_cons, parseElements, hdrop, hfirst]
      simpa [List.append_assoc] using htail

theorem parseValue_complete {enc : Bytes} (h : Encodes v enc) (rest : Bytes) :
    parseValue (enc ++ rest) = .ok (some (v, enc.length)) := by
  induction v using RespValue.induction generalizing enc rest with
  | simpleString s =>
      cases h with
      | simpleString hline => exact parseSimpleString_line hline rest
  | error e =>
      cases h with
      | error hline => exact parseError_line hline rest
  | integer number =>
      cases h with
      | integer hnumber => exact parseInteger_complete hnumber rest
  | bulkString s =>
      cases h with
      | bulkString hnumber hlength => exact parseBulkString_complete hnumber hlength rest
      | @nullBulkString text len hnumber hneg =>
          have hheader := parseLength_line "bulk string" rest
            (show (36 : UInt8) ≠ 13 by decide) (oneLine_of_parseI64 hnumber) hnumber
          change parseBulkString (36 :: asBytes text ++ crlf ++ rest) = _
          unfold parseBulkString
          rw [hheader]
          simp only [if_pos hneg, length_line]
  | nullArray =>
      cases h with
      | @nullArray text len hnumber hneg =>
          have hheader := parseLength_line "array" rest
            (show (42 : UInt8) ≠ 13 by decide) (oneLine_of_parseI64 hnumber) hnumber
          rw [parseValue_array rfl]
          unfold parseArray
          rw [hheader]
          simp only [if_pos hneg, length_line]
  | array items ih =>
      cases h with
      | @array text len _ parts hnumber hlength hparts =>
          have hheader := parseLength_line "array" (parts.flatten ++ rest)
            (show (42 : UInt8) ≠ 13 by decide) (oneLine_of_parseI64 hnumber) hnumber
          have hitems : List.Forall₂ (fun v enc => forall rest,
              parseValue (enc ++ rest) = .ok (some (v, enc.length))) items parts := by
            have hboth := (List.forall₂_and_left items parts).mpr
              ⟨fun v hv => @ih v hv, hparts⟩
            exact hboth.imp fun v enc hread => hread.1 hread.2
          have helements := parseElements_complete rest hitems
            (42 :: asBytes text ++ crlf) []
          rw [← List.append_assoc] at hheader
          rw [parseValue_array rfl]
          unfold parseArray
          rw [hheader]
          simp only [if_neg (not_neg_of_length hlength), hlength, Int.toNat_natCast,
            ← length_line 42]
          exact helements

/-!
# The parser and the grammar
-/

theorem parseValue_eq_some_iff {buf : Bytes} :
    parseValue buf = .ok (some (v, n)) <-> BeginsWith buf v n := by
  constructor
  · exact parseValue_sound
  · rintro ⟨enc, rest, rfl, rfl, hencodes⟩
    exact parseValue_complete hencodes rest

/-- No encoding begins another, and none is that of two values. -/
theorem encodes_unambiguous {w : RespValue} {enc enc' : Bytes} (h : Encodes v enc)
    (h' : Encodes w enc') (hbegins : enc <+: enc') : v = w ∧ enc = enc' := by
  rcases hbegins with ⟨rest, rfl⟩
  have hread := parseValue_complete h rest
  have hread' := parseValue_complete h' []
  rw [List.append_nil] at hread'
  rw [hread] at hread'
  injection hread' with hread'
  injection hread' with hread'
  rcases Prod.mk.inj hread' with ⟨hvalue, hlength⟩
  rw [List.length_append] at hlength
  have hnil : rest = [] := List.eq_nil_of_length_eq_zero (by omega)
  rw [hnil, List.append_nil]
  exact ⟨hvalue, rfl⟩

theorem encodes_unambiguous_integer :
    Encodes (.integer 5) (58 :: asBytes "+05" ++ crlf) ∧
      forall w, Encodes w (58 :: asBytes "+05" ++ crlf) -> RespValue.integer 5 = w := by
  have hfive : Encodes (.integer 5) (58 :: asBytes "+05" ++ crlf) := .integer (by decide)
  exact ⟨hfive, fun w hw => (encodes_unambiguous hfive hw (List.prefix_refl _)).1⟩

theorem parseValue_of_part {part rest : Bytes} (h : Encodes v (part ++ rest))
    (hrest : rest ≠ []) : parseValue part = .ok none := by
  have hwhole := parseValue_complete h []
  rw [List.append_nil] at hwhole
  by_contra hnot
  have hsame := parseValue_append rest hnot rfl
  rw [hwhole] at hsame
  have hbounds := (parseValue_consumes part v _ hsame.symm).2
  rw [List.length_append] at hbounds
  exact hrest (List.eq_nil_of_length_eq_zero (by omega))

theorem encodes_formatRespResponse (hsafe : LineSafe v) (hfits : Fits v) :
    Encodes v (formatRespResponse v) := by
  have hread := parseValue_formatRespResponse hsafe hfits []
  rcases parseValue_sound hread with ⟨enc, rest, hwhole, hlength, hencodes⟩
  have hall := congrArg List.length hwhole
  rw [List.append_nil, List.length_append, hlength] at hall
  have hnil : rest = [] := List.eq_nil_of_length_eq_zero (by omega)
  rw [hnil, List.append_nil, List.append_nil] at hwhole
  rw [hwhole]
  exact hencodes

end FeoxServer
