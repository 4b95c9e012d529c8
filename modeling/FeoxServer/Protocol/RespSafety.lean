import FeoxServer.Protocol.RespPanics
import FeoxServer.Protocol.RespStability

/-!
# When the parser panics

No index and no slice of the parser is out of bounds, and the sums of lengths fit,
whatever stands in the buffer.  What is left is what a length line announces.
-/

namespace FeoxServer

open Foundation Checked

/-!
# Lines
-/

variable {buf : Bytes}

theorem length_lt_of_le (h : buf.length <= isizeMax) : buf.length < 2 ^ 63 := by
  unfold isizeMax at h
  omega

theorem crlfAtChecked_eq (hfits : buf.length <= isizeMax) {place : Nat}
    (hplace : place + 1 < buf.length) :
    crlfAtChecked buf place =
      .ok (decide (buf[place]? = some 13 ∧ buf[place + 1]? = some 10)) := by
  have hlen := length_lt_of_le hfits
  have hfirst := List.getElem?_eq_getElem (show place < buf.length by omega)
  have hsecond := List.getElem?_eq_getElem hplace
  unfold crlfAtChecked
  rw [index_ok hfirst, ok_bind, hfirst, hsecond]
  by_cases hcr : buf[place] = 13
  · rw [if_pos hcr, add_ok (by omega), ok_bind, index_ok hsecond]
    simp [hcr]
  · rw [if_neg hcr]
    simp [hcr]

theorem startsCrlfChecked_eq (hne : 0 < buf.length) (hfits : buf.length <= isizeMax)
    (crPos : Nat) :
    startsCrlfChecked buf crPos =
      .ok (decide (crPos < buf.length - 1 ∧ buf[crPos]? = some 13 ∧
        buf[crPos + 1]? = some 10)) := by
  unfold startsCrlfChecked
  rw [sub_ok hne, ok_bind]
  by_cases hlast : crPos < buf.length - 1
  · rw [if_pos hlast, crlfAtChecked_eq hfits (by omega)]
    simp [hlast]
  · rw [if_neg hlast]
    simp [hlast]

theorem findCrlfFromChecked_eq (hne : 0 < buf.length) (hfits : buf.length <= isizeMax)
    (fuel pos : Nat) :
    findCrlfFromChecked fuel buf pos = .ok (findCrlfFrom fuel buf pos) := by
  have hlen := length_lt_of_le hfits
  induction fuel generalizing pos with
  | zero => rfl
  | succ fuel ih =>
      unfold findCrlfFromChecked findCrlfFrom
      rw [sub_ok hne, ok_bind]
      by_cases hpos : pos < buf.length - 1
      · rw [if_pos hpos, if_pos hpos, sliceFrom_ok (by omega), ok_bind]
        cases hmem : memchr2 13 10 (buf.drop pos) with
        | none => rfl
        | some i =>
            have hi := (memchr2_some hmem).1
            rw [List.length_drop] at hi
            dsimp only
            rw [add_ok (by omega), ok_bind, startsCrlfChecked_eq hne hfits, ok_bind]
            by_cases hfound : pos + i < buf.length - 1 ∧ buf[pos + i]? = some 13 ∧
                buf[pos + i + 1]? = some 10
            · rw [if_pos hfound, if_pos (decide_eq_true hfound)]
              rfl
            · rw [if_neg hfound, if_neg (by simpa using hfound), add_ok (by omega),
                ok_bind]
              exact ih (pos + i + 1)
      · rw [if_neg hpos, if_neg hpos]
        rfl

theorem findCrlfChecked_eq (hne : 0 < buf.length) (hfits : buf.length <= isizeMax) :
    findCrlfChecked buf = .ok (findCrlf buf) :=
  findCrlfFromChecked_eq hne hfits buf.length 0

/-- A buffer that starts with a type octet, of a length that there can be. -/
structure Headed (buf : Bytes) : Prop where
  nonempty : 0 < buf.length
  fits : buf.length <= isizeMax
  head : buf[0]? ≠ some 13

theorem Headed.findCrlf_pos (h : Headed buf) {stop : Nat}
    (hfind : findCrlf buf = some stop) : 1 <= stop := by
  have hat := (findCrlf_eq_some_iff.mp hfind).1
  by_contra hzero
  have hstop : stop = 0 := by omega
  rw [hstop] at hat
  exact h.head hat.1

theorem Headed.line (h : Headed buf) {stop : Nat} (hfind : findCrlf buf = some stop) :
    Checked.slice buf 1 stop = .ok (slice buf 1 stop) ∧
      Checked.add stop 2 = .ok (stop + 2) := by
  have hlt := findCrlf_lt hfind
  have hlen := length_lt_of_le h.fits
  exact ⟨slice_ok (h.findCrlf_pos hfind) (by omega), add_ok (by omega)⟩

theorem parseSimpleStringChecked_eq (h : Headed buf) :
    parseSimpleStringChecked buf = .ok (parseSimpleString buf) := by
  unfold parseSimpleStringChecked parseSimpleString
  rw [findCrlfChecked_eq h.nonempty h.fits, ok_bind]
  cases hfind : findCrlf buf with
  | none => rfl
  | some stop =>
      have hline := h.line hfind
      dsimp only
      rw [hline.1, ok_bind, hline.2]
      rfl

theorem parseErrorChecked_eq (h : Headed buf) :
    parseErrorChecked buf = .ok (parseError buf) := by
  unfold parseErrorChecked parseError
  rw [findCrlfChecked_eq h.nonempty h.fits, ok_bind]
  cases hfind : findCrlf buf with
  | none => rfl
  | some stop =>
      have hline := h.line hfind
      dsimp only
      rw [hline.1, ok_bind, hline.2]
      cases fromUtf8 (slice buf 1 stop) <;> rfl

theorem parseIntegerChecked_eq (h : Headed buf) :
    parseIntegerChecked buf = .ok (parseInteger buf) := by
  unfold parseIntegerChecked parseInteger
  rw [findCrlfChecked_eq h.nonempty h.fits, ok_bind]
  cases hfind : findCrlf buf with
  | none => rfl
  | some stop =>
      have hline := h.line hfind
      dsimp only
      rw [hline.1, ok_bind, hline.2]
      cases fromUtf8 (slice buf 1 stop) with
      | none => rfl
      | some numStr =>
          dsimp only
          cases parseI64 numStr <;> rfl

theorem parseLengthChecked_eq (h : Headed buf) (noun : String) :
    parseLengthChecked noun buf = .ok (parseLength noun buf) := by
  unfold parseLengthChecked parseLength
  rw [findCrlfChecked_eq h.nonempty h.fits, ok_bind]
  cases hfind : findCrlf buf with
  | none => rfl
  | some lenEnd =>
      dsimp only
      rw [(h.line hfind).1, ok_bind]
      cases fromUtf8 (slice buf 1 lenEnd) with
      | none => rfl
      | some lenStr =>
          dsimp only
          cases parseI64 lenStr <;> rfl

/-!
# Bulk strings
-/

theorem takeBulkStringChecked_eq (hfits : buf.length <= isizeMax)
    {dataStart dataEnd : Nat} (hstart : dataStart <= dataEnd)
    (hend : dataEnd + 2 <= buf.length) :
    takeBulkStringChecked buf dataStart dataEnd =
      .ok (if buf[dataEnd]? ≠ some 13 ∨ buf[dataEnd + 1]? ≠ some 10 then
          .error "Missing CRLF after bulk string"
        else
          .ok (some (.bulkString (some (slice buf dataStart dataEnd)),
            dataEnd + 2))) := by
  have hlen := length_lt_of_le hfits
  unfold takeBulkStringChecked
  rw [crlfAtChecked_eq hfits (by omega), ok_bind, slice_ok hstart (by omega), ok_bind,
    add_ok (by omega), ok_bind]
  by_cases hended : buf[dataEnd]? = some 13 ∧ buf[dataEnd + 1]? = some 10
  · rw [if_neg (by simp [hended]), if_neg (by simp [hended])]
    rfl
  · have hmissing : (!decide (buf[dataEnd]? = some 13 ∧
        buf[dataEnd + 1]? = some 10)) = true := by
      rw [decide_eq_false hended]
      rfl
    rw [if_pos hmissing, if_pos (not_and_or.mp hended)]
    rfl

theorem parseBulkStringChecked_eq (h : Headed buf)
    (hcount : forall len lenEnd,
      parseLength "bulk string" buf = .ok (some (len, lenEnd)) -> ¬ len < 0 ->
        lenEnd + 2 + len.toInt.toNat + 2 < 2 ^ 64) :
    parseBulkStringChecked buf = .ok (parseBulkString buf) := by
  have hlen := length_lt_of_le h.fits
  unfold parseBulkStringChecked parseBulkString
  rw [parseLengthChecked_eq h, ok_bind]
  cases hheader : parseLength "bulk string" buf with
  | error e => rfl
  | ok header =>
      cases header with
      | none => rfl
      | some header =>
          rcases header with ⟨len, lenEnd⟩
          have hlt := parseLength_lt hheader
          dsimp only
          rw [add_ok (by omega), ok_bind]
          by_cases hneg : len < 0
          · rw [if_pos hneg, if_pos hneg]
            rfl
          · have hfit := hcount len lenEnd hheader hneg
            rw [if_neg hneg, if_neg hneg, add_ok (by omega), ok_bind, add_ok hfit,
              ok_bind]
            by_cases hshort : buf.length < lenEnd + 2 + len.toInt.toNat + 2
            · rw [if_pos hshort, if_pos hshort]
              rfl
            · rw [if_neg hshort, if_neg hshort]
              exact takeBulkStringChecked_eq h.fits (by omega) (by omega)

theorem parseBulkStringChecked_overflow (h : Headed buf) {len : Int64} {lenEnd : Nat}
    (hheader : parseLength "bulk string" buf = .ok (some (len, lenEnd)))
    (hneg : ¬ len < 0) (hmuch : 2 ^ 64 <= lenEnd + 2 + len.toInt.toNat + 2) :
    parseBulkStringChecked buf = .error .overflow := by
  have hlen := length_lt_of_le h.fits
  have hlt := parseLength_lt hheader
  unfold parseBulkStringChecked
  rw [parseLengthChecked_eq h, ok_bind, hheader]
  dsimp only
  rw [add_ok (by omega), ok_bind, if_neg hneg]
  by_cases hend : lenEnd + 2 + len.toInt.toNat < 2 ^ 64
  · rw [add_ok hend, ok_bind, add_overflow hmuch]
    rfl
  · rw [add_overflow (Nat.not_lt.mp hend)]
    rfl

/-!
# The nesting bound
-/

theorem parseElements_congr {parse parse' : Bytes -> ParseResult} {k pos : Nat}
    {elements : List RespValue} (hpos : 0 < pos) (hne : 0 < buf.length)
    (h : forall b : Bytes, b.length < buf.length -> parse b = parse' b) :
    parseElements parse buf k pos elements =
      parseElements parse' buf k pos elements := by
  induction k generalizing pos elements with
  | zero => rfl
  | succ k ih =>
      have hshort : (buf.drop pos).length < buf.length := by
        rw [List.length_drop]
        omega
      unfold parseElements
      rw [h _ hshort]
      cases parse' (buf.drop pos) with
      | error e => rfl
      | ok r =>
          cases r with
          | none => rfl
          | some taken => exact ih (by omega)

theorem parseArray_congr {parse parse' : Bytes -> ParseResult} (hne : 0 < buf.length)
    (h : forall b : Bytes, b.length < buf.length -> parse b = parse' b) :
    parseArray parse buf = parseArray parse' buf := by
  unfold parseArray
  cases parseLength "array" buf with
  | error e => rfl
  | ok header =>
      cases header with
      | none => rfl
      | some header =>
          rcases header with ⟨len, lenEnd⟩
          dsimp only
          split
          · rfl
          · exact parseElements_congr (by omega) hne h

theorem parseValueFuel_of_lt {fuel : Nat} (hfuel : buf.length < fuel) :
    parseValueFuel fuel buf = parseValue buf := by
  have hany : forall fuel fuel' : Nat, forall buf : Bytes, buf.length < fuel ->
      buf.length < fuel' -> parseValueFuel fuel buf = parseValueFuel fuel' buf := by
    intro fuel
    induction fuel with
    | zero =>
        intro fuel' buf h
        omega
    | succ fuel ih =>
        intro fuel' buf h h'
        cases fuel' with
        | zero => omega
        | succ fuel' =>
            cases buf with
            | nil => rfl
            | cons kind rest =>
                rw [List.length_cons] at h h'
                have harray : parseArray (parseValueFuel fuel) (kind :: rest) =
                    parseArray (parseValueFuel fuel') (kind :: rest) := by
                  apply parseArray_congr (List.length_pos_of_mem List.mem_cons_self)
                  intro b hb
                  rw [List.length_cons] at hb
                  exact ih fuel' b (by omega) (by omega)
                unfold parseValueFuel
                dsimp only
                rw [harray]
  exact hany fuel (buf.length + 1) buf hfuel (Nat.lt_succ_self _)

theorem parseValue_array (h : buf[0]? = some 42) :
    parseValue buf = parseArray parseValue buf := by
  cases buf with
  | nil => cases h
  | cons kind rest =>
      injection h with hkind
      subst hkind
      change parseArray (parseValueFuel (rest.length + 1)) (42 :: rest) = _
      apply parseArray_congr (List.length_pos_of_mem List.mem_cons_self)
      intro b hb
      exact parseValueFuel_of_lt hb

/-!
# Announced lengths
-/

/-- A length that the value at the front of the buffer announces, itself or in an
element, is reached and is too much: everything in front of it is complete, and the
end of the bulk string cannot be counted or the elements of the array, of `size` bytes
each, cannot be allocated. -/
inductive Hostile (size : Nat) : Bytes -> Prop
  | bulkString {buf : Bytes} {len : Int64} {lenEnd : Nat} :
      buf[0]? = some 36 ->
      parseLength "bulk string" buf = .ok (some (len, lenEnd)) -> ¬ len < 0 ->
      2 ^ 64 <= lenEnd + 2 + len.toInt.toNat + 2 -> Hostile size buf
  | array {buf : Bytes} {len : Int64} {lenEnd : Nat} :
      buf[0]? = some 42 ->
      parseLength "array" buf = .ok (some (len, lenEnd)) -> ¬ len < 0 ->
      isizeMax < size * len.toInt.toNat -> Hostile size buf
  | element {buf : Bytes} {len : Int64} {lenEnd k pos : Nat}
      {elements : List RespValue} :
      buf[0]? = some 42 ->
      parseLength "array" buf = .ok (some (len, lenEnd)) -> ¬ len < 0 ->
      k < len.toInt.toNat ->
      parseElements parseValue buf k (lenEnd + 2) [] =
        .ok (some (.array (some elements), pos)) ->
      Hostile size (buf.drop pos) -> Hostile size buf

/-- One of the next `n` elements from a position is reached and satisfies `P`. -/
def SomeElement (P : Bytes -> Prop) (buf : Bytes) (n pos : Nat)
    (elements : List RespValue) : Prop :=
  exists k, k < n ∧ exists elements' next,
    parseElements parseValue buf k pos elements =
      .ok (some (.array (some elements'), next)) ∧ P (buf.drop next)

theorem someElement_zero {P : Bytes -> Prop} {pos : Nat} {elements : List RespValue} :
    ¬ SomeElement P buf 0 pos elements := by
  intro h
  rcases h with ⟨k, hk, _⟩
  exact Nat.not_lt_zero k hk

theorem someElement_succ_iff {P : Bytes -> Prop} {n pos : Nat}
    {elements : List RespValue} :
    SomeElement P buf (n + 1) pos elements <->
      P (buf.drop pos) ∨ exists value consumed,
        parseValue (buf.drop pos) = .ok (some (value, consumed)) ∧
          SomeElement P buf n (pos + consumed) (elements ++ [value]) := by
  constructor
  · intro h
    rcases h with ⟨k, hk, elements', next, hreach, hP⟩
    cases k with
    | zero =>
        cases hreach
        exact Or.inl hP
    | succ k =>
        unfold parseElements at hreach
        cases hvalue : parseValue (buf.drop pos) with
        | error e =>
            rw [hvalue] at hreach
            cases hreach
        | ok r =>
            rw [hvalue] at hreach
            cases r with
            | none => cases hreach
            | some taken =>
                exact Or.inr ⟨taken.1, taken.2, rfl, k, by omega, elements', next,
                  hreach, hP⟩
  · intro h
    rcases h with hP | ⟨value, consumed, hvalue, k, hk, elements', next, hreach, hP⟩
    · exact ⟨0, Nat.zero_lt_succ n, elements, pos, rfl, hP⟩
    · refine ⟨k + 1, by omega, elements', next, ?_, hP⟩
      unfold parseElements
      rw [hvalue]
      exact hreach

section Kinds

variable {size : Nat}

theorem hostile_bulkString_iff (hkind : buf[0]? = some 36) :
    Hostile size buf <-> exists len lenEnd,
      parseLength "bulk string" buf = .ok (some (len, lenEnd)) ∧ ¬ len < 0 ∧
        2 ^ 64 <= lenEnd + 2 + len.toInt.toNat + 2 := by
  constructor
  · intro h
    cases h with
    | bulkString _ hheader hneg hmuch => exact ⟨_, _, hheader, hneg, hmuch⟩
    | array hstar => exact absurd (hkind.symm.trans hstar) (by decide)
    | element hstar => exact absurd (hkind.symm.trans hstar) (by decide)
  · intro h
    rcases h with ⟨len, lenEnd, hheader, hneg, hmuch⟩
    exact .bulkString hkind hheader hneg hmuch

theorem hostile_array_iff (hkind : buf[0]? = some 42) :
    Hostile size buf <-> exists len lenEnd,
      parseLength "array" buf = .ok (some (len, lenEnd)) ∧ ¬ len < 0 ∧
        (isizeMax < size * len.toInt.toNat ∨
          SomeElement (Hostile size) buf len.toInt.toNat (lenEnd + 2) []) := by
  constructor
  · intro h
    cases h with
    | bulkString hdollar => exact absurd (hkind.symm.trans hdollar) (by decide)
    | array _ hheader hneg hmuch => exact ⟨_, _, hheader, hneg, Or.inl hmuch⟩
    | element _ hheader hneg hk hreach hrest =>
        exact ⟨_, _, hheader, hneg, Or.inr ⟨_, hk, _, _, hreach, hrest⟩⟩
  · intro h
    rcases h with ⟨len, lenEnd, hheader, hneg, hmuch | hsome⟩
    · exact .array hkind hheader hneg hmuch
    · rcases hsome with ⟨k, hk, elements, next, hreach, hrest⟩
      exact .element hkind hheader hneg hk hreach hrest

theorem not_hostile (hdollar : buf[0]? ≠ some 36) (hstar : buf[0]? ≠ some 42) :
    ¬ Hostile size buf := by
  intro h
  cases h with
  | bulkString hkind => exact hdollar hkind
  | array hkind => exact hstar hkind
  | element hkind => exact hstar hkind

end Kinds

def Settles (size : Nat) (parse : Bytes -> Checked ParseResult) (buf : Bytes) : Prop :=
  (Hostile size buf -> exists why, parse buf = .error why) ∧
    (¬ Hostile size buf -> parse buf = .ok (parseValue buf))

section Nesting

variable {size : Nat} {parse : Bytes -> Checked ParseResult}

theorem parseElementsChecked_settles (hfits : buf.length <= isizeMax)
    (hparse : forall b : Bytes, b.length < buf.length -> Settles size parse b)
    {n pos : Nat} {elements : List RespValue} (hpos : 0 < pos)
    (hle : pos <= buf.length) :
    (SomeElement (Hostile size) buf n pos elements ->
        exists why, parseElementsChecked parse buf n pos elements = .error why) ∧
      (¬ SomeElement (Hostile size) buf n pos elements ->
        parseElementsChecked parse buf n pos elements =
          .ok (parseElements parseValue buf n pos elements)) := by
  have hlen := length_lt_of_le hfits
  induction n generalizing pos elements with
  | zero => exact ⟨fun h => absurd h someElement_zero, fun _ => rfl⟩
  | succ n ih =>
      have hshort : (buf.drop pos).length < buf.length := by
        rw [List.length_drop]
        omega
      have hfirst := hparse _ hshort
      rw [someElement_succ_iff]
      unfold parseElementsChecked parseElements
      rw [sliceFrom_ok hle, ok_bind]
      by_cases hhostile : Hostile size (buf.drop pos)
      · rcases hfirst.1 hhostile with ⟨why, hwhy⟩
        rw [hwhy, error_bind]
        exact ⟨fun _ => ⟨why, rfl⟩, fun h => absurd (Or.inl hhostile) h⟩
      · rw [hfirst.2 hhostile, ok_bind]
        cases hvalue : parseValue (buf.drop pos) with
        | error e =>
            constructor
            · intro h
              rcases h with h | ⟨value, consumed, h, _⟩
              · exact absurd h hhostile
              · cases h
            · intro _
              rfl
        | ok r =>
            cases r with
            | none =>
                constructor
                · intro h
                  rcases h with h | ⟨value, consumed, h, _⟩
                  · exact absurd h hhostile
                  · cases h
                · intro _
                  rfl
            | some taken =>
                rcases taken with ⟨value, consumed⟩
                have hconsumed := parseValue_consumes _ _ _ hvalue
                rw [List.length_drop] at hconsumed
                have hrest := @ih (pos + consumed) (elements ++ [value])
                  (by omega) (by omega)
                dsimp only
                rw [add_ok (by omega), ok_bind]
                constructor
                · intro h
                  rcases h with h | ⟨value', consumed', h, hsome⟩
                  · exact absurd h hhostile
                  · cases h
                    exact hrest.1 hsome
                · intro h
                  exact hrest.2 fun hsome => h (Or.inr ⟨value, consumed, rfl, hsome⟩)

theorem parseArrayChecked_settles (h : Headed buf) (hstar : buf[0]? = some 42)
    (hparse : forall b : Bytes, b.length < buf.length -> Settles size parse b) :
    Settles size (parseArrayChecked size parse) buf := by
  have hlen := length_lt_of_le h.fits
  unfold Settles
  rw [hostile_array_iff hstar, parseValue_array hstar]
  unfold parseArrayChecked parseArray
  rw [parseLengthChecked_eq h, ok_bind]
  cases hheader : parseLength "array" buf with
  | error e =>
      constructor
      · intro hhostile
        rcases hhostile with ⟨len, lenEnd, hheader', _⟩
        cases hheader'
      · intro _
        rfl
  | ok header =>
      cases header with
      | none =>
          constructor
          · intro hhostile
            rcases hhostile with ⟨len, lenEnd, hheader', _⟩
            cases hheader'
          · intro _
            rfl
      | some header =>
          rcases header with ⟨len, lenEnd⟩
          have hlt := parseLength_lt hheader
          dsimp only
          rw [add_ok (by omega), ok_bind]
          by_cases hneg : len < 0
          · rw [if_pos hneg, if_pos hneg]
            constructor
            · intro hhostile
              rcases hhostile with ⟨len', lenEnd', hheader', hneg', _⟩
              cases hheader'
              exact absurd hneg hneg'
            · intro _
              rfl
          · rw [if_neg hneg, if_neg hneg]
            by_cases hmuch : isizeMax < size * len.toInt.toNat
            · rw [withCapacity_capacity hmuch, error_bind]
              constructor
              · intro _
                exact ⟨.capacity, rfl⟩
              · intro hsafe
                exact absurd ⟨len, lenEnd, rfl, hneg, Or.inl hmuch⟩ hsafe
            · rw [withCapacity_ok (Nat.not_lt.mp hmuch), ok_bind]
              have hloop := @parseElementsChecked_settles buf size parse h.fits hparse
                len.toInt.toNat (lenEnd + 2) [] (by omega) (by omega)
              constructor
              · intro hhostile
                rcases hhostile with ⟨len', lenEnd', hheader', _, hmuch' | hsome⟩
                · cases hheader'
                  exact absurd hmuch' hmuch
                · cases hheader'
                  exact hloop.1 hsome
              · intro hsafe
                apply hloop.2
                intro hsome
                exact hsafe ⟨len, lenEnd, rfl, hneg, Or.inr hsome⟩

end Nesting

theorem settles_of_eq {size : Nat} {parse : Bytes -> Checked ParseResult}
    (hsafe : ¬ Hostile size buf) (h : parse buf = .ok (parseValue buf)) :
    Settles size parse buf :=
  ⟨fun hhostile => absurd hhostile hsafe, fun _ => h⟩

theorem parseBulkStringChecked_settles (size : Nat) (h : Headed buf)
    (hdollar : buf[0]? = some 36) (hvalue : parseValue buf = parseBulkString buf) :
    Settles size parseBulkStringChecked buf := by
  unfold Settles
  rw [hostile_bulkString_iff hdollar, hvalue]
  constructor
  · intro hhostile
    rcases hhostile with ⟨len, lenEnd, hheader, hneg, hmuch⟩
    exact ⟨.overflow, parseBulkStringChecked_overflow h hheader hneg hmuch⟩
  · intro hsafe
    apply parseBulkStringChecked_eq h
    intro len lenEnd hheader hneg
    by_contra hmuch
    exact hsafe ⟨len, lenEnd, hheader, hneg, Nat.not_lt.mp hmuch⟩

/-- The parser of a value panics where a hostile length is reached, and nowhere
else. -/
theorem parseValueFuelChecked_settles (size : Nat) {fuel : Nat} (buf : Bytes)
    (hfits : buf.length <= isizeMax) (hfuel : buf.length < fuel) :
    Settles size (parseValueFuelChecked size fuel) buf := by
  induction fuel generalizing buf with
  | zero => omega
  | succ fuel ih =>
      cases buf with
      | nil => exact settles_of_eq (not_hostile (by simp) (by simp)) rfl
      | cons kind rest =>
          have hhead : kind ≠ 13 -> Headed (kind :: rest) := fun hkind =>
            ⟨List.length_pos_of_mem List.mem_cons_self, hfits, by simpa using hkind⟩
          have hparse : forall b : Bytes, b.length < (kind :: rest).length ->
              Settles size (parseValueFuelChecked size fuel) b := by
            intro b hb
            exact ih b (by omega) (by omega)
          by_cases hplus : kind = 43
          · subst hplus
            exact settles_of_eq (not_hostile (by simp) (by simp))
              (parseSimpleStringChecked_eq (hhead (by decide)))
          by_cases hminus : kind = 45
          · subst hminus
            exact settles_of_eq (not_hostile (by simp) (by simp))
              (parseErrorChecked_eq (hhead (by decide)))
          by_cases hcolon : kind = 58
          · subst hcolon
            exact settles_of_eq (not_hostile (by simp) (by simp))
              (parseIntegerChecked_eq (hhead (by decide)))
          by_cases hdollar : kind = 36
          · subst hdollar
            exact parseBulkStringChecked_settles size (hhead (by decide)) rfl rfl
          by_cases hstar : kind = 42
          · subst hstar
            exact parseArrayChecked_settles (hhead (by decide)) rfl hparse
          · apply settles_of_eq (not_hostile (by simpa using hdollar) (by simpa using hstar))
            unfold parseValue parseValueFuel parseValueFuelChecked
            dsimp only
            rw [if_neg hplus, if_neg hminus, if_neg hcolon, if_neg hdollar, if_neg hstar,
              if_neg hplus, if_neg hminus, if_neg hcolon, if_neg hdollar, if_neg hstar]
            rfl

theorem parseValueChecked_settles (size : Nat) (hfits : buf.length <= isizeMax) :
    Settles size (parseValueChecked size) buf :=
  parseValueFuelChecked_settles size buf hfits (Nat.lt_succ_self _)

end FeoxServer
