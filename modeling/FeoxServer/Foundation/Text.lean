import Mathlib

/-!
# Byte strings and text

Byte strings are lists of octets and text is Lean's own `String`, which is
valid UTF-8 by construction.  This module gives the conversions between the
two that a server program uses: strict decoding, lossy decoding, and the two
notions of letter case, the ASCII one on octets and the Unicode one on text.
-/

namespace Foundation

abbrev Bytes := List UInt8

/-- The UTF-8 octets of a text. -/
def asBytes (s : String) : Bytes :=
  s.toByteArray.data.toList

def fromUtf8 (b : Bytes) : Option String :=
  String.fromUTF8? b.toByteArray

theorem toByteArray_asBytes (s : String) :
    (asBytes s).toByteArray = s.toByteArray := by
  apply ByteArray.ext
  simp [asBytes]

@[simp] theorem fromUtf8_asBytes (s : String) :
    fromUtf8 (asBytes s) = some s := by
  unfold fromUtf8 String.fromUTF8?
  rw [toByteArray_asBytes, dif_pos s.isValidUTF8]
  rfl

theorem asBytes_of_fromUtf8 {b : Bytes} {s : String}
    (h : fromUtf8 b = some s) : asBytes s = b := by
  unfold fromUtf8 String.fromUTF8? at h
  by_cases hvalid : b.toByteArray.IsValidUTF8
  · rw [dif_pos hvalid] at h
    injection h with hs
    rw [← hs]
    simp [asBytes, String.fromUTF8]
  · rw [dif_neg hvalid] at h
    cases h

@[simp] theorem asBytes_append (s t : String) :
    asBytes (s ++ t) = asBytes s ++ asBytes t := by
  simp [asBytes, String.toByteArray_append]

theorem asBytes_injective : Function.Injective asBytes := by
  intro s t h
  have hs : fromUtf8 (asBytes s) = some t := by
    rw [h, fromUtf8_asBytes]
  rw [fromUtf8_asBytes] at hs
  injection hs

theorem asBytes_eq_flatMap (s : String) :
    asBytes s = s.toList.flatMap String.utf8EncodeChar := by
  unfold asBytes
  rw [← String.utf8Encode_toList, List.utf8Encode]
  simp

theorem mem_asBytes_of_ascii {s : String} {b : UInt8}
    (h : forall c, c ∈ s.toList -> c.utf8Size = 1) (hb : b ∈ asBytes s) :
    exists c, c ∈ s.toList ∧ b = c.val.toUInt8 := by
  rw [asBytes_eq_flatMap, List.mem_flatMap] at hb
  rcases hb with ⟨c, hc, hbc⟩
  rw [String.utf8EncodeChar_eq_singleton (h c hc), List.mem_singleton] at hbc
  exact ⟨c, hc, hbc⟩

/-!
# Lossy decoding

Every maximal run of octets that cannot be continued to a character becomes
one replacement character, and decoding goes on behind it.
-/

def decodeHead (b : Bytes) : Option Char :=
  b.toByteArray.utf8DecodeChar? 0

theorem decodeHead_encode (c : Char) (rest : Bytes) :
    decodeHead (String.utf8EncodeChar c ++ rest) = some c := by
  unfold decodeHead
  rw [List.toByteArray_append]
  exact ByteArray.utf8DecodeChar?_utf8EncodeChar_append

def isContinuation (b : UInt8) : Bool :=
  0x80 <= b && b <= 0xBF

/-- Whether `b` may stand behind a lead octet `a` of a character of three or
four octets. -/
def secondOctetFits (a b : UInt8) : Bool :=
  (a == 0xE0 && 0xA0 <= b && b <= 0xBF) ||
    (0xE1 <= a && a <= 0xEC && isContinuation b) ||
    (a == 0xED && 0x80 <= b && b <= 0x9F) ||
    (0xEE <= a && a <= 0xEF && isContinuation b) ||
    (a == 0xF0 && 0x90 <= b && b <= 0xBF) ||
    (0xF1 <= a && a <= 0xF3 && isContinuation b) ||
    (a == 0xF4 && 0x80 <= b && b <= 0x8F)

/-- How many octets at the head of an undecodable string are replaced
together. -/
def invalidRun : Bytes -> Nat
  | a :: b :: c :: _ =>
      if secondOctetFits a b then
        if 0xF0 <= a && isContinuation c then 3 else 2
      else 1
  | [a, b] => if secondOctetFits a b then 2 else 1
  | _ => 1

def lossyChars : Nat -> Bytes -> List Char
  | 0, _ => []
  | _, [] => []
  | fuel + 1, b =>
      match decodeHead b with
      | some c => c :: lossyChars fuel (b.drop c.utf8Size)
      | none => '\uFFFD' :: lossyChars fuel (b.drop (invalidRun b))

/-- Decoding that replaces what is not UTF-8. -/
def fromUtf8Lossy (b : Bytes) : String :=
  String.ofList (lossyChars b.length b)

theorem lossyChars_encode (cs : List Char) {fuel : Nat}
    (h : (cs.flatMap String.utf8EncodeChar).length <= fuel) :
    lossyChars fuel (cs.flatMap String.utf8EncodeChar) = cs := by
  induction cs generalizing fuel with
  | nil => cases fuel <;> rfl
  | cons c cs ih =>
      have hlength := String.length_utf8EncodeChar c
      have hpos := c.utf8Size_pos
      rw [List.flatMap_cons, List.length_append, hlength] at h
      rw [List.flatMap_cons]
      cases fuel with
      | zero => omega
      | succ fuel =>
          have hne : String.utf8EncodeChar c ++ cs.flatMap String.utf8EncodeChar ≠ [] := by
            intro hnil
            rw [(List.append_eq_nil_iff.mp hnil).1] at hlength
            exact absurd hlength hpos.ne
          rw [lossyChars, decodeHead_encode]
          · change c :: lossyChars fuel (List.drop c.utf8Size _) = _
            rw [← hlength, List.drop_left, ih (by omega)]
          · exact hne

@[simp] theorem fromUtf8Lossy_asBytes (s : String) :
    fromUtf8Lossy (asBytes s) = s := by
  unfold fromUtf8Lossy
  rw [asBytes_eq_flatMap, lossyChars_encode s.toList (Nat.le_refl _),
    String.ofList_toList]

theorem invalidRun_bounds (b : Bytes) : 0 < invalidRun b ∧ invalidRun b <= 3 := by
  unfold invalidRun
  repeat' split
  all_goals decide

theorem length_le_lossyChars {fuel : Nat} (b : Bytes) (h : b.length <= fuel) :
    b.length <= ((lossyChars fuel b).flatMap String.utf8EncodeChar).length := by
  induction fuel generalizing b with
  | zero =>
      rw [Nat.le_zero.mp h]
      exact Nat.zero_le _
  | succ fuel ih =>
      cases b with
      | nil => exact Nat.zero_le _
      | cons a b =>
          unfold lossyChars
          cases hdecode : decodeHead (a :: b) with
          | some c =>
              have hpos := c.utf8Size_pos
              have hrest := ih ((a :: b).drop c.utf8Size) (by
                rw [List.length_drop, List.length_cons] at *
                omega)
              rw [List.length_drop] at hrest
              simp only [List.flatMap_cons, List.length_append,
                String.length_utf8EncodeChar]
              omega
          | none =>
              rcases invalidRun_bounds (a :: b) with ⟨hpos, hrun⟩
              have hrest := ih ((a :: b).drop (invalidRun (a :: b))) (by
                rw [List.length_drop, List.length_cons] at *
                omega)
              rw [List.length_drop] at hrest
              have hsize : (String.utf8EncodeChar '\uFFFD').length = 3 := by decide
              simp only [List.flatMap_cons, List.length_append, hsize]
              omega

theorem length_le_fromUtf8Lossy (b : Bytes) :
    b.length <= (asBytes (fromUtf8Lossy b)).length := by
  unfold fromUtf8Lossy
  rw [asBytes_eq_flatMap, String.toList_ofList]
  exact length_le_lossyChars b (Nat.le_refl _)

/-!
# Letter case
-/

def asciiUpper (b : UInt8) : UInt8 :=
  if 0x61 <= b && b <= 0x7A then b - 0x20 else b

def toAsciiUppercase (b : Bytes) : Bytes :=
  b.map asciiUpper

def eqIgnoreAsciiCase (a b : Bytes) : Bool :=
  toAsciiUppercase a == toAsciiUppercase b

theorem lt_of_asciiUpper_lt {b : UInt8} (h : asciiUpper b < 128) : b < 128 := by
  revert b
  decide +kernel

theorem utf8EncodeChar_ascii {b : UInt8} (h : b < 128) :
    String.utf8EncodeChar (Char.ofUInt8 b) = [b] := by
  revert b
  decide +kernel

theorem exists_asBytes_of_upper {b : Bytes}
    (h : forall u, u ∈ toAsciiUppercase b -> u < 128) : exists s, asBytes s = b := by
  refine ⟨String.ofList (b.map fun u => Char.ofUInt8 u), ?_⟩
  rw [asBytes_eq_flatMap, String.toList_ofList, List.flatMap_map]
  induction b with
  | nil => rfl
  | cons u b ih =>
      have hu : u < 128 := lt_of_asciiUpper_lt (h _ List.mem_cons_self)
      rw [List.flatMap_cons, utf8EncodeChar_ascii hu, ih fun v hv => h v (List.mem_cons_of_mem _ hv)]
      rfl

/--
The upper case of a character as far as a comparison with an ASCII word can
see it.  The characters listed by name are those outside ASCII whose upper
case lies within ASCII; every other one keeps a character outside ASCII.
-/
def upperChar (c : Char) : List Char :=
  if 'a' <= c && c <= 'z' then [c.toUpper]
  else if c == 'ı' then ['I']
  else if c == 'ſ' then ['S']
  else if c == 'ß' then ['S', 'S']
  else if c == 'ﬀ' then ['F', 'F']
  else if c == 'ﬁ' then ['F', 'I']
  else if c == 'ﬂ' then ['F', 'L']
  else if c == 'ﬃ' then ['F', 'F', 'I']
  else if c == 'ﬄ' then ['F', 'F', 'L']
  else if c == 'ﬅ' then ['S', 'T']
  else if c == 'ﬆ' then ['S', 'T']
  else [c]

def toUppercase (s : String) : String :=
  String.ofList (s.toList.flatMap upperChar)

/-- Unicode lower case, for comparison with ASCII words; the Kelvin sign is
the only character outside ASCII whose lower case lies within it. -/
def toLowercase (s : String) : String :=
  String.ofList (s.toList.map fun c =>
    if 'A' <= c && c <= 'Z' then c.toLower
    else if c == '\u212A' then 'k' else c)

/-- The Unicode `White_Space` characters. -/
def isWhiteSpace (c : Char) : Bool :=
  ('\u0009' <= c && c <= '\u000D') || c == '\u0020' || c == '\u0085' ||
    c == '\u00A0' || c == '\u1680' || ('\u2000' <= c && c <= '\u200A') ||
    c == '\u2028' || c == '\u2029' || c == '\u202F' || c == '\u205F' ||
    c == '\u3000'

def trim (s : String) : String :=
  String.ofList
    (((s.toList.dropWhile isWhiteSpace).reverse.dropWhile isWhiteSpace).reverse)

theorem trim_eq_self {s : String}
    (h : forall c, c ∈ s.toList -> isWhiteSpace c = false) : trim s = s := by
  have hfirst : s.toList.dropWhile isWhiteSpace = s.toList := by
    rw [List.dropWhile_eq_self_iff]
    intro hpos
    rw [h _ (List.getElem_mem hpos)]
    exact Bool.false_ne_true
  have hlast : s.toList.reverse.dropWhile isWhiteSpace = s.toList.reverse := by
    rw [List.dropWhile_eq_self_iff]
    intro hpos
    rw [h _ (List.mem_reverse.mp (List.getElem_mem hpos))]
    exact Bool.false_ne_true
  unfold trim
  rw [hfirst, hlast, List.reverse_reverse, String.ofList_toList]

end Foundation
