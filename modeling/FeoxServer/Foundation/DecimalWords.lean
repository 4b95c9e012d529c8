import FeoxServer.Foundation.Decimal
import FeoxServer.Foundation.Words

/-!
# Decimal text and machine words

Eight octets are both a machine word and, perhaps, a decimal text.  The two
readings never give the same number.
-/

namespace Foundation

def IsDecimalChar (c : Char) : Prop :=
  c = '-' ∨ c = '+' ∨ c.isDigit = true

theorem parseDigits_eq_some {cs : List Char} {n : Nat}
    (h : parseDigits cs = some n) :
    cs.all Char.isDigit = true ∧ n = Nat.ofDigitChars 10 cs 0 := by
  unfold parseDigits at h
  split at h
  · rename_i hdigits
    cases h
    exact ⟨hdigits.2, rfl⟩
  · cases h

theorem digit_le_nine {c : Char} (h : c.isDigit = true) : c.toNat - '0'.toNat <= 9 := by
  rw [Char.isDigit, Bool.and_eq_true, decide_eq_true_iff, decide_eq_true_iff] at h
  have hhigh : c.toNat <= 57 := h.2
  have hzero : '0'.toNat = 48 := rfl
  omega

theorem ofDigitChars_lt {cs : List Char} (h : cs.all Char.isDigit = true) :
    Nat.ofDigitChars 10 cs 0 < 10 ^ cs.length := by
  induction cs with
  | nil => exact Nat.one_pos
  | cons c cs ih =>
      rw [List.all_cons, Bool.and_eq_true] at h
      have hdigit := digit_le_nine h.1
      have hrest := ih h.2
      rw [Nat.ofDigitChars_cons, Nat.ofDigitChars_eq_ofDigitChars_zero,
        List.length_cons, Nat.pow_succ]
      have hhead : 10 ^ cs.length * (10 * 0 + (c.toNat - '0'.toNat)) <=
          10 ^ cs.length * 9 := Nat.mul_le_mul_left _ (by omega)
      omega

theorem parseInt_eq_some {s : String} {n : Int} (h : parseInt s = some n) :
    exists sign digits, s.toList = sign ++ digits ∧
      (forall c, c ∈ sign -> c = '-' ∨ c = '+') ∧
      digits.all Char.isDigit = true ∧
      n.natAbs = Nat.ofDigitChars 10 digits 0 := by
  unfold parseInt at h
  split at h
  · rename_i digits hlist
    rcases Option.map_eq_some_iff.mp h with ⟨m, hm, rfl⟩
    rcases parseDigits_eq_some hm with ⟨hdigits, rfl⟩
    exact ⟨['-'], digits, hlist, fun c hc => Or.inl (List.mem_singleton.mp hc),
      hdigits, by rw [Int.natAbs_neg, Int.natAbs_natCast]⟩
  · rename_i digits hlist
    rcases Option.map_eq_some_iff.mp h with ⟨m, hm, rfl⟩
    rcases parseDigits_eq_some hm with ⟨hdigits, rfl⟩
    exact ⟨['+'], digits, hlist, fun c hc => Or.inr (List.mem_singleton.mp hc),
      hdigits, Int.natAbs_natCast _⟩
  · rcases Option.map_eq_some_iff.mp h with ⟨m, hm, rfl⟩
    rcases parseDigits_eq_some hm with ⟨hdigits, rfl⟩
    exact ⟨[], s.toList, rfl, fun c hc => absurd hc List.not_mem_nil, hdigits,
      Int.natAbs_natCast _⟩

theorem isDecimalChar_of_parseInt {s : String} {n : Int} (h : parseInt s = some n)
    {c : Char} (hc : c ∈ s.toList) : IsDecimalChar c := by
  rcases parseInt_eq_some h with ⟨sign, digits, hlist, hsign, hdigits, _⟩
  rw [hlist, List.mem_append] at hc
  rcases hc with hc | hc
  · rcases hsign c hc with hminus | hplus
    · exact Or.inl hminus
    · exact Or.inr (Or.inl hplus)
  · exact Or.inr (Or.inr (List.all_eq_true.mp hdigits c hc))

theorem natAbs_lt_of_parseInt {s : String} {n : Int} (h : parseInt s = some n) :
    n.natAbs < 10 ^ s.toList.length := by
  rcases parseInt_eq_some h with ⟨sign, digits, hlist, _, hdigits, hvalue⟩
  rw [hvalue, hlist, List.length_append]
  calc Nat.ofDigitChars 10 digits 0 < 10 ^ digits.length := ofDigitChars_lt hdigits
    _ <= 10 ^ (sign.length + digits.length) :=
        Nat.pow_le_pow_right (by decide) (Nat.le_add_left _ _)

theorem parseI64_eq_some {s : String} {n : Int64} (h : parseI64 s = some n) :
    parseInt s = some n.toInt := by
  unfold parseI64 at h
  split at h
  · rename_i m hm
    split at h
    · rename_i hrange
      injection h with h
      rw [hm, ← h, Int64.toInt_ofInt_of_le hrange.1 hrange.2]
    · cases h
  · cases h

namespace IsDecimalChar

theorem codes {c : Char} (h : IsDecimalChar c) : 43 <= c.toNat ∧ c.toNat <= 57 := by
  rcases h with rfl | rfl | hdigit
  · decide
  · decide
  · rw [Char.isDigit, Bool.and_eq_true, decide_eq_true_iff, decide_eq_true_iff] at hdigit
    have hlow : 48 <= c.toNat := hdigit.1
    have hhigh : c.toNat <= 57 := hdigit.2
    exact ⟨by omega, hhigh⟩

theorem ascii {c : Char} (h : IsDecimalChar c) : c.utf8Size = 1 := by
  rcases h with rfl | rfl | hdigit
  · decide
  · decide
  · exact utf8Size_of_isDigit hdigit

theorem not_whiteSpace {c : Char} (h : IsDecimalChar c) : isWhiteSpace c = false := by
  rcases h with rfl | rfl | hdigit
  · decide
  · decide
  · exact isWhiteSpace_of_decimal (Or.inr hdigit)

end IsDecimalChar

theorem trim_of_parseI64 {s : String} {n : Int64} (h : parseI64 s = some n) :
    trim s = s :=
  trim_eq_self fun _ hc =>
    (isDecimalChar_of_parseInt (parseI64_eq_some h) hc).not_whiteSpace

theorem length_asBytes_of_ascii {s : String}
    (h : forall c, c ∈ s.toList -> c.utf8Size = 1) :
    (asBytes s).length = s.toList.length := by
  rw [asBytes_eq_flatMap, List.length_flatMap]
  have hone : forall c, c ∈ s.toList -> (String.utf8EncodeChar c).length = 1 :=
    fun c hc => by rw [String.utf8EncodeChar_eq_singleton (h c hc), List.length_singleton]
  rw [List.map_congr_left hone]
  simp

theorem length_asBytes_decimal (n : Int64) : (asBytes (decimal n)).length <= 20 := by
  have hdigits : forall k : Nat, k <= 2 ^ 63 -> (decimalNat k).toList.length <= 19 := by
    intro k hk
    unfold decimalNat
    rw [String.toList_ofList]
    exact (Nat.length_toDigits_le_iff (by decide) (by decide)).mpr (by omega)
  have hlt := n.toInt_lt
  have hge := n.le_toInt
  have hsmall := hdigits n.toInt.natAbs (by omega)
  rw [length_asBytes_of_ascii fun c hc => by
    rcases mem_decimalInt hc with rfl | hdigit
    · decide
    · exact utf8Size_of_isDigit hdigit]
  unfold decimal decimalInt
  split
  · rw [String.toList_append, List.length_append]
    change 1 + _ <= 20
    omega
  · exact hsmall.trans (by decide)

/-!
# The octets of a word
-/

theorem leBytes_leNat (b : Bytes) : leBytes b.length (leNat b) = b := by
  induction b with
  | nil => rfl
  | cons x b ih =>
      have hx : x.toNat < 256 := x.toNat_lt
      have hrest : (x.toNat + 256 * leNat b) / 256 = leNat b := by omega
      have hhead : UInt8.ofNat (x.toNat + 256 * leNat b) = x := by
        apply UInt8.toNat_inj.mp
        rw [UInt8.toNat_ofNat']
        omega
      rw [List.length_cons, leNat, leBytes, hrest, ih, hhead]

theorem leNat_lt (b : Bytes) : leNat b < 256 ^ b.length := by
  have hmod := leNat_leBytes b.length (leNat b)
  rw [leBytes_leNat] at hmod
  rw [hmod]
  exact Nat.mod_lt _ (Nat.pow_pos (by decide))

theorem i64ToLeBytes_fromLeBytes {b : Bytes} (h : b.length = 8) :
    i64ToLeBytes (i64FromLeBytes b) = b := by
  have hlt := leNat_lt b
  rw [h] at hlt
  have hword : (i64FromLeBytes b).toUInt64.toNat = leNat b := by
    change (UInt64.ofNat (leNat b)).toNat = leNat b
    exact UInt64.toNat_ofNat_of_lt hlt
  unfold i64ToLeBytes u64ToLeBytes
  rw [hword, ← h, leBytes_leNat]

theorem leNat_bounds {b : Bytes} {low high : Nat} (hne : b ≠ [])
    (h : forall x, x ∈ b -> low <= x.toNat ∧ x.toNat <= high) :
    low * 256 ^ (b.length - 1) <= leNat b ∧
      leNat b < (high + 1) * 256 ^ (b.length - 1) := by
  induction b with
  | nil => exact absurd rfl hne
  | cons x b ih =>
      have hx := h x List.mem_cons_self
      have hword := x.toNat_lt
      cases b with
      | nil =>
          simp only [leNat, List.length_singleton, Nat.sub_self, Nat.pow_zero]
          omega
      | cons y b =>
          have hrest := ih (List.cons_ne_nil y b) fun z hz =>
            h z (List.mem_cons_of_mem _ hz)
          rw [leNat]
          simp only [List.length_cons, Nat.add_sub_cancel, Nat.pow_succ,
            ← Nat.mul_assoc] at hrest ⊢
          omega

/-- A word of eight characters of decimal text is another number than the
text. -/
theorem i64FromLeBytes_ne_text {s : String} {n : Int64} (h : parseI64 s = some n)
    (hlength : (asBytes s).length = 8) : i64FromLeBytes (asBytes s) ≠ n := by
  have hint := parseI64_eq_some h
  have hchars : forall c, c ∈ s.toList -> IsDecimalChar c := fun _ hc =>
    isDecimalChar_of_parseInt hint hc
  have hascii : forall c, c ∈ s.toList -> c.utf8Size = 1 := fun c hc =>
    (hchars c hc).ascii
  have hoctets : forall x, x ∈ asBytes s -> 43 <= x.toNat ∧ x.toNat <= 57 := by
    intro x hx
    rcases mem_asBytes_of_ascii hascii hx with ⟨c, hc, rfl⟩
    have hcodes := (hchars c hc).codes
    have hcode : c.val.toNat = c.toNat := rfl
    rw [UInt32.toNat_toUInt8, hcode, Nat.mod_eq_of_lt (by omega)]
    exact hcodes
  have hne : asBytes s ≠ [] := fun hnil => by rw [hnil] at hlength; cases hlength
  have hword := leNat_bounds hne hoctets
  have hsmall := natAbs_lt_of_parseInt hint
  rw [← length_asBytes_of_ascii hascii, hlength] at hsmall
  rw [hlength] at hword
  intro heq
  have hlt : (UInt64.ofNat (leNat (asBytes s))).toNat = leNat (asBytes s) :=
    UInt64.toNat_ofNat_of_lt (Nat.lt_trans hword.2 (by decide))
  have hvalue : (i64FromLeBytes (asBytes s)).toInt = leNat (asBytes s) := by
    change (UInt64.ofNat (leNat (asBytes s))).toInt64.toInt = _
    rw [toInt_toInt64_of_lt (by rw [hlt]; exact Nat.lt_trans hword.2 (by decide)),
      hlt]
  rw [heq] at hvalue
  rw [hvalue, Int.natAbs_natCast] at hsmall
  have hlow := hword.1
  omega

theorem i64ToLeBytes_ne_decimal (n : Int64) :
    i64ToLeBytes n ≠ asBytes (decimal n) := by
  intro heq
  have hlength : (asBytes (decimal n)).length = 8 := by
    rw [← heq, length_i64ToLeBytes]
  refine i64FromLeBytes_ne_text (parseI64_decimal n) hlength ?_
  rw [← heq, i64FromLeBytes_toLeBytes]

end Foundation
