import FeoxServer.Foundation.Text

/-!
# Decimal integers

Printing and parsing of machine integers as decimal text.  Parsing accepts an
optional sign and at least one digit, and fails outside the range of the type.
-/

namespace Foundation

def decimalNat (n : Nat) : String :=
  String.ofList (Nat.toDigits 10 n)

def decimalInt (n : Int) : String :=
  if n < 0 then "-" ++ decimalNat n.natAbs else decimalNat n.natAbs

def decimal (n : Int64) : String :=
  decimalInt n.toInt

def parseDigits (cs : List Char) : Option Nat :=
  if cs ≠ [] ∧ cs.all Char.isDigit then some (Nat.ofDigitChars 10 cs 0)
  else none

def parseInt (s : String) : Option Int :=
  match s.toList with
  | '-' :: digits => (parseDigits digits).map fun n : Nat => -(n : Int)
  | '+' :: digits => (parseDigits digits).map fun n : Nat => (n : Int)
  | digits => (parseDigits digits).map fun n : Nat => (n : Int)

def parseI64 (s : String) : Option Int64 :=
  match parseInt s with
  | some n =>
      if -2 ^ 63 <= n ∧ n < 2 ^ 63 then some (Int64.ofInt n) else none
  | none => none

def parseUsize (s : String) : Option Nat :=
  let digits :=
    match s.toList with
    | '+' :: digits => digits
    | digits => digits
  match parseDigits digits with
  | some n => if n < 2 ^ 64 then some n else none
  | none => none

/-!
# Reading back what was printed
-/

theorem parseDigits_toDigits (n : Nat) :
    parseDigits (Nat.toDigits 10 n) = some n := by
  have hdigits : (Nat.toDigits 10 n).all Char.isDigit = true := by
    rw [List.all_eq_true]
    intro c hc
    exact Nat.isDigit_of_mem_toDigits (by decide) (by decide) hc
  simp [parseDigits, hdigits, Nat.toDigits_ne_nil,
    Nat.ofDigitChars_ten_toDigits]

theorem isDigit_of_mem_decimalNat {n : Nat} {c : Char}
    (h : c ∈ (decimalNat n).toList) : c.isDigit = true := by
  simp only [decimalNat, String.toList_ofList] at h
  exact Nat.isDigit_of_mem_toDigits (by decide) (by decide) h

theorem parseInt_decimalNat (n : Nat) :
    parseInt (decimalNat n) = some (n : Int) := by
  have hdigit := @isDigit_of_mem_decimalNat n
  unfold parseInt
  simp only [decimalNat, String.toList_ofList] at hdigit ⊢
  -- A printed natural number starts with a digit, never with a sign.
  split
  · rename_i digits hcs
    have hminus : ('-' : Char).isDigit = true :=
      hdigit (by rw [hcs]; exact List.mem_cons_self)
    cases hminus
  · rename_i digits hcs
    have hplus : ('+' : Char).isDigit = true :=
      hdigit (by rw [hcs]; exact List.mem_cons_self)
    cases hplus
  · rw [parseDigits_toDigits]
    rfl

theorem parseInt_decimalInt (n : Int) : parseInt (decimalInt n) = some n := by
  unfold decimalInt
  by_cases hneg : n < 0
  · rw [if_pos hneg]
    have hlist : ("-" ++ decimalNat n.natAbs).toList =
        '-' :: Nat.toDigits 10 n.natAbs := by
      simp [decimalNat]
    have habs : -(n.natAbs : Int) = n := by omega
    simp only [parseInt, hlist, parseDigits_toDigits, Option.map_some, habs]
  · have habs : (n.natAbs : Int) = n := by omega
    rw [if_neg hneg, parseInt_decimalNat, habs]

@[simp] theorem parseI64_decimal (n : Int64) : parseI64 (decimal n) = some n := by
  unfold parseI64 decimal
  rw [parseInt_decimalInt]
  simp only [n.le_toInt, n.toInt_lt, and_self, if_true, Int64.ofInt_toInt]

theorem parseI64_decimalNat {n : Nat} (h : n < 2 ^ 63) :
    parseI64 (decimalNat n) = some (Int64.ofNat n) := by
  unfold parseI64
  rw [parseInt_decimalNat]
  have hrange : -2 ^ 63 <= (n : Int) ∧ (n : Int) < 2 ^ 63 := by omega
  simp only [hrange, and_self, if_true]
  rfl

theorem decimal_injective : Function.Injective decimal := by
  intro m n h
  have hm : parseI64 (decimal m) = some n := by rw [h, parseI64_decimal]
  rw [parseI64_decimal] at hm
  injection hm

theorem mem_decimalInt {n : Int} {c : Char} (h : c ∈ (decimalInt n).toList) :
    c = '-' ∨ c.isDigit = true := by
  unfold decimalInt at h
  by_cases hneg : n < 0
  · rw [if_pos hneg, String.toList_append, List.mem_append] at h
    rcases h with hsign | hdigits
    · exact Or.inl (by simpa using hsign)
    · exact Or.inr (isDigit_of_mem_decimalNat hdigits)
  · rw [if_neg hneg] at h
    exact Or.inr (isDigit_of_mem_decimalNat h)

theorem utf8Size_of_isDigit {c : Char} (h : c.isDigit = true) :
    c.utf8Size = 1 := by
  rw [Char.utf8Size_eq_one_iff]
  simp only [Char.isDigit, Bool.and_eq_true, decide_eq_true_eq] at h
  exact UInt32.le_trans h.2 (by decide)

theorem lt_of_mem_asBytes_decimalInt {n : Int} {b : UInt8}
    (h : b ∈ asBytes (decimalInt n)) : 32 < b := by
  have hascii : forall c, c ∈ (decimalInt n).toList -> c.utf8Size = 1 := by
    intro c hc
    rcases mem_decimalInt hc with hminus | hdigit
    · rw [hminus]
      decide
    · exact utf8Size_of_isDigit hdigit
  rcases mem_asBytes_of_ascii hascii h with ⟨c, hc, hb⟩
  rcases mem_decimalInt hc with hminus | hdigit
  · rw [hb, hminus]
    decide
  · simp only [Char.isDigit, Bool.and_eq_true, decide_eq_true_eq, ge_iff_le,
      UInt32.le_iff_toNat_le] at hdigit
    rw [hb, UInt8.lt_iff_toNat_lt, UInt32.toNat_toUInt8]
    have hlow : ('0' : Char).val.toNat = 48 := rfl
    have hhigh : ('9' : Char).val.toNat = 57 := rfl
    have h32 : (32 : UInt8).toNat = 32 := rfl
    omega

theorem lt_of_mem_asBytes_decimalNat {n : Nat} {b : UInt8}
    (h : b ∈ asBytes (decimalNat n)) : 32 < b := by
  have hnat : decimalNat n = decimalInt n := by
    unfold decimalInt
    rw [if_neg (by omega)]
    rfl
  rw [hnat] at h
  exact lt_of_mem_asBytes_decimalInt h

theorem isWhiteSpace_of_decimal {c : Char} (h : c = '-' ∨ c.isDigit = true) :
    isWhiteSpace c = false := by
  rcases h with rfl | hdigit
  · decide
  · rw [Char.isDigit, Bool.and_eq_true, decide_eq_true_iff, decide_eq_true_iff] at hdigit
    have hlow : 48 <= c.toNat := hdigit.1
    have hhigh : c.toNat <= 57 := hdigit.2
    rw [← Char.ofNat_toNat c]
    generalize c.toNat = n at hlow hhigh
    interval_cases n <;> decide

@[simp] theorem trim_decimal (n : Int64) : trim (decimal n) = decimal n :=
  trim_eq_self fun _ hc => isWhiteSpace_of_decimal (mem_decimalInt hc)

end Foundation
