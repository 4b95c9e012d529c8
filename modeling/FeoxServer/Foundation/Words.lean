import FeoxServer.Foundation.Text

/-!
# Machine words

The little-endian encoding of words, a fixed number of octets with the least
significant first, and signed arithmetic where it does not wrap around.
-/

namespace Foundation

def leBytes : Nat -> Nat -> Bytes
  | 0, _ => []
  | width + 1, n => UInt8.ofNat n :: leBytes width (n / 256)

def leNat : Bytes -> Nat
  | [] => 0
  | b :: bs => b.toNat + 256 * leNat bs

@[simp] theorem length_leBytes (width n : Nat) :
    (leBytes width n).length = width := by
  induction width generalizing n with
  | zero => rfl
  | succ width ih => simp [leBytes, ih]

theorem leNat_leBytes (width n : Nat) :
    leNat (leBytes width n) = n % 256 ^ width := by
  induction width generalizing n with
  | zero => simp [leBytes, leNat, Nat.mod_one]
  | succ width ih =>
      have hlow : (UInt8.ofNat n).toNat = n % 256 := UInt8.toNat_ofNat
      rw [leBytes, leNat, ih, hlow, Nat.pow_succ, Nat.mul_comm (256 ^ width) 256,
        Nat.mod_mul]

/-!
# The two 64-bit types
-/

def u64ToLeBytes (n : UInt64) : Bytes :=
  leBytes 8 n.toNat

def u64FromLeBytes (b : Bytes) : UInt64 :=
  UInt64.ofNat (leNat b)

def i64ToLeBytes (n : Int64) : Bytes :=
  u64ToLeBytes n.toUInt64

def i64FromLeBytes (b : Bytes) : Int64 :=
  (u64FromLeBytes b).toInt64

@[simp] theorem length_u64ToLeBytes (n : UInt64) :
    (u64ToLeBytes n).length = 8 :=
  length_leBytes 8 n.toNat

@[simp] theorem length_i64ToLeBytes (n : Int64) :
    (i64ToLeBytes n).length = 8 :=
  length_leBytes 8 n.toUInt64.toNat

@[simp] theorem u64FromLeBytes_toLeBytes (n : UInt64) :
    u64FromLeBytes (u64ToLeBytes n) = n := by
  have hlt : n.toNat < 256 ^ 8 := n.toNat_lt
  unfold u64FromLeBytes u64ToLeBytes
  rw [leNat_leBytes, Nat.mod_eq_of_lt hlt, UInt64.ofNat_toNat]

@[simp] theorem i64FromLeBytes_toLeBytes (n : Int64) :
    i64FromLeBytes (i64ToLeBytes n) = n := by
  unfold i64FromLeBytes i64ToLeBytes
  rw [u64FromLeBytes_toLeBytes]
  rfl

/-!
# Signed arithmetic in range
-/

def InRange (n : Int) : Prop :=
  -2 ^ 63 <= n ∧ n < 2 ^ 63

instance (n : Int) : Decidable (InRange n) :=
  inferInstanceAs (Decidable (_ ∧ _))

theorem inRange_toInt (a : Int64) : InRange a.toInt :=
  ⟨a.le_toInt, a.toInt_lt⟩

theorem bmod_of_inRange {n : Int} (h : InRange n) : n.bmod (2 ^ 64) = n := by
  unfold InRange at h
  apply Int.bmod_eq_of_le_mul_two
  · omega
  · omega

theorem toInt_add_of_inRange {a b : Int64} (h : InRange (a.toInt + b.toInt)) :
    (a + b).toInt = a.toInt + b.toInt := by
  rw [Int64.toInt_add, bmod_of_inRange h]

theorem toInt_sub_of_inRange {a b : Int64} (h : InRange (a.toInt - b.toInt)) :
    (a - b).toInt = a.toInt - b.toInt := by
  rw [Int64.toInt_sub, bmod_of_inRange h]

theorem toInt_neg_of_ne {n : Int64} (h : n ≠ Int64.minValue) :
    (-n).toInt = -n.toInt := by
  have hmin : n.toInt ≠ -2 ^ 63 := fun heq => h (Int64.toInt_inj.mp heq)
  have hlow := n.le_toInt
  have hhigh := n.toInt_lt
  rw [Int64.toInt_neg, bmod_of_inRange]
  unfold InRange
  omega

theorem toInt_add_one {n : Int64} (h : n.toInt < 2 ^ 63 - 1) :
    (n + 1).toInt = n.toInt + 1 := by
  have hone : (1 : Int64).toInt = 1 := rfl
  have hlow := n.le_toInt
  rw [toInt_add_of_inRange, hone]
  unfold InRange
  omega

theorem toInt_sub_one {n : Int64} (h : -2 ^ 63 < n.toInt) :
    (n - 1).toInt = n.toInt - 1 := by
  have hone : (1 : Int64).toInt = 1 := rfl
  have hhigh := n.toInt_lt
  rw [toInt_sub_of_inRange, hone]
  unfold InRange
  omega

theorem toInt_max (a b : Int64) : (max a b).toInt = max a.toInt b.toInt := by
  change (if a <= b then b else a).toInt = _
  by_cases h : a <= b
  · rw [if_pos h]
    rw [Int64.le_iff_toInt_le] at h
    omega
  · rw [if_neg h]
    rw [Int64.le_iff_toInt_le] at h
    omega

theorem toInt_min (a b : Int64) : (min a b).toInt = min a.toInt b.toInt := by
  change (if a <= b then a else b).toInt = _
  by_cases h : a <= b
  · rw [if_pos h]
    rw [Int64.le_iff_toInt_le] at h
    omega
  · rw [if_neg h]
    rw [Int64.le_iff_toInt_le] at h
    omega

theorem toInt_toInt64_of_lt {n : UInt64} (h : n.toNat < 2 ^ 63) :
    n.toInt64.toInt = n.toNat := by
  have hn : n = UInt64.ofNat n.toNat := (UInt64.ofNat_toNat).symm
  rw [hn, UInt64.toInt64_ofNat', Int64.toInt_ofNat_of_lt h, ← hn]

end Foundation
