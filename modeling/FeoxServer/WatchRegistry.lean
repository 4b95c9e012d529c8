import Mathlib.Data.List.AList
import FeoxServer.Foundation.Text

/-!
# Versions of keys

Every modification of a key takes the next number of a global counter as the
version of the key.  A key that was never modified has version zero.
-/

namespace FeoxServer

open Foundation

structure WatchRegistry where
  globalVersion : UInt64
  keyVersions : AList fun _ : Bytes => UInt64

namespace WatchRegistry

def new : WatchRegistry where
  globalVersion := 1
  keyVersions := ∅

def notifyKeyModified (r : WatchRegistry) (key : Bytes) : WatchRegistry where
  globalVersion := r.globalVersion + 1
  keyVersions := r.keyVersions.insert key r.globalVersion

def getKeyVersion (r : WatchRegistry) (key : Bytes) : UInt64 :=
  (r.keyVersions.lookup key).getD 0

@[simp] theorem getKeyVersion_notify_self (r : WatchRegistry) (key : Bytes) :
    (r.notifyKeyModified key).getKeyVersion key = r.globalVersion := by
  simp [getKeyVersion, notifyKeyModified]

theorem getKeyVersion_notify_of_ne (r : WatchRegistry) {key key' : Bytes}
    (h : key' ≠ key) :
    (r.notifyKeyModified key).getKeyVersion key' = r.getKeyVersion key' := by
  simp [getKeyVersion, notifyKeyModified, h]

/-- The counter is above every version, and has room for `n` more. -/
structure Ahead (n : Nat) (r : WatchRegistry) : Prop where
  below : forall key, r.getKeyVersion key < r.globalVersion
  room : r.globalVersion.toNat + n < 2 ^ 64

theorem ahead_new {n : Nat} (h : n + 1 < 2 ^ 64) : new.Ahead n where
  below _ := by
    change (0 : UInt64) < 1
    decide
  room := by
    change 1 + n < 2 ^ 64
    omega

theorem Ahead.less {n m : Nat} {r : WatchRegistry} (h : r.Ahead n) (hm : m <= n) :
    r.Ahead m := by
  have hroom := h.room
  exact ⟨h.below, by omega⟩

theorem Ahead.lt_notify {n : Nat} {r : WatchRegistry} (h : r.Ahead n) (key : Bytes) :
    r.getKeyVersion key < (r.notifyKeyModified key).getKeyVersion key := by
  rw [getKeyVersion_notify_self]
  exact h.below key

theorem Ahead.le_notify {n : Nat} {r : WatchRegistry} (h : r.Ahead n)
    (key key' : Bytes) :
    r.getKeyVersion key' <= (r.notifyKeyModified key).getKeyVersion key' := by
  by_cases hkey : key' = key
  · subst hkey
    exact UInt64.le_of_lt (h.lt_notify key')
  · rw [getKeyVersion_notify_of_ne r hkey]
    exact UInt64.le_refl _

theorem Ahead.notify {n : Nat} {r : WatchRegistry} (h : r.Ahead (n + 1))
    (key : Bytes) : (r.notifyKeyModified key).Ahead n := by
  have hroom := h.room
  have hnext : (r.notifyKeyModified key).globalVersion.toNat =
      r.globalVersion.toNat + 1 := by
    change (r.globalVersion + 1).toNat = _
    rw [UInt64.toNat_add, UInt64.toNat_one]
    exact Nat.mod_eq_of_lt (by omega)
  refine ⟨fun key' => ?_, by rw [hnext]; omega⟩
  rw [UInt64.lt_iff_toNat_lt, hnext]
  by_cases hkey : key' = key
  · subst hkey
    rw [getKeyVersion_notify_self]
    exact Nat.lt_succ_self _
  · rw [getKeyVersion_notify_of_ne r hkey]
    have hbelow := UInt64.lt_iff_toNat_lt.mp (h.below key')
    exact Nat.lt_succ_of_lt hbelow

end WatchRegistry

end FeoxServer
