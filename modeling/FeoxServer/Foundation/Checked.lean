import Mathlib

/-!
# Computations that may panic

Arithmetic on 64 bits that must not wrap, places and parts of a buffer that must
be in it, and the request for memory.  What a computation comes to is either its
value or why it panics.
-/

namespace Foundation

/-- Why a computation panics. -/
inductive Panic where
  | index
  | slice
  | overflow
  | capacity
  deriving DecidableEq

abbrev Checked (α : Type) : Type :=
  Except Panic α

namespace Checked

/-- The most bytes that one allocation may have. -/
def isizeMax : Nat := 2 ^ 63 - 1

def add (a b : Nat) : Checked Nat :=
  if a + b < 2 ^ 64 then .ok (a + b) else .error .overflow

def sub (a b : Nat) : Checked Nat :=
  if b <= a then .ok (a - b) else .error .overflow

section Buffers

variable {α : Type}

/-- The element `buf[i]`. -/
def index (buf : List α) (i : Nat) : Checked α :=
  match buf[i]? with
  | some a => .ok a
  | none => .error .index

/-- The part `buf[start..stop]`. -/
def slice (buf : List α) (start stop : Nat) : Checked (List α) :=
  if start <= stop ∧ stop <= buf.length then .ok ((buf.take stop).drop start)
  else .error .slice

/-- The part `buf[start..]`. -/
def sliceFrom (buf : List α) (start : Nat) : Checked (List α) :=
  if start <= buf.length then .ok (buf.drop start) else .error .slice

end Buffers

/-- Ask for the memory of `count` elements. -/
def withCapacity (size count : Nat) : Checked Unit :=
  if size * count <= isizeMax then .ok () else .error .capacity

/-!
# Where there is no panic
-/

variable {α β : Type}

@[simp] theorem pure_eq (a : α) : (pure a : Checked α) = .ok a := rfl

@[simp] theorem ok_bind (a : α) (f : α -> Checked β) :
    ((Except.ok a : Checked α) >>= f) = f a := rfl

@[simp] theorem error_bind (why : Panic) (f : α -> Checked β) :
    ((Except.error why : Checked α) >>= f) = .error why := rfl

theorem of_bind_ok {x : Checked α} {f : α -> Checked β} {b : β}
    (h : (x >>= f) = .ok b) : exists a, x = .ok a ∧ f a = .ok b := by
  cases x with
  | error why => cases h
  | ok a => exact ⟨a, rfl, h⟩

theorem add_ok {a b : Nat} (h : a + b < 2 ^ 64) : add a b = .ok (a + b) :=
  if_pos h

theorem add_overflow {a b : Nat} (h : 2 ^ 64 <= a + b) : add a b = .error .overflow :=
  if_neg (Nat.not_lt.mpr h)

theorem of_add_ok {a b c : Nat} (h : add a b = .ok c) : c = a + b := by
  unfold add at h
  split at h <;> cases h
  rfl

theorem sub_ok {a b : Nat} (h : b <= a) : sub a b = .ok (a - b) :=
  if_pos h

theorem index_ok {buf : List α} {i : Nat} {a : α} (h : buf[i]? = some a) :
    index buf i = .ok a := by
  rw [index, h]

theorem slice_ok {buf : List α} {start stop : Nat} (hstart : start <= stop)
    (hstop : stop <= buf.length) :
    slice buf start stop = .ok ((buf.take stop).drop start) :=
  if_pos ⟨hstart, hstop⟩

theorem sliceFrom_ok {buf : List α} {start : Nat} (h : start <= buf.length) :
    sliceFrom buf start = .ok (buf.drop start) :=
  if_pos h

theorem of_drop_cons {buf rest : List α} {i : Nat} {a : α} (h : buf.drop i = a :: rest) :
    i < buf.length ∧ buf[i]? = some a ∧ buf.drop (i + 1) = rest := by
  have hget : buf[i]? = some a := by
    have hhead := congrArg List.head? h
    rwa [List.head?_drop] at hhead
  refine ⟨(List.getElem?_eq_some_iff.mp hget).1, hget, ?_⟩
  rw [← List.drop_drop, h]
  rfl

theorem withCapacity_ok {size count : Nat} (h : size * count <= isizeMax) :
    withCapacity size count = .ok () :=
  if_pos h

theorem withCapacity_capacity {size count : Nat} (h : isizeMax < size * count) :
    withCapacity size count = .error .capacity :=
  if_neg (Nat.not_le.mpr h)

end Checked

end Foundation
