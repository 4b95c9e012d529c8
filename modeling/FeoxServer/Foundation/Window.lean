import Mathlib

/-!
# A list kept in a window of integer positions

A partial function on positions holds a list when the elements stand in a row
from `head` on and there is nothing at any other position.  Elements can be
put in front of the window or behind it, and taken away at both ends.
-/

namespace Foundation

variable {P α : Type}

def itemAt (items : List α) (i : Int) : Option α :=
  if 0 <= i then items[i.toNat]? else none

/-- `f` holds `items` from `head` on, and nothing else. -/
def Holds (place : P -> Int) (f : P -> Option α) (head : Int)
    (items : List α) : Prop :=
  forall p, f p = itemAt items (place p - head)

theorem itemAt_natCast (items : List α) (i : Nat) :
    itemAt items i = items[i]? := by
  unfold itemAt
  rw [if_pos (by omega), Int.toNat_natCast]

theorem itemAt_of_neg (items : List α) {i : Int} (h : i < 0) :
    itemAt items i = none :=
  if_neg (by omega)

theorem itemAt_of_length_le {items : List α} {i : Int}
    (h : items.length <= i) : itemAt items i = none := by
  unfold itemAt
  rw [if_pos (by omega), List.getElem?_eq_none_iff]
  omega

@[simp] theorem itemAt_nil (i : Int) : itemAt ([] : List α) i = none := by
  unfold itemAt
  split <;> rfl

theorem itemAt_cons_zero (x : α) (items : List α) :
    itemAt (x :: items) 0 = some x := rfl

theorem itemAt_cons {x : α} {items : List α} {i : Int} (h : i ≠ 0) :
    itemAt (x :: items) i = itemAt items (i - 1) := by
  unfold itemAt
  by_cases hneg : 0 <= i
  · have hsucc : i.toNat = (i - 1).toNat + 1 := by omega
    rw [if_pos hneg, if_pos (by omega), hsucc, List.getElem?_cons_succ]
  · rw [if_neg hneg, if_neg (by omega)]

theorem itemAt_concat_length (items : List α) (x : α) :
    itemAt (items ++ [x]) items.length = some x := by
  rw [itemAt_natCast, List.getElem?_append_right (Nat.le_refl _)]
  simp

theorem itemAt_concat {x : α} {items : List α} {i : Int}
    (h : i ≠ items.length) : itemAt (items ++ [x]) i = itemAt items i := by
  by_cases hneg : i < 0
  · rw [itemAt_of_neg _ hneg, itemAt_of_neg _ hneg]
  · by_cases hlt : i < items.length
    · unfold itemAt
      rw [if_pos (by omega), if_pos (by omega),
        List.getElem?_append_left (by omega)]
    · rw [itemAt_of_length_le (by omega : (items.length : Int) <= i)]
      apply itemAt_of_length_le
      rw [List.length_append]
      simp only [List.length_singleton]
      omega

namespace Holds

variable {place : P -> Int} {f : P -> Option α} {head : Int} {items : List α}

theorem nil (h : forall p, f p = none) : Holds place f head [] := by
  intro p
  rw [h p, itemAt_nil]

theorem move (h : Holds place f head []) (head' : Int) :
    Holds place f head' [] := by
  intro p
  rw [h p, itemAt_nil, itemAt_nil]

theorem read (h : Holds place f head items) {p : P} {i : Nat}
    (hp : place p = head + i) : f p = items[i]? := by
  rw [h p, ← itemAt_natCast]
  congr 1
  omega

theorem isSome_iff (h : Holds place f head items) (p : P) :
    (f p).isSome <-> head <= place p ∧ place p < head + items.length := by
  rw [h p]
  unfold itemAt
  by_cases hneg : 0 <= place p - head
  · rw [if_pos hneg]
    simp only [List.getElem?_eq_some_iff, Option.isSome_iff_exists]
    constructor
    · rintro ⟨x, hlt, _⟩
      omega
    · intro hin
      exact ⟨_, by omega, rfl⟩
  · rw [if_neg hneg]
    simp only [Option.isSome_none, Bool.false_eq_true, false_iff]
    omega

variable [DecidableEq P] (hplace : Function.Injective place)
include hplace

theorem pushFront (h : Holds place f head items) {p : P}
    (hp : place p = head - 1) (x : α) :
    Holds place (Function.update f p (some x)) (head - 1) (x :: items) := by
  intro q
  by_cases hq : q = p
  · have hzero : place q - (head - 1) = 0 := by rw [hq, hp]; omega
    rw [hq, Function.update_self, ← hq, hzero, itemAt_cons_zero]
  · have hne : place q - (head - 1) ≠ 0 := by
      intro heq
      exact hq (hplace (by omega))
    rw [Function.update_of_ne hq, itemAt_cons hne, h q]
    congr 1
    omega

theorem pushBack (h : Holds place f head items) {p : P}
    (hp : place p = head + items.length) (x : α) :
    Holds place (Function.update f p (some x)) head (items ++ [x]) := by
  intro q
  by_cases hq : q = p
  · have hlength : place q - head = items.length := by rw [hq, hp]; omega
    rw [hq, Function.update_self, ← hq, hlength, itemAt_concat_length]
  · have hne : place q - head ≠ items.length := by
      intro heq
      exact hq (hplace (by omega))
    rw [Function.update_of_ne hq, itemAt_concat hne, h q]

theorem popFront {x : α} (h : Holds place f head (x :: items)) {p : P}
    (hp : place p = head) :
    Holds place (Function.update f p none) (head + 1) items := by
  intro q
  by_cases hq : q = p
  · rw [hq, Function.update_self, itemAt_of_neg]
    omega
  · have hne : place q - head ≠ 0 := by
      intro heq
      exact hq (hplace (by omega))
    rw [Function.update_of_ne hq, h q, itemAt_cons hne]
    congr 1
    omega

theorem popBack {x : α} (h : Holds place f head (items ++ [x])) {p : P}
    (hp : place p = head + items.length) :
    Holds place (Function.update f p none) head items := by
  intro q
  by_cases hq : q = p
  · rw [hq, Function.update_self, itemAt_of_length_le]
    omega
  · have hne : place q - head ≠ items.length := by
      intro heq
      exact hq (hplace (by omega))
    rw [Function.update_of_ne hq, h q, itemAt_concat hne]

end Holds

end Foundation
