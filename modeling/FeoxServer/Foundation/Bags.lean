import FeoxServer.Foundation.Pool
import FeoxServer.Foundation.Window

/-!
# The bag of all that a partial function holds

A partial function on finitely many positions holds a bag of elements.  Putting
an element at a free position adds it to the bag, and taking it away removes it.
When the positions in use stand in a row, the bag is a list.
-/

namespace Foundation

variable {P α : Type}

def bag (x : Option α) : Multiset α :=
  x.elim 0 fun x => {x}

/-- All elements that `f` holds. -/
def held [Fintype P] (f : P -> Option α) : Multiset α :=
  ∑ p, bag (f p)

section Held

variable [Fintype P] [DecidableEq P] {f : P -> Option α} {p : P} {x : α}

theorem held_put (h : f p = none) :
    held (Function.update f p (some x)) = held f + {x} := by
  have hsum := sum_update_add (fun _ => bag) f p (some x)
  rw [h] at hsum
  change held (Function.update f p (some x)) + 0 = held f + {x} at hsum
  rw [add_zero] at hsum
  exact hsum

theorem held_take (h : f p = some x) :
    held (Function.update f p none) + {x} = held f := by
  have hsum := sum_update_add (fun _ => bag) f p none
  rw [h] at hsum
  change held (Function.update f p none) + {x} = held f + 0 at hsum
  rw [add_zero] at hsum
  exact hsum

/-- When exactly `n` positions in a row are in use, the bag is the list of what
stands there. -/
theorem exists_holds {place : P -> Int} (hplace : Function.Injective place)
    (n : Nat) {head : Int} (hreach : forall i, i < n -> exists p, place p = head + i)
    {f : P -> Option α}
    (hf : forall p, (f p).isSome <-> head <= place p ∧ place p < head + n) :
    exists items, items.length = n ∧ Holds place f head items ∧ held f = items := by
  induction n generalizing head f with
  | zero =>
      have hnone : forall p, f p = none := by
        intro p
        cases hp : f p with
        | none => rfl
        | some x =>
            have hin := (hf p).mp (by rw [hp]; rfl)
            omega
      refine ⟨[], rfl, Holds.nil hnone, ?_⟩
      unfold held
      simp [hnone, bag]
  | succ n ih =>
      rcases hreach 0 (Nat.succ_pos n) with ⟨p, hp⟩
      have hin : (f p).isSome := (hf p).mpr (by omega)
      rcases Option.isSome_iff_exists.mp hin with ⟨x, hx⟩
      have hrest : forall q, (Function.update f p none q).isSome <->
          head + 1 <= place q ∧ place q < head + 1 + n := by
        intro q
        by_cases hq : q = p
        · subst hq
          rw [Function.update_self]
          simp only [Option.isSome_none, Bool.false_eq_true, false_iff]
          omega
        · have hne : place q ≠ place p := hplace.ne hq
          rw [Function.update_of_ne hq, hf q]
          omega
      have hnext : forall i, i < n -> exists q, place q = head + 1 + i := by
        intro i hi
        rcases hreach (i + 1) (Nat.succ_lt_succ hi) with ⟨q, hq⟩
        exact ⟨q, by omega⟩
      rcases ih hnext hrest with ⟨items, hlength, hholds, hbag⟩
      have hback := hholds.pushFront hplace (p := p) (by omega) x
      rw [Function.update_idem, ← hx, Function.update_eq_self] at hback
      refine ⟨x :: items, by rw [List.length_cons, hlength], ?_, ?_⟩
      · rw [add_sub_cancel_right] at hback
        exact hback
      · rw [← held_take hx, hbag, ← Multiset.cons_coe, ← Multiset.singleton_add,
          add_comm]

end Held

end Foundation
