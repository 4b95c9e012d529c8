import Mathlib

/-!
# Leaving in phases

Numbered items leave in phases: all those of the first phase, then all those
of the second, and so on, and in each phase in the order of their numbers.
They leave in order exactly if no item is overtaken by a later one of an
earlier phase.
-/

namespace Foundation

section Phases

variable {α : Type} (phase number : α -> Nat)

def inPhases (bound : Nat) (items : List α) : List α :=
  (List.range bound).flatMap fun p => items.filter fun a => phase a = p

def NoneOvertaken (items : List α) : Prop :=
  forall a, a ∈ items -> forall b, b ∈ items ->
    number a < number b -> phase a <= phase b

variable {phase number}

theorem inPhases_succ (bound : Nat) (items : List α) :
    inPhases phase (bound + 1) items =
      inPhases phase bound items ++ items.filter fun a => phase a = bound := by
  simp [inPhases, List.range_succ]

theorem filter_number_inPhases {n p : Nat} {items : List α}
    (hphase : forall a, a ∈ items -> number a = n -> phase a = p) (bound : Nat) :
    (inPhases phase bound items).filter (fun a => number a = n) =
      if p < bound then items.filter fun a => number a = n else [] := by
  have hslice : forall q,
      (items.filter fun a => phase a = q).filter (fun a => number a = n) =
        if p = q then items.filter fun a => number a = n else [] := by
    intro q
    rw [List.filter_filter]
    split
    · rename_i hq
      refine List.filter_congr fun a ha => ?_
      by_cases hnumber : number a = n
      · simp [hnumber, hphase a ha hnumber, hq]
      · simp [hnumber]
    · rename_i hq
      refine List.filter_eq_nil_iff.mpr fun a ha hboth => ?_
      simp only [Bool.and_eq_true, decide_eq_true_eq] at hboth
      exact hq ((hphase a ha hboth.1).symm.trans hboth.2)
  induction bound with
  | zero => rfl
  | succ bound ih =>
      rw [inPhases_succ, List.filter_append, ih, hslice]
      split_ifs with hbelow hlast <;> first | omega | simp

theorem noneOvertaken_append_iff {n p : Nat} {front back : List α}
    (hnumber : forall a, a ∈ front -> number a = n)
    (hphase : forall a, a ∈ front -> phase a = p)
    (hlater : forall b, b ∈ back -> n < number b) :
    NoneOvertaken phase number (front ++ back) <->
      (front ≠ [] -> forall b, b ∈ back -> p <= phase b) ∧
        NoneOvertaken phase number back := by
  constructor
  · intro h
    refine ⟨fun hfront b hb => ?_, fun a ha b hb =>
      h a (List.mem_append_right _ ha) b (List.mem_append_right _ hb)⟩
    rcases List.exists_mem_of_ne_nil _ hfront with ⟨a, ha⟩
    have hlt : number a < number b := hnumber a ha ▸ hlater b hb
    have hle := h a (List.mem_append_left _ ha) b (List.mem_append_right _ hb) hlt
    rwa [hphase a ha] at hle
  · rintro ⟨hfront, hback⟩ a ha b hb hlt
    rcases List.mem_append.mp ha with ha | ha
    · rcases List.mem_append.mp hb with hb | hb
      · rw [hnumber a ha, hnumber b hb] at hlt
        exact absurd hlt (Nat.lt_irrefl n)
      · rw [hphase a ha]
        exact hfront (List.ne_nil_of_mem ha) b hb
    · rcases List.mem_append.mp hb with hb | hb
      · rw [hnumber b hb] at hlt
        exact absurd (hlater a ha) (Nat.lt_asymm hlt)
      · exact hback a ha b hb hlt

theorem pairwise_inPhases_iff {bound : Nat} {items : List α}
    (hnumbers : items.Pairwise fun a b => number a <= number b)
    (hbound : forall a, a ∈ items -> phase a < bound) :
    ((inPhases phase bound items).Pairwise fun a b => number a <= number b) <->
      NoneOvertaken phase number items := by
  unfold inPhases
  rw [List.pairwise_flatMap]
  constructor
  · rintro ⟨_, hphases⟩ a ha b hb hlt
    by_contra hover
    have hover : phase b < phase a := Nat.lt_of_not_le hover
    rw [List.pairwise_iff_getElem] at hphases
    have ha' := hbound a ha
    have hle := hphases (phase b) (phase a)
      (by rw [List.length_range]; exact hbound b hb)
      (by rw [List.length_range]; exact ha') hover b (by simp [hb]) a
      (by simp [ha])
    omega
  · intro hnone
    refine ⟨fun p _ => hnumbers.sublist List.filter_sublist, ?_⟩
    refine List.pairwise_lt_range.imp fun hpq a ha b hb => ?_
    simp only [List.mem_filter, decide_eq_true_eq] at ha hb
    by_contra hgt
    have hle := hnone b hb.1 a ha.1 (Nat.lt_of_not_le hgt)
    omega

end Phases

end Foundation
