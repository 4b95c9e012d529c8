import Mathlib

/-!
# Sets as lists

A finite set kept as a list without repetitions, so that it can be walked
through in some order.
-/

namespace Foundation

variable {α : Type}

/-- A list in which nothing occurs twice. -/
structure ListSet (α : Type) where
  items : List α
  nodup : items.Nodup

namespace ListSet

def empty : ListSet α where
  items := []
  nodup := List.nodup_nil

instance : Membership α (ListSet α) where
  mem s a := a ∈ s.items

theorem mem_items {a : α} {s : ListSet α} : a ∈ s.items <-> a ∈ s := Iff.rfl

@[simp] theorem mem_empty (a : α) : ¬ a ∈ (empty : ListSet α) :=
  List.not_mem_nil

def isEmpty (s : ListSet α) : Bool :=
  s.items.isEmpty

theorem isEmpty_iff {s : ListSet α} :
    s.isEmpty = true <-> forall a, ¬ a ∈ s := by
  unfold isEmpty
  rw [List.isEmpty_iff, List.eq_nil_iff_forall_not_mem]
  rfl

variable [DecidableEq α]

instance (a : α) (s : ListSet α) : Decidable (a ∈ s) :=
  inferInstanceAs (Decidable (a ∈ s.items))

def insert (s : ListSet α) (a : α) : ListSet α where
  items := if a ∈ s.items then s.items else s.items ++ [a]
  nodup := by
    by_cases h : a ∈ s.items
    · rw [if_pos h]
      exact s.nodup
    · rw [if_neg h]
      exact s.nodup.append (List.nodup_singleton a)
        (List.disjoint_singleton.mpr h)

def remove (s : ListSet α) (a : α) : ListSet α where
  items := s.items.filter (· ≠ a)
  nodup := s.nodup.filter _

def union (s t : ListSet α) : ListSet α :=
  t.items.foldl insert s

@[simp] theorem mem_insert {s : ListSet α} {a b : α} :
    b ∈ s.insert a <-> b ∈ s ∨ b = a := by
  change b ∈ (if a ∈ s.items then s.items else s.items ++ [a]) <-> _
  by_cases h : a ∈ s.items
  · rw [if_pos h, mem_items]
    constructor
    · exact Or.inl
    · rintro (hb | rfl)
      · exact hb
      · exact h
  · rw [if_neg h, List.mem_append, List.mem_singleton, mem_items]

@[simp] theorem mem_remove {s : ListSet α} {a b : α} :
    b ∈ s.remove a <-> b ∈ s ∧ b ≠ a := by
  change b ∈ s.items.filter (· ≠ a) <-> _
  rw [List.mem_filter, mem_items]
  simp

theorem mem_foldl_insert {s : ListSet α} {items : List α} {a : α} :
    a ∈ items.foldl insert s <-> a ∈ s ∨ a ∈ items := by
  induction items generalizing s with
  | nil => simp
  | cons b items ih =>
      rw [List.foldl_cons, ih, mem_insert, List.mem_cons, or_assoc]

@[simp] theorem mem_union {s t : ListSet α} {a : α} :
    a ∈ s.union t <-> a ∈ s ∨ a ∈ t :=
  mem_foldl_insert

def unions (family : List (ListSet α)) : ListSet α :=
  family.foldl union empty

theorem mem_foldl_union {s : ListSet α} {family : List (ListSet α)} {a : α} :
    a ∈ family.foldl union s <-> a ∈ s ∨ exists t, t ∈ family ∧ a ∈ t := by
  induction family generalizing s with
  | nil => simp
  | cons t family ih =>
      rw [List.foldl_cons, ih, mem_union, or_assoc]
      simp

theorem mem_unions {family : List (ListSet α)} {a : α} :
    a ∈ unions family <-> exists t, t ∈ family ∧ a ∈ t := by
  unfold unions
  rw [mem_foldl_union]
  simp

end ListSet

theorem ncard_eq_length {s : Set α} {items : List α} (hnodup : items.Nodup)
    (h : forall a, a ∈ s <-> a ∈ items) : s.ncard = items.length := by
  classical
  have hs : s = (items.toFinset : Set α) := by
    ext a
    rw [h, Finset.mem_coe, List.mem_toFinset]
  rw [hs, Set.ncard_coe_finset, List.toFinset_card_of_nodup hnodup]

end Foundation
