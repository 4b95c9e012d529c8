import Mathlib

/-!
# Finite maps and their sizes

Entries are put into a finite map, or taken out of it, several at a time, with
repetitions.  The size changes by the number of distinct keys that come or go.
-/

namespace Foundation

abbrev FiniteMap (K V : Type) : Type :=
  AList fun _ : K => V

namespace FiniteMap

variable {K V : Type} [DecidableEq K]

def size (m : FiniteMap K V) : Nat :=
  m.keys.length

def insertAll (m : FiniteMap K V) (entries : List (K × V)) : FiniteMap K V :=
  entries.foldl (fun m entry => m.insert entry.1 entry.2) m

def eraseAll (m : FiniteMap K V) (keys : List K) : FiniteMap K V :=
  keys.foldl (fun m key => m.erase key) m

def newKeys (m : FiniteMap K V) (keys : List K) : Nat :=
  (keys.toFinset \ m.keys.toFinset).card

def knownKeys (m : FiniteMap K V) (keys : List K) : Nat :=
  (keys.toFinset ∩ m.keys.toFinset).card

theorem toFinset_keys_insert (m : FiniteMap K V) (key : K) (value : V) :
    (m.insert key value).keys.toFinset = insert key m.keys.toFinset := by
  ext k
  simp only [List.mem_toFinset, Finset.mem_insert]
  exact AList.mem_insert m

theorem toFinset_keys_erase (m : FiniteMap K V) (key : K) :
    (m.erase key).keys.toFinset = m.keys.toFinset.erase key := by
  ext k
  simp only [List.mem_toFinset, Finset.mem_erase]
  exact AList.mem_erase

theorem size_insert (m : FiniteMap K V) (key : K) (value : V) :
    size (m.insert key value) = size m + if key ∈ m then 0 else 1 := by
  unfold size
  rw [AList.keys_insert, List.length_cons]
  split
  · rename_i hmem
    have hpos := List.length_pos_of_mem (AList.mem_keys.mp hmem)
    rw [List.length_erase_of_mem (AList.mem_keys.mp hmem)]
    omega
  · rename_i hmem
    rw [List.erase_of_not_mem fun h => hmem (AList.mem_keys.mpr h)]

theorem size_erase (m : FiniteMap K V) (key : K) :
    size (m.erase key) + (if key ∈ m then 1 else 0) = size m := by
  unfold size
  rw [AList.keys_erase]
  split
  · rename_i hmem
    have hpos := List.length_pos_of_mem (AList.mem_keys.mp hmem)
    rw [List.length_erase_of_mem (AList.mem_keys.mp hmem)]
    omega
  · rename_i hmem
    rw [List.erase_of_not_mem fun h => hmem (AList.mem_keys.mpr h)]
    rfl

theorem newKeys_cons (m : FiniteMap K V) (key : K) (value : V) (keys : List K) :
    newKeys m (key :: keys) =
      (if key ∈ m then 0 else 1) + newKeys (m.insert key value) keys := by
  unfold newKeys
  rw [List.toFinset_cons, toFinset_keys_insert]
  by_cases hmem : key ∈ m
  · have hkey : key ∈ m.keys.toFinset := List.mem_toFinset.mpr hmem
    rw [if_pos hmem, Finset.insert_sdiff_of_mem _ hkey,
      Finset.insert_eq_of_mem hkey, Nat.zero_add]
  · have hkey : key ∉ m.keys.toFinset := fun h => hmem (List.mem_toFinset.mp h)
    rw [if_neg hmem, Finset.insert_sdiff_of_notMem _ hkey, Finset.sdiff_insert,
      Finset.card_insert_eq_ite]
    split
    · rename_i hin
      have hpos := Finset.card_pos.mpr ⟨key, hin⟩
      rw [Finset.card_erase_of_mem hin]
      omega
    · rename_i hout
      rw [Finset.erase_eq_of_notMem hout, Nat.add_comm]

theorem knownKeys_cons (m : FiniteMap K V) (key : K) (keys : List K) :
    knownKeys m (key :: keys) =
      (if key ∈ m then 1 else 0) + knownKeys (m.erase key) keys := by
  unfold knownKeys
  rw [List.toFinset_cons, toFinset_keys_erase]
  by_cases hmem : key ∈ m
  · have hkey : key ∈ m.keys.toFinset := List.mem_toFinset.mpr hmem
    rw [if_pos hmem, Finset.insert_inter_of_mem hkey, Finset.inter_erase,
      Finset.card_insert_eq_ite]
    split
    · rename_i hin
      have hpos := Finset.card_pos.mpr ⟨key, hin⟩
      rw [Finset.card_erase_of_mem hin]
      omega
    · rename_i hout
      rw [Finset.erase_eq_of_notMem hout, Nat.add_comm]
  · have hkey : key ∉ m.keys.toFinset := fun h => hmem (List.mem_toFinset.mp h)
    rw [if_neg hmem, Finset.insert_inter_of_notMem hkey,
      Finset.erase_eq_of_notMem hkey, Nat.zero_add]

theorem size_insertAll (m : FiniteMap K V) (entries : List (K × V)) :
    size (insertAll m entries) = size m + newKeys m (entries.map Prod.fst) := by
  induction entries generalizing m with
  | nil => simp [insertAll, newKeys]
  | cons entry entries ih =>
      rw [List.map_cons, newKeys_cons m entry.1 entry.2]
      change size (insertAll (m.insert entry.1 entry.2) entries) = _
      rw [ih, size_insert, Nat.add_assoc]

theorem size_eraseAll (m : FiniteMap K V) (keys : List K) :
    size (eraseAll m keys) + knownKeys m keys = size m := by
  induction keys generalizing m with
  | nil => rfl
  | cons key keys ih =>
      rw [knownKeys_cons]
      change size (eraseAll (m.erase key) keys) + _ = _
      have hrest := ih (m.erase key)
      have hfirst := size_erase m key
      omega

end FiniteMap

end Foundation
