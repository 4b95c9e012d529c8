import FeoxServer.Protocol.HashRefinement
import FeoxServer.Protocol.ListRefinement

/-!
# Keys that lists and hashes are stored under

Lists, hashes and strings share one store, in which a list or a hash has keys
that are made from its own key.  This module says when two such keys are the
same.
-/

namespace FeoxServer

open Foundation

theorem asBytes_fieldMark : asBytes ":f:" = [58, 102, 58] := by decide

theorem asBytes_metaMark : asBytes ":meta" = [58, 109, 101, 116, 97] := by
  decide

theorem asBytes_colon : asBytes ":" = [58] := by decide

theorem eq_of_last_mark {α : Type} {a : α} {xs ys us vs : List α}
    (hu : a ∉ us) (hv : a ∉ vs) (h : xs ++ a :: us = ys ++ a :: vs) :
    xs = ys ∧ us = vs := by
  rcases List.append_eq_append_iff.mp h with ⟨rest, rfl, hrest⟩ | ⟨rest, rfl, hrest⟩
  · cases rest with
    | nil => exact ⟨by rw [List.append_nil], (List.cons.inj hrest).2⟩
    | cons b rest =>
        refine absurd ?_ hu
        rw [(List.cons.inj hrest).2]
        exact List.mem_append_right rest List.mem_cons_self
  · cases rest with
    | nil => exact ⟨by rw [List.append_nil], (List.cons.inj hrest).2.symm⟩
    | cons b rest =>
        refine absurd ?_ hv
        rw [(List.cons.inj hrest).2]
        exact List.mem_append_right rest List.mem_cons_self

namespace HashOperations

/-!
# Hashes
-/

/-- `k2` is `k1` followed by `:f`, or by `:f:` and anything. -/
def Nested (k1 k2 : Bytes) : Prop :=
  k1 ++ asBytes ":f:" <+: k2 ++ asBytes ":"

instance (k1 k2 : Bytes) : Decidable (Nested k1 k2) :=
  inferInstanceAs (Decidable (k1 ++ asBytes ":f:" <+: k2 ++ asBytes ":"))

theorem nested_append {k rest : Bytes}
    (h : asBytes ":f:" <+: rest ++ asBytes ":") : Nested k (k ++ rest) := by
  unfold Nested
  rw [List.append_assoc]
  exact (List.prefix_append_right_inj k).mpr h

theorem metaKey_injective : Function.Injective metaKey := by
  intro a b h
  unfold metaKey at h
  rw [List.append_assoc, List.append_assoc, List.append_right_inj,
    List.append_left_inj] at h
  exact h

theorem exists_fieldKey_eq {k1 k2 : Bytes} (h : Nested k1 k2) :
    exists f1 f2, fieldKey k1 f1 = fieldKey k2 f2 := by
  rcases h with ⟨rest, hrest⟩
  have hmark : asBytes ":f:" = asBytes ":" ++ asBytes "f:" := by decide
  refine ⟨rest ++ asBytes "f:", [], ?_⟩
  calc fieldKey k1 (rest ++ asBytes "f:")
      = asBytes "H:" ++ (k1 ++ asBytes ":f:" ++ rest) ++ asBytes "f:" := by
        simp [fieldKey, fieldPrefix]
    _ = fieldKey k2 [] := by
        rw [hrest]
        simp [fieldKey, fieldPrefix, hmark]

theorem nested_of_fieldKey_append {k rest f1 f2 : Bytes} (hne : rest ≠ [])
    (h : asBytes ":f:" ++ f1 = rest ++ (asBytes ":f:" ++ f2)) :
    Nested k (k ++ rest) := by
  apply nested_append
  rw [asBytes_fieldMark] at h
  rw [asBytes_fieldMark, asBytes_colon]
  match rest, hne, h with
  | [b], _, h => simp at h
  | [b, c], _, h =>
      simp at h
      simp [← h.1, ← h.2.1]
  | b :: c :: d :: rest, _, h =>
      simp at h
      simp [← h.1, ← h.2.1, ← h.2.2.1]

theorem nested_of_fieldKey_eq {k1 k2 f1 f2 : Bytes} (hne : k1 ≠ k2)
    (h : fieldKey k1 f1 = fieldKey k2 f2) : Nested k1 k2 ∨ Nested k2 k1 := by
  unfold fieldKey fieldPrefix at h
  simp only [List.append_assoc, List.append_right_inj] at h
  rcases List.append_eq_append_iff.mp h with ⟨rest, rfl, hrest⟩ | ⟨rest, rfl, hrest⟩
  · exact Or.inl (nested_of_fieldKey_append (by simpa using hne) hrest)
  · exact Or.inr (nested_of_fieldKey_append (by simpa using hne) hrest)

theorem nested_of_metaKey_eq_fieldKey {k1 k2 field : Bytes}
    (h : metaKey k1 = fieldKey k2 field) : Nested k2 k1 := by
  unfold metaKey fieldKey fieldPrefix at h
  simp only [List.append_assoc, List.append_right_inj] at h
  rw [asBytes_metaMark, asBytes_fieldMark] at h
  rcases List.append_eq_append_iff.mp h with ⟨rest, _, hrest⟩ | ⟨rest, rfl, hrest⟩
  · -- The text `:meta` does not contain `:f:`.
    match rest, hrest with
    | [], h => simp at h
    | [a], h => simp at h
    | [a, b], h => simp at h
    | [a, b, c], h => simp at h
    | a :: b :: c :: d :: rest, h =>
        have hlength := congrArg List.length h
        simp at hlength
        omega
  · apply nested_append
    rw [asBytes_fieldMark, asBytes_colon]
    match rest, hrest with
    | [], h => simp at h
    | [b], h => simp at h
    | [b, c], h =>
        simp at h
        simp [← h.1, ← h.2.1]
    | b :: c :: d :: rest, h =>
        simp at h
        simp [← h.1, ← h.2.1, ← h.2.2.1]

def fieldKeys (key : Bytes) : Set Bytes :=
  Set.range (fieldKey key)

theorem mem_fieldKeys {key k : Bytes} :
    k ∈ fieldKeys key <-> fieldPrefix key <+: k := by
  constructor
  · rintro ⟨field, rfl⟩
    exact List.prefix_append _ _
  · rintro ⟨field, rfl⟩
    exact ⟨field, rfl⟩

/-- Between the two ends of the range that is read for a hash there are only
keys of its fields. -/
theorem prefix_of_le {front k : Bytes} {b : UInt8} (hstart : front <= k)
    (hstop : k <= front ++ [b]) : front <+: k := by
  induction front generalizing k with
  | nil => exact List.nil_prefix
  | cons a front ih =>
      cases k with
      | nil => exact absurd hstart (by simp)
      | cons c k =>
          rw [List.cons_le_cons_iff] at hstart
          rw [List.cons_append, List.cons_le_cons_iff] at hstop
          rcases hstart with hlt | ⟨rfl, hstart⟩
          · rcases hstop with hgt | ⟨rfl, _⟩
            · exact absurd hgt (UInt8.lt_asymm hlt)
            · exact absurd hlt (UInt8.lt_irrefl c)
          · rcases hstop with hlt | ⟨_, hstop⟩
            · exact absurd hlt (UInt8.lt_irrefl a)
            · exact List.cons_prefix_cons.mpr ⟨rfl, ih hstart hstop⟩

end HashOperations

/-!
# Lists
-/

namespace ListOperations

theorem colon_notMem_decimal (pos : Int64) : ':' ∉ (decimal pos).toList := by
  intro h
  rcases mem_decimalInt h with hminus | hdigit
  · contradiction
  · contradiction

theorem toList_valueKey (key : Bytes) (pos : Int64) :
    ("L:" ++ fromUtf8Lossy key ++ ":" ++ decimal pos).toList =
      "L:".toList ++ (fromUtf8Lossy key).toList ++ ':' :: (decimal pos).toList := by
  simp

theorem toList_metaKey (key : Bytes) :
    ("L:" ++ fromUtf8Lossy key ++ ":meta").toList =
      "L:".toList ++ (fromUtf8Lossy key).toList ++ ':' :: "meta".toList := by
  simp

/-- Only keys of the same text share a key, since a position contains no
colon. -/
theorem text_eq_of_valueKey_eq {k1 k2 : Bytes} {p q : Int64}
    (h : valueKey k1 p = valueKey k2 q) :
    fromUtf8Lossy k1 = fromUtf8Lossy k2 := by
  have htext := congrArg String.toList (asBytes_injective h)
  rw [toList_valueKey, toList_valueKey] at htext
  have hfront := (eq_of_last_mark (colon_notMem_decimal p)
    (colon_notMem_decimal q) htext).1
  exact String.toList_inj.mp (List.append_cancel_left hfront)

theorem text_eq_of_metaKey_eq {k1 k2 : Bytes} (h : metaKey k1 = metaKey k2) :
    fromUtf8Lossy k1 = fromUtf8Lossy k2 := by
  have htext := congrArg String.toList (asBytes_injective h)
  rw [toList_metaKey, toList_metaKey, List.append_left_inj] at htext
  exact String.toList_inj.mp (List.append_cancel_left htext)

theorem valueKey_ne_metaKey_of (k1 k2 : Bytes) (pos : Int64) :
    valueKey k1 pos ≠ metaKey k2 := by
  intro h
  have htext := congrArg String.toList (asBytes_injective h)
  rw [toList_valueKey, toList_metaKey] at htext
  have hback := (eq_of_last_mark (colon_notMem_decimal pos) (by decide) htext).2
  exact decimal_ne_meta pos (String.toList_inj.mp hback)

def keysOf (key : Bytes) : Set Bytes :=
  insert (metaKey key) (Set.range (valueKey key))

theorem metaKey_mem (key : Bytes) : metaKey key ∈ keysOf key :=
  Set.mem_insert _ _

theorem valueKey_mem (key : Bytes) (pos : Int64) :
    valueKey key pos ∈ keysOf key :=
  Set.mem_insert_of_mem _ ⟨pos, rfl⟩

theorem disjoint_keysOf {k1 k2 : Bytes}
    (h : fromUtf8Lossy k1 ≠ fromUtf8Lossy k2) :
    Disjoint (keysOf k1) (keysOf k2) := by
  rw [Set.disjoint_left]
  rintro k (rfl | ⟨p, rfl⟩) (heq | ⟨q, heq⟩)
  · exact h (text_eq_of_metaKey_eq heq)
  · exact valueKey_ne_metaKey_of k2 k1 q heq
  · exact valueKey_ne_metaKey_of k1 k2 p heq
  · exact h (text_eq_of_valueKey_eq heq).symm

end ListOperations

end FeoxServer
