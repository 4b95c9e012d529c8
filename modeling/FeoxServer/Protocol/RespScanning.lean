import FeoxServer.Protocol.Resp

/-!
# Line ends

`find_crlf` finds the first carriage return and line feed in a row.  All that
the parser proofs use about it is stated here without its loop.
-/

namespace FeoxServer

open Foundation

/-- A carriage return and a line feed stand at place `i`. -/
def CrlfAt (buf : Bytes) (i : Nat) : Prop :=
  buf[i]? = some 13 ∧ buf[i + 1]? = some 10

theorem crlfAt_lt {buf : Bytes} {i : Nat} (h : CrlfAt buf i) :
    i + 1 < buf.length :=
  (List.getElem?_eq_some_iff.mp h.2).1

theorem memchr2_some {a b : UInt8} {buf : Bytes} {i : Nat}
    (h : memchr2 a b buf = some i) :
    i < buf.length ∧ forall j, j < i -> buf[j]? ≠ some a := by
  rcases List.findIdx?_eq_some_iff_getElem.mp h with ⟨hlt, _, hbefore⟩
  refine ⟨hlt, ?_⟩
  intro j hj ha
  have hnot := hbefore j hj
  rcases List.getElem?_eq_some_iff.mp ha with ⟨_, hget⟩
  simp [hget] at hnot

theorem memchr2_none {a b : UInt8} {buf : Bytes} (h : memchr2 a b buf = none)
    (j : Nat) : buf[j]? ≠ some a := by
  intro ha
  have hmem : a ∈ buf := List.mem_of_getElem? ha
  have hnot := List.findIdx?_eq_none_iff.mp h a hmem
  simp at hnot

theorem findCrlfFrom_spec (fuel : Nat) (buf : Bytes) (pos : Nat)
    (hfuel : buf.length <= pos + fuel) :
    (forall i, findCrlfFrom fuel buf pos = some i ->
      CrlfAt buf i ∧ forall j, pos <= j -> j < i -> ¬ CrlfAt buf j) ∧
    (findCrlfFrom fuel buf pos = none ->
      forall j, pos <= j -> ¬ CrlfAt buf j) := by
  induction fuel generalizing pos with
  | zero =>
      constructor
      · intro i hi
        cases hi
      · intro _ j hj hat
        have hlt := crlfAt_lt hat
        omega
  | succ fuel ih =>
      unfold findCrlfFrom
      by_cases hpos : pos < buf.length - 1
      · rw [if_pos hpos]
        cases hmem : memchr2 13 10 (buf.drop pos) with
        | none =>
            constructor
            · intro i hi
              cases hi
            · intro _ j hj hat
              have hget := memchr2_none hmem (j - pos)
              rw [List.getElem?_drop, show pos + (j - pos) = j by omega] at hget
              exact hget hat.1
        | some k =>
            rcases memchr2_some hmem with ⟨_, hbefore⟩
            -- Before the found octet there is no carriage return at all.
            have hskip : forall j, pos <= j -> j < pos + k -> ¬ CrlfAt buf j := by
              intro j hj hlt hat
              have hget := hbefore (j - pos) (by omega)
              rw [List.getElem?_drop, show pos + (j - pos) = j by omega] at hget
              exact hget hat.1
            simp only
            by_cases hfound : pos + k < buf.length - 1 ∧
                buf[pos + k]? = some 13 ∧ buf[pos + k + 1]? = some 10
            · rw [if_pos hfound]
              constructor
              · intro i hi
                injection hi with hi
                subst hi
                exact ⟨hfound.2, hskip⟩
              · intro hnone
                cases hnone
            · rw [if_neg hfound]
              have hhere : ¬ CrlfAt buf (pos + k) := by
                intro hat
                have hlt := crlfAt_lt hat
                exact hfound ⟨by omega, hat⟩
              have hrest := ih (pos + k + 1) (by omega)
              constructor
              · intro i hi
                rcases hrest.1 i hi with ⟨hat, hfirst⟩
                refine ⟨hat, ?_⟩
                intro j hj hlt
                rcases Nat.lt_trichotomy j (pos + k) with hj' | hj' | hj'
                · exact hskip j hj hj'
                · rw [hj']
                  exact hhere
                · exact hfirst j (by omega) hlt
              · intro hnone j hj
                rcases Nat.lt_trichotomy j (pos + k) with hj' | hj' | hj'
                · exact hskip j hj hj'
                · rw [hj']
                  exact hhere
                · exact hrest.2 hnone j (by omega)
      · rw [if_neg hpos]
        constructor
        · intro i hi
          cases hi
        · intro _ j hj hat
          have hlt := crlfAt_lt hat
          omega

theorem findCrlf_eq_some_iff {buf : Bytes} {i : Nat} :
    findCrlf buf = some i <->
      CrlfAt buf i ∧ forall j, j < i -> ¬ CrlfAt buf j := by
  have hspec := findCrlfFrom_spec buf.length buf 0 (by omega)
  constructor
  · intro h
    rcases hspec.1 i h with ⟨hat, hfirst⟩
    exact ⟨hat, fun j hj => hfirst j (Nat.zero_le j) hj⟩
  · rintro ⟨hat, hfirst⟩
    cases hfind : findCrlf buf with
    | none => exact absurd hat (hspec.2 hfind i (Nat.zero_le i))
    | some k =>
        rcases hspec.1 k hfind with ⟨hatk, hfirstk⟩
        rcases Nat.lt_trichotomy i k with hlt | heq | hgt
        · exact absurd hat (hfirstk i (Nat.zero_le i) hlt)
        · rw [heq]
        · exact absurd hatk (hfirst k hgt)

theorem findCrlf_eq_none_iff {buf : Bytes} :
    findCrlf buf = none <-> forall j, ¬ CrlfAt buf j := by
  constructor
  · intro h j
    exact (findCrlfFrom_spec buf.length buf 0 (by omega)).2 h j (Nat.zero_le j)
  · intro h
    cases hfind : findCrlf buf with
    | none => rfl
    | some i => exact absurd (findCrlf_eq_some_iff.mp hfind).1 (h i)

theorem findCrlf_lt {buf : Bytes} {i : Nat} (h : findCrlf buf = some i) :
    i + 1 < buf.length :=
  crlfAt_lt (findCrlf_eq_some_iff.mp h).1

/-!
# More input behind a line end
-/

theorem crlfAt_append_iff {buf more : Bytes} {i : Nat}
    (h : i + 1 < buf.length) : CrlfAt (buf ++ more) i <-> CrlfAt buf i := by
  unfold CrlfAt
  rw [List.getElem?_append_left (by omega), List.getElem?_append_left h]

theorem findCrlf_append {buf : Bytes} {i : Nat} (more : Bytes)
    (h : findCrlf buf = some i) : findCrlf (buf ++ more) = some i := by
  have hlt := findCrlf_lt h
  rcases findCrlf_eq_some_iff.mp h with ⟨hat, hfirst⟩
  refine findCrlf_eq_some_iff.mpr ⟨(crlfAt_append_iff hlt).mpr hat, ?_⟩
  intro j hj hatj
  exact hfirst j hj ((crlfAt_append_iff (by omega)).mp hatj)

theorem slice_append {buf : Bytes} {start stop : Nat} (more : Bytes)
    (h : stop <= buf.length) :
    slice (buf ++ more) start stop = slice buf start stop := by
  unfold slice
  rw [List.take_append_of_le_length h]

theorem findCrlf_line {line rest : Bytes} (h : forall j, ¬ CrlfAt line j) :
    findCrlf (line ++ crlf ++ rest) = some line.length := by
  have hline : forall i, (line ++ crlf ++ rest)[line.length + i]? =
      (crlf ++ rest)[i]? := by
    intro i
    rw [List.append_assoc, List.getElem?_append_right (by omega)]
    congr 1
    omega
  refine findCrlf_eq_some_iff.mpr ⟨⟨?_, ?_⟩, ?_⟩
  · exact hline 0
  · exact hline 1
  · intro j hj hat
    rcases Nat.lt_or_ge (j + 1) line.length with hlt | hge
    · rw [List.append_assoc, crlfAt_append_iff hlt] at hat
      exact h j hat
    · -- The octet behind the text is a carriage return, not a line feed.
      have hlast : j + 1 = line.length + 0 := by omega
      have hget := hat.2
      rw [hlast, hline 0] at hget
      cases hget

end FeoxServer
