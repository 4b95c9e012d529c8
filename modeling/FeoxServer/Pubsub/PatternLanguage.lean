import FeoxServer.Foundation.GlobLanguages
import FeoxServer.Pubsub.Pattern

/-!
# What patterns mean

The syntax of patterns, read octet by octet, and what the search of the trie
makes of it.
-/

namespace FeoxServer

open Foundation

/-- The channels that a pattern stands for. -/
inductive PatternTakes : Bytes -> Bytes -> Prop
  | nil : PatternTakes [] []
  | star {pattern rest text : Bytes} (hsuffix : rest <:+ text)
      (hrest : PatternTakes pattern rest) : PatternTakes (42 :: pattern) text
  | any {pattern text : Bytes} (c : UInt8) (hrest : PatternTakes pattern text) :
      PatternTakes (63 :: pattern) (c :: text)
  | charClass {pattern text : Bytes} {c : UInt8} {chars : List UInt8}
      {negated : Bool} {n : Nat}
      (hclass : parseCharClass (91 :: pattern) = some (chars, negated, n))
      (hc : (c ∈ chars) ≠ (negated = true))
      (hrest : PatternTakes ((91 :: pattern).drop n) text) :
      PatternTakes (91 :: pattern) (c :: text)
  | bracket {pattern text : Bytes}
      (hopen : parseCharClass (91 :: pattern) = none)
      (hrest : PatternTakes pattern text) :
      PatternTakes (91 :: pattern) (91 :: text)
  | escaped {pattern text : Bytes} (c : UInt8)
      (hrest : PatternTakes pattern text) :
      PatternTakes (92 :: c :: pattern) (c :: text)
  | backslash : PatternTakes [92] [92]
  | octet {pattern text : Bytes} {c : UInt8}
      (hc : c ≠ 42 ∧ c ≠ 63 ∧ c ≠ 91 ∧ c ≠ 92)
      (hrest : PatternTakes pattern text) :
      PatternTakes (c :: pattern) (c :: text)

namespace PatternEdge

def part : PatternEdge -> Glob.Part UInt8
  | wildcard => .star
  | single => .one fun _ => True
  | charClass chars negated =>
      .one fun c => TrieNode.matchesCharClass c chars negated = true
  | byte b => .one fun c => b = c

/-- The text can be split into one piece for every edge. -/
def Take (edges : List PatternEdge) (text : Bytes) : Prop :=
  Glob.Takes (edges.map part) text

end PatternEdge

theorem matchesCharClass_iff {c : UInt8} {chars : List UInt8} {negated : Bool} :
    TrieNode.matchesCharClass c chars negated = true <->
      (c ∈ chars) ≠ (negated = true) := by
  unfold TrieNode.matchesCharClass
  cases negated <;> simp

theorem lt_of_charClassLoop {fuel : Nat} {pattern : Bytes}
    {chars chars' : List UInt8} {escaped : Bool} {i n : Nat}
    (h : charClassLoop fuel pattern chars escaped i = some (chars', n)) :
    i < n := by
  induction fuel generalizing pattern chars escaped i with
  | zero => cases h
  | succ fuel ih =>
      cases pattern with
      | nil => cases h
      | cons b rest =>
          unfold charClassLoop at h
          split_ifs at h
          · exact Nat.lt_of_succ_lt (ih h)
          · exact Nat.lt_of_succ_lt (ih h)
          · cases h
            exact Nat.lt_succ_self i
          · split at h
            · split_ifs at h
              · exact Nat.lt_of_succ_lt (Nat.lt_of_succ_lt (ih h))
              · exact Nat.lt_of_succ_lt (ih h)
            · exact Nat.lt_of_succ_lt (ih h)

theorem pos_of_parseCharClass {pattern : Bytes} {chars : List UInt8}
    {negated : Bool} {n : Nat}
    (h : parseCharClass pattern = some (chars, negated, n)) : 0 < n := by
  unfold parseCharClass at h
  split at h
  · rcases Option.map_eq_some_iff.mp h with ⟨r, hloop, heq⟩
    cases heq
    exact Nat.zero_lt_of_lt (lt_of_charClassLoop hloop)
  · rcases Option.map_eq_some_iff.mp h with ⟨r, hloop, heq⟩
    cases heq
    exact Nat.zero_lt_of_lt (lt_of_charClassLoop hloop)
  · cases h

/-- How the octets of a pattern make its edges. -/
inductive Spells : Bytes -> List PatternEdge -> Prop
  | nil : Spells [] []
  | star {pattern : Bytes} {edges : List PatternEdge}
      (hrest : Spells pattern edges) :
      Spells (42 :: pattern) (.wildcard :: edges)
  | any {pattern : Bytes} {edges : List PatternEdge}
      (hrest : Spells pattern edges) : Spells (63 :: pattern) (.single :: edges)
  | charClass {pattern : Bytes} {edges : List PatternEdge}
      {chars : List UInt8} {negated : Bool} {n : Nat}
      (hclass : parseCharClass (91 :: pattern) = some (chars, negated, n))
      (hrest : Spells ((91 :: pattern).drop n) edges) :
      Spells (91 :: pattern) (.charClass chars negated :: edges)
  | bracket {pattern : Bytes} {edges : List PatternEdge}
      (hopen : parseCharClass (91 :: pattern) = none)
      (hrest : Spells pattern edges) :
      Spells (91 :: pattern) (.byte 91 :: edges)
  | escaped {pattern : Bytes} {edges : List PatternEdge} (c : UInt8)
      (hrest : Spells pattern edges) :
      Spells (92 :: c :: pattern) (.byte c :: edges)
  | backslash : Spells [92] [.byte 92]
  | octet {pattern : Bytes} {edges : List PatternEdge} {c : UInt8}
      (hc : c ≠ 42 ∧ c ≠ 63 ∧ c ≠ 91 ∧ c ≠ 92)
      (hrest : Spells pattern edges) : Spells (c :: pattern) (.byte c :: edges)

theorem spells_patternEdgesFuel {fuel : Nat} {pattern : Bytes}
    (h : pattern.length <= fuel) :
    Spells pattern (patternEdgesFuel fuel pattern) := by
  induction fuel generalizing pattern with
  | zero =>
      rw [List.eq_nil_of_length_eq_zero (Nat.le_zero.mp h)]
      exact .nil
  | succ fuel ih =>
      cases pattern with
      | nil => exact .nil
      | cons c rest =>
          have hrest : rest.length <= fuel := Nat.le_of_succ_le_succ h
          unfold patternEdgesFuel
          split_ifs with hstar hany hbracket hbackslash
          · subst hstar
            exact .star (ih hrest)
          · subst hany
            exact .any (ih hrest)
          · subst hbracket
            cases hclass : parseCharClass (91 :: rest) with
            | none => exact .bracket hclass (ih hrest)
            | some found =>
                rcases found with ⟨chars, negated, n⟩
                refine .charClass hclass (ih ?_)
                have hpos := pos_of_parseCharClass hclass
                rw [List.length_drop, List.length_cons]
                omega
          · subst hbackslash
            cases rest with
            | nil => exact .backslash
            | cons d rest => exact .escaped d (ih (Nat.le_of_succ_le hrest))
          · exact .octet ⟨hstar, hany, hbracket, hbackslash⟩ (ih hrest)

theorem spells_patternEdges (pattern : Bytes) :
    Spells pattern (patternEdges pattern) :=
  spells_patternEdgesFuel (le_refl _)

theorem takes_byte {b : UInt8} {edges : List PatternEdge} {text : Bytes} :
    PatternEdge.Take (.byte b :: edges) text <->
      exists rest, text = b :: rest ∧ PatternEdge.Take edges rest := by
  unfold PatternEdge.Take
  rw [List.map_cons, PatternEdge.part, Glob.takes_one]
  constructor
  · rintro ⟨a, rest, rfl, rfl, hrest⟩
    exact ⟨rest, rfl, hrest⟩
  · rintro ⟨rest, rfl, hrest⟩
    exact ⟨b, rest, rfl, rfl, hrest⟩

theorem Spells.take_iff {pattern : Bytes} {edges : List PatternEdge}
    (h : Spells pattern edges) (text : Bytes) :
    PatternEdge.Take edges text <-> PatternTakes pattern text := by
  induction h generalizing text with
  | nil =>
      refine Glob.takes_nil.trans ⟨?_, ?_⟩
      · rintro rfl
        exact .nil
      · rintro ⟨⟩
        rfl
  | star _ ih =>
      refine Glob.takes_star.trans ⟨?_, ?_⟩
      · rintro ⟨rest, hsuffix, hrest⟩
        exact .star hsuffix ((ih rest).mp hrest)
      · intro h
        cases h with
        | star hsuffix hrest => exact ⟨_, hsuffix, (ih _).mpr hrest⟩
        | octet hc _ => exact absurd rfl hc.1
  | any _ ih =>
      refine Glob.takes_one.trans ⟨?_, ?_⟩
      · rintro ⟨c, rest, rfl, _, hrest⟩
        exact .any c ((ih rest).mp hrest)
      · intro h
        cases h with
        | any c hrest => exact ⟨c, _, rfl, trivial, (ih _).mpr hrest⟩
        | octet hc _ => exact absurd rfl hc.2.1
  | charClass hclass _ ih =>
      refine Glob.takes_one.trans ⟨?_, ?_⟩
      · rintro ⟨c, rest, rfl, hc, hrest⟩
        exact .charClass hclass (matchesCharClass_iff.mp hc) ((ih rest).mp hrest)
      · intro h
        cases h with
        | charClass hclass' hc hrest =>
            rw [hclass] at hclass'
            cases hclass'
            exact ⟨_, _, rfl, matchesCharClass_iff.mpr hc, (ih _).mpr hrest⟩
        | bracket hopen _ =>
            rw [hclass] at hopen
            cases hopen
        | octet hc _ => exact absurd rfl hc.2.2.1
  | bracket hopen _ ih =>
      refine takes_byte.trans ⟨?_, ?_⟩
      · rintro ⟨rest, rfl, hrest⟩
        exact .bracket hopen ((ih rest).mp hrest)
      · intro h
        cases h with
        | charClass hclass _ _ =>
            rw [hopen] at hclass
            cases hclass
        | bracket _ hrest => exact ⟨_, rfl, (ih _).mpr hrest⟩
        | octet hc _ => exact absurd rfl hc.2.2.1
  | escaped c _ ih =>
      refine takes_byte.trans ⟨?_, ?_⟩
      · rintro ⟨rest, rfl, hrest⟩
        exact .escaped c ((ih rest).mp hrest)
      · intro h
        cases h with
        | escaped _ hrest => exact ⟨_, rfl, (ih _).mpr hrest⟩
        | octet hc _ => exact absurd rfl hc.2.2.2
  | backslash =>
      refine takes_byte.trans ⟨?_, ?_⟩
      · rintro ⟨rest, rfl, hrest⟩
        rw [Glob.takes_nil.mp hrest]
        exact .backslash
      · intro h
        cases h with
        | backslash => exact ⟨[], rfl, Glob.takes_nil.mpr rfl⟩
        | octet hc _ => exact absurd rfl hc.2.2.2
  | @octet pattern edges c hc _ ih =>
      refine takes_byte.trans ⟨?_, ?_⟩
      · rintro ⟨rest, rfl, hrest⟩
        exact .octet hc ((ih rest).mp hrest)
      · intro h
        cases h with
        | octet _ hrest => exact ⟨_, rfl, (ih _).mpr hrest⟩
        | star => exact absurd rfl hc.1
        | any => exact absurd rfl hc.2.1
        | charClass => exact absurd rfl hc.2.2.1
        | bracket => exact absurd rfl hc.2.2.1
        | escaped => exact absurd rfl hc.2.2.2
        | backslash => exact absurd rfl hc.2.2.2

theorem take_patternEdges_iff (pattern text : Bytes) :
    PatternEdge.Take (patternEdges pattern) text <-> PatternTakes pattern text :=
  (spells_patternEdges pattern).take_iff text

end FeoxServer
