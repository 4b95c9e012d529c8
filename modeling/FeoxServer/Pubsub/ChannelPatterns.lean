import FeoxServer.Protocol.KeyPatterns
import FeoxServer.Pubsub.Registry

/-!
# Patterns of channels

The registry of channels has a `glob_match` of its own, which compares the
octets before it looks for a star.
-/

namespace FeoxServer

open Foundation

namespace GlobalRegistry

/-- What the registry's `glob_match` does when it meets `p` and `t`. -/
def globMove (p t : UInt8) : Glob.Move :=
  if p == t || p == 63 then .advance
  else if p == 42 then .branch
  else .fail

/-- The text can be split as the pattern says, where a star before a star of
the text takes that one octet. -/
inductive LiteralStars : Bytes -> Bytes -> Prop
  | nil : LiteralStars [] []
  | octet {p t : UInt8} {pattern text : Bytes} (hp : p ≠ 42)
      (hpt : p = 63 ∨ p = t) (hrest : LiteralStars pattern text) :
      LiteralStars (p :: pattern) (t :: text)
  | literal {pattern text : Bytes} (hrest : LiteralStars pattern text) :
      LiteralStars (42 :: pattern) (42 :: text)
  | star {pattern text rest : Bytes} (hhead : text.head? ≠ some 42)
      (hsuffix : rest <:+ text) (hrest : LiteralStars pattern rest) :
      LiteralStars (42 :: pattern) text

theorem LiteralStars.globTakes {pattern text : Bytes}
    (h : LiteralStars pattern text) : GlobTakes pattern text := by
  induction h with
  | nil => exact ⟨[], rfl, .nil⟩
  | octet hp hpt _ ih => exact (globTakes_cons hp).mpr ⟨_, _, rfl, hpt, ih⟩
  | literal _ ih => exact globTakes_star.mpr ⟨_, List.suffix_cons _ _, ih⟩
  | star _ hsuffix _ ih => exact globTakes_star.mpr ⟨_, hsuffix, ih⟩

theorem literalStars_nil_text {pattern : Bytes} :
    LiteralStars pattern [] <-> pattern.all isStar = true := by
  constructor
  · exact fun h => globTakes_nil_text.mp h.globTakes
  · intro hall
    induction pattern with
    | nil => exact .nil
    | cons p pattern ih =>
        rw [List.all_cons, Bool.and_eq_true] at hall
        obtain rfl : p = 42 := eq_of_beq hall.1
        exact .star nofun (List.suffix_refl _) (ih hall.2)

theorem globMove_eq_advance {p t : UInt8} :
    globMove p t = .advance <-> p = t ∨ p = 63 := by
  unfold globMove
  by_cases hpt : p = t ∨ p = 63
  · simp [hpt]
  · simp only [hpt, iff_false]
    by_cases hp : p = 42 <;> simp_all

theorem globMove_eq_branch {p t : UInt8} :
    globMove p t = .branch <-> p = 42 ∧ t ≠ 42 := by
  unfold globMove
  by_cases hp : p = 42
  · subst hp
    by_cases ht : t = 42
    · simp [ht]
    · simp [ht, Ne.symm ht]
  · by_cases hpt : p = t ∨ p = 63 <;> simp_all

theorem accepts_globMove (pattern text : Bytes) :
    Glob.Accepts globMove isStar pattern text <-> LiteralStars pattern text := by
  constructor
  · intro h
    induction h with
    | finish hall => exact literalStars_nil_text.mpr hall
    | @advance p t pattern text hmove _ ih =>
        by_cases hp : p = 42
        · subst hp
          obtain rfl : 42 = t := (globMove_eq_advance.mp hmove).resolve_right (by decide)
          exact .literal ih
        · exact .octet hp (globMove_eq_advance.mp hmove).symm ih
    | @branch p t pattern text rest hmove hsuffix _ ih =>
        rcases globMove_eq_branch.mp hmove with ⟨rfl, ht⟩
        exact .star (fun heq => ht (Option.some.inj heq)) hsuffix ih
  · intro h
    induction h with
    | nil => exact .finish rfl
    | octet _ hpt _ ih => exact .advance (globMove_eq_advance.mpr hpt.symm) ih
    | literal _ ih => exact .advance rfl ih
    | @star pattern text rest hhead hsuffix _ ih =>
        cases text with
        | nil =>
            rw [List.suffix_nil.mp hsuffix] at ih
            cases ih with
            | finish hall => exact .finish hall
        | cons t text =>
            refine .branch (globMove_eq_branch.mpr ⟨rfl, fun ht => ?_⟩) hsuffix ih
            exact hhead (congrArg some ht)

theorem globLoop_follows : Glob.Follows globMove isStar globLoop where
  out _ _ _ := by rw [globLoop]
  finish _ pattern _ := by
    cases pattern <;> rfl
  back _ _ _ star := by
    rcases star with _ | ⟨behind, _ | ⟨a, rest⟩⟩ <;> rfl
  step _ _ _ _ _ star := by
    unfold globMove
    rcases star with _ | ⟨behind, _ | ⟨a, rest⟩⟩ <;>
      simp only [globLoop] <;> split_ifs <;> rfl

theorem globMatch_iff {pattern text : Bytes} :
    globMatch pattern text = true <-> LiteralStars pattern text :=
  (globLoop_follows.spec pattern text (rounds_suffice pattern text)).2.trans
    (accepts_globMove pattern text)

/-- The two matchers agree if and only if a text that matches can be split
with every star before a star of the text taking that one octet. -/
theorem globMatch_agree_iff (pattern text : Bytes) :
    globMatch pattern text = FeoxServer.globMatch pattern text <->
      (GlobTakes pattern text -> LiteralStars pattern text) := by
  rw [Bool.eq_iff_iff, globMatch_iff, FeoxServer.globMatch_iff]
  constructor
  · exact Iff.mpr
  · exact fun h => ⟨LiteralStars.globTakes, h⟩

/-- The pattern `*a` and the text `*ba`. -/
theorem globMatch_disagree :
    globMatch [42, 97] [42, 98, 97] ≠
      FeoxServer.globMatch [42, 97] [42, 98, 97] := by
  decide

theorem literalStars_of_globTakes {pattern text : Bytes} (h : GlobTakes pattern text)
    (hstars : 42 ∉ text) : LiteralStars pattern text := by
  induction pattern generalizing text with
  | nil =>
      rw [Glob.takes_nil.mp h]
      exact .nil
  | cons p pattern ih =>
      by_cases hp : p = 42
      · subst hp
        rcases globTakes_star.mp h with ⟨rest, hsuffix, hrest⟩
        refine .star (fun hhead => hstars (List.mem_of_head? hhead)) hsuffix ?_
        exact ih hrest fun hmem => hstars (hsuffix.subset hmem)
      · rcases (globTakes_cons hp).mp h with ⟨t, rest, rfl, hpt, hrest⟩
        exact .octet hp hpt (ih hrest fun hmem => hstars (List.mem_cons_of_mem _ hmem))

theorem globMatch_eq_of_starless {pattern text : Bytes} (h : 42 ∉ text) :
    globMatch pattern text = FeoxServer.globMatch pattern text := by
  rw [Bool.eq_iff_iff, globMatch_iff, FeoxServer.globMatch_iff]
  exact ⟨LiteralStars.globTakes, fun htakes => literalStars_of_globTakes htakes h⟩

end GlobalRegistry

end FeoxServer
