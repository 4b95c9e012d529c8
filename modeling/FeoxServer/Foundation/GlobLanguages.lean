import FeoxServer.Foundation.Glob

/-!
# What two globs have in common

Every part of a glob that is not a star has to take a letter.  The shortest
texts therefore take one letter for each of them, and two globs with their
stars at the same places take the same texts only if they agree letter by
letter.
-/

namespace Foundation

namespace Glob

variable {α : Type}

namespace Part

def isStar : Part α -> Bool
  | star => true
  | one _ => false

def letter? : Part α -> Option (α -> Prop)
  | star => none
  | one accepts => some accepts

def Same : Part α -> Part α -> Prop
  | star, star => True
  | one accepts, one accepts' => forall a, accepts a <-> accepts' a
  | _, _ => False

theorem Same.refl (part : Part α) : Same part part := by
  cases part with
  | star => trivial
  | one accepts => exact fun a => Iff.rfl

theorem Same.symm {part part' : Part α} (h : Same part part') :
    Same part' part := by
  cases part with
  | star =>
      cases part' with
      | star => trivial
      | one accepts => cases h
  | one accepts =>
      cases part' with
      | star => cases h
      | one accepts' => exact fun a => (h a).symm

end Part

def letters (parts : List (Part α)) : List (α -> Prop) :=
  parts.filterMap Part.letter?

@[simp] theorem letters_star (parts : List (Part α)) :
    letters (.star :: parts) = letters parts :=
  rfl

@[simp] theorem letters_one (accepts : α -> Prop) (parts : List (Part α)) :
    letters (.one accepts :: parts) = accepts :: letters parts :=
  rfl

/-- Every letter of the text is one that its predicate accepts. -/
abbrev Fits (predicates : List (α -> Prop)) (text : List α) : Prop :=
  List.Forall₂ (fun accepts a => accepts a) predicates text

def Dead (parts : List (Part α)) : Prop :=
  exists accepts, accepts ∈ letters parts ∧ forall a, ¬ accepts a

variable {parts parts' : List (Part α)} {text : List α}

theorem takes_of_fits (h : Fits (letters parts) text) : Takes parts text := by
  induction parts generalizing text with
  | nil =>
      cases h
      exact takes_nil.mpr rfl
  | cons part parts ih =>
      cases part with
      | star => exact takes_star.mpr ⟨text, List.suffix_refl _, ih h⟩
      | one accepts =>
          cases h with
          | cons ha hrest => exact takes_one.mpr ⟨_, _, rfl, ha, ih hrest⟩

theorem Takes.length_le (h : Takes parts text) :
    (letters parts).length <= text.length := by
  induction parts generalizing text with
  | nil => exact Nat.zero_le _
  | cons part parts ih =>
      cases part with
      | star =>
          rcases takes_star.mp h with ⟨rest, hsuffix, hrest⟩
          exact (ih hrest).trans hsuffix.length_le
      | one accepts =>
          rcases takes_one.mp h with ⟨a, rest, rfl, _, hrest⟩
          exact Nat.succ_le_succ (ih hrest)

theorem Takes.fits (h : Takes parts text)
    (hlength : text.length = (letters parts).length) :
    Fits (letters parts) text := by
  induction parts generalizing text with
  | nil =>
      rw [takes_nil.mp h]
      exact .nil
  | cons part parts ih =>
      cases part with
      | star =>
          rcases takes_star.mp h with ⟨rest, hsuffix, hrest⟩
          have hle : text.length <= rest.length := by
            rw [hlength]
            exact hrest.length_le
          rw [hsuffix.eq_of_length_le hle] at hrest
          exact ih hrest hlength
      | one accepts =>
          rcases takes_one.mp h with ⟨a, rest, rfl, ha, hrest⟩
          exact .cons ha (ih hrest (Nat.succ.inj hlength))

theorem takes_iff_fits (hlength : text.length = (letters parts).length) :
    Takes parts text <-> Fits (letters parts) text :=
  ⟨fun h => h.fits hlength, takes_of_fits⟩

theorem exists_fits {predicates : List (α -> Prop)}
    (h : forall accepts, accepts ∈ predicates -> exists a, accepts a) :
    exists text, Fits predicates text := by
  induction predicates with
  | nil => exact ⟨[], .nil⟩
  | cons accepts predicates ih =>
      rcases h accepts List.mem_cons_self with ⟨a, ha⟩
      rcases ih fun accepts' hmem => h accepts' (List.mem_cons_of_mem _ hmem) with
        ⟨text, htext⟩
      exact ⟨a :: text, .cons ha htext⟩

theorem exists_takes (h : ¬ Dead parts) :
    exists text, Fits (letters parts) text := by
  refine exists_fits fun accepts hmem => ?_
  by_contra hnone
  exact h ⟨accepts, hmem, fun a ha => hnone ⟨a, ha⟩⟩

theorem Takes.not_dead (h : Takes parts text) : ¬ Dead parts := by
  rintro ⟨accepts, hmem, hnone⟩
  induction parts generalizing text with
  | nil => cases hmem
  | cons part parts ih =>
      cases part with
      | star =>
          rcases takes_star.mp h with ⟨rest, _, hrest⟩
          exact ih hrest hmem
      | one accepts' =>
          rcases takes_one.mp h with ⟨a, rest, _, ha, hrest⟩
          rcases List.mem_cons.mp hmem with rfl | hlater
          · exact hnone a ha
          · exact ih hrest hlater

/-- Two lists of predicates that can be met are met by the same texts only if
they agree one by one. -/
theorem forall₂_iff_of_fits_iff {fs gs : List (α -> Prop)} {u v : List α}
    (hu : Fits fs u) (hv : Fits gs v) (hlength : fs.length = gs.length)
    (h : forall text, Fits fs text <-> Fits gs text) :
    List.Forall₂ (fun f g => forall a, f a <-> g a) fs gs := by
  induction hu generalizing gs v with
  | nil =>
      rw [List.eq_nil_of_length_eq_zero hlength.symm]
      exact .nil
  | @cons f b fs u hb hrest ih =>
      cases hv with
      | nil => cases hlength
      | @cons g c gs v hc hrest' =>
          have hhead : forall a, f a <-> g a := by
            intro a
            constructor
            · intro ha
              cases (h (a :: u)).mp (.cons ha hrest) with
              | cons ha' _ => exact ha'
            · intro ha
              cases (h (a :: v)).mpr (.cons ha hrest') with
              | cons ha' _ => exact ha'
          refine .cons hhead (ih hrest' (Nat.succ.inj hlength) fun text => ?_)
          constructor
          · intro htext
            cases (h (b :: text)).mp (.cons hb htext) with
            | cons _ htext' => exact htext'
          · intro htext
            cases (h (c :: text)).mpr (.cons hc htext) with
            | cons _ htext' => exact htext'

theorem length_letters_eq (h : parts.map Part.isStar = parts'.map Part.isStar) :
    (letters parts).length = (letters parts').length := by
  have hcount : forall parts : List (Part α), (letters parts).length =
      (parts.map Part.isStar).count false := by
    intro parts
    induction parts with
    | nil => rfl
    | cons part parts ih => cases part <;> simp [Part.isStar, ih]
  rw [hcount, hcount, h]

theorem same_of_letters (h : parts.map Part.isStar = parts'.map Part.isStar)
    (hletters : List.Forall₂ (fun f g => forall a, f a <-> g a) (letters parts)
      (letters parts')) : List.Forall₂ Part.Same parts parts' := by
  induction parts generalizing parts' with
  | nil =>
      rw [List.map_eq_nil_iff.mp h.symm]
      exact .nil
  | cons part parts ih =>
      cases parts' with
      | nil => cases h
      | cons part' parts' =>
          rcases List.cons.inj h with ⟨hhead, htail⟩
          cases part with
          | star =>
              cases part' with
              | star => exact .cons trivial (ih htail hletters)
              | one accepts => cases hhead
          | one accepts =>
              cases part' with
              | star => cases hhead
              | one accepts' =>
                  cases hletters with
                  | cons hsame hrest => exact .cons hsame (ih htail hrest)

theorem Takes.of_same (h : List.Forall₂ Part.Same parts parts')
    (htakes : Takes parts text) : Takes parts' text := by
  induction h generalizing text with
  | nil => exact htakes
  | @cons part part' parts parts' hsame _ ih =>
      cases part with
      | star =>
          cases part' with
          | one accepts => cases hsame
          | star =>
              rcases takes_star.mp htakes with ⟨rest, hsuffix, hrest⟩
              exact takes_star.mpr ⟨rest, hsuffix, ih hrest⟩
      | one accepts =>
          cases part' with
          | star => cases hsame
          | one accepts' =>
              rcases takes_one.mp htakes with ⟨a, rest, rfl, ha, hrest⟩
              exact takes_one.mpr ⟨a, rest, rfl, (hsame a).mp ha, ih hrest⟩

/-- Globs with their stars at the same places take the same texts if and only
if they agree part by part or take nothing at all. -/
theorem takes_same_iff (h : parts.map Part.isStar = parts'.map Part.isStar) :
    (forall text, Takes parts text <-> Takes parts' text) <->
      List.Forall₂ Part.Same parts parts' ∨ (Dead parts ∧ Dead parts') := by
  constructor
  · intro heq
    by_cases hdead : Dead parts
    · refine Or.inr ⟨hdead, ?_⟩
      by_contra hlive
      rcases exists_takes hlive with ⟨text, htext⟩
      exact ((heq text).mpr (takes_of_fits htext)).not_dead hdead
    · rcases exists_takes hdead with ⟨u, hu⟩
      have hlive : ¬ Dead parts' := ((heq u).mp (takes_of_fits hu)).not_dead
      rcases exists_takes hlive with ⟨v, hv⟩
      have hlength := length_letters_eq h
      refine Or.inl (same_of_letters h
        (forall₂_iff_of_fits_iff hu hv hlength fun text => ?_))
      by_cases htext : text.length = (letters parts).length
      · rw [← takes_iff_fits htext, heq, takes_iff_fits (htext.trans hlength)]
      · refine iff_of_false (fun hfits => htext hfits.length_eq.symm) fun hfits => ?_
        exact htext (hfits.length_eq.symm.trans hlength.symm)
  · rintro (hsame | ⟨hdead, hdead'⟩) text
    · refine ⟨Takes.of_same hsame, Takes.of_same ?_⟩
      exact (List.Forall₂.imp (fun _ _ => Part.Same.symm) hsame).flip
    · exact iff_of_false (fun ht => ht.not_dead hdead) fun ht =>
        ht.not_dead hdead'

/-- Behind a star a text can be put off: some text is taken both by itself and
as the end of a longer one. -/
theorem exists_takes_longer (a : α) (hstar : .star ∈ parts)
    (hlive : ¬ Dead parts) :
    exists y w : List α, y ≠ [] ∧ Takes parts w ∧ Takes parts (y ++ w) := by
  rcases exists_takes hlive with ⟨text, htext⟩
  have htakes := takes_of_fits htext
  rcases List.append_of_mem hstar with ⟨front, back, rfl⟩
  rcases takes_append.mp htakes with ⟨u, v, rfl, hu, hv⟩
  rcases takes_star.mp hv with ⟨rest, hsuffix, hrest⟩
  refine ⟨u ++ [a], u ++ v, by simp, htakes, takes_append.mpr ?_⟩
  refine ⟨u, a :: (u ++ v), by simp, hu, takes_star.mpr ⟨rest, ?_, hrest⟩⟩
  exact hsuffix.trans ((List.suffix_append u v).trans (List.suffix_cons _ _))

end Glob

end Foundation
