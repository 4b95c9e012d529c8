import Mathlib.Data.List.Forall2
import Mathlib.Data.List.Infix
import Mathlib.Tactic.Linarith

/-!
# Globs

A glob is a list of parts.  A star takes any text, every other part takes one
letter.  The second half is about a search that comes back to its last choice
only.
-/

namespace Foundation

namespace Glob

/-- One part of a glob. -/
inductive Part (α : Type) where
  | star
  | one (accepts : α -> Prop)

namespace Part

variable {α : Type}

def Takes : Part α -> List α -> Prop
  | star, _ => True
  | one accepts, piece => exists a, piece = [a] ∧ accepts a

end Part

section Takes

variable {α : Type} {parts : List (Part α)} {text : List α}

def Takes (parts : List (Part α)) (text : List α) : Prop :=
  exists pieces : List (List α), pieces.flatten = text ∧
    List.Forall₂ Part.Takes parts pieces

theorem takes_nil : Takes [] text <-> text = [] := by
  constructor
  · rintro ⟨pieces, rfl, h⟩
    cases h
    rfl
  · intro h
    exact ⟨[], h.symm, .nil⟩

theorem takes_one {accepts : α -> Prop} :
    Takes (.one accepts :: parts) text <->
      exists a rest, text = a :: rest ∧ accepts a ∧ Takes parts rest := by
  constructor
  · rintro ⟨pieces, rfl, h⟩
    cases h with
    | cons hpiece hpieces =>
        rcases hpiece with ⟨a, rfl, ha⟩
        exact ⟨a, _, rfl, ha, _, rfl, hpieces⟩
  · rintro ⟨a, rest, rfl, ha, pieces, rfl, hpieces⟩
    exact ⟨[a] :: pieces, rfl, .cons ⟨a, rfl, ha⟩ hpieces⟩

theorem takes_star :
    Takes (.star :: parts) text <->
      exists rest, rest <:+ text ∧ Takes parts rest := by
  constructor
  · rintro ⟨pieces, rfl, h⟩
    cases h with
    | cons hpiece hpieces =>
        exact ⟨_, ⟨_, rfl⟩, _, rfl, hpieces⟩
  · rintro ⟨rest, ⟨front, rfl⟩, pieces, rfl, hpieces⟩
    exact ⟨front :: pieces, rfl, .cons trivial hpieces⟩

theorem takes_cons_of_nil {part : Part α} (h : Takes (part :: parts) []) :
    part = .star ∧ Takes parts [] := by
  cases part with
  | star =>
      rcases takes_star.mp h with ⟨rest, hsuffix, hrest⟩
      rw [List.suffix_nil.mp hsuffix] at hrest
      exact ⟨rfl, hrest⟩
  | one accepts =>
      rcases takes_one.mp h with ⟨a, rest, htext, _⟩
      cases htext

theorem takes_append {front back : List (Part α)} :
    Takes (front ++ back) text <->
      exists u v, u ++ v = text ∧ Takes front u ∧ Takes back v := by
  constructor
  · rintro ⟨pieces, rfl, h⟩
    refine ⟨(pieces.take front.length).flatten,
      (pieces.drop front.length).flatten, ?_, ⟨_, rfl, ?_⟩, _, rfl, ?_⟩
    · rw [← List.flatten_append, List.take_append_drop]
    · have htake := List.forall₂_take front.length h
      rwa [List.take_left] at htake
    · have hdrop := List.forall₂_drop front.length h
      rwa [List.drop_left] at hdrop
  · rintro ⟨u, v, rfl, ⟨us, rfl, hus⟩, vs, rfl, hvs⟩
    exact ⟨us ++ vs, List.flatten_append, List.rel_append hus hvs⟩

end Takes

/-!
# A search with one place to return to
-/

/-- What a search does when a letter of the pattern meets a letter of the
text. -/
inductive Move where
  | advance
  | branch
  | fail
  deriving DecidableEq

section Search

variable {α β : Type} (move : β -> α -> Move) (skips : β -> Bool)

/-- The texts a pattern stands for: a letter on which the search branches takes
any piece of the text, and at the end of the text only letters that are
skipped may be left. -/
inductive Accepts : List β -> List α -> Prop
  | finish {pattern : List β} (h : pattern.all skips = true) :
      Accepts pattern []
  | advance {p : β} {a : α} {pattern : List β} {text : List α}
      (h : move p a = .advance) (hrest : Accepts pattern text) :
      Accepts (p :: pattern) (a :: text)
  | branch {p : β} {a : α} {pattern : List β} {text rest : List α}
      (h : move p a = .branch) (hsuffix : rest <:+ a :: text)
      (hrest : Accepts pattern rest) : Accepts (p :: pattern) (a :: text)

/-- The search, with the place of the last choice: the pattern behind it and
the text that it took nothing of. -/
def search : Nat -> List β -> List α -> Option (List β × List α) -> Option Bool
  | 0, _, _, _ => none
  | _ + 1, pattern, [], _ => some (pattern.all skips)
  | fuel + 1, pattern, a :: text, choice =>
      let back :=
        match choice with
        | some (behind, _ :: rest) =>
            search fuel behind rest (some (behind, rest))
        | _ => some false
      match pattern with
      | [] => back
      | p :: pattern' =>
          match move p a with
          | .advance => search fuel pattern' text choice
          | .branch =>
              search fuel pattern' (a :: text) (some (pattern', a :: text))
          | .fail => back

theorem search_cons (fuel : Nat) (p : β) (a : α) (pattern : List β)
    (text : List α) (choice : Option (List β × List α)) :
    search move skips (fuel + 1) (p :: pattern) (a :: text) choice =
      match move p a with
      | .advance => search move skips fuel pattern text choice
      | .branch =>
          search move skips fuel pattern (a :: text) (some (pattern, a :: text))
      | .fail => search move skips (fuel + 1) [] (a :: text) choice := by
  cases hmove : move p a <;> simp only [search, hmove]

/-- The second pattern and text are reached from the first without a choice. -/
inductive Advanced (behind : List β) (from' : List α) :
    List β -> List α -> Prop
  | refl : Advanced behind from' behind from'
  | step {p : β} {a : α} {pattern : List β} {text : List α}
      (hbefore : Advanced behind from' (p :: pattern) (a :: text))
      (h : move p a = .advance) : Advanced behind from' pattern text

variable {move skips} {pattern behind : List β} {text from' w : List α}

theorem Advanced.suffix (h : Advanced move behind from' pattern text) :
    text <:+ from' := by
  induction h with
  | refl => exact List.suffix_refl _
  | step _ _ ih => exact (List.suffix_cons _ _).trans ih

theorem Accepts.rest {p : β} (h : Accepts move skips (p :: pattern) w) :
    exists rest, rest <:+ w ∧ Accepts move skips pattern rest := by
  cases h with
  | finish hskips =>
      rw [List.all_cons, Bool.and_eq_true] at hskips
      exact ⟨[], List.suffix_refl _, .finish hskips.2⟩
  | advance _ hrest => exact ⟨_, List.suffix_cons _ _, hrest⟩
  | branch _ hsuffix hrest => exact ⟨_, hsuffix, hrest⟩

theorem accepts_advance {p : β} {a : α} (h : move p a = .advance) :
    Accepts move skips (p :: pattern) (a :: text) <->
      Accepts move skips pattern text := by
  constructor
  · intro haccepts
    cases haccepts with
    | advance _ hrest => exact hrest
    | branch hbranch =>
        rw [h] at hbranch
        cases hbranch
  · exact .advance h

theorem accepts_branch {p : β} {a : α} (h : move p a = .branch) :
    Accepts move skips (p :: pattern) (a :: text) <->
      exists rest, rest <:+ a :: text ∧ Accepts move skips pattern rest := by
  constructor
  · exact Accepts.rest
  · rintro ⟨rest, hsuffix, hrest⟩
    exact .branch h hsuffix hrest

theorem not_accepts_fail {p : β} {a : α} (h : move p a = .fail) :
    ¬ Accepts move skips (p :: pattern) (a :: text) := by
  intro haccepts
  cases haccepts with
  | advance hadvance =>
      rw [h] at hadvance
      cases hadvance
  | branch hbranch =>
      rw [h] at hbranch
      cases hbranch

/-- Starting later gets no further: whatever is accepted of a later part of the
text passes the place that the search has reached at or behind its letter. -/
theorem Advanced.overtakes (h : Advanced move behind from' pattern text)
    (hw : w <:+ from') (haccepts : Accepts move skips behind w) :
    exists rest, rest <:+ text ∧ Accepts move skips pattern rest := by
  induction h with
  | refl => exact ⟨w, hw, haccepts⟩
  | step _ hadvance ih =>
      rcases ih with ⟨rest, hsuffix, hrest⟩
      rcases List.suffix_cons_iff.mp hsuffix with rfl | hlater
      · exact ⟨_, List.suffix_refl _, (accepts_advance hadvance).mp hrest⟩
      · rcases hrest.rest with ⟨rest', hsuffix', hrest'⟩
        exact ⟨rest', hsuffix'.trans hlater, hrest'⟩

def Later (move : β -> α -> Move) (skips : β -> Bool) :
    Option (List β × List α) -> Prop
  | none => False
  | some (behind, from') =>
      exists w, w <:+ from'.tail ∧ Accepts move skips behind w

def Coherent (move : β -> α -> Move) (pattern : List β) (text : List α) :
    Option (List β × List α) -> Prop
  | none => True
  | some (behind, from') => Advanced move behind from' pattern text

def room (text : List α) : Option (List β × List α) -> Nat
  | none => text.length
  | some (_, from') => from'.length

def Within (size : Nat) (pattern : List β) :
    Option (List β × List α) -> Prop
  | none => pattern.length <= size
  | some (behind, _) => pattern.length <= size ∧ behind.length <= size

theorem Later.reaches {choice : Option (List β × List α)}
    (hcoherent : Coherent move pattern text choice)
    (h : Later move skips choice) :
    exists rest, rest <:+ text ∧ Accepts move skips pattern rest := by
  cases choice with
  | none => cases h
  | some place =>
      rcases h with ⟨w, hw, haccepts⟩
      exact hcoherent.overtakes (hw.trans (List.tail_suffix _)) haccepts

theorem Coherent.step {p : β} {a : α} {choice : Option (List β × List α)}
    (h : Coherent move (p :: pattern) (a :: text) choice)
    (hmove : move p a = .advance) : Coherent move pattern text choice := by
  cases choice with
  | none => trivial
  | some place => exact Advanced.step h hmove

theorem Coherent.length_le {choice : Option (List β × List α)}
    (h : Coherent move pattern text choice) :
    text.length <= room text choice := by
  cases choice with
  | none => exact le_refl _
  | some place => exact (Advanced.suffix h).length_le

theorem room_tail (a : α) (text : List α) (choice : Option (List β × List α)) :
    room text choice <= room (a :: text) choice := by
  cases choice with
  | none => exact Nat.le_succ _
  | some place => exact le_refl _

theorem Within.length_le {size : Nat} {choice : Option (List β × List α)}
    (h : Within size pattern choice) : pattern.length <= size := by
  cases choice with
  | none => exact h
  | some place => exact h.1

theorem Within.tail {size : Nat} {p : β} {choice : Option (List β × List α)}
    (h : Within size (p :: pattern) choice) : Within size pattern choice := by
  cases choice with
  | none => exact Nat.le_of_succ_le h
  | some place => exact ⟨Nat.le_of_succ_le h.1, h.2⟩

theorem accepts_or_later :
    Accepts move skips behind from' ∨
        Later move skips (some (behind, from')) <->
      exists w, w <:+ from' ∧ Accepts move skips behind w := by
  constructor
  · rintro (haccepts | ⟨w, hw, haccepts⟩)
    · exact ⟨from', List.suffix_refl _, haccepts⟩
    · exact ⟨w, hw.trans (List.tail_suffix _), haccepts⟩
  · rintro ⟨w, hw, haccepts⟩
    cases from' with
    | nil =>
        rw [List.suffix_nil.mp hw] at haccepts
        exact Or.inl haccepts
    | cons a rest =>
        rcases List.suffix_cons_iff.mp hw with rfl | hlater
        · exact Or.inl haccepts
        · exact Or.inr ⟨w, hlater, haccepts⟩

/-- With enough rounds the search ends, and it finds what is accepted here or
after a return to the last choice. -/
theorem search_spec (size : Nat) :
    forall fuel (pattern : List β) (text : List α) choice,
      Coherent move pattern text choice -> Within size pattern choice ->
      pattern.length + room text choice * (size + 1) < fuel ->
      exists b, search move skips fuel pattern text choice = some b ∧
        (b = true <->
          Accepts move skips pattern text ∨ Later move skips choice) := by
  intro fuel
  induction fuel with
  | zero =>
      intro pattern text choice _ _ hfuel
      exact absurd hfuel (Nat.not_lt_zero _)
  | succ fuel ih =>
      intro pattern text choice hcoherent hwithin hfuel
      cases text with
      | nil =>
          refine ⟨pattern.all skips, rfl, fun hall => Or.inl (.finish hall), ?_⟩
          have hend : Accepts move skips pattern ([] : List α) ->
              pattern.all skips = true := by
            intro haccepts
            cases haccepts with
            | finish hall => exact hall
          rintro (hnow | hlater)
          · exact hend hnow
          · rcases hlater.reaches hcoherent with ⟨rest, hrest, haccepts⟩
            rw [List.suffix_nil.mp hrest] at haccepts
            exact hend haccepts
      | cons a text =>
          have hback : ¬ Accepts move skips pattern (a :: text) ->
              exists b,
                (match choice with
                  | some (behind, _ :: rest) =>
                      search move skips fuel behind rest (some (behind, rest))
                  | _ => some false) = some b ∧
                (b = true <-> Accepts move skips pattern (a :: text) ∨
                  Later move skips choice) := by
            intro hnow
            rcases choice with _ | ⟨behind, _ | ⟨x, rest⟩⟩
            · exact ⟨false, rfl, by simp [hnow, Later]⟩
            · cases List.suffix_nil.mp hcoherent.suffix
            · have hlength : behind.length <= size := hwithin.2
              rw [room, List.length_cons, Nat.succ_mul] at hfuel
              rcases ih behind rest (some (behind, rest)) .refl
                  ⟨hlength, hlength⟩ (by rw [room]; omega) with ⟨b, hb, hiff⟩
              rw [accepts_or_later] at hiff
              exact ⟨b, hb, hiff.trans (by simp [hnow, Later])⟩
          cases pattern with
          | nil => exact hback nofun
          | cons p pattern =>
              cases hmove : move p a with
              | fail =>
                  simp only [search, hmove]
                  exact hback (not_accepts_fail hmove)
              | advance =>
                  have hroom := Nat.mul_le_mul_right (size + 1)
                    (room_tail a text choice)
                  rw [List.length_cons] at hfuel
                  rcases ih pattern text choice (hcoherent.step hmove)
                      hwithin.tail (by omega) with ⟨b, hb, hiff⟩
                  simp only [search, hmove]
                  exact ⟨b, hb, by rw [hiff, accepts_advance hmove]⟩
              | branch =>
                  have hlength := hwithin.tail.length_le
                  have hroom := Nat.mul_le_mul_right (size + 1)
                    hcoherent.length_le
                  rw [show (p :: pattern).length = pattern.length + 1 from rfl] at hfuel
                  rcases ih pattern (a :: text) (some (pattern, a :: text))
                      .refl ⟨hlength, hlength⟩ (by rw [room]; omega) with
                    ⟨b, hb, hiff⟩
                  rw [accepts_or_later] at hiff
                  simp only [search, hmove]
                  refine ⟨b, hb, hiff.trans ?_⟩
                  rw [← accepts_branch hmove]
                  constructor
                  · exact Or.inl
                  · rintro (hnow | hlater)
                    · exact hnow
                    · -- The new choice covers what the last one could do.
                      rcases hlater.reaches hcoherent with ⟨rest, hrest, h⟩
                      rcases h.rest with ⟨rest', hrest', h'⟩
                      exact .branch hmove (hrest'.trans hrest) h'

theorem search_start (pattern : List β) (text : List α) {fuel : Nat}
    (hfuel : pattern.length + text.length * (pattern.length + 1) < fuel) :
    exists b, search move skips fuel pattern text none = some b ∧
      (b = true <-> Accepts move skips pattern text) := by
  rcases search_spec pattern.length fuel pattern text none trivial (le_refl _)
      hfuel with ⟨b, hb, hiff⟩
  exact ⟨b, hb, hiff.trans (iff_of_eq (or_false _))⟩

/-!
# The search on places
-/

/-- The places in the pattern and in the text, and those of the last choice. -/
structure Cursor where
  patternIdx : Nat
  textIdx : Nat
  choice : Option (Nat × Nat)

def Cursor.start : Cursor where
  patternIdx := 0
  textIdx := 0
  choice := none

variable (move skips) in
/-- The search as a loop over two places. -/
def walk (pattern : List β) (text : List α) : Nat -> Cursor -> Option Bool
  | 0, _ => none
  | rounds + 1, c =>
      match text[c.textIdx]? with
      | none => some ((pattern.drop c.patternIdx).all skips)
      | some a =>
          let back :=
            match c.choice with
            | some (place, taken) =>
                walk pattern text rounds
                  { patternIdx := place + 1
                    textIdx := taken + 1
                    choice := some (place, taken + 1) }
            | none => some false
          match pattern[c.patternIdx]? with
          | none => back
          | some p =>
              match move p a with
              | .advance =>
                  walk pattern text rounds
                    { c with
                      patternIdx := c.patternIdx + 1
                      textIdx := c.textIdx + 1 }
              | .branch =>
                  walk pattern text rounds
                    { c with
                      patternIdx := c.patternIdx + 1
                      choice := some (c.patternIdx, c.textIdx) }
              | .fail => back

/-- What the places stand for. -/
def Cursor.lists (pattern : List β) (text : List α) (place : Nat × Nat) :
    List β × List α :=
  (pattern.drop (place.1 + 1), text.drop place.2)

theorem walk_eq_search (pattern : List β) (text : List α) (rounds : Nat)
    (c : Cursor) (h : forall place, c.choice = some place -> place.2 <= c.textIdx) :
    walk move skips pattern text rounds c =
      search move skips rounds (pattern.drop c.patternIdx)
        (text.drop c.textIdx) (c.choice.map (Cursor.lists pattern text)) := by
  induction rounds generalizing c with
  | zero => rfl
  | succ rounds ih =>
      rcases Nat.lt_or_ge c.textIdx text.length with htext | htext
      · have hback :
            (match c.choice with
              | some (place, taken) =>
                  walk move skips pattern text rounds
                    { patternIdx := place + 1
                      textIdx := taken + 1
                      choice := some (place, taken + 1) }
              | none => some false) =
            (match c.choice.map (Cursor.lists pattern text) with
              | some (behind, _ :: rest) =>
                  search move skips rounds behind rest (some (behind, rest))
              | _ => some false) := by
          cases hchoice : c.choice with
          | none => rfl
          | some place =>
              rcases place with ⟨place, taken⟩
              have htaken : taken < text.length :=
                lt_of_le_of_lt (h (place, taken) hchoice) htext
              refine (ih ⟨place + 1, taken + 1, some (place, taken + 1)⟩ ?_).trans ?_
              · rintro _ ⟨⟩
                exact le_refl _
              · simp only [Option.map_some, Cursor.lists,
                  List.drop_eq_getElem_cons htaken]
        rw [List.drop_eq_getElem_cons htext, walk,
          List.getElem?_eq_getElem htext]
        rcases Nat.lt_or_ge c.patternIdx pattern.length with hplace | hplace
        · rw [List.drop_eq_getElem_cons hplace, List.getElem?_eq_getElem hplace]
          cases hmove : move pattern[c.patternIdx] text[c.textIdx] with
          | advance =>
              simp only [search, hmove]
              exact ih _ fun place hchoice => (h place hchoice).trans (Nat.le_succ _)
          | branch =>
              simp only [search, hmove]
              rw [ih _ (by rintro _ ⟨⟩; exact le_refl _)]
              simp only [Option.map_some, Cursor.lists,
                List.drop_eq_getElem_cons htext]
          | fail =>
              simp only [search, hmove]
              exact hback
        · rw [List.drop_eq_nil_of_le hplace, List.getElem?_eq_none hplace]
          exact hback
      · rw [List.drop_eq_nil_of_le htext, walk, List.getElem?_eq_none htext]
        cases hpattern : pattern.drop c.patternIdx <;> rfl

/-!
# Loops that are searches
-/

variable (move skips) in
/-- A loop that does what the search does, and gives up when the fuel is
out. -/
structure Follows
    (loop : Nat -> List β -> List α -> Option (List β × List α) -> Bool) :
    Prop where
  out : forall pattern text choice, loop 0 pattern text choice = false
  finish : forall fuel pattern choice,
    loop (fuel + 1) pattern [] choice = pattern.all skips
  back : forall fuel a text choice,
    loop (fuel + 1) [] (a :: text) choice =
      match choice with
      | some (behind, _ :: rest) => loop fuel behind rest (some (behind, rest))
      | _ => false
  step : forall fuel p a pattern text choice,
    loop (fuel + 1) (p :: pattern) (a :: text) choice =
      match move p a with
      | .advance => loop fuel pattern text choice
      | .branch => loop fuel pattern (a :: text) (some (pattern, a :: text))
      | .fail => loop (fuel + 1) [] (a :: text) choice

namespace Follows

variable {loop : Nat -> List β -> List α -> Option (List β × List α) -> Bool}

theorem eq_search (h : Follows move skips loop) (fuel : Nat) (pattern : List β)
    (text : List α) (choice : Option (List β × List α)) :
    loop fuel pattern text choice =
      (search move skips fuel pattern text choice).getD false := by
  induction fuel generalizing pattern text choice with
  | zero => exact h.out pattern text choice
  | succ fuel ih =>
      cases text with
      | nil =>
          rw [h.finish]
          cases pattern <;> rfl
      | cons a text =>
          have hback : loop (fuel + 1) [] (a :: text) choice =
              (search move skips (fuel + 1) [] (a :: text) choice).getD
                false := by
            rw [h.back]
            rcases choice with _ | ⟨behind, _ | ⟨x, rest⟩⟩
            · rfl
            · rfl
            · exact ih behind rest _
          cases pattern with
          | nil => exact hback
          | cons p pattern =>
              rw [h.step, search_cons]
              cases move p a with
              | advance => exact ih pattern text choice
              | branch => exact ih pattern (a :: text) _
              | fail => exact hback

/-- With enough fuel the loop finds out what the pattern accepts, and so does
the loop over places. -/
theorem spec (h : Follows move skips loop) (pattern : List β) (text : List α)
    {fuel : Nat}
    (hfuel : pattern.length + text.length * (pattern.length + 1) < fuel) :
    walk move skips pattern text fuel .start =
        some (loop fuel pattern text none) ∧
      (loop fuel pattern text none = true <->
        Accepts move skips pattern text) := by
  rcases @search_start _ _ move skips pattern text fuel hfuel with
    ⟨b, hsearch, hiff⟩
  rw [h.eq_search, hsearch, walk_eq_search pattern text fuel .start nofun]
  exact ⟨hsearch, hiff⟩

end Follows

end Search

end Glob

end Foundation
