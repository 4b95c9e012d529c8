import FeoxServer.Pubsub.PatternLanguage

/-!
# What the search of the trie finds

At the end of a channel the search looks behind one star and no further.  It
therefore reads two stars at the end of a pattern as a star behind one
arbitrary octet.
-/

namespace FeoxServer

open Foundation Glob

section Finds

variable {α : Type}

/-- The search along one path, which the parts describe. -/
inductive SearchFinds : List (Glob.Part α) -> List α -> Prop
  | nil : SearchFinds [] []
  | lastStar : SearchFinds [.star] []
  | one {accepts : α -> Prop} {parts : List (Glob.Part α)} {a : α} {text : List α}
      (ha : accepts a) (hrest : SearchFinds parts text) :
      SearchFinds (.one accepts :: parts) (a :: text)
  | star {parts : List (Glob.Part α)} {a : α} {text rest : List α}
      (hsuffix : rest <:+ a :: text) (hrest : SearchFinds parts rest) :
      SearchFinds (.star :: parts) (a :: text)

def repair : List (Glob.Part α) -> List (Glob.Part α)
  | [] => []
  | [.star, .star] => [.one fun _ => True, .star]
  | part :: parts => part :: repair parts

theorem repair_cons_one (accepts : α -> Prop) (parts : List (Glob.Part α)) :
    repair (.one accepts :: parts) = .one accepts :: repair parts := by
  rw [repair]
  nofun

theorem repair_cons_star {parts : List (Glob.Part α)} (h : parts ≠ [.star]) :
    repair (.star :: parts) = .star :: repair parts := by
  rw [repair]
  rintro _ rfl
  exact h rfl

theorem repair_append (front : List (Glob.Part α)) :
    repair (front ++ [.star, .star]) = front ++ [.one fun _ => True, .star] := by
  induction front with
  | nil => rfl
  | cons part front ih =>
      rw [List.cons_append, repair, ih]
      · rfl
      · rintro - h
        cases front with
        | nil => cases h
        | cons part' front => simp at h

theorem repair_eq_self {parts : List (Glob.Part α)}
    (h : forall front, parts ≠ front ++ [.star, .star]) : repair parts = parts := by
  induction parts with
  | nil => rfl
  | cons part parts ih =>
      have hrest : repair parts = parts :=
        ih fun front heq => h (part :: front) (congrArg (part :: ·) heq)
      rw [repair, hrest]
      rintro rfl rfl
      exact h [] rfl

theorem eq_of_takes_repair_nil {parts : List (Glob.Part α)}
    (h : Takes (repair parts) []) : parts = [] ∨ parts = [.star] := by
  induction parts with
  | nil => exact Or.inl rfl
  | cons part parts ih =>
      cases part with
      | one accepts =>
          rw [repair_cons_one] at h
          cases (takes_cons_of_nil h).1
      | star =>
          by_cases hlast : parts = [.star]
          · subst hlast
            cases (takes_cons_of_nil h).1
          · rw [repair_cons_star hlast] at h
            rcases ih (takes_cons_of_nil h).2 with rfl | hstar
            · exact Or.inr rfl
            · exact absurd hstar hlast

theorem finds_star_iff {parts : List (Glob.Part α)} {a : α} {text : List α} :
    SearchFinds (.star :: parts) (a :: text) <->
      exists rest, rest <:+ a :: text ∧ SearchFinds parts rest := by
  constructor
  · intro h
    cases h with
    | star hsuffix hrest => exact ⟨_, hsuffix, hrest⟩
  · rintro ⟨rest, hsuffix, hrest⟩
    exact .star hsuffix hrest

theorem finds_nil_text {parts : List (Glob.Part α)} :
    SearchFinds parts [] <-> parts = [] ∨ parts = [.star] := by
  constructor
  · intro h
    cases h with
    | nil => exact Or.inl rfl
    | lastStar => exact Or.inr rfl
  · rintro (rfl | rfl)
    · exact .nil
    · exact .lastStar

theorem finds_last_star (text : List α) : SearchFinds [.star] text := by
  cases text with
  | nil => exact .lastStar
  | cons a text => exact .star (List.nil_suffix) .nil

theorem finds_iff (parts : List (Glob.Part α)) (text : List α) :
    SearchFinds parts text <-> Takes (repair parts) text := by
  induction parts generalizing text with
  | nil =>
      refine Iff.trans ?_ takes_nil.symm
      constructor
      · rintro ⟨⟩
        rfl
      · rintro rfl
        exact .nil
  | cons part parts ih =>
      cases text with
      | nil =>
          rw [finds_nil_text]
          refine ⟨?_, eq_of_takes_repair_nil⟩
          rintro (heq | heq)
          · cases heq
          · rw [heq]
            exact takes_star.mpr ⟨[], List.suffix_refl _, takes_nil.mpr rfl⟩
      | cons a text =>
          cases part with
          | one accepts =>
              rw [repair_cons_one, takes_one]
              constructor
              · intro h
                cases h with
                | one ha hrest => exact ⟨a, text, rfl, ha, (ih text).mp hrest⟩
              · rintro ⟨a', rest, heq, ha, hrest⟩
                cases heq
                exact .one ha ((ih text).mpr hrest)
          | star =>
              rw [finds_star_iff]
              by_cases hlast : parts = [.star]
              · subst hlast
                refine iff_of_true ⟨_, List.suffix_refl _, finds_last_star _⟩ ?_
                refine takes_one.mpr ⟨a, text, rfl, trivial, takes_star.mpr ?_⟩
                exact ⟨[], List.nil_suffix, takes_nil.mpr rfl⟩
              · rw [repair_cons_star hlast, takes_star]
                exact exists_congr fun rest => and_congr_right fun _ => ih rest

theorem takes_repair_append (front : List (Glob.Part α)) (text : List α) :
    Takes (repair (front ++ [.star, .star])) text <->
      exists u, u <+: text ∧ u ≠ text ∧ Takes front u := by
  rw [repair_append, takes_append]
  constructor
  · rintro ⟨u, v, rfl, hu, hv⟩
    rcases takes_one.mp hv with ⟨a, rest, rfl, _, _⟩
    refine ⟨u, ⟨_, rfl⟩, fun heq => ?_, hu⟩
    exact List.cons_ne_nil a rest (List.self_eq_append_right.mp heq)
  · rintro ⟨u, ⟨v, rfl⟩, hne, hu⟩
    cases v with
    | nil => exact absurd (List.append_nil u).symm hne
    | cons a rest =>
        refine ⟨u, a :: rest, rfl, hu, takes_one.mpr ⟨a, rest, rfl, trivial, ?_⟩⟩
        exact takes_star.mpr ⟨[], List.nil_suffix, takes_nil.mpr rfl⟩

/-- The search finds what the parts take, except that two stars at the end do
not both take nothing. -/
theorem finds_iff_takes_iff (parts : List (Glob.Part α)) (text : List α) :
    (SearchFinds parts text <-> Takes parts text) <->
      forall front, parts = front ++ [.star, .star] -> Takes front text ->
        exists u, u <+: text ∧ u ≠ text ∧ Takes front u := by
  rw [finds_iff]
  constructor
  · rintro heq front rfl hfront
    rw [← takes_repair_append, heq]
    refine takes_append.mpr ⟨text, [], List.append_nil _, hfront, ?_⟩
    refine takes_star.mpr ⟨[], List.suffix_refl _, takes_star.mpr ?_⟩
    exact ⟨[], List.suffix_refl _, takes_nil.mpr rfl⟩
  · intro h
    by_cases hlast : exists front, parts = front ++ [.star, .star]
    · rcases hlast with ⟨front, rfl⟩
      rw [takes_repair_append]
      constructor
      · rintro ⟨u, ⟨v, rfl⟩, _, hu⟩
        refine takes_append.mpr ⟨u, v, rfl, hu, takes_star.mpr ?_⟩
        refine ⟨v, List.suffix_refl _, takes_star.mpr ?_⟩
        exact ⟨[], List.nil_suffix, takes_nil.mpr rfl⟩
      · intro htakes
        rcases takes_append.mp htakes with ⟨u, v, rfl, hu, _⟩
        by_cases hv : v = []
        · subst hv
          rw [List.append_nil] at h ⊢
          exact h front rfl hu
        · refine ⟨u, ⟨v, rfl⟩, fun heq => hv ?_, hu⟩
          exact List.self_eq_append_right.mp heq
    · rw [repair_eq_self fun front heq => hlast ⟨front, heq⟩]

/-!
# Repaired parts
-/

theorem shape_append_iff {parts : List (Glob.Part α)} :
    (exists front, parts = front ++ [.star, .star]) <->
      exists shape, parts.map Part.isStar = shape ++ [true, true] := by
  have hstar : forall part : Glob.Part α, part.isStar = true -> part = .star := by
    intro part h
    cases part with
    | star => rfl
    | one accepts => cases h
  constructor
  · rintro ⟨front, rfl⟩
    exact ⟨front.map Part.isStar, by simp [Part.isStar]⟩
  · rintro ⟨shape, h⟩
    rcases List.map_eq_append_iff.mp h with ⟨front, back, rfl, _, hback⟩
    rcases List.map_eq_cons_iff.mp hback with ⟨p, back', rfl, hp, hback'⟩
    rcases List.map_eq_cons_iff.mp hback' with ⟨q, back'', rfl, hq, hnil⟩
    rw [hstar p hp, hstar q hq, List.map_eq_nil_iff.mp hnil]
    exact ⟨front, rfl⟩

theorem repair_cases {parts parts' : List (Glob.Part α)}
    (h : parts.map Part.isStar = parts'.map Part.isStar) :
    (repair parts = parts ∧ repair parts' = parts') ∨
      exists front front', parts = front ++ [.star, .star] ∧
        parts' = front' ++ [.star, .star] ∧
        front.map Part.isStar = front'.map Part.isStar := by
  by_cases hlast : exists front, parts = front ++ [.star, .star]
  · have hlast' := hlast
    rw [shape_append_iff, h, ← shape_append_iff] at hlast'
    rcases hlast with ⟨front, rfl⟩
    rcases hlast' with ⟨front', rfl⟩
    refine Or.inr ⟨front, front', rfl, rfl, ?_⟩
    simpa using h
  · have hlast' := hlast
    rw [shape_append_iff, h, ← shape_append_iff] at hlast'
    exact Or.inl ⟨repair_eq_self fun front heq => hlast ⟨front, heq⟩,
      repair_eq_self fun front heq => hlast' ⟨front, heq⟩⟩

theorem repair_shape {parts parts' : List (Glob.Part α)}
    (h : parts.map Part.isStar = parts'.map Part.isStar) :
    (repair parts).map Part.isStar = (repair parts').map Part.isStar := by
  rcases repair_cases h with ⟨heq, heq'⟩ | ⟨front, front', rfl, rfl, hfront⟩
  · rw [heq, heq', h]
  · rw [repair_append, repair_append, List.map_append, List.map_append, hfront]

theorem repair_same_iff {parts parts' : List (Glob.Part α)}
    (h : parts.map Part.isStar = parts'.map Part.isStar) :
    List.Forall₂ Part.Same (repair parts) (repair parts') <->
      List.Forall₂ Part.Same parts parts' := by
  rcases repair_cases h with ⟨heq, heq'⟩ | ⟨front, front', rfl, rfl, hfront⟩
  · rw [heq, heq']
  · have hlength : front.length = front'.length := by
      simpa using congrArg List.length hfront
    rw [repair_append, repair_append]
    constructor
    · intro hsame
      refine List.rel_append ?_ (.cons (Part.Same.refl _) (.cons (Part.Same.refl _) .nil))
      have htake := List.forall₂_take front.length hsame
      rwa [List.take_left, hlength, List.take_left] at htake
    · intro hsame
      refine List.rel_append ?_ (.cons (Part.Same.refl _) (.cons (Part.Same.refl _) .nil))
      have htake := List.forall₂_take front.length hsame
      rwa [List.take_left, hlength, List.take_left] at htake

theorem dead_repair_iff [Inhabited α] (parts : List (Glob.Part α)) :
    Dead (repair parts) <-> Dead parts := by
  by_cases hlast : exists front, parts = front ++ [.star, .star]
  · rcases hlast with ⟨front, rfl⟩
    have hletters : forall back : List (Glob.Part α),
        letters (front ++ back) = letters front ++ letters back :=
      fun back => List.filterMap_append
    unfold Dead
    rw [repair_append, hletters, hletters]
    simp only [letters_one, letters_star, List.mem_append]
    constructor
    · rintro ⟨accepts, hmem | hmem, hnone⟩
      · exact ⟨accepts, Or.inl hmem, hnone⟩
      · rw [List.mem_cons] at hmem
        rcases hmem with rfl | hmem
        · exact absurd trivial (hnone default)
        · cases hmem
    · rintro ⟨accepts, hmem | hmem, hnone⟩
      · exact ⟨accepts, Or.inl hmem, hnone⟩
      · cases hmem
  · rw [repair_eq_self fun front heq => hlast ⟨front, heq⟩]

theorem star_mem_repair {parts : List (Glob.Part α)} (h : .star ∈ parts) :
    .star ∈ repair parts := by
  by_cases hlast : exists front, parts = front ++ [.star, .star]
  · rcases hlast with ⟨front, rfl⟩
    rw [repair_append]
    simp
  · rwa [repair_eq_self fun front heq => hlast ⟨front, heq⟩]

/-- Along paths with their stars at the same places the search finds the same
texts if and only if the parts agree or some part takes nothing at all. -/
theorem finds_same_iff [Inhabited α] {parts parts' : List (Glob.Part α)}
    (h : parts.map Part.isStar = parts'.map Part.isStar) :
    (forall text, SearchFinds parts text <-> SearchFinds parts' text) <->
      List.Forall₂ Part.Same parts parts' ∨ (Dead parts ∧ Dead parts') := by
  simp only [finds_iff]
  rw [takes_same_iff (repair_shape h), repair_same_iff h, dead_repair_iff,
    dead_repair_iff]

end Finds

/-!
# The search below a node
-/

namespace TrieNode

def slotPart (t : TrieNode) : Slot -> Glob.Part UInt8
  | .wildcard => .star
  | .single => .one fun _ => True
  | .charClass => .one fun c => t.classTakes c = true
  | .byte b => .one fun c => b = c

def partsAlong : List Slot -> TrieNode -> List (Glob.Part UInt8)
  | [], _ => []
  | slot :: path, t => t.slotPart slot :: partsAlong path (t.inSlot slot)

theorem partsAlong_eq_nil {path : List Slot} {t : TrieNode} :
    partsAlong path t = [] <-> path = [] := by
  cases path with
  | nil => exact iff_of_true rfl rfl
  | cons slot path => exact iff_of_false nofun nofun

theorem star_mem_partsAlong {path : List Slot} {t : TrieNode}
    (h : .wildcard ∈ path) : .star ∈ partsAlong path t := by
  induction path generalizing t with
  | nil => cases h
  | cons slot path ih =>
      rcases List.mem_cons.mp h with rfl | hlater
      · exact List.mem_cons_self
      · exact List.mem_cons_of_mem _ (ih hlater)

theorem ways_pos_iff (path : List Slot) (t : TrieNode) (text : Bytes) :
    0 < ways path t text <-> SearchFinds (partsAlong path t) text := by
  induction path generalizing t text with
  | nil =>
      cases text with
      | nil => exact iff_of_true Nat.one_pos .nil
      | cons c rest => exact iff_of_false (Nat.lt_irrefl 0) nofun
  | cons slot path ih =>
      cases text with
      | nil =>
          rw [finds_nil_text]
          cases slot with
          | wildcard =>
              by_cases hpath : path = []
              · simp [ways, hpath, partsAlong, slotPart]
              · simp [ways, hpath, partsAlong, slotPart, partsAlong_eq_nil]
          | single => simp [ways, partsAlong, slotPart]
          | charClass => simp [ways, partsAlong, slotPart]
          | byte b => simp [ways, partsAlong, slotPart]
      | cons c rest =>
          cases slot with
          | wildcard =>
              rw [partsAlong, slotPart, finds_star_iff, ways, Nat.pos_iff_ne_zero,
                Ne, List.sum_eq_zero_iff]
              simp only [List.mem_map, List.mem_tails, forall_exists_index,
                and_imp, forall_apply_eq_imp_iff₂, not_forall, ← ih,
                Nat.pos_iff_ne_zero, exists_prop, ne_eq]
          | single =>
              rw [ways, ih]
              constructor
              · exact .one trivial
              · rintro ⟨⟩
                assumption
          | charClass =>
              rw [ways]
              split_ifs with htakes
              · rw [ih]
                constructor
                · exact .one htakes
                · rintro ⟨⟩
                  assumption
              · refine iff_of_false (Nat.lt_irrefl 0) ?_
                rintro ⟨⟩
                exact htakes ‹_›
          | byte b =>
              rw [ways]
              split_ifs with hb
              · subst hb
                rw [ih]
                constructor
                · exact .one rfl
                · rintro ⟨⟩
                  assumption
              · refine iff_of_false (Nat.lt_irrefl 0) ?_
                rintro ⟨⟩
                exact hb ‹_›

/-!
# Paths with one star, and with more
-/

/-- Without a star there is one way at most, and the length of the text is that
of the path. -/
theorem ways_of_starless {path : List Slot} (h : .wildcard ∉ path)
    (t : TrieNode) (text : Bytes) :
    ways path t text <= 1 ∧ (0 < ways path t text -> text.length = path.length) := by
  induction path generalizing t text with
  | nil =>
      cases text with
      | nil => exact ⟨le_refl _, fun _ => rfl⟩
      | cons c rest => exact ⟨Nat.zero_le _, fun hpos => absurd hpos (Nat.lt_irrefl 0)⟩
  | cons slot path ih =>
      rw [List.mem_cons, not_or] at h
      have hnone : 0 <= 1 ∧ (0 < 0 -> text.length = (slot :: path).length) :=
        ⟨Nat.zero_le _, fun hpos => absurd hpos (Nat.lt_irrefl 0)⟩
      have hbelow : forall t' rest c, text = c :: rest ->
          ways path t' rest <= 1 ∧
            (0 < ways path t' rest -> text.length = (slot :: path).length) := by
        rintro t' rest c rfl
        rcases ih h.2 t' rest with ⟨hle, hlength⟩
        exact ⟨hle, fun hpos => congrArg Nat.succ (hlength hpos)⟩
      cases slot with
      | wildcard => exact absurd rfl h.1
      | single =>
          cases text with
          | nil => exact hnone
          | cons c rest => exact hbelow _ rest c rfl
      | charClass =>
          cases text with
          | nil => exact hnone
          | cons c rest =>
              rw [ways]
              split_ifs with htakes
              · exact hbelow _ rest c rfl
              · exact hnone
      | byte b =>
          cases text with
          | nil => exact hnone
          | cons c rest =>
              rw [ways]
              split_ifs with hb
              · exact hbelow _ rest c rfl
              · exact hnone

theorem sum_tails_le_one {f : Bytes -> Nat} {n : Nat}
    (h : forall text, f text <= 1 ∧ (0 < f text -> text.length = n))
    (text : Bytes) : (text.tails.map f).sum <= 1 := by
  have hzero : forall text : Bytes, text.length < n -> (text.tails.map f).sum = 0 := by
    intro text hlength
    rw [List.sum_eq_zero_iff]
    intro k hk
    rcases List.mem_map.mp hk with ⟨rest, hrest, rfl⟩
    have hle := ((List.mem_tails _ _).mp hrest).length_le
    by_contra hpos
    have := (h rest).2 (Nat.pos_of_ne_zero hpos)
    omega
  induction text with
  | nil => simpa using (h []).1
  | cons c rest ih =>
      rw [List.tails_cons, List.map_cons, List.sum_cons]
      rcases Nat.eq_zero_or_pos (f (c :: rest)) with hnone | hpos
      · rw [hnone, Nat.zero_add]
        exact ih
      · have hlength := (h (c :: rest)).2 hpos
        rw [hzero rest (by rw [← hlength]; exact Nat.lt_succ_self _)]
        exact (h (c :: rest)).1

theorem ways_le_one {path : List Slot} (h : path.count .wildcard <= 1)
    (t : TrieNode) (text : Bytes) : ways path t text <= 1 := by
  induction path generalizing t text with
  | nil => exact (ways_of_starless List.not_mem_nil t text).1
  | cons slot path ih =>
      cases text with
      | nil =>
          cases slot with
          | wildcard =>
              rw [ways]
              split_ifs <;> decide
          | single => exact Nat.zero_le _
          | charClass => exact Nat.zero_le _
          | byte b => exact Nat.zero_le _
      | cons c rest =>
          cases slot with
          | wildcard =>
              rw [List.count_cons_self] at h
              have hstarless : .wildcard ∉ path :=
                List.count_eq_zero.mp (Nat.le_zero.mp (Nat.le_of_succ_le_succ h))
              exact sum_tails_le_one (ways_of_starless hstarless _) (c :: rest)
          | single => exact ih (by simpa using h) _ rest
          | charClass =>
              rw [ways]
              split_ifs
              · exact ih (by simpa using h) _ rest
              · exact Nat.zero_le _
          | byte b =>
              rw [ways]
              split_ifs
              · exact ih (by simpa using h) _ rest
              · exact Nat.zero_le _

theorem two_ways_of_star {path : List Slot} {t : TrieNode}
    (hstar : .wildcard ∈ path)
    (hlive : ¬ Dead (partsAlong path (t.inSlot .wildcard))) :
    exists text, 2 <= ways (.wildcard :: path) t text := by
  have hrepaired : ¬ Dead (repair (partsAlong path (t.inSlot .wildcard))) := by
    rwa [dead_repair_iff]
  rcases exists_takes_longer default
      (star_mem_repair (star_mem_partsAlong hstar)) hrepaired with
    ⟨y, w, hy, hshort, hlong⟩
  rw [← finds_iff, ← ways_pos_iff] at hshort hlong
  cases y with
  | nil => exact absurd rfl hy
  | cons c y =>
      refine ⟨c :: (y ++ w), ?_⟩
      rw [ways, List.tails_cons, List.map_cons, List.sum_cons]
      have hw : w ∈ (y ++ w).tails := (List.mem_tails _ _).mpr (List.suffix_append y w)
      have hle := List.single_le_sum (fun _ _ => Nat.zero_le _) _
        (List.mem_map_of_mem
          (f := fun suffix => ways path (t.inSlot .wildcard) suffix) hw)
      exact Nat.add_le_add hlong (hshort.trans_le hle)

theorem exists_two_ways {path : List Slot} {t : TrieNode}
    (hstars : 2 <= path.count .wildcard) (hlive : ¬ Dead (partsAlong path t)) :
    exists text, 2 <= ways path t text := by
  induction path generalizing t with
  | nil => exact absurd hstars (by decide)
  | cons slot path ih =>
      have hletter : forall {accepts : UInt8 -> Prop}, t.slotPart slot = .one accepts ->
          slot ≠ .wildcard -> exists c text, accepts c ∧
            2 <= ways path (t.inSlot slot) text := by
        intro accepts hpart hslot
        rw [partsAlong, hpart] at hlive
        rw [List.count_cons_of_ne hslot] at hstars
        have hbelow : ¬ Dead (partsAlong path (t.inSlot slot)) := by
          rintro ⟨accepts', hmem, hnone⟩
          exact hlive ⟨accepts', List.mem_cons_of_mem _ hmem, hnone⟩
        rcases ih hstars hbelow with ⟨text, htext⟩
        by_cases hnone : forall c, ¬ accepts c
        · exact absurd ⟨accepts, List.mem_cons_self, hnone⟩ hlive
        · rcases not_forall_not.mp hnone with ⟨c, hc⟩
          exact ⟨c, text, hc, htext⟩
      cases slot with
      | wildcard =>
          refine two_ways_of_star ?_ hlive
          rw [List.count_cons_self] at hstars
          exact List.count_pos_iff.mp (Nat.le_of_succ_le_succ hstars)
      | single =>
          rcases hletter rfl (by rintro ⟨⟩) with ⟨c, text, _, htext⟩
          exact ⟨c :: text, htext⟩
      | charClass =>
          rcases hletter rfl (by rintro ⟨⟩) with ⟨c, text, hc, htext⟩
          refine ⟨c :: text, ?_⟩
          rw [ways, if_pos hc]
          exact htext
      | byte b =>
          rcases hletter rfl (by rintro ⟨⟩) with ⟨c, text, rfl, htext⟩
          refine ⟨b :: text, ?_⟩
          rw [ways, if_pos rfl]
          exact htext

/-- A path takes no text in two ways if and only if it has one star at most or
some part of it takes nothing. -/
theorem ways_le_one_iff (path : List Slot) (t : TrieNode) :
    (forall text, ways path t text <= 1) <->
      path.count .wildcard <= 1 ∨ Dead (partsAlong path t) := by
  constructor
  · intro h
    by_contra hboth
    rw [not_or, Nat.not_le] at hboth
    rcases exists_two_ways hboth.1 hboth.2 with ⟨text, htext⟩
    exact absurd (htext.trans (h text)) (by decide)
  · rintro (hstars | hdead) text
    · exact ways_le_one hstars t text
    · refine Nat.le_of_not_lt fun hmany => ?_
      have hfinds := (ways_pos_iff path t text).mp (Nat.zero_lt_of_lt hmany)
      rw [finds_iff] at hfinds
      exact hfinds.not_dead ((dead_repair_iff _).mpr hdead)

end TrieNode

end FeoxServer
