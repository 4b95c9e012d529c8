import FeoxServer.Pubsub.ChannelPatterns
import FeoxServer.Pubsub.PatternSearch

/-!
# In how many ways a channel is cut

Every way of the search along a path cuts the channel into the pieces that the
parts of the path take.  A pattern is found as often as there are such cuts.
-/

namespace FeoxServer

open Foundation Glob

section Cuts

variable {α : Type}

/-- The search along one path, with the piece of the text that each part takes. -/
inductive SearchCuts : List (Glob.Part α) -> List α -> List (List α) -> Prop
  | nil : SearchCuts [] [] []
  | lastStar : SearchCuts [.star] [] [[]]
  | one {accepts : α -> Prop} {parts : List (Glob.Part α)} {a : α} {text : List α}
      {pieces : List (List α)} (ha : accepts a) (hrest : SearchCuts parts text pieces) :
      SearchCuts (.one accepts :: parts) (a :: text) ([a] :: pieces)
  | star {parts : List (Glob.Part α)} {a : α} {text front rest : List α}
      {pieces : List (List α)} (hsplit : front ++ rest = a :: text)
      (hrest : SearchCuts parts rest pieces) :
      SearchCuts (.star :: parts) (a :: text) (front :: pieces)

theorem finds_iff_cuts {parts : List (Glob.Part α)} {text : List α} :
    SearchFinds parts text <-> exists pieces, SearchCuts parts text pieces := by
  constructor
  · intro h
    induction h with
    | nil => exact ⟨[], .nil⟩
    | lastStar => exact ⟨[[]], .lastStar⟩
    | one ha _ ih =>
        rcases ih with ⟨pieces, hpieces⟩
        exact ⟨_, .one ha hpieces⟩
    | star hsuffix _ ih =>
        rcases hsuffix with ⟨front, hfront⟩
        rcases ih with ⟨pieces, hpieces⟩
        exact ⟨front :: pieces, .star hfront hpieces⟩
  · rintro ⟨pieces, h⟩
    induction h with
    | nil => exact .nil
    | lastStar => exact .lastStar
    | one ha _ ih => exact .one ha ih
    | star hsplit _ ih => exact .star ⟨_, hsplit⟩ ih

theorem cuts_nil_text {parts : List (Glob.Part α)} {pieces : List (List α)} :
    SearchCuts parts [] pieces <->
      (parts = [] ∧ pieces = []) ∨ (parts = [.star] ∧ pieces = [[]]) := by
  constructor
  · intro h
    cases h with
    | nil => exact Or.inl ⟨rfl, rfl⟩
    | lastStar => exact Or.inr ⟨rfl, rfl⟩
  · rintro (⟨rfl, rfl⟩ | ⟨rfl, rfl⟩)
    · exact .nil
    · exact .lastStar

theorem cuts_one_iff {accepts : α -> Prop} {parts : List (Glob.Part α)} {a : α}
    {text : List α} {pieces : List (List α)} :
    SearchCuts (.one accepts :: parts) (a :: text) pieces <->
      accepts a ∧ exists rest, SearchCuts parts text rest ∧ [a] :: rest = pieces := by
  constructor
  · intro h
    cases h with
    | one ha hrest => exact ⟨ha, _, hrest, rfl⟩
  · rintro ⟨ha, rest, hrest, rfl⟩
    exact .one ha hrest

theorem cuts_star_iff {parts : List (Glob.Part α)} {a : α} {text : List α}
    {pieces : List (List α)} :
    SearchCuts (.star :: parts) (a :: text) pieces <->
      exists front rest later, front ++ rest = a :: text ∧
        SearchCuts parts rest later ∧ front :: later = pieces := by
  constructor
  · intro h
    cases h with
    | star hsplit hrest => exact ⟨_, _, _, hsplit, hrest, rfl⟩
  · rintro ⟨front, rest, later, hsplit, hrest, rfl⟩
    exact .star hsplit hrest

end Cuts

theorem ncard_of_nodup {β : Type} {items : List β} (h : items.Nodup) :
    {b | b ∈ items}.ncard = items.length := by
  classical
  have hset : {b | b ∈ items} = (items.toFinset : Set β) := by
    ext b
    exact List.mem_toFinset.symm
  rw [hset, Set.ncard_coe_finset, List.toFinset_card_of_nodup h]

namespace TrieNode

def cuts : List Slot -> TrieNode -> Bytes -> List (List Bytes)
  | [], _, text => if text = [] then [[]] else []
  | .wildcard :: path, _, [] => if path = [] then [[[]]] else []
  | .single :: _, _, [] => []
  | .charClass :: _, _, [] => []
  | .byte _ :: _, _, [] => []
  | .wildcard :: path, t, c :: rest =>
      (List.range ((c :: rest).length + 1)).flatMap fun i =>
        (cuts path (t.inSlot .wildcard) ((c :: rest).drop i)).map
          ((c :: rest).take i :: ·)
  | .single :: path, t, c :: rest =>
      (cuts path (t.inSlot .single) rest).map ([c] :: ·)
  | .charClass :: path, t, c :: rest =>
      if t.classTakes c then (cuts path (t.inSlot .charClass) rest).map ([c] :: ·)
      else []
  | .byte b :: path, t, c :: rest =>
      if b = c then (cuts path (t.inSlot (.byte c)) rest).map ([c] :: ·) else []

theorem tails_eq_map_drop (text : Bytes) :
    text.tails = (List.range (text.length + 1)).map text.drop := by
  refine List.ext_getElem (by simp) fun i _ _ => ?_
  simp

theorem length_cuts (path : List Slot) (t : TrieNode) (text : Bytes) :
    (cuts path t text).length = ways path t text := by
  induction path generalizing t text with
  | nil =>
      unfold cuts ways
      split_ifs <;> rfl
  | cons slot path ih =>
      cases text with
      | nil =>
          cases slot with
          | wildcard =>
              unfold cuts ways
              split_ifs <;> rfl
          | single | charClass | byte b => rfl
      | cons c rest =>
          cases slot with
          | wildcard =>
              rw [cuts, ways, List.length_flatMap, tails_eq_map_drop, List.map_map]
              refine congrArg List.sum (List.map_congr_left fun i _ => ?_)
              rw [List.length_map, ih]
              rfl
          | single => rw [cuts, ways, List.length_map, ih]
          | charClass =>
              rw [cuts, ways]
              split_ifs
              · rw [List.length_map, ih]
              · rfl
          | byte b =>
              rw [cuts, ways]
              split_ifs
              · rw [List.length_map, ih]
              · rfl

theorem nodup_cuts (path : List Slot) (t : TrieNode) (text : Bytes) :
    (cuts path t text).Nodup := by
  induction path generalizing t text with
  | nil =>
      unfold cuts
      split_ifs <;> simp
  | cons slot path ih =>
      have hcons : forall (piece : Bytes) (t : TrieNode) (text : Bytes),
          ((cuts path t text).map (piece :: ·)).Nodup := fun piece t text =>
        (ih t text).map fun _ _ h => (List.cons.inj h).2
      cases text with
      | nil =>
          cases slot with
          | wildcard =>
              unfold cuts
              split_ifs <;> simp
          | single | charClass | byte b => exact List.nodup_nil
      | cons c rest =>
          cases slot with
          | wildcard =>
              rw [cuts, List.nodup_flatMap]
              refine ⟨fun i _ => hcons _ _ _, ?_⟩
              -- Pieces of different lengths are different.
              refine List.nodup_range.imp_of_mem fun {i j} hi hj hne => ?_
              intro pieces hleft hright
              rcases List.mem_map.mp hleft with ⟨_, _, rfl⟩
              rcases List.mem_map.mp hright with ⟨_, _, heq⟩
              have hlength := congrArg List.length (List.cons.inj heq).1
              rw [List.length_take, List.length_take] at hlength
              rw [List.mem_range] at hi hj
              omega
          | single => exact hcons _ _ _
          | charClass =>
              rw [cuts]
              split_ifs
              · exact hcons _ _ _
              · exact List.nodup_nil
          | byte b =>
              rw [cuts]
              split_ifs
              · exact hcons _ _ _
              · exact List.nodup_nil

theorem mem_cuts (path : List Slot) (t : TrieNode) (text : Bytes)
    (pieces : List Bytes) :
    pieces ∈ cuts path t text <-> SearchCuts (partsAlong path t) text pieces := by
  induction path generalizing t text pieces with
  | nil =>
      cases text with
      | nil =>
          rw [cuts_nil_text]
          simp [cuts, partsAlong]
      | cons c rest =>
          refine iff_of_false (by simp [cuts]) fun h => ?_
          change SearchCuts [] (c :: rest) pieces at h
          cases h
  | cons slot path ih =>
      cases text with
      | nil =>
          rw [cuts_nil_text]
          cases slot with
          | wildcard =>
              by_cases hpath : path = []
              · simp [cuts, hpath, partsAlong, slotPart]
              · simp [cuts, hpath, partsAlong, slotPart, partsAlong_eq_nil]
          | single => simp [cuts, partsAlong, slotPart]
          | charClass => simp [cuts, partsAlong, slotPart]
          | byte b => simp [cuts, partsAlong, slotPart]
      | cons c rest =>
          cases slot with
          | wildcard =>
              rw [cuts, partsAlong, slotPart, List.mem_flatMap, cuts_star_iff]
              constructor
              · rintro ⟨i, _, hmem⟩
                rcases List.mem_map.mp hmem with ⟨later, hlater, rfl⟩
                exact ⟨_, _, later, List.take_append_drop i _,
                  (ih _ _ _).mp hlater, rfl⟩
              · rintro ⟨front, behind, later, hsplit, hlater, rfl⟩
                refine ⟨front.length, ?_, List.mem_map.mpr ⟨later, ?_, ?_⟩⟩
                · rw [List.mem_range, ← hsplit, List.length_append]
                  omega
                · rw [← hsplit, List.drop_left]
                  exact (ih _ _ _).mpr hlater
                · rw [← hsplit, List.take_left]
          | single =>
              rw [cuts, partsAlong, slotPart, cuts_one_iff, and_iff_right trivial,
                List.mem_map]
              simp only [ih]
          | charClass =>
              rw [cuts, partsAlong, slotPart, cuts_one_iff]
              split_ifs with htakes
              · rw [and_iff_right htakes, List.mem_map]
                simp only [ih]
              · exact iff_of_false List.not_mem_nil fun h => htakes h.1
          | byte b =>
              rw [cuts, partsAlong, slotPart, cuts_one_iff]
              split_ifs with hb
              · rw [and_iff_right hb, List.mem_map]
                subst hb
                simp only [ih]
              · exact iff_of_false List.not_mem_nil fun h => hb h.1

theorem ncard_cuts (path : List Slot) (t : TrieNode) (text : Bytes) :
    {pieces | SearchCuts (partsAlong path t) text pieces}.ncard =
      ways path t text := by
  rw [← length_cuts, ← ncard_of_nodup (nodup_cuts path t text)]
  simp only [mem_cuts]

end TrieNode

namespace PatternTrie

/-- The parts of a pattern as the trie has them: a class is the one of the node. -/
def parts (trie : PatternTrie) (pattern : Bytes) : List (Glob.Part UInt8) :=
  TrieNode.partsAlong ((patternEdges pattern).map PatternEdge.slot) trie.root

theorem ways_eq_one_iff (trie : PatternTrie) (pattern channel : Bytes) :
    trie.ways pattern channel = 1 <->
      ∃! pieces, SearchCuts (trie.parts pattern) channel pieces := by
  unfold ways parts
  rw [← TrieNode.ncard_cuts, Set.ncard_eq_one]
  exact exists_congr fun _ => Set.eq_singleton_iff_unique_mem

theorem ways_eq_zero_iff (trie : PatternTrie) (pattern channel : Bytes) :
    trie.ways pattern channel = 0 <->
      forall pieces, ¬ SearchCuts (trie.parts pattern) channel pieces := by
  have hpos := TrieNode.ways_pos_iff ((patternEdges pattern).map PatternEdge.slot)
    trie.root channel
  rw [← not_exists, ← finds_iff_cuts, parts, ← hpos, Nat.pos_iff_ne_zero, not_not]
  rfl

end PatternTrie

/-!
# Plain patterns
-/

/-- No class, no escape, and one star at most. -/
structure PlainPattern (pattern : Bytes) : Prop where
  classless : 91 ∉ pattern
  unescaped : 92 ∉ pattern
  stars : pattern.count 42 <= 1

theorem Spells.partsAlong_eq {pattern : Bytes} {edges : List PatternEdge}
    (h : Spells pattern edges) (hclass : 91 ∉ pattern) (hescape : 92 ∉ pattern)
    (t : TrieNode) :
    TrieNode.partsAlong (edges.map PatternEdge.slot) t = pattern.map globPart := by
  induction h generalizing t with
  | nil => rfl
  | star _ ih | any _ ih =>
      rw [List.mem_cons, not_or] at hclass hescape
      exact congrArg₂ List.cons rfl (ih hclass.2 hescape.2 _)
  | charClass _ _ _ | bracket _ _ _ => exact absurd List.mem_cons_self hclass
  | escaped c _ _ | backslash => exact absurd List.mem_cons_self hescape
  | octet hc _ ih =>
      rw [List.mem_cons, not_or] at hclass hescape
      refine congrArg₂ List.cons ?_ (ih hclass.2 hescape.2 _)
      rw [globPart, if_neg hc.1, if_neg hc.2.1]
      rfl

theorem PlainPattern.ways_eq {pattern : Bytes} (h : PlainPattern pattern)
    (trie : PatternTrie) (channel : Bytes) :
    ((exists pieces, SearchCuts (trie.parts pattern) channel pieces) <->
        GlobTakes pattern channel) ∧
      trie.ways pattern channel <= 1 := by
  have hspells := spells_patternEdges pattern
  have hparts : trie.parts pattern = pattern.map globPart :=
    hspells.partsAlong_eq h.classless h.unescaped trie.root
  have hstar : forall p : UInt8, globPart p = .star <-> p = 42 := by
    intro p
    by_cases hp : p = 42
    · simp [globPart, hp]
    · simp [globPart_of_ne hp, hp]
  constructor
  · have hrepair : repair (trie.parts pattern) = pattern.map globPart := by
      rw [hparts]
      refine repair_eq_self fun front heq => ?_
      rcases List.map_eq_append_iff.mp heq with ⟨before, back, rfl, _, hback⟩
      rcases List.map_eq_cons_iff.mp hback with ⟨p, back', rfl, hp, hback'⟩
      rcases List.map_eq_cons_iff.mp hback' with ⟨q, back'', rfl, hq, _⟩
      have hcount := h.stars
      rw [(hstar p).mp hp, (hstar q).mp hq, List.count_append, List.count_cons_self,
        List.count_cons_self] at hcount
      omega
    rw [← finds_iff_cuts, finds_iff, hrepair]
    rfl
  · refine TrieNode.ways_le_one ?_ trie.root channel
    have hcount : forall {pattern : Bytes} {edges : List PatternEdge},
        Spells pattern edges -> 91 ∉ pattern -> 92 ∉ pattern ->
          (edges.map PatternEdge.slot).count .wildcard = pattern.count 42 := by
      intro pattern edges hspells hclass hescape
      induction hspells with
      | nil => rfl
      | star _ ih =>
          rw [List.mem_cons, not_or] at hclass hescape
          rw [List.map_cons, List.count_cons_self, ← ih hclass.2 hescape.2]
          exact List.count_cons_self
      | any _ ih =>
          rw [List.mem_cons, not_or] at hclass hescape
          rw [List.map_cons, List.count_cons_of_ne (by decide),
            List.count_cons_of_ne (by decide)]
          exact ih hclass.2 hescape.2
      | charClass _ _ _ | bracket _ _ _ => exact absurd List.mem_cons_self hclass
      | escaped c _ _ | backslash => exact absurd List.mem_cons_self hescape
      | octet hc _ ih =>
          rw [List.mem_cons, not_or] at hclass hescape
          rw [List.map_cons, List.count_cons_of_ne hc.1,
            List.count_cons_of_ne (by rintro ⟨⟩)]
          exact ih hclass.2 hescape.2
    rw [hcount hspells h.classless h.unescaped]
    exact h.stars

end FeoxServer
