import FeoxServer.Pubsub.Manager
import FeoxServer.Pubsub.PatternRemoval
import FeoxServer.Pubsub.PatternSearch

/-!
# Patterns that share nodes

The path of a pattern through the trie of many.  The stars and the octets along
it are its own; a character class may be that of a pattern that came first.
-/

namespace FeoxServer

open Foundation Glob

namespace TrieNode

abbrev Insertion : Type :=
  List PatternEdge × (Bytes × ConnectionId)

def grow (t : TrieNode) (insertions : List Insertion) : TrieNode :=
  insertions.foldl (fun t x => t.insertEdges x.2 x.1) t

def into (slot : Slot) : List Insertion -> List Insertion
  | [] => []
  | ([], _) :: insertions => into slot insertions
  | (e :: edges, entry) :: insertions =>
      if e.slot = slot then (edges, entry) :: into slot insertions
      else into slot insertions

theorem inSlot_insertEdges_cons (entry : Bytes × ConnectionId) (e : PatternEdge)
    (edges : List PatternEdge) (t : TrieNode) (slot : Slot) :
    (insertEdges entry (e :: edges) t).inSlot slot =
      if e.slot = slot then insertEdges entry edges (t.inSlot slot)
      else t.inSlot slot := by
  rw [insertEdges]
  by_cases hslot : e.slot = slot
  · subst hslot
    rw [if_pos rfl, inSlot_setChild_self _ _ _ (orNew_isAbsent t),
      child_eq_inSlot, orNew_inSlot]
  · rw [if_neg hslot, inSlot_setChild_ne _ _ _ (Ne.symm hslot), orNew_inSlot]

theorem inSlot_insertEdges_nil (entry : Bytes × ConnectionId) (t : TrieNode)
    (slot : Slot) : (insertEdges entry [] t).inSlot slot = t.inSlot slot := by
  rw [insertEdges, inSlot_setSubscribers, orNew_inSlot]

theorem inSlot_grow (insertions : List Insertion) (t : TrieNode) (slot : Slot) :
    (t.grow insertions).inSlot slot =
      (t.inSlot slot).grow (into slot insertions) := by
  induction insertions generalizing t with
  | nil => rfl
  | cons x insertions ih =>
      rcases x with ⟨edges, entry⟩
      refine (ih _).trans ?_
      cases edges with
      | nil =>
          rw [inSlot_insertEdges_nil]
          rfl
      | cons e edges =>
          rw [inSlot_insertEdges_cons, into]
          by_cases hslot : e.slot = slot
          · rw [if_pos hslot, if_pos hslot]
            rfl
          · rw [if_neg hslot, if_neg hslot]

def charClass? : TrieNode -> Option (List UInt8 × Bool)
  | absent => none
  | node _ _ _ chars negated next _ =>
      if next.isAbsent then none else some (chars, negated)

theorem classTakes_of_charClass? {t : TrieNode} {chars : List UInt8}
    {negated : Bool} (h : t.charClass? = some (chars, negated)) (c : UInt8) :
    t.classTakes c = matchesCharClass c chars negated := by
  cases t with
  | absent => cases h
  | node ch w s cs neg next subs =>
      cases next with
      | absent => cases h
      | node =>
          cases h
          rfl

theorem orNew_charClass? (t : TrieNode) : t.orNew.charClass? = t.charClass? := by
  cases t <;> rfl

def headClass? : List PatternEdge -> Option (List UInt8 × Bool)
  | .charClass chars negated :: _ => some (chars, negated)
  | _ => none

theorem charClass?_insertEdges (entry : Bytes × ConnectionId)
    (edges : List PatternEdge) (t : TrieNode) :
    (insertEdges entry edges t).charClass? =
      t.charClass?.or (headClass? edges) := by
  rw [← orNew_charClass? t]
  cases edges with
  | nil =>
      cases t <;> simp [insertEdges, orNew, new, setSubscribers, charClass?, headClass?]
  | cons e edges =>
      have hbelow := insertEdges_isAbsent entry edges (t.orNew.child e)
      rw [insertEdges]
      generalize insertEdges entry edges (t.orNew.child e) = below at hbelow
      cases horNew : t.orNew with
      | absent => cases t <;> cases horNew
      | node ch w s cs neg next subs =>
          cases e with
          | charClass chars negated =>
              unfold setChild
              by_cases hnext : next.isAbsent
              · simp [hnext, charClass?, hbelow, headClass?]
              · simp [hnext, charClass?, hbelow]
          | _ => simp [setChild, charClass?, headClass?]

theorem charClass?_grow (insertions : List Insertion) (t : TrieNode) :
    (t.grow insertions).charClass? =
      t.charClass?.or (insertions.findSome? fun x => headClass? x.1) := by
  induction insertions generalizing t with
  | nil => simp [grow]
  | cons x insertions ih =>
      refine (ih _).trans ?_
      rw [charClass?_insertEdges, Option.or_assoc, List.findSome?_cons]
      cases headClass? x.1 <;> rfl

def firstEdge (slot : Slot) (insertions : List Insertion) :
    Option PatternEdge :=
  insertions.findSome? fun x => x.1.head?.filter (·.slot == slot)

/-- The edges along the path of a pattern: those of the first pattern that has
come this way. -/
def sharedEdges : List Insertion -> List PatternEdge -> List PatternEdge
  | _, [] => []
  | insertions, e :: edges =>
      (firstEdge e.slot insertions).getD e ::
        sharedEdges (into e.slot insertions) edges

theorem firstEdge_charClass (insertions : List Insertion) :
    firstEdge .charClass insertions =
      (insertions.findSome? fun x => headClass? x.1).map fun found =>
        .charClass found.1 found.2 := by
  induction insertions with
  | nil => rfl
  | cons x insertions ih =>
      rcases x with ⟨_ | ⟨e, edges⟩, entry⟩
      · exact ih
      · unfold firstEdge at ih ⊢
        rw [List.findSome?_cons, List.findSome?_cons, ih]
        cases e <;> rfl

theorem slot_of_firstEdge {slot : Slot} {insertions : List Insertion}
    {e : PatternEdge} (h : firstEdge slot insertions = some e) : e.slot = slot := by
  rcases List.exists_of_findSome?_eq_some h with ⟨x, _, hx⟩
  exact eq_of_beq (Option.filter_eq_some_iff.mp hx).2

theorem exists_firstEdge {e : PatternEdge} {edges : List PatternEdge}
    {insertions : List Insertion} {entry : Bytes × ConnectionId}
    (h : (e :: edges, entry) ∈ insertions) :
    exists first, firstEdge e.slot insertions = some first ∧
      first.slot = e.slot := by
  cases hfirst : firstEdge e.slot insertions with
  | some first => exact ⟨first, rfl, slot_of_firstEdge hfirst⟩
  | none =>
      have hnone := List.findSome?_eq_none_iff.mp hfirst _ h
      simp at hnone

theorem mem_into {e : PatternEdge} {edges : List PatternEdge}
    {insertions : List Insertion} {entry : Bytes × ConnectionId}
    (h : (e :: edges, entry) ∈ insertions) :
    (edges, entry) ∈ into e.slot insertions := by
  induction insertions with
  | nil => cases h
  | cons x insertions ih =>
      rcases List.mem_cons.mp h with heq | hlater
      · rw [← heq, into, if_pos rfl]
        exact List.mem_cons_self
      · rcases x with ⟨_ | ⟨e', edges'⟩, entry'⟩
        · exact ih hlater
        · rw [into]
          split_ifs
          · exact List.mem_cons_of_mem _ (ih hlater)
          · exact ih hlater

theorem part_eq_slotPart (t : TrieNode) {e : PatternEdge}
    (h : e.slot ≠ .charClass) : t.slotPart e.slot = e.part := by
  cases e with
  | charClass chars negated => exact absurd rfl h
  | _ => rfl

theorem partsAlong_grow {edges : List PatternEdge} {insertions : List Insertion}
    {entry : Bytes × ConnectionId} (h : (edges, entry) ∈ insertions)
    {t : TrieNode} (hclass : t.charClass? = none)
    (hslots : forall slot, t.inSlot slot = absent) :
    partsAlong (edges.map PatternEdge.slot) (t.grow insertions) =
      (sharedEdges insertions edges).map PatternEdge.part := by
  induction edges generalizing insertions t with
  | nil => rfl
  | cons e edges ih =>
      rw [List.map_cons, partsAlong, sharedEdges, List.map_cons, inSlot_grow,
        hslots, ih (mem_into h) rfl fun slot => by cases slot <;> rfl]
      congr 1
      rcases exists_firstEdge h with ⟨first, hfirst, hslot⟩
      rw [hfirst, Option.getD_some, ← hslot]
      by_cases hkind : first.slot = .charClass
      · rw [← hslot, hkind, firstEdge_charClass] at hfirst
        rcases Option.map_eq_some_iff.mp hfirst with ⟨⟨chars, negated⟩, hfound, rfl⟩
        have hgrown : (t.grow insertions).charClass? = some (chars, negated) := by
          rw [charClass?_grow, hclass, hfound]
          rfl
        simp only [PatternEdge.slot, slotPart, PatternEdge.part,
          classTakes_of_charClass? hgrown]
      · exact part_eq_slotPart _ hkind

theorem slot_sharedEdges {edges : List PatternEdge} {insertions : List Insertion}
    {entry : Bytes × ConnectionId} (h : (edges, entry) ∈ insertions) :
    (sharedEdges insertions edges).map PatternEdge.slot =
      edges.map PatternEdge.slot := by
  induction edges generalizing insertions with
  | nil => rfl
  | cons e edges ih =>
      rcases exists_firstEdge h with ⟨first, hfirst, hslot⟩
      rw [sharedEdges, List.map_cons, List.map_cons, ih (mem_into h), hfirst,
        Option.getD_some, hslot]

theorem sharedEdges_alone (edges : List PatternEdge)
    (entry : Bytes × ConnectionId) :
    sharedEdges [(edges, entry)] edges = edges := by
  induction edges with
  | nil => rfl
  | cons e edges ih =>
      have hfirst : firstEdge e.slot [(e :: edges, entry)] = some e := by
        simp [firstEdge]
      rw [sharedEdges, hfirst, into, if_pos rfl]
      exact congrArg (e :: ·) ih

theorem subscribersAt_grow (path : List Slot) (insertions : List Insertion)
    (t : TrieNode) :
    subscribersAt path (t.grow insertions) =
      subscribersAt path t ++
        (insertions.filter fun x => path == x.1.map PatternEdge.slot).map
          Prod.snd := by
  induction insertions generalizing t with
  | nil => exact (List.append_nil _).symm
  | cons x insertions ih =>
      refine (ih _).trans ?_
      rw [subscribersAt_insertEdges, List.filter_cons]
      by_cases hpath : path = x.1.map PatternEdge.slot
      · simp [hpath]
      · simp [hpath]

end TrieNode

namespace PatternEdge

theorem part_eq_star {e : PatternEdge} : e.part = .star <-> e = .wildcard := by
  cases e <;> simp [part]

/-- The same edge, or two classes that take the same octets. -/
def Alike : PatternEdge -> PatternEdge -> Prop
  | charClass chars negated, charClass chars' negated' =>
      forall c, TrieNode.matchesCharClass c chars negated =
        TrieNode.matchesCharClass c chars' negated'
  | e, e' => e = e'

def Agree (edges edges' : List PatternEdge) : Prop :=
  List.Forall₂ Alike edges edges'

/-- Some class takes no octet. -/
def Matchless (edges : List PatternEdge) : Prop :=
  exists chars negated, charClass chars negated ∈ edges ∧
    forall c, TrieNode.matchesCharClass c chars negated = false

theorem alike_iff {e e' : PatternEdge} (h : e.slot = e'.slot) :
    e.Alike e' <-> Glob.Part.Same e.part e'.part := by
  cases e <;> cases e' <;> cases h
  · exact iff_of_true rfl trivial
  · exact iff_of_true rfl fun _ => Iff.rfl
  · exact forall_congr' fun c => Bool.eq_iff_iff
  · exact iff_of_true rfl fun _ => Iff.rfl

theorem agree_iff {edges edges' : List PatternEdge}
    (h : edges.map slot = edges'.map slot) :
    Agree edges edges' <->
      List.Forall₂ Glob.Part.Same (edges.map part) (edges'.map part) := by
  induction edges generalizing edges' with
  | nil =>
      rw [List.map_eq_nil_iff.mp h.symm]
      exact iff_of_true .nil .nil
  | cons e edges ih =>
      cases edges' with
      | nil => cases h
      | cons e' edges' =>
          rcases List.cons.inj h with ⟨hhead, htail⟩
          unfold Agree at ih ⊢
          rw [List.map_cons, List.map_cons, List.forall₂_cons, List.forall₂_cons,
            alike_iff hhead, ih htail]

theorem shape_of_slots {edges edges' : List PatternEdge}
    (h : edges.map slot = edges'.map slot) :
    (edges.map part).map Part.isStar = (edges'.map part).map Part.isStar := by
  have hslot : Part.isStar ∘ part = (· == Slot.wildcard) ∘ slot := by
    funext e
    cases e <;> rfl
  rw [List.map_map, List.map_map, hslot, ← List.map_map, ← List.map_map, h]

theorem matchless_iff (edges : List PatternEdge) :
    Matchless edges <-> Dead (edges.map part) := by
  constructor
  · rintro ⟨chars, negated, hmem, hnone⟩
    refine ⟨_, List.mem_filterMap.mpr ⟨_, List.mem_map_of_mem hmem, rfl⟩, ?_⟩
    intro c
    rw [hnone c]
    exact Bool.false_ne_true
  · rintro ⟨accepts, hmem, hnone⟩
    rcases List.mem_filterMap.mp hmem with ⟨p, hp, hletter⟩
    rcases List.mem_map.mp hp with ⟨e, he, rfl⟩
    cases e with
    | wildcard => cases hletter
    | single =>
        cases hletter
        exact absurd trivial (hnone 0)
    | charClass chars negated =>
        cases hletter
        exact ⟨chars, negated, he, fun c => Bool.eq_false_of_not_eq_true (hnone c)⟩
    | byte b =>
        cases hletter
        exact absurd rfl (hnone b)

end PatternEdge

namespace PatternTrie

/-- Insert pairs of a pattern and a connection one after the other. -/
def insertAll (pairs : List (Bytes × ConnectionId)) : PatternTrie :=
  pairs.foldl (fun trie pair => trie.insert pair.1 pair.2) new

def insertions (pairs : List (Bytes × ConnectionId)) : List TrieNode.Insertion :=
  pairs.map fun pair => (patternEdges pair.1, pair)

/-- The edges that the search sees along the path of a pattern. -/
def pathEdges (pairs : List (Bytes × ConnectionId)) (pattern : Bytes) :
    List PatternEdge :=
  TrieNode.sharedEdges (insertions pairs) (patternEdges pattern)

variable {pairs : List (Bytes × ConnectionId)} {pair : Bytes × ConnectionId}

theorem root_insertAll (pairs : List (Bytes × ConnectionId)) :
    (insertAll pairs).root = TrieNode.new.grow (insertions pairs) := by
  have hfold : forall trie : PatternTrie,
      (pairs.foldl (fun trie pair => trie.insert pair.1 pair.2) trie).root =
        trie.root.grow (insertions pairs) := by
    induction pairs with
    | nil => exact fun trie => rfl
    | cons pair pairs ih => exact fun trie => ih (trie.insert pair.1 pair.2)
  exact hfold new

theorem mem_insertions (h : pair ∈ pairs) :
    (patternEdges pair.1, pair) ∈ insertions pairs :=
  List.mem_map_of_mem h

theorem subscribersAt_insertAll (pairs : List (Bytes × ConnectionId))
    (path : List Slot) :
    TrieNode.subscribersAt path (insertAll pairs).root =
      pairs.filter fun pair =>
        path == (patternEdges pair.1).map PatternEdge.slot := by
  have hnew : TrieNode.subscribersAt path TrieNode.new = [] :=
    subscribersAt_new path
  rw [root_insertAll, TrieNode.subscribersAt_grow, hnew, insertions,
    List.filter_map, List.map_map, List.nil_append]
  exact List.map_id _

/-- A pair is found as often as it was inserted, in as many ways as its path
takes the channel. -/
theorem count_findMatches (pairs : List (Bytes × ConnectionId))
    (pair : Bytes × ConnectionId) (channel : Bytes) :
    ((insertAll pairs).findMatches channel).count pair =
      pairs.count pair * (insertAll pairs).ways pair.1 channel := by
  have hpath := subscribersAt_insertAll pairs
    ((patternEdges pair.1).map PatternEdge.slot)
  rw [findMatches, TrieNode.count_findInNode _ channel, hpath,
    List.count_filter (by simp)]
  · rfl
  · intro path hne hmem
    rw [subscribersAt_insertAll, List.mem_filter] at hmem
    exact hne (eq_of_beq hmem.2)

theorem ways_pos_iff (h : pair ∈ pairs) (channel : Bytes) :
    0 < (insertAll pairs).ways pair.1 channel <->
      SearchFinds ((pathEdges pairs pair.1).map PatternEdge.part) channel := by
  rw [ways, TrieNode.ways_pos_iff, root_insertAll,
    TrieNode.partsAlong_grow (mem_insertions h) rfl fun slot => by
      cases slot <;> rfl]
  rfl

theorem mem_findMatches_iff (h : pair ∈ pairs) (channel : Bytes) :
    pair ∈ (insertAll pairs).findMatches channel <->
      SearchFinds ((pathEdges pairs pair.1).map PatternEdge.part) channel := by
  rw [← List.count_pos_iff, count_findMatches, ← ways_pos_iff h]
  exact Nat.mul_pos_iff_of_pos_left (List.count_pos_iff.mpr h)

theorem pathEdges_alone (pattern : Bytes) (connId : ConnectionId) :
    pathEdges [(pattern, connId)] pattern = patternEdges pattern :=
  TrieNode.sharedEdges_alone _ _

theorem mem_findMatches_alone (pattern : Bytes) (connId : ConnectionId)
    (channel : Bytes) :
    (pattern, connId) ∈ (new.insert pattern connId).findMatches channel <->
      SearchFinds ((patternEdges pattern).map PatternEdge.part) channel := by
  refine (mem_findMatches_iff (List.mem_singleton_self (pattern, connId))
    channel).trans ?_
  rw [pathEdges_alone]

theorem mem_pairs_of_found {channel : Bytes}
    (h : pair ∈ (insertAll pairs).findMatches channel) : pair ∈ pairs := by
  rw [← List.count_pos_iff, count_findMatches] at h
  exact List.count_pos_iff.mp (Nat.pos_of_mul_pos_right h)

/-!
# One pattern
-/

theorem findMatches_alone_ne_nil (pattern : Bytes) (connId : ConnectionId)
    (channel : Bytes) :
    (new.insert pattern connId).findMatches channel ≠ [] <->
      SearchFinds ((patternEdges pattern).map PatternEdge.part) channel := by
  rw [← mem_findMatches_alone pattern connId]
  constructor
  · intro hne
    rcases List.exists_mem_of_ne_nil _ hne with ⟨pair, hpair⟩
    have hstored := @mem_pairs_of_found [(pattern, connId)] pair channel hpair
    rwa [List.mem_singleton.mp hstored] at hpair
  · exact List.ne_nil_of_mem

theorem ends_in_stars_iff {edges : List PatternEdge}
    {front : List (Glob.Part UInt8)} :
    edges.map PatternEdge.part = front ++ [.star, .star] <->
      exists before, edges = before ++ [.wildcard, .wildcard] ∧
        before.map PatternEdge.part = front := by
  constructor
  · intro h
    rcases List.map_eq_append_iff.mp h with ⟨before, back, rfl, hbefore, hback⟩
    rcases List.map_eq_cons_iff.mp hback with ⟨e, back', rfl, he, hback'⟩
    rcases List.map_eq_cons_iff.mp hback' with ⟨e', back'', rfl, he', hnil⟩
    rw [PatternEdge.part_eq_star.mp he, PatternEdge.part_eq_star.mp he',
      List.map_eq_nil_iff.mp hnil]
    exact ⟨before, rfl, hbefore⟩
  · rintro ⟨before, rfl, rfl⟩
    simp [PatternEdge.part]

/-- A pattern alone is found on the channels that it stands for if and only if
two stars at its end never both have to take nothing. -/
theorem found_iff_takes_iff (pattern : Bytes) (connId : ConnectionId)
    (channel : Bytes) :
    ((new.insert pattern connId).findMatches channel ≠ [] <->
        PatternTakes pattern channel) <->
      forall front, patternEdges pattern = front ++ [.wildcard, .wildcard] ->
        PatternEdge.Take front channel ->
          exists u, u <+: channel ∧ u ≠ channel ∧ PatternEdge.Take front u := by
  rw [findMatches_alone_ne_nil, ← take_patternEdges_iff]
  refine (finds_iff_takes_iff _ channel).trans ?_
  constructor
  · intro h front hpattern
    exact h _ (ends_in_stars_iff.mpr ⟨front, hpattern, rfl⟩)
  · intro h front hparts
    rcases ends_in_stars_iff.mp hparts with ⟨before, hpattern, rfl⟩
    exact h before hpattern

/-- The pattern `a**` stands for the channel `a`. -/
theorem not_found_iff_takes :
    ¬ ((new.insert [97, 42, 42] 1).findMatches [97] ≠ [] <->
      PatternTakes [97, 42, 42] [97]) := by
  have hnone : (new.insert [97, 42, 42] 1).findMatches [97] = [] := by
    decide +kernel
  have htakes : PatternTakes [97, 42, 42] [97] :=
    .octet (by decide) (.star (List.suffix_refl _) (.star (List.suffix_refl _) .nil))
  intro h
  exact h.mpr htakes hnone

/-!
# Many patterns
-/

/-- Every pair is found on the channels on which it is found alone. -/
def FoundAsAlone (pairs : List (Bytes × ConnectionId)) : Prop :=
  forall pair, pair ∈ pairs -> forall channel,
    (pair ∈ (insertAll pairs).findMatches channel <->
      pair ∈ (new.insert pair.1 pair.2).findMatches channel)

theorem foundAsAlone_iff (pairs : List (Bytes × ConnectionId)) :
    FoundAsAlone pairs <->
      forall pair, pair ∈ pairs ->
        PatternEdge.Agree (pathEdges pairs pair.1) (patternEdges pair.1) ∨
          (PatternEdge.Matchless (pathEdges pairs pair.1) ∧
            PatternEdge.Matchless (patternEdges pair.1)) := by
  refine forall_congr' fun pair => forall_congr' fun hpair => ?_
  have hslots : (pathEdges pairs pair.1).map PatternEdge.slot =
      (patternEdges pair.1).map PatternEdge.slot :=
    TrieNode.slot_sharedEdges (mem_insertions hpair)
  rw [PatternEdge.agree_iff hslots, PatternEdge.matchless_iff,
    PatternEdge.matchless_iff, ← finds_same_iff (PatternEdge.shape_of_slots hslots)]
  refine forall_congr' fun channel => ?_
  rw [mem_findMatches_iff hpair, mem_findMatches_alone]

/-- The class of `[cd]` is taken for that of `[ab]`, which came first. -/
theorem not_foundAsAlone :
    ¬ FoundAsAlone [(asBytes "[ab]", 1), (asBytes "[cd]", 2)] := by
  intro h
  have hfound := (h (asBytes "[cd]", 2) (by decide +kernel) [99]).mpr (by decide +kernel)
  exact absurd hfound (by decide +kernel)

/-- Every pair is found once at most, and a publication sends a connection one
message for each of its patterns at most. -/
def FoundOnce (m : ThreadLocalPubSub) : Prop :=
  forall channel,
    (m.patternTrie.findMatches channel).Nodup ∧
    forall message connId pattern,
      (m.publishLocal channel message).count
        (connId, .patternMessage pattern channel message) <= 1

theorem count_publishLocal (m : ThreadLocalPubSub) (channel message : Bytes)
    (connId : ConnectionId) (pattern : Bytes) :
    (m.publishLocal channel message).count
        (connId, .patternMessage pattern channel message) =
      (m.patternTrie.findMatches channel).count (pattern, connId) := by
  let deliver : Bytes × ConnectionId -> Delivery := fun found =>
    (found.2, .patternMessage found.1 channel message)
  have hinjective : Function.Injective deliver := by
    rintro ⟨pattern, connId⟩ ⟨pattern', connId'⟩ h
    cases h
    rfl
  have hdirect : ((m.channels.subscribers channel).map fun connId =>
      ((connId, .message channel message) : Delivery)).count
        (connId, .patternMessage pattern channel message) = 0 := by
    rw [List.count_eq_zero]
    intro hmem
    rcases List.mem_map.mp hmem with ⟨_, _, heq⟩
    cases heq
  unfold ThreadLocalPubSub.publishLocal ThreadLocalPubSub.patternDeliveries
  rw [List.count_append, hdirect, Nat.zero_add]
  exact List.count_map_of_injective _ deliver hinjective (pattern, connId)

theorem foundOnce_iff_nodup (m : ThreadLocalPubSub) :
    FoundOnce m <-> forall channel, (m.patternTrie.findMatches channel).Nodup := by
  refine forall_congr' fun channel => and_iff_left_of_imp ?_
  intro hnodup message connId pattern
  rw [count_publishLocal]
  exact List.nodup_iff_count_le_one.mp hnodup _

theorem ways_le_one_iff (h : pair ∈ pairs) :
    (forall channel, (insertAll pairs).ways pair.1 channel <= 1) <->
      (patternEdges pair.1).count .wildcard <= 1 ∨
        PatternEdge.Matchless (pathEdges pairs pair.1) := by
  have hcount : ((patternEdges pair.1).map PatternEdge.slot).count .wildcard =
      (patternEdges pair.1).count .wildcard := by
    rw [List.count, List.count, List.countP_map]
    refine List.countP_congr fun e _ => ?_
    cases e <;> simp [PatternEdge.slot]
  rw [← hcount, PatternEdge.matchless_iff]
  refine (TrieNode.ways_le_one_iff _ _).trans (or_congr_right ?_)
  rw [root_insertAll, TrieNode.partsAlong_grow (mem_insertions h) rfl fun slot => by
    cases slot <;> rfl]
  exact Iff.rfl

theorem foundOnce_iff {pairs : List (Bytes × ConnectionId)}
    (hdistinct : pairs.Nodup) {m : ThreadLocalPubSub}
    (htrie : m.patternTrie = insertAll pairs) :
    FoundOnce m <->
      forall pair, pair ∈ pairs ->
        (patternEdges pair.1).count .wildcard <= 1 ∨
          PatternEdge.Matchless (pathEdges pairs pair.1) := by
  rw [foundOnce_iff_nodup, htrie]
  simp only [List.nodup_iff_count_le_one, count_findMatches]
  constructor
  · intro h pair hpair
    refine (ways_le_one_iff hpair).mp fun channel => ?_
    have hle := h channel pair
    rwa [List.count_eq_one_of_mem hdistinct hpair, Nat.one_mul] at hle
  · intro h channel pair
    by_cases hpair : pair ∈ pairs
    · rw [List.count_eq_one_of_mem hdistinct hpair, Nat.one_mul]
      exact (ways_le_one_iff hpair).mpr (h pair hpair) channel
    · rw [List.count_eq_zero_of_not_mem hpair, Nat.zero_mul]
      exact Nat.zero_le _

theorem foundOnce_two_listeners :
    FoundOnce { ThreadLocalPubSub.new 0 with
        patternTrie := insertAll [(asBytes "a*", 1), (asBytes "a*", 2)] } <->
      forall pair, pair ∈ [(asBytes "a*", 1), (asBytes "a*", 2)] ->
        (patternEdges pair.1).count .wildcard <= 1 ∨
          PatternEdge.Matchless
            (pathEdges [(asBytes "a*", 1), (asBytes "a*", 2)] pair.1) :=
  foundOnce_iff (by decide +kernel) rfl

/-- The pattern `*a*` is found twice on the channel `aa`. -/
theorem not_foundOnce :
    ¬ FoundOnce { ThreadLocalPubSub.new 0 with
      patternTrie := insertAll [(asBytes "*a*", 1)] } := by
  intro h
  exact absurd (h (asBytes "aa")).1 (by decide +kernel)

end PatternTrie

end FeoxServer
