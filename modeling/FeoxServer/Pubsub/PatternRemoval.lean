import FeoxServer.Pubsub.PatternLanguage

/-!
# Inserting and removing a pattern

The loop of `insert` and the recursion of `remove_from_node` read the pattern
again, each on its own.  Both go down the edges of the pattern.
-/

namespace FeoxServer

open Foundation

namespace TrieNode

def enter (e : PatternEdge) (goOn : TrieNode -> TrieNode) (t : TrieNode) :
    TrieNode :=
  t.orNew.setChild e (goOn (t.orNew.child e))

/-- The loop of `insert` from a node and a place of the pattern on. -/
def insertFrom (entry : Bytes × ConnectionId) :
    Nat -> Bytes -> TrieNode -> TrieNode
  | _, [], t => t.orNew.setSubscribers (t.orNew.subscribers ++ [entry])
  | 0, _ :: _, t => t
  | fuel + 1, c :: rest, t =>
      if c = 42 then t.enter .wildcard (insertFrom entry fuel rest)
      else if c = 63 then t.enter .single (insertFrom entry fuel rest)
      else if c = 91 then
        match parseCharClass (c :: rest) with
        | some (chars, negated, n) =>
            t.enter (.charClass chars negated)
              (insertFrom entry fuel ((c :: rest).drop n))
        | none => t.enter (.byte c) (insertFrom entry fuel rest)
      else if c = 92 then
        match rest with
        | d :: rest' => t.enter (.byte d) (insertFrom entry fuel rest')
        | [] => t.enter (.byte c) (insertFrom entry fuel rest)
      else t.enter (.byte c) (insertFrom entry fuel rest)

def visit (e : PatternEdge) (goOn : TrieNode -> TrieNode × Bool)
    (t : TrieNode) : TrieNode × Bool :=
  if (t.child e).isAbsent then (t, false)
  else
    let (child, removed) := goOn (t.child e)
    (t.setChild e child, removed)

/-- `remove_from_node`: the node afterwards, and whether a subscriber was
removed. -/
def removeFromNode (entry : Bytes × ConnectionId) :
    Nat -> Bytes -> TrieNode -> TrieNode × Bool
  | _, [], t =>
      let kept := t.subscribers.filter (· ≠ entry)
      (t.setSubscribers kept, kept.length < t.subscribers.length)
  | 0, _ :: _, t => (t, false)
  | fuel + 1, c :: rest, t =>
      if c = 42 then t.visit .wildcard (removeFromNode entry fuel rest)
      else if c = 63 then t.visit .single (removeFromNode entry fuel rest)
      else if c = 91 then
        match parseCharClass (c :: rest) with
        | some (chars, negated, n) =>
            t.visit (.charClass chars negated)
              (removeFromNode entry fuel ((c :: rest).drop n))
        | none => t.visit (.byte c) (removeFromNode entry fuel rest)
      else if c = 92 then
        match rest with
        | d :: rest' => t.visit (.byte d) (removeFromNode entry fuel rest')
        | [] => t.visit (.byte c) (removeFromNode entry fuel rest)
      else t.visit (.byte c) (removeFromNode entry fuel rest)

end TrieNode

namespace PatternTrie

/-- `insert` as the loop over the pattern. -/
def insertWalk (trie : PatternTrie) (pattern : Bytes) (connId : ConnectionId) :
    PatternTrie :=
  { root := trie.root.insertFrom (pattern, connId) pattern.length pattern }

/-- `remove` with its answer. -/
def removeWalk (trie : PatternTrie) (pattern : Bytes) (connId : ConnectionId) :
    PatternTrie × Bool :=
  let (root, removed) :=
    trie.root.removeFromNode (pattern, connId) pattern.length pattern
  ({ root := root }, removed)

end PatternTrie

namespace TrieNode

variable {entry : Bytes × ConnectionId}

theorem insertFrom_eq {pattern : Bytes} {edges : List PatternEdge}
    (h : Spells pattern edges) {fuel : Nat} (hfuel : pattern.length <= fuel)
    (t : TrieNode) : insertFrom entry fuel pattern t = insertEdges entry edges t := by
  induction h generalizing fuel t with
  | nil => cases fuel <;> rfl
  | star _ ih =>
      cases fuel with
      | zero => cases hfuel
      | succ fuel =>
          exact congrArg (t.orNew.setChild _) (ih (Nat.le_of_succ_le_succ hfuel) _)
  | any _ ih =>
      cases fuel with
      | zero => cases hfuel
      | succ fuel =>
          exact congrArg (t.orNew.setChild _) (ih (Nat.le_of_succ_le_succ hfuel) _)
  | charClass hclass _ ih =>
      cases fuel with
      | zero => cases hfuel
      | succ fuel =>
          have hpos := pos_of_parseCharClass hclass
          unfold insertFrom
          simp only [hclass]
          refine congrArg (t.orNew.setChild _) (ih ?_ _)
          rw [List.length_cons] at hfuel
          rw [List.length_drop, List.length_cons]
          omega
  | bracket hopen _ ih =>
      cases fuel with
      | zero => cases hfuel
      | succ fuel =>
          unfold insertFrom
          simp only [hopen]
          exact congrArg (t.orNew.setChild _) (ih (Nat.le_of_succ_le_succ hfuel) _)
  | escaped c _ ih =>
      cases fuel with
      | zero => cases hfuel
      | succ fuel =>
          exact congrArg (t.orNew.setChild _)
            (ih (Nat.le_of_succ_le (Nat.le_of_succ_le_succ hfuel)) _)
  | backslash =>
      cases fuel with
      | zero => cases hfuel
      | succ fuel => cases fuel <;> rfl
  | octet hc _ ih =>
      cases fuel with
      | zero => cases hfuel
      | succ fuel =>
          unfold insertFrom
          simp only [hc.1, hc.2.1, hc.2.2.1, hc.2.2.2, if_false]
          exact congrArg (t.orNew.setChild _) (ih (Nat.le_of_succ_le_succ hfuel) _)

/-- Whether `removeEdges` finds its subscriber. -/
def removesAt (entry : Bytes × ConnectionId) :
    List PatternEdge -> TrieNode -> Bool
  | [], t =>
      (t.subscribers.filter (· ≠ entry)).length < t.subscribers.length
  | e :: edges, t =>
      if (t.child e).isAbsent then false else removesAt entry edges (t.child e)

theorem visit_removeEdges {e : PatternEdge} {edges : List PatternEdge}
    {goOn : TrieNode -> TrieNode × Bool}
    (h : forall t, goOn t = (removeEdges entry edges t, removesAt entry edges t))
    (t : TrieNode) :
    t.visit e goOn =
      (removeEdges entry (e :: edges) t, removesAt entry (e :: edges) t) := by
  unfold visit
  rw [removeEdges, removesAt]
  by_cases habsent : (t.child e).isAbsent
  · simp only [habsent, if_true]
  · simp only [habsent, h]
    rfl

theorem removeFromNode_eq {pattern : Bytes} {edges : List PatternEdge}
    (h : Spells pattern edges) {fuel : Nat} (hfuel : pattern.length <= fuel)
    (t : TrieNode) :
    removeFromNode entry fuel pattern t =
      (removeEdges entry edges t, removesAt entry edges t) := by
  induction h generalizing fuel t with
  | nil => cases fuel <;> rfl
  | star _ ih =>
      cases fuel with
      | zero => cases hfuel
      | succ fuel =>
          exact visit_removeEdges (ih (Nat.le_of_succ_le_succ hfuel)) t
  | any _ ih =>
      cases fuel with
      | zero => cases hfuel
      | succ fuel =>
          exact visit_removeEdges (ih (Nat.le_of_succ_le_succ hfuel)) t
  | charClass hclass _ ih =>
      cases fuel with
      | zero => cases hfuel
      | succ fuel =>
          have hpos := pos_of_parseCharClass hclass
          unfold removeFromNode
          simp only [hclass]
          refine visit_removeEdges (ih ?_) t
          rw [List.length_cons] at hfuel
          rw [List.length_drop, List.length_cons]
          omega
  | bracket hopen _ ih =>
      cases fuel with
      | zero => cases hfuel
      | succ fuel =>
          unfold removeFromNode
          simp only [hopen]
          exact visit_removeEdges (ih (Nat.le_of_succ_le_succ hfuel)) t
  | escaped c _ ih =>
      cases fuel with
      | zero => cases hfuel
      | succ fuel =>
          exact visit_removeEdges
            (ih (Nat.le_of_succ_le (Nat.le_of_succ_le_succ hfuel))) t
  | backslash =>
      cases fuel with
      | zero => cases hfuel
      | succ fuel =>
          refine visit_removeEdges (fun t => ?_) t
          cases fuel <;> rfl
  | octet hc _ ih =>
      cases fuel with
      | zero => cases hfuel
      | succ fuel =>
          unfold removeFromNode
          simp only [hc.1, hc.2.1, hc.2.2.1, hc.2.2.2, if_false]
          exact visit_removeEdges (ih (Nat.le_of_succ_le_succ hfuel)) t

theorem removesAt_iff (edges : List PatternEdge) (t : TrieNode) :
    removesAt entry edges t = true <->
      entry ∈ subscribersAt (edges.map PatternEdge.slot) t := by
  induction edges generalizing t with
  | nil =>
      rw [removesAt, decide_eq_true_iff, List.length_filter_lt_length_iff_exists]
      simp [subscribersAt]
  | cons e edges ih =>
      rw [removesAt, List.map_cons, subscribersAt, ← child_eq_inSlot]
      split_ifs with habsent
      · cases hchild : t.child e with
        | absent => simp [subscribersAt_absent]
        | node =>
            rw [hchild] at habsent
            cases habsent
      · exact ih (t.child e)

/-!
# Removing what was inserted
-/

theorem setChild_setChild {t t' : TrieNode} (e : PatternEdge) (t'' : TrieNode)
    (h : t'.isAbsent = false) :
    (t.setChild e t').setChild e t'' = t.setChild e t'' := by
  cases t with
  | absent => rfl
  | node ch w s cs neg next subs =>
      cases e with
      | charClass chars negated =>
          unfold setChild
          by_cases hnext : next.isAbsent
          · simp [hnext, h]
          · simp [hnext, h]
      | byte c => simp [setChild]
      | _ => rfl

theorem findInNode_absent (text : Bytes) : findInNode absent text = [] := by
  cases text <;> rfl

theorem findInNode_orNew (t : TrieNode) (text : Bytes) :
    t.orNew.findInNode text = t.findInNode text := by
  cases t with
  | node => rfl
  | absent =>
      cases text with
      | nil => rfl
      | cons c rest => simp [orNew, new, findInNode]

theorem findInNode_setChild {t t' : TrieNode} (e : PatternEdge)
    (hfind : forall text, t'.findInNode text = (t.child e).findInNode text)
    (hsubs : t'.subscribers = (t.child e).subscribers) (text : Bytes) :
    (t.setChild e t').findInNode text = t.findInNode text := by
  cases t with
  | absent => rfl
  | node ch w s cs neg next subs =>
      cases e with
      | wildcard =>
          cases text with
          | nil => exact congrArg (subs ++ ·) hsubs
          | cons c rest => simp only [setChild, findInNode, hfind, child]
      | single =>
          cases text with
          | nil => rfl
          | cons c rest => simp only [setChild, findInNode, hfind, child]
      | byte b =>
          cases text with
          | nil => rfl
          | cons c rest =>
              simp only [setChild, findInNode]
              by_cases hb : c = b
              · subst hb
                rw [Function.update_self, hfind]
                rfl
              · rw [Function.update_of_ne hb]
      | charClass chars negated =>
          cases text with
          | nil => cases next <;> rfl
          | cons c rest =>
              cases next with
              | absent =>
                  -- Nothing is found below a class that was not there.
                  have hnone : t'.findInNode rest = [] :=
                    (hfind rest).trans (findInNode_absent rest)
                  simp [setChild, isAbsent, findInNode, hnone]
              | node =>
                  have hsame := hfind rest
                  simp only [child] at hsame
                  simp [setChild, isAbsent, findInNode, hsame]

theorem setSubscribers_twice (t : TrieNode)
    (subs subs' : List (Bytes × ConnectionId)) :
    (t.setSubscribers subs).setSubscribers subs' = t.setSubscribers subs' := by
  cases t <;> rfl

theorem setSubscribers_self (t : TrieNode) :
    t.setSubscribers t.subscribers = t := by
  cases t <;> rfl

theorem filter_append_new {subs : List (Bytes × ConnectionId)}
    (h : entry ∉ subs) : (subs ++ [entry]).filter (· ≠ entry) = subs := by
  rw [List.filter_append, List.filter_eq_self.mpr]
  · simp
  · intro entry' hmem
    exact decide_eq_true fun heq => h (heq ▸ hmem)

theorem subscribersAt_remove_insert {edges : List PatternEdge} {t : TrieNode}
    (h : entry ∉ subscribersAt (edges.map PatternEdge.slot) t)
    (path : List Slot) :
    subscribersAt path (removeEdges entry edges (insertEdges entry edges t)) =
      subscribersAt path t := by
  rw [subscribersAt_removeEdges, subscribersAt_insertEdges]
  split_ifs with hpath
  · rw [hpath]
    exact filter_append_new h
  · rfl

theorem findInNode_remove_insert {edges : List PatternEdge} {t : TrieNode}
    (h : entry ∉ subscribersAt (edges.map PatternEdge.slot) t) (text : Bytes) :
    (removeEdges entry edges (insertEdges entry edges t)).findInNode text =
      t.findInNode text := by
  induction edges generalizing t text with
  | nil =>
      have hsubs : entry ∉ t.orNew.subscribers := by
        rw [orNew_subscribers]
        exact h
      rw [insertEdges, removeEdges,
        subscribers_setSubscribers _ (orNew_isAbsent t), setSubscribers_twice,
        filter_append_new hsubs, setSubscribers_self, findInNode_orNew]
  | cons e edges ih =>
      have hbelow : entry ∉ subscribersAt (edges.map PatternEdge.slot)
          (t.orNew.child e) := by
        rw [child_eq_inSlot, orNew_inSlot]
        exact h
      have hthere := insertEdges_isAbsent entry edges (t.orNew.child e)
      have hchild : (t.orNew.setChild e
          (insertEdges entry edges (t.orNew.child e))).child e =
            insertEdges entry edges (t.orNew.child e) := by
        rw [child_eq_inSlot, inSlot_setChild_self _ _ _ (orNew_isAbsent t)]
      rw [insertEdges, removeEdges, hchild, hthere, if_neg Bool.false_ne_true,
        setChild_setChild e _ hthere,
        findInNode_setChild e (ih hbelow) (subscribersAt_remove_insert hbelow []),
        findInNode_orNew]

end TrieNode

namespace PatternTrie

/-- The pair stands somewhere in the trie. -/
def Stores (trie : PatternTrie) (pair : Bytes × ConnectionId) : Prop :=
  exists path, pair ∈ TrieNode.subscribersAt path trie.root

theorem insertWalk_eq (trie : PatternTrie) (pattern : Bytes)
    (connId : ConnectionId) :
    trie.insertWalk pattern connId = trie.insert pattern connId :=
  congrArg PatternTrie.mk
    (TrieNode.insertFrom_eq (spells_patternEdges pattern) (le_refl _) _)

theorem removeWalk_eq (trie : PatternTrie) (pattern : Bytes)
    (connId : ConnectionId) :
    trie.removeWalk pattern connId = (trie.remove pattern connId,
      trie.root.removesAt (pattern, connId) (patternEdges pattern)) := by
  unfold removeWalk
  rw [TrieNode.removeFromNode_eq (spells_patternEdges pattern) (le_refl _)]
  rfl

theorem subscribersAt_new (path : List Slot) :
    TrieNode.subscribersAt path new.root = [] := by
  cases path with
  | nil => rfl
  | cons slot path => cases slot <;> exact TrieNode.subscribersAt_absent path

theorem not_stores_new (pair : Bytes × ConnectionId) : ¬ new.Stores pair := by
  intro h
  rcases h with ⟨path, hmem⟩
  rw [subscribersAt_new] at hmem
  cases hmem

theorem stores_insertWalk_iff {trie : PatternTrie} {pattern : Bytes} {connId : ConnectionId}
    {pair : Bytes × ConnectionId} :
    (trie.insertWalk pattern connId).Stores pair <->
      pair = (pattern, connId) ∨ trie.Stores pair := by
  have hpath : forall path, pair ∈ TrieNode.subscribersAt path
      (trie.insertWalk pattern connId).root <->
        (path = (patternEdges pattern).map PatternEdge.slot ∧ pair = (pattern, connId)) ∨
          pair ∈ TrieNode.subscribersAt path trie.root := by
    intro path
    rw [insertWalk_eq, insert, TrieNode.subscribersAt_insertEdges]
    by_cases hend : path = (patternEdges pattern).map PatternEdge.slot
    · rw [if_pos hend, List.mem_append, List.mem_singleton, or_comm]
      simp only [hend, true_and]
    · rw [if_neg hend]
      simp only [hend, false_and, false_or]
  unfold Stores
  simp only [hpath, exists_or, exists_and_right, exists_eq, true_and]

/-- Removing a pair that was not there before it was inserted answers that it
was there and leaves nothing of it; removing a pair that is not there answers
so and leaves what is there. -/
theorem remove_undoes_insert (trie : PatternTrie) (pattern : Bytes)
    (connId : ConnectionId) (h : ¬ trie.Stores (pattern, connId)) :
    (((trie.insertWalk pattern connId).removeWalk pattern connId).2 = true ∧
      forall channel,
        ((trie.insertWalk pattern connId).removeWalk pattern connId).1.findMatches
          channel = trie.findMatches channel) ∧
    ((trie.removeWalk pattern connId).2 = false ∧
      forall path, TrieNode.subscribersAt path
        (trie.removeWalk pattern connId).1.root =
          TrieNode.subscribersAt path trie.root) := by
  have hpath : (pattern, connId) ∉ TrieNode.subscribersAt
      ((patternEdges pattern).map PatternEdge.slot) trie.root :=
    fun hmem => h ⟨_, hmem⟩
  simp only [insertWalk_eq, removeWalk_eq]
  refine ⟨⟨?_, fun channel => ?_⟩, ?_, fun path => ?_⟩
  · rw [TrieNode.removesAt_iff, insert, TrieNode.subscribersAt_insertEdges,
      if_pos rfl]
    exact List.mem_append_right _ (List.mem_singleton_self _)
  · exact TrieNode.findInNode_remove_insert hpath channel
  · rw [← Bool.not_eq_true, TrieNode.removesAt_iff]
    exact hpath
  · rw [remove, TrieNode.subscribersAt_removeEdges]
    split_ifs with hend
    · rw [hend, List.filter_eq_self]
      exact fun pair hmem => decide_eq_true fun heq => hpath (heq ▸ hmem)
    · rfl

theorem remove_undoes_insert_shared :
    let trie := ((new.insertWalk (asBytes "news.*") 1).insertWalk (asBytes "news.[ab]") 2
      ).insertWalk (asBytes "news") 1
    (((trie.insertWalk (asBytes "news.[ab]x") 1).removeWalk (asBytes "news.[ab]x") 1).2 =
        true ∧
      forall channel,
        ((trie.insertWalk (asBytes "news.[ab]x") 1).removeWalk (asBytes "news.[ab]x") 1
          ).1.findMatches channel = trie.findMatches channel) ∧
    ((trie.removeWalk (asBytes "news.[ab]x") 1).2 = false ∧
      forall path, TrieNode.subscribersAt path
        (trie.removeWalk (asBytes "news.[ab]x") 1).1.root =
          TrieNode.subscribersAt path trie.root) := by
  intro trie
  apply remove_undoes_insert trie (asBytes "news.[ab]x") 1
  intro h
  rcases stores_insertWalk_iff.mp h with heq | h
  · exact absurd heq (by decide)
  rcases stores_insertWalk_iff.mp h with heq | h
  · exact absurd heq (by decide)
  rcases stores_insertWalk_iff.mp h with heq | h
  · exact absurd heq (by decide)
  exact not_stores_new _ h

end PatternTrie

end FeoxServer
