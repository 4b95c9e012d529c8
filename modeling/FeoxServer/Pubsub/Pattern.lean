import FeoxServer.Pubsub.Message

/-!
# The pattern trie

Patterns are kept in a trie whose edges are the parts of a glob.  A missing
child of the source is the node `absent` here.
-/

namespace FeoxServer

open Foundation

/-- One part of a pattern. -/
inductive PatternEdge where
  | wildcard
  | single
  | charClass (chars : List UInt8) (negated : Bool)
  | byte (c : UInt8)
  deriving DecidableEq

/-- The octets after `start` up to `stop`. -/
def classRange (start stop : UInt8) : List UInt8 :=
  (List.range' (start + 1).toNat (stop.toNat + 1 - (start + 1).toNat)).map
    UInt8.ofNat

/-- The loop of `parse_char_class` from place `i` on: the characters, and the
place behind the closing bracket. -/
def charClassLoop : Nat -> Bytes -> List UInt8 -> Bool -> Nat ->
    Option (List UInt8 × Nat)
  | 0, _, _, _, _ => none
  | _, [], _, _, _ => none
  | fuel + 1, b :: rest, chars, escaped, i =>
      if escaped then charClassLoop fuel rest (chars ++ [b]) false (i + 1)
      else if b = 92 then charClassLoop fuel rest chars true (i + 1)
      else if b = 93 then some (chars, i + 1)
      else
        match chars.getLast?, rest with
        | some start, stop :: rest' =>
            if b = 45 ∧ stop ≠ 93 then
              charClassLoop fuel rest' (chars ++ classRange start stop) false
                (i + 2)
            else charClassLoop fuel rest (chars ++ [b]) false (i + 1)
        | _, _ => charClassLoop fuel rest (chars ++ [b]) false (i + 1)

/-- A character class at the head of a pattern: its characters, whether it is
negated, and its length. -/
def parseCharClass (pattern : Bytes) : Option (List UInt8 × Bool × Nat) :=
  match pattern with
  | 91 :: 94 :: rest =>
      (charClassLoop rest.length rest [] false 2).map fun r =>
        (r.1, true, r.2)
  | 91 :: rest =>
      (charClassLoop rest.length rest [] false 1).map fun r =>
        (r.1, false, r.2)
  | _ => none

def patternEdgesFuel : Nat -> Bytes -> List PatternEdge
  | 0, _ => []
  | _, [] => []
  | fuel + 1, c :: rest =>
      if c = 42 then .wildcard :: patternEdgesFuel fuel rest
      else if c = 63 then .single :: patternEdgesFuel fuel rest
      else if c = 91 then
        match parseCharClass (c :: rest) with
        | some (chars, negated, n) =>
            .charClass chars negated ::
              patternEdgesFuel fuel ((c :: rest).drop n)
        | none => .byte c :: patternEdgesFuel fuel rest
      else if c = 92 then
        match rest with
        | d :: rest' => .byte d :: patternEdgesFuel fuel rest'
        | [] => [.byte c]
      else .byte c :: patternEdgesFuel fuel rest

def patternEdges (pattern : Bytes) : List PatternEdge :=
  patternEdgesFuel pattern.length pattern

/-- A node has at most one character class below it: the class of the pattern
that came first. -/
inductive TrieNode where
  | absent
  | node (children : UInt8 -> TrieNode) (wildcardChild singleCharChild : TrieNode)
      (chars : List UInt8) (negated : Bool) (classNext : TrieNode)
      (subscribers : List (Bytes × ConnectionId))

namespace TrieNode

def new : TrieNode :=
  node (fun _ => absent) absent absent [] false absent []

def orNew : TrieNode -> TrieNode
  | absent => new
  | t => t

def isAbsent : TrieNode -> Bool
  | absent => true
  | _ => false

def subscribers : TrieNode -> List (Bytes × ConnectionId)
  | absent => []
  | node _ _ _ _ _ _ subs => subs

def child : TrieNode -> PatternEdge -> TrieNode
  | absent, _ => absent
  | node _ w _ _ _ _ _, .wildcard => w
  | node _ _ s _ _ _ _, .single => s
  | node _ _ _ _ _ next _, .charClass _ _ => next
  | node children _ _ _ _ _ _, .byte c => children c

def setChild (t : TrieNode) (e : PatternEdge) (t' : TrieNode) : TrieNode :=
  match t, e with
  | absent, _ => absent
  | node ch _ s cs neg next subs, .wildcard => node ch t' s cs neg next subs
  | node ch w _ cs neg next subs, .single => node ch w t' cs neg next subs
  | node ch w s cs neg next subs, .charClass chars negated =>
      if next.isAbsent then node ch w s chars negated t' subs
      else node ch w s cs neg t' subs
  | node ch w s cs neg next subs, .byte c =>
      node (Function.update ch c t') w s cs neg next subs

def setSubscribers (t : TrieNode) (subs : List (Bytes × ConnectionId)) :
    TrieNode :=
  match t with
  | absent => absent
  | node ch w s cs neg next _ => node ch w s cs neg next subs

def insertEdges (entry : Bytes × ConnectionId) :
    List PatternEdge -> TrieNode -> TrieNode
  | [], t => t.orNew.setSubscribers (t.orNew.subscribers ++ [entry])
  | e :: es, t =>
      t.orNew.setChild e (insertEdges entry es (t.orNew.child e))

def removeEdges (entry : Bytes × ConnectionId) :
    List PatternEdge -> TrieNode -> TrieNode
  | [], t => t.setSubscribers (t.subscribers.filter (· ≠ entry))
  | e :: es, t =>
      if (t.child e).isAbsent then t
      else t.setChild e (removeEdges entry es (t.child e))

def matchesCharClass (c : UInt8) (chars : List UInt8) (negated : Bool) : Bool :=
  if negated then !chars.contains c else chars.contains c

def findInNode : TrieNode -> Bytes -> List (Bytes × ConnectionId)
  | absent, _ => []
  | node _ w _ _ _ _ subs, [] => subs ++ w.subscribers
  | node ch w s cs neg next _, c :: rest =>
      findInNode (ch c) rest ++ findInNode s rest ++
        (if matchesCharClass c cs neg then findInNode next rest else []) ++
        (c :: rest).tails.flatMap fun suffix => findInNode w suffix

end TrieNode

structure PatternTrie where
  root : TrieNode

namespace PatternTrie

def new : PatternTrie :=
  { root := .new }

def insert (trie : PatternTrie) (pattern : Bytes) (connId : ConnectionId) :
    PatternTrie :=
  { root := trie.root.insertEdges (pattern, connId) (patternEdges pattern) }

def remove (trie : PatternTrie) (pattern : Bytes) (connId : ConnectionId) :
    PatternTrie :=
  { root := trie.root.removeEdges (pattern, connId) (patternEdges pattern) }

def findMatches (trie : PatternTrie) (channel : Bytes) :
    List (Bytes × ConnectionId) :=
  trie.root.findInNode channel

end PatternTrie

/-!
# Where a subscriber is kept
-/

/-- A place below a node.  All character classes share one. -/
inductive Slot where
  | wildcard
  | single
  | charClass
  | byte (c : UInt8)
  deriving DecidableEq

def PatternEdge.slot : PatternEdge -> Slot
  | wildcard => .wildcard
  | single => .single
  | charClass _ _ => .charClass
  | byte c => .byte c

namespace TrieNode

def inSlot : TrieNode -> Slot -> TrieNode
  | absent, _ => absent
  | node _ w _ _ _ _ _, .wildcard => w
  | node _ _ s _ _ _ _, .single => s
  | node _ _ _ _ _ next _, .charClass => next
  | node ch _ _ _ _ _ _, .byte c => ch c

/-- The subscribers of the node at the end of a path. -/
def subscribersAt : List Slot -> TrieNode -> List (Bytes × ConnectionId)
  | [], t => t.subscribers
  | slot :: path, t => subscribersAt path (t.inSlot slot)

theorem child_eq_inSlot (t : TrieNode) (e : PatternEdge) :
    t.child e = t.inSlot e.slot := by
  cases t with
  | absent => rfl
  | node => cases e <;> rfl

theorem inSlot_setChild_self (t : TrieNode) (e : PatternEdge) (t' : TrieNode)
    (h : t.isAbsent = false) : (t.setChild e t').inSlot e.slot = t' := by
  cases t with
  | absent => cases h
  | node ch w s cs neg next subs =>
      cases e with
      | wildcard => rfl
      | single => rfl
      | charClass chars negated =>
          unfold setChild
          by_cases habsent : next.isAbsent
          · simp only [habsent, if_true]
            rfl
          · simp only [habsent]
            rfl
      | byte c =>
          change Function.update ch c t' c = t'
          rw [Function.update_self]

theorem inSlot_setChild_ne (t : TrieNode) (e : PatternEdge) (t' : TrieNode)
    {slot : Slot} (h : slot ≠ e.slot) :
    (t.setChild e t').inSlot slot = t.inSlot slot := by
  cases t with
  | absent => rfl
  | node ch w s cs neg next subs =>
      cases e with
      | wildcard => cases slot <;> first | rfl | exact absurd rfl h
      | single => cases slot <;> first | rfl | exact absurd rfl h
      | charClass chars negated =>
          unfold setChild
          by_cases habsent : next.isAbsent
          · simp only [habsent, if_true]
            cases slot <;> first | rfl | exact absurd rfl h
          · simp only [habsent]
            cases slot <;> first | rfl | exact absurd rfl h
      | byte c =>
          cases slot with
          | byte d =>
              change Function.update ch c t' d = ch d
              rw [Function.update_of_ne]
              intro hd
              exact h (congrArg Slot.byte hd)
          | wildcard => rfl
          | single => rfl
          | charClass => rfl

theorem subscribers_setChild (t : TrieNode) (e : PatternEdge) (t' : TrieNode) :
    (t.setChild e t').subscribers = t.subscribers := by
  cases t with
  | absent => rfl
  | node ch w s cs neg next subs =>
      cases e with
      | charClass chars negated =>
          unfold setChild
          by_cases habsent : next.isAbsent
          · simp only [habsent, if_true]
            rfl
          · simp only [habsent]
            rfl
      | wildcard => rfl
      | single => rfl
      | byte c => rfl

theorem orNew_isAbsent (t : TrieNode) : t.orNew.isAbsent = false := by
  cases t <;> rfl

theorem orNew_inSlot (t : TrieNode) (slot : Slot) : t.orNew.inSlot slot = t.inSlot slot := by
  cases t with
  | absent => cases slot <;> rfl
  | node => rfl

theorem orNew_subscribers (t : TrieNode) :
    t.orNew.subscribers = t.subscribers := by
  cases t <;> rfl

theorem subscribers_setSubscribers {t : TrieNode}
    (subs : List (Bytes × ConnectionId)) (h : t.isAbsent = false) :
    (t.setSubscribers subs).subscribers = subs := by
  cases t with
  | absent => cases h
  | node => rfl

theorem inSlot_setSubscribers (t : TrieNode) (subs : List (Bytes × ConnectionId))
    (slot : Slot) : (t.setSubscribers subs).inSlot slot = t.inSlot slot := by
  cases t with
  | absent => rfl
  | node => cases slot <;> rfl

theorem insertEdges_isAbsent (entry : Bytes × ConnectionId)
    (edges : List PatternEdge) (t : TrieNode) :
    (insertEdges entry edges t).isAbsent = false := by
  cases t with
  | absent =>
      cases edges with
      | nil => rfl
      | cons e edges => cases e <;> rfl
  | node ch w s cs neg next subs =>
      cases edges with
      | nil => rfl
      | cons e edges =>
          cases e with
          | charClass chars negated =>
              simp only [insertEdges, orNew, setChild]
              split_ifs <;> rfl
          | _ => rfl

/-- Insertion changes the subscribers at the end of its path and nowhere
else. -/
theorem subscribersAt_insertEdges (entry : Bytes × ConnectionId)
    (es : List PatternEdge) (t : TrieNode) (path : List Slot) :
    subscribersAt path (insertEdges entry es t) =
      if path = es.map PatternEdge.slot then subscribersAt path t ++ [entry]
      else subscribersAt path t := by
  induction es generalizing t path with
  | nil =>
      cases path with
      | nil =>
          simp only [insertEdges, subscribersAt, List.map_nil, if_true]
          rw [subscribers_setSubscribers _ (orNew_isAbsent t),
            orNew_subscribers]
      | cons slot path =>
          simp only [insertEdges, subscribersAt, List.map_nil,
            inSlot_setSubscribers, orNew_inSlot]
          rw [if_neg (List.cons_ne_nil slot path)]
  | cons e es ih =>
      cases path with
      | nil =>
          simp only [insertEdges, subscribersAt, List.map_cons,
            subscribers_setChild, orNew_subscribers]
          rw [if_neg (List.cons_ne_nil _ _).symm]
      | cons slot path =>
          simp only [insertEdges, subscribersAt, List.map_cons]
          by_cases hslot : slot = e.slot
          · subst hslot
            rw [inSlot_setChild_self _ _ _ (orNew_isAbsent t), ih, child_eq_inSlot,
              orNew_inSlot]
            simp
          · rw [inSlot_setChild_ne _ _ _ hslot, orNew_inSlot, if_neg]
            intro heq
            exact hslot (List.cons.inj heq).1

theorem subscribersAt_absent (path : List Slot) :
    subscribersAt path absent = [] := by
  induction path with
  | nil => rfl
  | cons slot path ih => exact ih

theorem subscribersAt_removeEdges (entry : Bytes × ConnectionId)
    (es : List PatternEdge) (t : TrieNode) (path : List Slot) :
    subscribersAt path (removeEdges entry es t) =
      if path = es.map PatternEdge.slot then
        (subscribersAt path t).filter (· ≠ entry)
      else subscribersAt path t := by
  induction es generalizing t path with
  | nil =>
      cases path with
      | nil =>
          cases t with
          | absent => rfl
          | node => rfl
      | cons slot path =>
          simp only [removeEdges, subscribersAt, List.map_nil,
            inSlot_setSubscribers]
          rw [if_neg (List.cons_ne_nil slot path)]
  | cons e es ih =>
      by_cases habsent : (t.child e).isAbsent
      · have hnone : subscribersAt (es.map PatternEdge.slot) (t.inSlot e.slot) =
            [] := by
          rw [← child_eq_inSlot]
          cases hchild : t.child e with
          | absent => exact subscribersAt_absent _
          | node =>
              rw [hchild] at habsent
              cases habsent
        simp only [removeEdges, habsent, if_true]
        by_cases hpath : path = (e :: es).map PatternEdge.slot
        · rw [if_pos hpath, hpath, List.map_cons, subscribersAt, hnone]
          rfl
        · rw [if_neg hpath]
      · have hnode : t.isAbsent = false := by
          cases t with
          | absent => exact absurd rfl habsent
          | node => rfl
        cases path with
        | nil =>
            simp only [removeEdges, habsent, subscribersAt, List.map_cons]
            rw [if_neg (by simp), subscribers_setChild,
              if_neg (List.cons_ne_nil _ _).symm]
        | cons slot path =>
            simp only [removeEdges, habsent, subscribersAt, List.map_cons]
            rw [if_neg (by simp)]
            by_cases hslot : slot = e.slot
            · subst hslot
              rw [inSlot_setChild_self _ _ _ hnode, ih, child_eq_inSlot]
              simp
            · rw [inSlot_setChild_ne _ _ _ hslot, if_neg]
              intro heq
              exact hslot (List.cons.inj heq).1

theorem exists_path_of_mem_findInNode {entry : Bytes × ConnectionId}
    {t : TrieNode} {text : Bytes} (h : entry ∈ t.findInNode text) :
    exists path, entry ∈ subscribersAt path t := by
  induction t generalizing text with
  | absent => cases text <;> cases h
  | node ch w s cs neg next subs ihch ihw ihs ihnext =>
      cases text with
      | nil =>
          rcases List.mem_append.mp h with hhere | hwild
          · exact ⟨[], hhere⟩
          · exact ⟨[.wildcard], hwild⟩
      | cons c rest =>
          simp only [findInNode, List.mem_append, List.mem_flatMap] at h
          rcases h with ((hbyte | hsingle) | hclass) | ⟨suffix, _, hwild⟩
          · rcases ihch c hbyte with ⟨path, hpath⟩
            exact ⟨.byte c :: path, hpath⟩
          · rcases ihs hsingle with ⟨path, hpath⟩
            exact ⟨.single :: path, hpath⟩
          · by_cases hmatch : matchesCharClass c cs neg
            · rw [if_pos hmatch] at hclass
              rcases ihnext hclass with ⟨path, hpath⟩
              exact ⟨.charClass :: path, hpath⟩
            · rw [if_neg hmatch] at hclass
              cases hclass
          · rcases ihw hwild with ⟨path, hpath⟩
            exact ⟨.wildcard :: path, hpath⟩

/-!
# How often a subscriber is found
-/

def classTakes : TrieNode -> UInt8 -> Bool
  | absent, _ => false
  | node _ _ _ chars negated _ _, c => matchesCharClass c chars negated

def ways : List Slot -> TrieNode -> Bytes -> Nat
  | [], _, text => if text = [] then 1 else 0
  | .wildcard :: path, _, [] => if path = [] then 1 else 0
  | .single :: _, _, [] => 0
  | .charClass :: _, _, [] => 0
  | .byte _ :: _, _, [] => 0
  | .wildcard :: path, t, c :: rest =>
      ((c :: rest).tails.map fun suffix =>
        ways path (t.inSlot .wildcard) suffix).sum
  | .single :: path, t, _ :: rest => ways path (t.inSlot .single) rest
  | .charClass :: path, t, c :: rest =>
      if t.classTakes c then ways path (t.inSlot .charClass) rest else 0
  | .byte b :: path, t, c :: rest =>
      if b = c then ways path (t.inSlot (.byte c)) rest else 0

theorem findInNode_nil (t : TrieNode) :
    t.findInNode [] = t.subscribers ++ (t.inSlot .wildcard).subscribers := by
  cases t <;> rfl

theorem count_findInNode_cons (entry : Bytes × ConnectionId) (t : TrieNode)
    (c : UInt8) (rest : Bytes) :
    (t.findInNode (c :: rest)).count entry =
      ((t.inSlot (.byte c)).findInNode rest).count entry +
        ((t.inSlot .single).findInNode rest).count entry +
        (if t.classTakes c then
          ((t.inSlot .charClass).findInNode rest).count entry else 0) +
        ((c :: rest).tails.map fun suffix =>
          ((t.inSlot .wildcard).findInNode suffix).count entry).sum := by
  cases t with
  | absent =>
      have hnone : forall text, findInNode absent text = [] := by
        intro text
        cases text <;> rfl
      simp [inSlot, hnone]
  | node ch w s cs neg next subs =>
      simp only [findInNode, List.count_append, List.count_flatMap, classTakes,
        inSlot, Function.comp_def, apply_ite (List.count entry),
        List.count_nil]
      rfl

/-- A subscriber that stands at the end of one path only is found as often as
the path takes the text. -/
theorem count_findInNode {entry : Bytes × ConnectionId} (q : List Slot)
    {t : TrieNode} (text : Bytes)
    (honly : forall path, path ≠ q -> ¬ entry ∈ subscribersAt path t) :
    (t.findInNode text).count entry =
      (subscribersAt q t).count entry * ways q t text := by
  have habsent : forall slot, (forall path, slot :: path ≠ q) ->
      forall text, ((t.inSlot slot).findInNode text).count entry = 0 := by
    intro slot hne text
    rw [List.count_eq_zero]
    intro hmem
    rcases exists_path_of_mem_findInNode hmem with ⟨path, hpath⟩
    exact honly (slot :: path) (hne path) hpath
  induction q generalizing t text with
  | nil =>
      have hnone := fun slot => habsent slot fun path =>
        List.cons_ne_nil slot path
      cases text with
      | nil =>
          have hwild : (t.inSlot .wildcard).subscribers.count entry = 0 :=
            List.count_eq_zero.mpr (honly [.wildcard] (List.cons_ne_nil _ _))
          rw [findInNode_nil, List.count_append, hwild]
          simp [subscribersAt, ways]
      | cons c rest =>
          rw [count_findInNode_cons]
          simp [hnone, ways]
  | cons slot q ih =>
      have hhere : t.subscribers.count entry = 0 :=
        List.count_eq_zero.mpr (honly [] (List.cons_ne_nil _ _).symm)
      have hother : forall slot', slot' ≠ slot -> forall text,
          ((t.inSlot slot').findInNode text).count entry = 0 := fun slot' hne =>
        habsent slot' fun path heq => hne (List.cons.inj heq).1
      have hbelow : forall path, path ≠ q ->
          ¬ entry ∈ subscribersAt path (t.inSlot slot) := fun path hne =>
        honly (slot :: path) fun heq => hne (List.cons.inj heq).2
      have hchild : forall text, ((t.inSlot slot).findInNode text).count entry =
          (subscribersAt q (t.inSlot slot)).count entry *
            ways q (t.inSlot slot) text := by
        intro text
        refine ih text hbelow ?_
        intro slot' hne text
        rw [List.count_eq_zero]
        intro hmem
        rcases exists_path_of_mem_findInNode hmem with ⟨path, hpath⟩
        exact hbelow (slot' :: path) (hne path) hpath
      cases text with
      | nil =>
          rw [findInNode_nil, List.count_append, hhere, Nat.zero_add]
          by_cases hwild : slot = .wildcard ∧ q = []
          · rcases hwild with ⟨rfl, rfl⟩
            simp [subscribersAt, ways]
          · have hzero : (t.inSlot .wildcard).subscribers.count entry = 0 := by
              refine List.count_eq_zero.mpr (honly [.wildcard] fun heq => ?_)
              exact hwild ⟨(List.cons.inj heq).1.symm,
                (List.cons.inj heq).2.symm⟩
            have hways : ways (slot :: q) t [] = 0 := by
              cases slot with
              | wildcard => exact if_neg fun heq => hwild ⟨rfl, heq⟩
              | single => rfl
              | charClass => rfl
              | byte b => rfl
            rw [hzero, hways, Nat.mul_zero]
      | cons c rest =>
          rw [count_findInNode_cons, subscribersAt]
          cases slot with
          | wildcard =>
              simp only [hother (.byte c) nofun, hother .single nofun,
                hother .charClass nofun, hchild, ways, ite_self, Nat.zero_add,
                ← List.sum_map_mul_left]
          | single =>
              simp [hother (.byte c) nofun, hother .charClass nofun,
                hother .wildcard nofun, hchild, ways]
          | charClass =>
              simp [hother (.byte c) nofun, hother .single nofun,
                hother .wildcard nofun, hchild, ways]
          | byte b =>
              by_cases hb : b = c
              · subst hb
                simp [hother .single nofun, hother .charClass nofun,
                  hother .wildcard nofun, hchild, ways]
              · have hbyte := hother (.byte c)
                  fun heq => hb (Slot.byte.inj heq).symm
                simp [hbyte, hother .single nofun, hother .charClass nofun,
                  hother .wildcard nofun, ways, hb]

end TrieNode

namespace PatternTrie

def ways (trie : PatternTrie) (pattern channel : Bytes) : Nat :=
  TrieNode.ways ((patternEdges pattern).map PatternEdge.slot) trie.root channel

end PatternTrie

end FeoxServer
