import FeoxServer.Pubsub.Cluster

/-!
# Subscriptions as a relation

What the tables of a thread are for: to hold a set of subscriptions of each
kind.  The forward tables, the lists of the connections and the trie are copies
of these sets.
-/

namespace FeoxServer

open Foundation

/-- Who is subscribed to what. -/
abbrev Subscriptions : Type :=
  SubscriptionType -> Set (ConnectionId × Bytes)

namespace Subscriptions

def none : Subscriptions :=
  fun _ => ∅

def join (R : Subscriptions) (kind : SubscriptionType) (connId : ConnectionId)
    (names : List Bytes) : Subscriptions :=
  Function.update R kind (R kind ∪ {s | s.1 = connId ∧ s.2 ∈ names})

def part (R : Subscriptions) (kind : SubscriptionType) (connId : ConnectionId) :
    Option (List Bytes) -> Subscriptions
  | some names =>
      Function.update R kind (R kind \ {s | s.1 = connId ∧ s.2 ∈ names})
  | Option.none => Function.update R kind (R kind \ {s | s.1 = connId})

def perform (R : Subscriptions) : ClusterOp -> Subscriptions
  | .subscribe connId channels => R.join .channel connId channels
  | .unsubscribe connId channels => R.part .channel connId channels
  | .psubscribe connId patterns => R.join .pattern connId patterns
  | .punsubscribe connId patterns => R.part .pattern connId patterns
  | .connectionDropped connId =>
      part (R.part .channel connId Option.none) .pattern connId Option.none
  | .publish _ _ => R
  | .processInbox => R

theorem join_nil (R : Subscriptions) (kind : SubscriptionType)
    (connId : ConnectionId) : R.join kind connId [] = R := by
  simp [join]

theorem join_cons (R : Subscriptions) (kind : SubscriptionType)
    (connId : ConnectionId) (name : Bytes) (names : List Bytes) :
    join (Function.update R kind (insert (connId, name) (R kind))) kind connId
        names =
      R.join kind connId (name :: names) := by
  simp only [join, Function.update_self, Function.update_idem]
  refine congrArg (Function.update R kind) ?_
  ext ⟨connId', name'⟩
  simp only [Set.mem_union, Set.mem_insert_iff, Set.mem_ofPred_eq,
    Prod.mk.injEq, List.mem_cons]
  tauto

theorem part_nil (R : Subscriptions) (kind : SubscriptionType)
    (connId : ConnectionId) : R.part kind connId (some []) = R := by
  simp [part]

theorem part_cons (R : Subscriptions) (kind : SubscriptionType)
    (connId : ConnectionId) (name : Bytes) (names : List Bytes) :
    part (Function.update R kind (R kind \ {(connId, name)})) kind connId
        (some names) =
      R.part kind connId (some (name :: names)) := by
  simp only [part, Function.update_self, Function.update_idem]
  refine congrArg (Function.update R kind) ?_
  ext ⟨connId', name'⟩
  simp only [Set.mem_sdiff, Set.mem_singleton_iff, Set.mem_ofPred_eq,
    Prod.mk.injEq, List.mem_cons]
  tauto

theorem part_all {R : Subscriptions} {kind : SubscriptionType}
    {connId : ConnectionId} {names : List Bytes}
    (h : forall name, (connId, name) ∈ R kind -> name ∈ names) :
    R.part kind connId (some names) = R.part kind connId Option.none := by
  refine congrArg (Function.update R kind) ?_
  ext ⟨connId', name'⟩
  simp only [Set.mem_sdiff, Set.mem_ofPred_eq]
  constructor
  · rintro ⟨hmem, hnot⟩
    refine ⟨hmem, ?_⟩
    rintro rfl
    exact hnot ⟨rfl, h name' hmem⟩
  · rintro ⟨hmem, hnot⟩
    exact ⟨hmem, fun hs => hnot hs.1⟩

end Subscriptions

/-!
# One kind of subscriptions
-/

namespace SubscriptionTable

/-- The forward table holds the pairs `F`, the lists of the connections the
pairs `B`. -/
structure Holds (t : SubscriptionTable) (F B : Set (ConnectionId × Bytes)) :
    Prop where
  subscribers_nodup : forall name, (t.subscribers name).Nodup
  mem_subscribers : forall connId name,
    connId ∈ t.subscribers name <-> (connId, name) ∈ F
  names_nodup : forall connId, (t.namesOf connId).Nodup
  mem_names : forall connId name,
    name ∈ t.namesOf connId <-> (connId, name) ∈ B
  inhabited : forall name subs, t.subs.lookup name = some subs -> subs ≠ []

variable {t : SubscriptionTable} {F B : Set (ConnectionId × Bytes)}

theorem holds_empty : Holds empty ∅ ∅ where
  subscribers_nodup _ := List.nodup_nil
  mem_subscribers connId name := by
    simp [empty, subscribers]
  names_nodup _ := List.nodup_nil
  mem_names connId name := by
    simp [empty, namesOf]
  inhabited name subs h := by
    cases h

theorem namesOf_add (t : SubscriptionTable) (connId connId' : ConnectionId)
    (name : Bytes) :
    (t.add connId name).namesOf connId' =
      if connId' = connId then t.namesOf connId ++ [name]
      else t.namesOf connId' := by
  by_cases h : connId' = connId
  · subst h
    simp [add, namesOf]
  · simp [add, namesOf, h]

theorem namesOf_leave (t : SubscriptionTable) (connId connId' : ConnectionId)
    (name : Bytes) : (t.leave connId name).namesOf connId' = t.namesOf connId' := by
  unfold leave
  cases t.subs.lookup name with
  | none => rfl
  | some subs =>
      simp only
      split <;> rfl

theorem namesOf_forgetName (t : SubscriptionTable)
    (connId connId' : ConnectionId) (name : Bytes) :
    (t.forgetName connId name).namesOf connId' =
      if connId' = connId then (t.namesOf connId).filter (· ≠ name)
      else t.namesOf connId' := by
  unfold forgetName
  cases hlist : t.names.lookup connId with
  | none =>
      by_cases h : connId' = connId
      · subst h
        simp [namesOf, hlist]
      · simp [h]
  | some list =>
      by_cases h : connId' = connId
      · subst h
        simp [namesOf, hlist]
      · simp [namesOf, h]

theorem namesOf_forgetConnection (t : SubscriptionTable)
    (connId connId' : ConnectionId) :
    (t.forgetConnection connId).namesOf connId' =
      if connId' = connId then [] else t.namesOf connId' := by
  by_cases h : connId' = connId
  · subst h
    simp [forgetConnection, namesOf]
  · simp [forgetConnection, namesOf, h]

theorem lookup_add_ne_nil
    (h : forall name subs, t.subs.lookup name = some subs -> subs ≠ [])
    (connId : ConnectionId) (name : Bytes) :
    forall name' subs, (t.add connId name).subs.lookup name' = some subs ->
      subs ≠ [] := by
  intro name' subs hlookup
  unfold add at hlookup
  by_cases hname : name' = name
  · subst hname
    rw [AList.lookup_insert, Option.some.injEq] at hlookup
    rw [← hlookup]
    exact List.append_ne_nil_of_right_ne_nil _ (List.cons_ne_nil _ _)
  · rw [AList.lookup_insert_ne hname] at hlookup
    exact h name' subs hlookup

theorem Holds.add {R : Set (ConnectionId × Bytes)} (h : t.Holds R R)
    {connId : ConnectionId} {name : Bytes}
    (hnew : ¬ connId ∈ t.subscribers name) :
    (t.add connId name).Holds (insert (connId, name) R)
      (insert (connId, name) R) where
  subscribers_nodup name' := by
    rw [subscribers_add]
    split
    · exact (h.subscribers_nodup name).append (List.nodup_singleton connId)
        (List.disjoint_singleton.mpr hnew)
    · exact h.subscribers_nodup name'
  mem_subscribers connId' name' := by
    rw [subscribers_add, Set.mem_insert_iff, ← h.mem_subscribers]
    by_cases hname : name' = name
    · subst hname
      simp [or_comm]
    · simp [hname]
  names_nodup connId' := by
    rw [namesOf_add]
    split
    · refine (h.names_nodup connId).append (List.nodup_singleton name)
        (List.disjoint_singleton.mpr ?_)
      intro hmem
      exact hnew ((h.mem_subscribers connId name).mpr
        ((h.mem_names connId name).mp hmem))
    · exact h.names_nodup connId'
  mem_names connId' name' := by
    rw [namesOf_add, Set.mem_insert_iff, ← h.mem_names]
    by_cases hconn : connId' = connId
    · subst hconn
      simp [or_comm]
    · simp [hconn]
  inhabited := lookup_add_ne_nil h.inhabited connId name

theorem Holds.leave (h : t.Holds F B) (connId : ConnectionId) (name : Bytes) :
    (t.leave connId name).Holds (F \ {(connId, name)}) B where
  subscribers_nodup name' := by
    rw [subscribers_leave]
    split
    · exact (h.subscribers_nodup name).filter _
    · exact h.subscribers_nodup name'
  mem_subscribers connId' name' := by
    rw [subscribers_leave, Set.mem_sdiff, ← h.mem_subscribers]
    by_cases hname : name' = name
    · subst hname
      simp
    · simp [hname]
  names_nodup connId' := by
    rw [namesOf_leave]
    exact h.names_nodup connId'
  mem_names connId' name' := by
    rw [namesOf_leave]
    exact h.mem_names connId' name'
  inhabited := lookup_leave_ne_nil h.inhabited connId name

theorem Holds.forgetName (h : t.Holds F B) (connId : ConnectionId)
    (name : Bytes) :
    (t.forgetName connId name).Holds F (B \ {(connId, name)}) where
  subscribers_nodup name' := by
    unfold subscribers
    rw [subs_forgetName]
    exact h.subscribers_nodup name'
  mem_subscribers connId' name' := by
    unfold subscribers
    rw [subs_forgetName]
    exact h.mem_subscribers connId' name'
  names_nodup connId' := by
    rw [namesOf_forgetName]
    split
    · exact (h.names_nodup connId).filter _
    · exact h.names_nodup connId'
  mem_names connId' name' := by
    rw [namesOf_forgetName, Set.mem_sdiff, ← h.mem_names]
    by_cases hconn : connId' = connId
    · subst hconn
      simp
    · simp [hconn]
  inhabited name' subs hlookup := by
    rw [subs_forgetName] at hlookup
    exact h.inhabited name' subs hlookup

theorem Holds.forgetConnection (h : t.Holds F B) (connId : ConnectionId) :
    (t.forgetConnection connId).Holds F (B \ {s | s.1 = connId}) where
  subscribers_nodup := h.subscribers_nodup
  mem_subscribers := h.mem_subscribers
  names_nodup connId' := by
    rw [namesOf_forgetConnection]
    split
    · exact List.nodup_nil
    · exact h.names_nodup connId'
  mem_names connId' name' := by
    rw [namesOf_forgetConnection, Set.mem_sdiff, ← h.mem_names]
    by_cases hconn : connId' = connId
    · subst hconn
      simp
    · simp [hconn]
  inhabited := h.inhabited

end SubscriptionTable

namespace PatternTrie

/-- Every pair stands once in the trie, at the end of the path of its
pattern. -/
structure Holds (trie : PatternTrie) (P : Set (ConnectionId × Bytes)) :
    Prop where
  nodup : forall path, (trie.root.subscribersAt path).Nodup
  mem : forall path name connId,
    (name, connId) ∈ trie.root.subscribersAt path <->
      path = (patternEdges name).map PatternEdge.slot ∧ (connId, name) ∈ P

theorem holds_new : Holds new ∅ := by
  have htrie : forall path, new.root.subscribersAt path = [] := by
    intro path
    cases path with
    | nil => rfl
    | cons slot path =>
        cases slot <;> exact TrieNode.subscribersAt_absent path
  constructor
  · intro path
    rw [htrie]
    exact List.nodup_nil
  · intro path name connId
    rw [htrie]
    simp

variable {trie : PatternTrie} {P : Set (ConnectionId × Bytes)}

theorem Holds.insert (h : trie.Holds P) {connId : ConnectionId} {name : Bytes}
    (hnew : ¬ (connId, name) ∈ P) :
    (trie.insert name connId).Holds (Insert.insert (connId, name) P) := by
  constructor
  · intro path
    change (TrieNode.subscribersAt path (TrieNode.insertEdges _ _ _)).Nodup
    rw [TrieNode.subscribersAt_insertEdges]
    split
    · refine (h.nodup path).append (List.nodup_singleton _)
        (List.disjoint_singleton.mpr ?_)
      intro hmem
      exact hnew ((h.mem path name connId).mp hmem).2
    · exact h.nodup path
  · intro path name' connId'
    change _ ∈ TrieNode.subscribersAt path (TrieNode.insertEdges _ _ _) <-> _
    rw [TrieNode.subscribersAt_insertEdges, Set.mem_insert_iff]
    have hold := h.mem path name' connId'
    by_cases hpath : path = (patternEdges name).map PatternEdge.slot
    · rw [if_pos hpath, List.mem_append, hold]
      simp only [List.mem_singleton, Prod.mk.injEq]
      constructor
      · rintro (⟨hp, hmem⟩ | ⟨rfl, rfl⟩)
        · exact ⟨hp, Or.inr hmem⟩
        · exact ⟨hpath, Or.inl ⟨rfl, rfl⟩⟩
      · rintro ⟨hp, ⟨rfl, rfl⟩ | hmem⟩
        · exact Or.inr ⟨rfl, rfl⟩
        · exact Or.inl ⟨hp, hmem⟩
    · rw [if_neg hpath, hold]
      simp only [Prod.mk.injEq]
      constructor
      · exact fun hs => ⟨hs.1, Or.inr hs.2⟩
      · rintro ⟨hp, ⟨rfl, rfl⟩ | hmem⟩
        · exact absurd hp hpath
        · exact ⟨hp, hmem⟩

theorem Holds.remove (h : trie.Holds P) (connId : ConnectionId) (name : Bytes) :
    (trie.remove name connId).Holds (P \ {(connId, name)}) := by
  constructor
  · intro path
    change (TrieNode.subscribersAt path (TrieNode.removeEdges _ _ _)).Nodup
    rw [TrieNode.subscribersAt_removeEdges]
    split
    · exact (h.nodup path).filter _
    · exact h.nodup path
  · intro path name' connId'
    change _ ∈ TrieNode.subscribersAt path (TrieNode.removeEdges _ _ _) <-> _
    rw [TrieNode.subscribersAt_removeEdges, Set.mem_sdiff,
      Set.mem_singleton_iff]
    have hold := h.mem path name' connId'
    by_cases hpath : path = (patternEdges name).map PatternEdge.slot
    · rw [if_pos hpath, List.mem_filter, hold, decide_eq_true_eq, and_assoc]
      simp only [ne_eq, Prod.mk.injEq, and_comm]
    · rw [if_neg hpath, hold]
      constructor
      · rintro ⟨hp, hmem⟩
        refine ⟨hp, hmem, ?_⟩
        intro heq
        rw [(Prod.mk.inj heq).2] at hp
        exact hpath hp
      · exact fun hs => ⟨hs.1, hs.2.1⟩

end PatternTrie

/-!
# A whole thread
-/

/-- The forward tables and the trie of a thread hold the subscriptions `F`, the
lists of its connections the subscriptions `B`. -/
structure Holds (m : ThreadLocalPubSub) (F B : Subscriptions) : Prop where
  table : forall kind, (m.table kind).Holds (F kind) (B kind)
  trie : m.patternTrie.Holds (F .pattern)

theorem holds_new (thread : ThreadId) :
    Holds (.new thread) Subscriptions.none Subscriptions.none where
  table kind := by
    cases kind <;> exact SubscriptionTable.holds_empty
  trie := PatternTrie.holds_new

namespace ThreadLocalPubSub

variable {m : ThreadLocalPubSub} {F B R : Subscriptions}

theorem holds_setTable (h : Holds m F B) (kind : SubscriptionType)
    {t : SubscriptionTable} {B' : Set (ConnectionId × Bytes)}
    (ht : t.Holds (F kind) B') :
    Holds (m.setTable kind t) F (Function.update B kind B') where
  table kind' := by
    by_cases hkind : kind' = kind
    · subst hkind
      rw [table_setTable_self, Function.update_self]
      exact ht
    · rw [table_setTable_ne _ _ hkind, Function.update_of_ne hkind]
      exact h.table kind'
  trie := by
    rw [patternTrie_setTable]
    exact h.trie

theorem enter_holds (h : Holds m R R) {kind : SubscriptionType}
    {connId : ConnectionId} {name : Bytes}
    (hnew : ¬ connId ∈ (m.table kind).subscribers name) :
    Holds (enter kind connId name m)
      (Function.update R kind (insert (connId, name) (R kind)))
      (Function.update R kind (insert (connId, name) (R kind))) where
  table kind' := by
    by_cases hkind : kind' = kind
    · subst hkind
      rw [table_enter_self, Function.update_self]
      exact (h.table kind').add hnew
    · rw [table_enter_ne _ _ _ hkind, Function.update_of_ne hkind]
      exact h.table kind'
  trie := by
    cases kind with
    | channel =>
        rw [Function.update_of_ne (by simp)]
        exact h.trie
    | pattern =>
        rw [Function.update_self]
        refine h.trie.insert ?_
        intro hmem
        exact hnew (((h.table .pattern).mem_subscribers connId name).mpr hmem)

theorem subscribeName_holds {r : GlobalRegistry} (h : Holds m R R)
    (kind : SubscriptionType) (connId : ConnectionId) (name : Bytes) :
    Holds (subscribeName kind connId (m, r) name).2.1
      (Function.update R kind (insert (connId, name) (R kind)))
      (Function.update R kind (insert (connId, name) (R kind))) := by
  unfold subscribeName
  by_cases halready : connId ∈ (m.table kind).subscribers name
  · have hmem := ((h.table kind).mem_subscribers connId name).mp halready
    simp only [halready, decide_true, if_true, Set.insert_eq_of_mem hmem,
      Function.update_eq_self]
    exact h
  · simp only [halready, decide_false, Bool.false_eq_true, if_false]
    exact enter_holds h halready

/-- The forward copies give up a subscription; the list of the connection is
another matter. -/
theorem leaveName_holds {r : GlobalRegistry} (h : Holds m F B)
    (kind : SubscriptionType) (connId : ConnectionId) (name : Bytes) :
    Holds (leaveName kind connId (m, r) name).1
      (Function.update F kind (F kind \ {(connId, name)})) B where
  table kind' := by
    change (((dropFromTrie kind connId name m).setTable kind
      (((dropFromTrie kind connId name m).table kind).leave connId
        name)).table kind').Holds _ _
    by_cases hkind : kind' = kind
    · subst hkind
      rw [table_setTable_self, table_dropFromTrie, Function.update_self]
      exact (h.table kind').leave connId name
    · rw [table_setTable_ne _ _ hkind, table_dropFromTrie,
        Function.update_of_ne hkind]
      exact h.table kind'
  trie := by
    change PatternTrie.Holds ((dropFromTrie kind connId name m).setTable kind
      (((dropFromTrie kind connId name m).table kind).leave connId
        name)).patternTrie _
    rw [patternTrie_setTable]
    cases kind with
    | channel =>
        rw [Function.update_of_ne (by simp)]
        exact h.trie
    | pattern =>
        rw [Function.update_self]
        exact h.trie.remove connId name

theorem unsubscribeGiven_holds {r : GlobalRegistry} (h : Holds m R R)
    (kind : SubscriptionType) (connId : ConnectionId) (name : Bytes) :
    Holds (unsubscribeGiven kind connId (m, r) name).2.1
      (Function.update R kind (R kind \ {(connId, name)}))
      (Function.update R kind (R kind \ {(connId, name)})) :=
  have hleave := leaveName_holds (r := r) h kind connId name
  holds_setTable hleave kind ((hleave.table kind).forgetName connId name)

/-!
# Whole operations
-/

theorem subscribeNames_holds (kind : SubscriptionType) (connId : ConnectionId)
    (names : List Bytes) {st : PubSubState} {R : Subscriptions}
    (h : Holds st.1 R R) :
    Holds (forEach (subscribeName kind connId) st names).2.1
      (R.join kind connId names) (R.join kind connId names) := by
  induction names generalizing st R with
  | nil =>
      rw [Subscriptions.join_nil]
      exact h
  | cons name names ih =>
      rw [← Subscriptions.join_cons]
      exact ih (subscribeName_holds (r := st.2) h kind connId name)

theorem unsubscribeGivenNames_holds (kind : SubscriptionType)
    (connId : ConnectionId) (names : List Bytes) {st : PubSubState}
    {R : Subscriptions} (h : Holds st.1 R R) :
    Holds (forEach (unsubscribeGiven kind connId) st names).2.1
      (R.part kind connId (some names)) (R.part kind connId (some names)) := by
  induction names generalizing st R with
  | nil =>
      rw [Subscriptions.part_nil]
      exact h
  | cons name names ih =>
      rw [← Subscriptions.part_cons]
      exact ih (unsubscribeGiven_holds (r := st.2) h kind connId name)

/-- The list of the connection is gone before the loop, so that only the
forward copies change in it. -/
theorem unsubscribeOwnNames_holds (kind : SubscriptionType)
    (connId : ConnectionId) (names : List Bytes) {st : PubSubState}
    {F B : Subscriptions} (h : Holds st.1 F B) :
    Holds (forEach (unsubscribeOwn kind connId) st names).2.1
      (F.part kind connId (some names)) B := by
  induction names generalizing st F with
  | nil =>
      rw [Subscriptions.part_nil]
      exact h
  | cons name names ih =>
      rw [← Subscriptions.part_cons]
      exact ih (leaveName_holds (r := st.2) h kind connId name)

theorem unsubscribeNames_holds (kind : SubscriptionType) (connId : ConnectionId)
    (names : Option (List Bytes)) {st : PubSubState} {R : Subscriptions}
    (h : Holds st.1 R R) :
    Holds (unsubscribeNames kind st connId names).2.1
      (R.part kind connId names) (R.part kind connId names) := by
  cases names with
  | some names => exact unsubscribeGivenNames_holds kind connId names h
  | none =>
      have hown : forall name, (connId, name) ∈ R kind ->
          name ∈ (st.1.table kind).namesOf connId := fun name hmem =>
        ((h.table kind).mem_names connId name).mpr hmem
      unfold unsubscribeNames
      cases hlist : (st.1.table kind).names.lookup connId with
      | none =>
          have hnames : (st.1.table kind).namesOf connId = [] := by
            rw [SubscriptionTable.namesOf, hlist]
            rfl
          rw [hnames] at hown
          rw [← Subscriptions.part_all hown, Subscriptions.part_nil]
          exact h
      | some list =>
          have hnames : (st.1.table kind).namesOf connId = list := by
            rw [SubscriptionTable.namesOf, hlist]
            rfl
          rw [hnames] at hown
          have hforget := holds_setTable h kind
            ((h.table kind).forgetConnection connId)
          have hloop : Holds (forEach (unsubscribeOwn kind connId)
              (st.1.setTable kind ((st.1.table kind).forgetConnection connId),
                st.2) list).2.1 _ _ :=
            unsubscribeOwnNames_holds kind connId list hforget
          rw [Subscriptions.part_all hown] at hloop
          exact hloop

end ThreadLocalPubSub

theorem ClusterOp.perform_holds (op : ClusterOp) {st : PubSubState}
    {R : Subscriptions} (h : Holds st.1 R R) :
    Holds (op.perform st).1 (R.perform op) (R.perform op) := by
  cases op with
  | subscribe connId channels =>
      exact ThreadLocalPubSub.subscribeNames_holds .channel connId channels h
  | unsubscribe connId channels =>
      exact ThreadLocalPubSub.unsubscribeNames_holds .channel connId channels h
  | psubscribe connId patterns =>
      exact ThreadLocalPubSub.subscribeNames_holds .pattern connId patterns h
  | punsubscribe connId patterns =>
      exact ThreadLocalPubSub.unsubscribeNames_holds .pattern connId patterns h
  | connectionDropped connId =>
      exact ThreadLocalPubSub.unsubscribeNames_holds .pattern connId none
        (ThreadLocalPubSub.unsubscribeNames_holds .channel connId none h)
  | publish channel message => exact h
  | processInbox => exact h

theorem holds_foldl_perform (ops : List ClusterOp) {st : PubSubState}
    {R : Subscriptions} (h : Holds st.1 R R) :
    Holds (ops.foldl (fun st op => op.perform st) st).1
      (ops.foldl Subscriptions.perform R) (ops.foldl Subscriptions.perform R) := by
  induction ops generalizing st R with
  | nil => exact h
  | cons op ops ih => exact ih (op.perform_holds h)

theorem count_eq_one_iff {α : Type} [BEq α] [LawfulBEq α] {items : List α}
    (h : items.Nodup) (a : α) : items.count a = 1 <-> a ∈ items := by
  rw [← List.count_pos_iff]
  have hle := List.nodup_iff_count_le_one.mp h a
  omega

/-- After any operations, with repeated and unknown names, the tables, the
lists, the trie and the counts are those of the sets that the operations stand
for. -/
theorem tables_refine_relation (thread : ThreadId) (r : GlobalRegistry)
    (ops : List ClusterOp) :
    let m := (ops.foldl (fun st op => op.perform st) (.new thread, r)).1
    let R := ops.foldl Subscriptions.perform Subscriptions.none
    (forall kind connId name,
      ((m.table kind).subscribers name).count connId <= 1 ∧
      (((m.table kind).subscribers name).count connId = 1 <->
        (connId, name) ∈ R kind) ∧
      ((m.table kind).namesOf connId).count name <= 1 ∧
      (((m.table kind).namesOf connId).count name = 1 <->
        (connId, name) ∈ R kind)) ∧
    (forall kind name subs,
      (m.table kind).subs.lookup name = some subs -> subs ≠ []) ∧
    (forall path name connId,
      (m.patternTrie.root.subscribersAt path).count (name, connId) <= 1 ∧
      ((name, connId) ∈ m.patternTrie.root.subscribersAt path <->
        path = (patternEdges name).map PatternEdge.slot ∧
          (connId, name) ∈ R .pattern)) ∧
    forall connId,
      m.getConnectionSubscriptionCount connId =
        {name | (connId, name) ∈ R .channel}.ncard +
          {name | (connId, name) ∈ R .pattern}.ncard := by
  intro m R
  have h : Holds m R R := holds_foldl_perform ops (holds_new thread)
  refine ⟨?_, ?_, ?_, ?_⟩
  · intro kind connId name
    have hsubs := (h.table kind).subscribers_nodup name
    have hnames := (h.table kind).names_nodup connId
    refine ⟨List.nodup_iff_count_le_one.mp hsubs connId, ?_,
      List.nodup_iff_count_le_one.mp hnames name, ?_⟩
    · rw [count_eq_one_iff hsubs]
      exact (h.table kind).mem_subscribers connId name
    · rw [count_eq_one_iff hnames]
      exact (h.table kind).mem_names connId name
  · exact fun kind => (h.table kind).inhabited
  · intro path name connId
    exact ⟨List.nodup_iff_count_le_one.mp (h.trie.nodup path) (name, connId),
      h.trie.mem path name connId⟩
  · intro connId
    have hcount : forall kind,
        {name | (connId, name) ∈ R kind}.ncard =
          ((m.table kind).namesOf connId).length := by
      intro kind
      refine ncard_eq_length ((h.table kind).names_nodup connId) ?_
      exact fun name => ((h.table kind).mem_names connId name).symm
    rw [hcount .channel, hcount .pattern]
    rfl

end FeoxServer
