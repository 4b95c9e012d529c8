import FeoxServer.Pubsub.Manager

/-!
# Interest follows subscriptions

A thread is entered in the registry for exactly the names that its own tables
hold, and its trie holds no pattern that its tables do not hold.
-/

namespace FeoxServer

open Foundation

/-- The tables of a thread agree with the registry and with the trie. -/
structure Registered (m : ThreadLocalPubSub) (r : GlobalRegistry) : Prop where
  interest : forall kind name,
    name ∈ (m.table kind).subs <-> m.threadId ∈ r.interested kind name
  inhabited : forall kind name subs,
    (m.table kind).subs.lookup name = some subs -> subs ≠ []
  trie : forall path entry,
    entry ∈ m.patternTrie.root.subscribersAt path ->
      path = (patternEdges entry.1).map PatternEdge.slot ∧
        entry.2 ∈ m.patterns.subscribers entry.1

/-- The registry may have changed only in what it says about thread `u`. -/
def SameForOthers (u : ThreadId) (r r' : GlobalRegistry) : Prop :=
  r'.inboxes.length = r.inboxes.length ∧
    forall v kind name, v ≠ u ->
      (v ∈ r'.interested kind name <-> v ∈ r.interested kind name)

theorem SameForOthers.refl (u : ThreadId) (r : GlobalRegistry) :
    SameForOthers u r r :=
  ⟨rfl, fun _ _ _ _ => Iff.rfl⟩

theorem SameForOthers.trans {u : ThreadId} {r r' r'' : GlobalRegistry}
    (h : SameForOthers u r r') (h' : SameForOthers u r' r'') :
    SameForOthers u r r'' :=
  ⟨h'.1.trans h.1, fun v kind name hv =>
    (h'.2 v kind name hv).trans (h.2 v kind name hv)⟩

theorem Registered.of_sameForOthers {m : ThreadLocalPubSub}
    {r r' : GlobalRegistry} {u : ThreadId} (h : Registered m r)
    (hsame : SameForOthers u r r') (hne : m.threadId ≠ u) : Registered m r' where
  interest kind name :=
    (h.interest kind name).trans (hsame.2 m.threadId kind name hne).symm
  inhabited := h.inhabited
  trie := h.trie

theorem registered_new (u : ThreadId) (n : Nat) :
    Registered (ThreadLocalPubSub.new u) (GlobalRegistry.new n) where
  interest kind name := by
    cases kind <;>
      simp [ThreadLocalPubSub.new, ThreadLocalPubSub.table,
        SubscriptionTable.empty, GlobalRegistry.new,
        GlobalRegistry.interested, Interests.threads]
  inhabited kind name subs h := by
    cases kind <;> cases h
  trie path entry h := by
    cases path with
    | nil => cases h
    | cons slot path =>
        have hnone : TrieNode.new.inSlot slot = .absent := by
          cases slot <;> rfl
        change entry ∈ TrieNode.subscribersAt path (TrieNode.new.inSlot slot) at h
        rw [hnone, TrieNode.subscribersAt_absent] at h
        cases h

/-!
# The registry
-/

namespace GlobalRegistry

theorem mem_interested_addInterest {r : GlobalRegistry}
    {kind kind' : SubscriptionType} {name name' : Bytes} {u v : ThreadId} :
    v ∈ (r.addInterest kind name u).interested kind' name' <->
      v ∈ r.interested kind' name' ∨ kind' = kind ∧ name' = name ∧ v = u := by
  cases kind <;> cases kind' <;>
    simp [addInterest, interested, addChannelInterest, addPatternInterest,
      Interests.mem_threads_add]

theorem mem_interested_removeInterest {r : GlobalRegistry}
    {kind kind' : SubscriptionType} {name name' : Bytes} {u v : ThreadId} :
    v ∈ (r.removeInterest kind name u).interested kind' name' <->
      v ∈ r.interested kind' name' ∧
        ¬ (kind' = kind ∧ name' = name ∧ v = u) := by
  cases kind <;> cases kind' <;>
    simp [removeInterest, interested, removeChannelInterest,
      removePatternInterest, Interests.mem_threads_remove]

@[simp] theorem interested_incrementSubscribers (r : GlobalRegistry)
    (kind kind' : SubscriptionType) (name name' : Bytes) :
    (r.incrementSubscribers kind name).interested kind' name' =
      r.interested kind' name' := by
  cases kind <;> cases kind' <;> rfl

@[simp] theorem interested_decrementSubscribers (r : GlobalRegistry)
    (kind kind' : SubscriptionType) (name name' : Bytes) :
    (r.decrementSubscribers kind name).interested kind' name' =
      r.interested kind' name' := by
  cases kind <;> cases kind' <;> rfl

@[simp] theorem inboxes_incrementSubscribers (r : GlobalRegistry)
    (kind : SubscriptionType) (name : Bytes) :
    (r.incrementSubscribers kind name).inboxes = r.inboxes := by
  cases kind <;> rfl

@[simp] theorem inboxes_decrementSubscribers (r : GlobalRegistry)
    (kind : SubscriptionType) (name : Bytes) :
    (r.decrementSubscribers kind name).inboxes = r.inboxes := by
  cases kind <;> rfl

@[simp] theorem inboxes_addInterest (r : GlobalRegistry)
    (kind : SubscriptionType) (name : Bytes) (u : ThreadId) :
    (r.addInterest kind name u).inboxes = r.inboxes := by
  cases kind <;> rfl

@[simp] theorem inboxes_removeInterest (r : GlobalRegistry)
    (kind : SubscriptionType) (name : Bytes) (u : ThreadId) :
    (r.removeInterest kind name u).inboxes = r.inboxes := by
  cases kind <;> rfl

end GlobalRegistry

/-!
# The tables
-/

namespace SubscriptionTable

theorem mem_subs_add {t : SubscriptionTable} {connId : ConnectionId}
    {name name' : Bytes} :
    name' ∈ (t.add connId name).subs <-> name' ∈ t.subs ∨ name' = name := by
  simp only [add, AList.mem_insert]
  exact or_comm

theorem subscribers_add (t : SubscriptionTable) (connId : ConnectionId)
    (name name' : Bytes) :
    (t.add connId name).subscribers name' =
      if name' = name then t.subscribers name ++ [connId]
      else t.subscribers name' := by
  by_cases h : name' = name
  · subst h
    simp [add, subscribers]
  · simp [add, subscribers, h]

theorem subscribers_leave (t : SubscriptionTable) (connId : ConnectionId)
    (name name' : Bytes) :
    (t.leave connId name).subscribers name' =
      if name' = name then (t.subscribers name).filter (· ≠ connId)
      else t.subscribers name' := by
  unfold leave
  cases hentry : t.subs.lookup name with
  | none =>
      by_cases h : name' = name
      · subst h
        simp [subscribers, hentry]
      · simp [h]
  | some subs =>
      by_cases hempty : subs.filter (· ≠ connId) = []
      · simp only [if_pos hempty]
        by_cases h : name' = name
        · subst h
          simp only [subscribers, hentry, AList.lookup_erase, if_true,
            Option.getD_none, Option.getD_some, hempty]
        · simp [subscribers, h]
      · simp only [if_neg hempty]
        by_cases h : name' = name
        · subst h
          simp [subscribers, hentry]
        · simp [subscribers, h]

theorem mem_subs_leave {t : SubscriptionTable} {connId : ConnectionId}
    {name name' : Bytes} :
    name' ∈ (t.leave connId name).subs <->
      name' ∈ t.subs ∧ ¬ (name' = name ∧ t.leavesEmpty connId name = true) := by
  unfold leave leavesEmpty
  cases hentry : t.subs.lookup name with
  | none => simp
  | some subs =>
      have hmem : name ∈ t.subs := by
        rw [← AList.lookup_isSome, hentry]
        rfl
      simp only
      generalize subs.filter (· ≠ connId) = left
      by_cases hempty : left = []
      · simp only [hempty, if_true, AList.mem_erase, decide_true, and_true]
        exact and_comm
      · simp only [hempty, if_false, decide_false, Bool.false_eq_true,
          and_false, not_false_eq_true, and_true]
        rw [AList.mem_insert]
        constructor
        · rintro (rfl | h)
          · exact hmem
          · exact h
        · exact Or.inr

theorem lookup_leave_ne_nil {t : SubscriptionTable}
    (h : forall name subs, t.subs.lookup name = some subs -> subs ≠ [])
    (connId : ConnectionId) (name : Bytes) :
    forall name' subs, (t.leave connId name).subs.lookup name' = some subs ->
      subs ≠ [] := by
  intro name' subs hlookup
  unfold leave at hlookup
  cases hentry : t.subs.lookup name with
  | none =>
      rw [hentry] at hlookup
      exact h name' subs hlookup
  | some old =>
      rw [hentry] at hlookup
      by_cases hempty : old.filter (· ≠ connId) = []
      · simp only [if_pos hempty] at hlookup
        by_cases hname : name' = name
        · subst hname
          rw [AList.lookup_erase] at hlookup
          cases hlookup
        · rw [AList.lookup_erase_ne hname] at hlookup
          exact h name' subs hlookup
      · simp only [if_neg hempty] at hlookup
        by_cases hname : name' = name
        · subst hname
          rw [AList.lookup_insert] at hlookup
          injection hlookup with hsubs
          rw [← hsubs]
          exact hempty
        · rw [AList.lookup_insert_ne hname] at hlookup
          exact h name' subs hlookup

@[simp] theorem subs_forgetName (t : SubscriptionTable) (connId : ConnectionId)
    (name : Bytes) : (t.forgetName connId name).subs = t.subs := by
  unfold forgetName
  cases t.names.lookup connId <;> rfl

@[simp] theorem subs_forgetConnection (t : SubscriptionTable)
    (connId : ConnectionId) : (t.forgetConnection connId).subs = t.subs := rfl

end SubscriptionTable

namespace ThreadLocalPubSub

@[simp] theorem table_setTable_self (m : ThreadLocalPubSub)
    (kind : SubscriptionType) (t : SubscriptionTable) :
    (m.setTable kind t).table kind = t := by
  cases kind <;> rfl

theorem table_setTable_ne (m : ThreadLocalPubSub) {kind kind' : SubscriptionType}
    (t : SubscriptionTable) (h : kind' ≠ kind) :
    (m.setTable kind t).table kind' = m.table kind' := by
  cases kind <;> cases kind' <;> first | rfl | exact absurd rfl h

@[simp] theorem threadId_setTable (m : ThreadLocalPubSub)
    (kind : SubscriptionType) (t : SubscriptionTable) :
    (m.setTable kind t).threadId = m.threadId := by
  cases kind <;> rfl

@[simp] theorem patternTrie_setTable (m : ThreadLocalPubSub)
    (kind : SubscriptionType) (t : SubscriptionTable) :
    (m.setTable kind t).patternTrie = m.patternTrie := by
  cases kind <;> rfl

@[simp] theorem table_dropFromTrie (m : ThreadLocalPubSub)
    (kind kind' : SubscriptionType) (connId : ConnectionId) (name : Bytes) :
    (dropFromTrie kind connId name m).table kind' = m.table kind' := by
  cases kind <;> cases kind' <;> rfl

@[simp] theorem threadId_dropFromTrie (m : ThreadLocalPubSub)
    (kind : SubscriptionType) (connId : ConnectionId) (name : Bytes) :
    (dropFromTrie kind connId name m).threadId = m.threadId := by
  cases kind <;> rfl

@[simp] theorem threadId_enter (m : ThreadLocalPubSub)
    (kind : SubscriptionType) (connId : ConnectionId) (name : Bytes) :
    (enter kind connId name m).threadId = m.threadId := by
  cases kind <;> rfl

theorem table_enter_self (m : ThreadLocalPubSub) (kind : SubscriptionType)
    (connId : ConnectionId) (name : Bytes) :
    (enter kind connId name m).table kind =
      (m.table kind).add connId name := by
  cases kind <;> rfl

theorem table_enter_ne (m : ThreadLocalPubSub) {kind kind' : SubscriptionType}
    (connId : ConnectionId) (name : Bytes) (h : kind' ≠ kind) :
    (enter kind connId name m).table kind' = m.table kind' := by
  cases kind <;> cases kind' <;> first | rfl | exact absurd rfl h

end ThreadLocalPubSub

/-!
# One name at a time
-/

/-- A step of one thread keeps the agreement, and tells the registry nothing
about other threads. -/
structure Settled (st st' : PubSubState) : Prop where
  threadId : st'.1.threadId = st.1.threadId
  others : SameForOthers st.1.threadId st.2 st'.2
  registered : Registered st.1 st.2 -> Registered st'.1 st'.2

theorem Settled.refl (st : PubSubState) : Settled st st :=
  ⟨rfl, SameForOthers.refl _ _, id⟩

theorem Settled.trans {st st' st'' : PubSubState} (h : Settled st st')
    (h' : Settled st' st'') : Settled st st'' where
  threadId := h'.threadId.trans h.threadId
  others := by
    have hothers := h'.others
    rw [h.threadId] at hothers
    exact h.others.trans hothers
  registered hreg := h'.registered (h.registered hreg)

namespace ThreadLocalPubSub

theorem mem_trie_insert {trie : PatternTrie} {name : Bytes}
    {connId : ConnectionId} {path : List Slot} {entry : Bytes × ConnectionId}
    (h : entry ∈ (trie.insert name connId).root.subscribersAt path) :
    entry ∈ trie.root.subscribersAt path ∨
      entry = (name, connId) ∧
        path = (patternEdges name).map PatternEdge.slot := by
  change entry ∈ TrieNode.subscribersAt path (TrieNode.insertEdges _ _ _) at h
  rw [TrieNode.subscribersAt_insertEdges] at h
  by_cases hpath : path = (patternEdges name).map PatternEdge.slot
  · rw [if_pos hpath] at h
    rcases List.mem_append.mp h with hold | hnew
    · exact Or.inl hold
    · exact Or.inr ⟨List.mem_singleton.mp hnew, hpath⟩
  · rw [if_neg hpath] at h
    exact Or.inl h

theorem mem_trie_remove {trie : PatternTrie} {name : Bytes}
    {connId : ConnectionId} {path : List Slot} {entry : Bytes × ConnectionId}
    (h : entry ∈ (trie.remove name connId).root.subscribersAt path) :
    entry ∈ trie.root.subscribersAt path ∧
      (path = (patternEdges name).map PatternEdge.slot ->
        entry ≠ (name, connId)) := by
  change entry ∈ TrieNode.subscribersAt path (TrieNode.removeEdges _ _ _) at h
  rw [TrieNode.subscribersAt_removeEdges] at h
  by_cases hpath : path = (patternEdges name).map PatternEdge.slot
  · rw [if_pos hpath, List.mem_filter, decide_eq_true_eq] at h
    exact ⟨h.1, fun _ => h.2⟩
  · rw [if_neg hpath] at h
    exact ⟨h, fun heq => absurd heq hpath⟩

theorem enter_trie {m : ThreadLocalPubSub} {r : GlobalRegistry}
    (h : Registered m r) (kind : SubscriptionType) (connId : ConnectionId)
    (name : Bytes) {path : List Slot} {entry : Bytes × ConnectionId}
    (hmem : entry ∈
      (enter kind connId name m).patternTrie.root.subscribersAt path) :
    path = (patternEdges entry.1).map PatternEdge.slot ∧
      entry.2 ∈ (enter kind connId name m).patterns.subscribers entry.1 := by
  cases kind with
  | channel => exact h.trie path entry hmem
  | pattern =>
      change _ ∧ entry.2 ∈ (m.patterns.add connId name).subscribers entry.1
      rw [SubscriptionTable.subscribers_add]
      rcases mem_trie_insert hmem with hold | ⟨hentry, hpath⟩
      · rcases h.trie path entry hold with ⟨hpath, hconn⟩
        refine ⟨hpath, ?_⟩
        by_cases hname : entry.1 = name
        · rw [if_pos hname, ← hname]
          exact List.mem_append_left _ hconn
        · rw [if_neg hname]
          exact hconn
      · subst hentry
        refine ⟨hpath, ?_⟩
        simp

theorem subscribeName_settled (kind : SubscriptionType)
    (connId : ConnectionId) (st : PubSubState) (name : Bytes) :
    Settled st (subscribeName kind connId st name).2 := by
  rcases st with ⟨m, r⟩
  unfold subscribeName
  by_cases halready : connId ∈ (m.table kind).subscribers name
  · -- The name is known already, so nothing changes at all.
    have hknown : name ∈ (m.table kind).subs := by
      rw [← AList.lookup_isSome]
      cases hlookup : (m.table kind).subs.lookup name with
      | none =>
          rw [SubscriptionTable.subscribers, hlookup] at halready
          cases halready
      | some subs => rfl
    simp only [halready, hknown, not_true_eq_false, decide_true, decide_false,
      if_true, Bool.false_eq_true, if_false]
    exact Settled.refl (m, r)
  · simp only [halready, decide_false, Bool.false_eq_true, if_false,
      threadId_enter]
    have hinterest : forall v kind' name',
        v ∈ (if decide (¬ name ∈ (m.table kind).subs) = true then
            (r.incrementSubscribers kind name).addInterest kind name m.threadId
          else r.incrementSubscribers kind name).interested kind' name' <->
        v ∈ r.interested kind' name' ∨ (¬ name ∈ (m.table kind).subs ∧
          kind' = kind ∧ name' = name ∧ v = m.threadId) := by
      intro v kind' name'
      by_cases hnew : ¬ name ∈ (m.table kind).subs
      · rw [if_pos (decide_eq_true hnew),
          GlobalRegistry.mem_interested_addInterest]
        simp [hnew]
      · rw [if_neg (by simpa using hnew)]
        simp [hnew]
    refine ⟨threadId_enter m kind connId name, ⟨?_, ?_⟩, ?_⟩
    · by_cases hnew : ¬ name ∈ (m.table kind).subs
      · simp [hnew]
      · simp [hnew]
    · intro v kind' name' hv
      rw [hinterest]
      simp [hv]
    · intro h
      refine ⟨?_, ?_, fun path entry => enter_trie h kind connId name⟩
      · intro kind' name'
        rw [threadId_enter, hinterest, ← h.interest]
        by_cases hkind : kind' = kind
        · subst hkind
          rw [table_enter_self, SubscriptionTable.mem_subs_add]
          by_cases hname : name' = name
          · subst hname
            by_cases hmem : name' ∈ (m.table kind').subs
            · simp [hmem]
            · simp [hmem]
          · simp [hname]
        · rw [table_enter_ne _ _ _ hkind]
          simp [hkind]
      · intro kind' name' subs hlookup
        by_cases hkind : kind' = kind
        · subst hkind
          rw [table_enter_self] at hlookup
          by_cases hname : name' = name
          · subst hname
            simp only [SubscriptionTable.add, AList.lookup_insert,
              Option.some.injEq] at hlookup
            rw [← hlookup]
            exact List.append_ne_nil_of_right_ne_nil _ (List.cons_ne_nil _ _)
          · simp only [SubscriptionTable.add] at hlookup
            rw [AList.lookup_insert_ne hname] at hlookup
            exact h.inhabited kind' name' subs hlookup
        · rw [table_enter_ne _ _ _ hkind] at hlookup
          exact h.inhabited kind' name' subs hlookup

theorem leave_trie {m : ThreadLocalPubSub} {r : GlobalRegistry}
    (h : Registered m r) (kind : SubscriptionType) (connId : ConnectionId)
    (name : Bytes) {path : List Slot} {entry : Bytes × ConnectionId}
    (hmem : entry ∈
      (dropFromTrie kind connId name m).patternTrie.root.subscribersAt path) :
    path = (patternEdges entry.1).map PatternEdge.slot ∧
      entry.2 ∈ (((dropFromTrie kind connId name m).setTable kind
        ((m.table kind).leave connId name)).patterns).subscribers entry.1 := by
  cases kind with
  | channel => exact h.trie path entry hmem
  | pattern =>
      change _ ∧ entry.2 ∈ (m.patterns.leave connId name).subscribers entry.1
      rw [SubscriptionTable.subscribers_leave]
      rcases mem_trie_remove hmem with ⟨hold, hother⟩
      rcases h.trie path entry hold with ⟨hpath, hconn⟩
      refine ⟨hpath, ?_⟩
      by_cases hname : entry.1 = name
      · rw [if_pos hname, List.mem_filter, ← hname, decide_eq_true_eq]
        refine ⟨hconn, ?_⟩
        intro hsame
        rw [hname] at hpath
        exact hother hpath (Prod.ext hname hsame)
      · rw [if_neg hname]
        exact hconn

theorem leaveName_settled (kind : SubscriptionType) (connId : ConnectionId)
    (st : PubSubState) (name : Bytes) :
    Settled st (leaveName kind connId st name) := by
  rcases st with ⟨m, r⟩
  have hcount : forall kind' name',
      (if connId ∈ (m.table kind).subscribers name then
        r.decrementSubscribers kind name else r).interested kind' name' =
        r.interested kind' name' := by
    intro kind' name'
    split
    · exact GlobalRegistry.interested_decrementSubscribers r kind kind' name name'
    · rfl
  have hinbox : (if connId ∈ (m.table kind).subscribers name then
      r.decrementSubscribers kind name else r).inboxes = r.inboxes := by
    split
    · exact GlobalRegistry.inboxes_decrementSubscribers r kind name
    · rfl
  unfold leaveName
  simp only [table_dropFromTrie, threadId_dropFromTrie]
  generalize (if connId ∈ (m.table kind).subscribers name then
    r.decrementSubscribers kind name else r) = r1 at hcount hinbox
  have hinterest : forall v kind' name',
      v ∈ (if (m.table kind).leavesEmpty connId name = true then
          r1.removeInterest kind name m.threadId else r1).interested kind' name'
        <->
      v ∈ r.interested kind' name' ∧
        ¬ ((m.table kind).leavesEmpty connId name = true ∧ kind' = kind ∧
          name' = name ∧ v = m.threadId) := by
    intro v kind' name'
    by_cases hempty : (m.table kind).leavesEmpty connId name = true
    · rw [if_pos hempty, GlobalRegistry.mem_interested_removeInterest, hcount]
      simp [hempty]
    · rw [if_neg hempty, hcount]
      simp [hempty]
  refine ⟨by simp, ⟨?_, ?_⟩, ?_⟩
  · by_cases hempty : (m.table kind).leavesEmpty connId name = true
    · simp [hempty, hinbox]
    · simp [hempty, hinbox]
  · intro v kind' name' hv
    rw [hinterest]
    simp [hv]
  · intro h
    refine ⟨?_, ?_, ?_⟩
    · intro kind' name'
      rw [threadId_setTable, threadId_dropFromTrie, hinterest, ← h.interest]
      by_cases hkind : kind' = kind
      · subst hkind
        rw [table_setTable_self, SubscriptionTable.mem_subs_leave]
        simp [and_comm]
      · rw [table_setTable_ne _ _ hkind, table_dropFromTrie]
        simp [hkind]
    · intro kind' name' subs hlookup
      by_cases hkind : kind' = kind
      · subst hkind
        rw [table_setTable_self] at hlookup
        exact SubscriptionTable.lookup_leave_ne_nil
          (fun name subs => h.inhabited kind' name subs) connId name name' subs
          hlookup
      · rw [table_setTable_ne _ _ hkind, table_dropFromTrie] at hlookup
        exact h.inhabited kind' name' subs hlookup
    · intro path entry hmem
      rw [patternTrie_setTable] at hmem
      exact leave_trie h kind connId name hmem

theorem settled_of_same_subs {st : PubSubState} {kind : SubscriptionType}
    {t : SubscriptionTable} (h : t.subs = (st.1.table kind).subs) :
    Settled st (st.1.setTable kind t, st.2) := by
  have htable : forall kind',
      ((st.1.setTable kind t).table kind').subs = (st.1.table kind').subs := by
    intro kind'
    by_cases hkind : kind' = kind
    · subst hkind
      rw [table_setTable_self, h]
    · rw [table_setTable_ne _ _ hkind]
  refine ⟨threadId_setTable st.1 kind t, SameForOthers.refl _ _, ?_⟩
  intro hreg
  refine ⟨?_, ?_, ?_⟩
  · intro kind' name
    rw [htable, threadId_setTable]
    exact hreg.interest kind' name
  · intro kind' name subs hlookup
    rw [htable] at hlookup
    exact hreg.inhabited kind' name subs hlookup
  · intro path entry hmem
    rw [patternTrie_setTable] at hmem
    have hpattern := htable .pattern
    rcases hreg.trie path entry hmem with ⟨hpath, hconn⟩
    refine ⟨hpath, ?_⟩
    change entry.2 ∈ SubscriptionTable.subscribers
      ((st.1.setTable kind t).table .pattern) entry.1
    unfold SubscriptionTable.subscribers
    rw [hpattern]
    exact hconn

/-!
# Whole operations
-/

theorem forEach_settled {α β : Type} {step : PubSubState -> α -> β × PubSubState}
    (hstep : forall st a, Settled st (step st a).2) (st : PubSubState)
    (as : List α) : Settled st (forEach step st as).2 := by
  induction as generalizing st with
  | nil => exact Settled.refl st
  | cons a as ih => exact (hstep st a).trans (ih (step st a).2)

theorem subscribe_settled (st : PubSubState) (connId : ConnectionId)
    (channels : List Bytes) : Settled st (subscribe st connId channels).2 :=
  forEach_settled (subscribeName_settled .channel connId) st channels

theorem psubscribe_settled (st : PubSubState) (connId : ConnectionId)
    (patterns : List Bytes) : Settled st (psubscribe st connId patterns).2 :=
  forEach_settled (subscribeName_settled .pattern connId) st patterns

theorem unsubscribeGiven_settled (kind : SubscriptionType)
    (connId : ConnectionId) (st : PubSubState) (name : Bytes) :
    Settled st (unsubscribeGiven kind connId st name).2 :=
  (leaveName_settled kind connId st name).trans
    (settled_of_same_subs (SubscriptionTable.subs_forgetName _ connId name))

theorem unsubscribeNames_settled (kind : SubscriptionType) (st : PubSubState)
    (connId : ConnectionId) (names : Option (List Bytes)) :
    Settled st (unsubscribeNames kind st connId names).2 := by
  cases names with
  | some names =>
      exact forEach_settled (unsubscribeGiven_settled kind connId) st names
  | none =>
      unfold unsubscribeNames
      cases (st.1.table kind).names.lookup connId with
      | none => exact Settled.refl st
      | some names =>
          exact (settled_of_same_subs
              (SubscriptionTable.subs_forgetConnection _ connId)).trans
            (forEach_settled (leaveName_settled kind connId) _ names)

theorem connectionDropped_settled (st : PubSubState) (connId : ConnectionId) :
    Settled st (connectionDropped st connId) :=
  (unsubscribeNames_settled .channel st connId none).trans
    (unsubscribeNames_settled .pattern _ connId none)

end ThreadLocalPubSub

/-!
# What agreement says about deliveries
-/

theorem mem_getChannelThreads_iff {m : ThreadLocalPubSub} {r : GlobalRegistry}
    (h : Registered m r) (channel : Bytes) :
    m.threadId ∈ r.getChannelThreads channel <-> channel ∈ m.channels.subs :=
  (h.interest .channel channel).symm

theorem mem_getAllPatternThreads_of_match {m : ThreadLocalPubSub}
    {r : GlobalRegistry} (h : Registered m r) {channel : Bytes}
    (hmatch : m.patternTrie.findMatches channel ≠ []) :
    m.threadId ∈ r.getAllPatternThreads := by
  rcases List.exists_mem_of_ne_nil _ hmatch with ⟨entry, hentry⟩
  rcases TrieNode.exists_path_of_mem_findInNode hentry with ⟨path, hpath⟩
  rcases h.trie path entry hpath with ⟨_, hconn⟩
  refine GlobalRegistry.mem_getAllPatternThreads.mpr ⟨entry.1, ?_⟩
  refine (h.interest .pattern entry.1).mp ?_
  change entry.1 ∈ m.patterns.subs
  rw [← AList.lookup_isSome]
  cases hlookup : m.patterns.subs.lookup entry.1 with
  | none =>
      rw [SubscriptionTable.subscribers, hlookup] at hconn
      cases hconn
  | some subs => rfl

end FeoxServer
