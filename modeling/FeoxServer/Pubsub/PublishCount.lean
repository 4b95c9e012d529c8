import FeoxServer.Pubsub.Agreement
import FeoxServer.Pubsub.PatternCuts

/-!
# The number that is replied to a publication

The registry counts the subscriptions whose pattern its own matcher accepts;
the deliveries come from the tries of the threads.
-/

namespace FeoxServer

open Foundation

namespace ThreadLocalPubSub

/-- The pattern subscriptions of a thread. -/
def patternSubscriptions (m : ThreadLocalPubSub) :
    List (Bytes × ConnectionId) :=
  m.patterns.subs.entries.flatMap fun e => e.2.map fun connId => (e.1, connId)

def globMatches (m : ThreadLocalPubSub) (channel : Bytes) : Nat :=
  (m.patternSubscriptions.filter fun s =>
    GlobalRegistry.globMatch s.1 channel).length

def trieMatches (m : ThreadLocalPubSub) (channel : Bytes) : Nat :=
  (m.patternSubscriptions.map fun s => m.patternTrie.ways s.1 channel).sum

/-- The pattern subscriptions whose pattern takes the channel with its stars
literal. -/
def counted (m : ThreadLocalPubSub) (channel : Bytes) : Set (Bytes × ConnectionId) :=
  {s | s ∈ m.patternSubscriptions ∧ GlobalRegistry.LiteralStars s.1 channel}

/-- The pattern subscriptions, each with the cuts of the channel along its pattern. -/
def found (m : ThreadLocalPubSub) (channel : Bytes) :
    Set ((Bytes × ConnectionId) × List Bytes) :=
  {d | d.1 ∈ m.patternSubscriptions ∧
    SearchCuts (m.patternTrie.parts d.1.1) channel d.2}

end ThreadLocalPubSub

/-!
# Sums over tables
-/

theorem lookup_of_mem_entries {β : Type} {table : AList fun _ : Bytes => β}
    {e : (_ : Bytes) × β} (h : e ∈ table.entries) :
    table.lookup e.1 = some e.2 :=
  AList.mem_lookup_iff.mpr h

theorem sum_entries {β : Type} (table : AList fun _ : Bytes => β)
    (f : Bytes -> Option β -> Nat) :
    (table.entries.map fun e => f e.1 (some e.2)).sum =
      (table.keys.map fun name => f name (table.lookup name)).sum := by
  unfold AList.keys List.keys
  rw [List.map_map]
  refine congrArg List.sum (List.map_congr_left ?_)
  intro e he
  rw [Function.comp_apply, lookup_of_mem_entries he]

theorem sum_keys_of_subset {β γ : Type} {small : AList fun _ : Bytes => β}
    {large : AList fun _ : Bytes => γ} (f : Bytes -> Nat)
    (hsubset : forall name, name ∈ small -> name ∈ large)
    (hzero : forall name, ¬ name ∈ small -> f name = 0) :
    (large.keys.map f).sum = (small.keys.map f).sum := by
  rw [← List.sum_toFinset f large.keys_nodup,
    ← List.sum_toFinset f small.keys_nodup]
  symm
  refine Finset.sum_subset ?_ ?_
  · intro name hname
    rw [List.mem_toFinset] at hname ⊢
    exact AList.mem_keys.mp (hsubset name (AList.mem_keys.mpr hname))
  · intro name _ hname
    rw [List.mem_toFinset] at hname
    exact hzero name fun hmem => hname (AList.mem_keys.mp hmem)

theorem sum_comm {α β : Type} (as : List α) (bs : List β) (f : α -> β -> Nat) :
    (as.map fun a => (bs.map fun b => f a b).sum).sum =
      (bs.map fun b => (as.map fun a => f a b).sum).sum := by
  induction as with
  | nil => simp
  | cons a as ih => simp [ih, List.sum_map_add]

theorem sum_eq_iff_of_le {α : Type} {as : List α} {f g : α -> Nat}
    (hle : forall a, a ∈ as -> f a <= g a) :
    (as.map f).sum = (as.map g).sum <-> forall a, a ∈ as -> f a = g a := by
  induction as with
  | nil => simp
  | cons a as ih =>
      have hrest := fun b hb => hle b (List.mem_cons_of_mem a hb)
      have hhead := hle a List.mem_cons_self
      have hsum := List.sum_le_sum hrest
      rw [List.forall_mem_cons, ← ih hrest, List.map_cons, List.map_cons,
        List.sum_cons, List.sum_cons]
      omega

theorem length_eq_sum_count {α : Type} [BEq α] [LawfulBEq α]
    {items all : List α} (hnodup : all.Nodup)
    (hall : forall a, a ∈ items -> a ∈ all) :
    items.length = (all.map fun a => items.count a).sum := by
  induction items with
  | nil => simp
  | cons b items ih =>
      have hrest := ih fun a ha => hall a (List.mem_cons_of_mem b ha)
      have hcount : forall all : List α,
          (all.map fun a => if b == a then 1 else 0).sum = all.count b := by
        intro all
        induction all with
        | nil => rfl
        | cons a all ih =>
            rw [List.map_cons, List.sum_cons, ih, List.count_cons, Nat.add_comm,
              BEq.comm]
      have hone := (hcount all).trans
        ((count_eq_one_iff hnodup b).mpr (hall b List.mem_cons_self))
      simp only [List.count_cons, List.sum_map_add, hone, ← hrest,
        List.length_cons]

/-!
# What a trie finds
-/

namespace ThreadLocalPubSub

variable {m : ThreadLocalPubSub} {R : Subscriptions}

theorem mem_patternSubscriptions {name : Bytes} {connId : ConnectionId} :
    (name, connId) ∈ m.patternSubscriptions <->
      connId ∈ m.patterns.subscribers name := by
  unfold patternSubscriptions SubscriptionTable.subscribers
  rw [List.mem_flatMap]
  constructor
  · rintro ⟨e, he, hmem⟩
    rcases List.mem_map.mp hmem with ⟨connId', hconn, heq⟩
    cases heq
    rw [lookup_of_mem_entries he]
    exact hconn
  · intro hmem
    cases hlookup : m.patterns.subs.lookup name with
    | none =>
        rw [hlookup] at hmem
        cases hmem
    | some subs =>
        rw [hlookup] at hmem
        exact ⟨⟨name, subs⟩, AList.mem_lookup_iff.mp hlookup,
          List.mem_map.mpr ⟨connId, hmem, rfl⟩⟩

theorem nodup_patternSubscriptions (h : Holds m R R) :
    m.patternSubscriptions.Nodup := by
  unfold patternSubscriptions
  rw [List.nodup_flatMap]
  constructor
  · intro e he
    have hnodup := (h.table .pattern).subscribers_nodup e.1
    rw [SubscriptionTable.subscribers,
      show (m.table .pattern).subs.lookup e.1 = some e.2 from
        lookup_of_mem_entries he] at hnodup
    exact hnodup.map fun a b hab => (Prod.mk.inj hab).2
  · have hkeys := m.patterns.subs.nodupKeys
    refine List.Pairwise.imp ?_ (List.nodupKeys_iff_pairwise.mp hkeys)
    intro e e' hne s hs hs'
    rcases List.mem_map.mp hs with ⟨_, _, rfl⟩
    rcases List.mem_map.mp hs' with ⟨_, _, heq⟩
    exact hne (Prod.mk.inj heq).1.symm

/-- The trie finds every subscription as often as its path takes the
channel. -/
theorem length_findMatches (h : Holds m R R) (channel : Bytes) :
    (m.patternTrie.findMatches channel).length = m.trieMatches channel := by
  have hmem := fun path name connId => h.trie.mem path name connId
  have hsubs := fun connId name => (h.table .pattern).mem_subscribers connId name
  rw [length_eq_sum_count (nodup_patternSubscriptions h)]
  · unfold trieMatches
    refine congrArg List.sum (List.map_congr_left ?_)
    rintro ⟨name, connId⟩ hs
    have hR := (hsubs connId name).mp (mem_patternSubscriptions.mp hs)
    unfold PatternTrie.findMatches PatternTrie.ways
    rw [TrieNode.count_findInNode ((patternEdges name).map PatternEdge.slot)]
    · have hown := (hmem _ name connId).mpr ⟨rfl, hR⟩
      rw [(count_eq_one_iff (h.trie.nodup _) _).mpr hown, Nat.one_mul]
    · intro path hne hfound
      exact hne ((hmem path name connId).mp hfound).1
  · rintro ⟨name, connId⟩ hfound
    rcases TrieNode.exists_path_of_mem_findInNode hfound with ⟨path, hpath⟩
    exact mem_patternSubscriptions.mpr
      ((hsubs connId name).mpr ((hmem path name connId).mp hpath).2)

theorem ncard_counted (h : Holds m R R) (channel : Bytes) :
    (m.counted channel).ncard = m.globMatches channel := by
  unfold counted globMatches
  rw [← ncard_of_nodup ((nodup_patternSubscriptions h).filter _)]
  congr 1
  ext s
  change s ∈ _ ∧ _ <-> s ∈ List.filter _ _
  rw [List.mem_filter, GlobalRegistry.globMatch_iff]

theorem ncard_found (h : Holds m R R) (channel : Bytes) :
    (m.found channel).ncard = m.trieMatches channel := by
  let cutsOf := fun (s : Bytes × ConnectionId) =>
    (TrieNode.cuts ((patternEdges s.1).map PatternEdge.slot) m.patternTrie.root
      channel).map (s, ·)
  have hnodup : (m.patternSubscriptions.flatMap cutsOf).Nodup := by
    rw [List.nodup_flatMap]
    constructor
    · intro s _
      exact (TrieNode.nodup_cuts _ _ _).map fun _ _ heq => (Prod.mk.inj heq).2
    · refine List.Pairwise.imp ?_ (nodup_patternSubscriptions h)
      intro s s' hne d hd hd'
      rcases List.mem_map.mp hd with ⟨_, _, rfl⟩
      rcases List.mem_map.mp hd' with ⟨_, _, heq⟩
      exact hne (Prod.mk.inj heq).1.symm
  have hset : m.found channel = {d | d ∈ m.patternSubscriptions.flatMap cutsOf} := by
    ext ⟨s, pieces⟩
    change _ ∧ _ <-> _ ∈ List.flatMap _ _
    rw [List.mem_flatMap]
    constructor
    · rintro ⟨hs, hcut⟩
      exact ⟨s, hs, List.mem_map.mpr ⟨pieces, (TrieNode.mem_cuts _ _ _ _).mpr hcut, rfl⟩⟩
    · rintro ⟨s', hs, hmem⟩
      rcases List.mem_map.mp hmem with ⟨pieces', hcut, heq⟩
      cases heq
      exact ⟨hs, (TrieNode.mem_cuts _ _ _ _).mp hcut⟩
  rw [hset, ncard_of_nodup hnodup, List.length_flatMap]
  unfold trieMatches
  refine congrArg List.sum (List.map_congr_left fun s _ => ?_)
  rw [List.length_map, TrieNode.length_cuts]
  rfl

theorem globMatches_eq_sum (m : ThreadLocalPubSub) (channel : Bytes) :
    m.globMatches channel =
      (m.patternSubscriptions.map fun s =>
        if GlobalRegistry.globMatch s.1 channel then 1 else 0).sum := by
  unfold globMatches
  induction m.patternSubscriptions with
  | nil => rfl
  | cons s subs ih =>
      by_cases hglob : GlobalRegistry.globMatch s.1 channel = true
      · simp [hglob, ih, Nat.add_comm]
      · simp [hglob, ih]

theorem globMatches_eq (m : ThreadLocalPubSub) (channel : Bytes) :
    m.globMatches channel =
      (m.patterns.subs.keys.map fun name =>
        if GlobalRegistry.globMatch name channel then
          (m.patterns.subscribers name).length else 0).sum := by
  have hsum := sum_entries m.patterns.subs fun name subs =>
    if GlobalRegistry.globMatch name channel then (subs.getD []).length else 0
  unfold globMatches patternSubscriptions
  rw [List.filter_flatMap, List.length_flatMap]
  refine Eq.trans (congrArg List.sum (List.map_congr_left ?_)) hsum
  intro e _
  rw [List.filter_map, List.length_map]
  by_cases hglob : GlobalRegistry.globMatch e.1 channel = true
  · simp [hglob, Function.comp_def]
  · simp [hglob, Function.comp_def]

end ThreadLocalPubSub

/-!
# What the registry counts
-/

namespace Cluster

theorem entries_sum (counters : Counters) (channel : Bytes) :
    ((counters.entries.filter fun e =>
        GlobalRegistry.globMatch e.1 channel).map fun e => e.2).sum =
      (counters.keys.map fun name =>
        if GlobalRegistry.globMatch name channel then counters.count name
        else 0).sum := by
  have hsum := sum_entries counters fun name count =>
    if GlobalRegistry.globMatch name channel then count.getD 0 else 0
  refine Eq.trans ?_ hsum
  generalize counters.entries = entries
  induction entries with
  | nil => rfl
  | cons e entries ih =>
      by_cases hglob : GlobalRegistry.globMatch e.1 channel = true
      · simp [hglob, ih]
      · simp [hglob, ih]

theorem mem_counters_of_known {n : Nat} {steps : List (ThreadId × ClusterOp)}
    {m : ThreadLocalPubSub} (hm : m ∈ (after n steps).managers)
    (kind : SubscriptionType) {name : Bytes}
    (hknown : name ∈ (m.table kind).subs) :
    name ∈ (after n steps).registry.counters kind := by
  have hcount := (agreement_after n steps kind name).2
  rcases List.getElem?_of_mem hm with ⟨u, hu⟩
  rcases Option.isSome_iff_exists.mp (AList.lookup_isSome.mpr hknown) with
    ⟨subs, hsubs⟩
  have hpos : 0 < ((m.table kind).subscribers name).length := by
    rw [SubscriptionTable.subscribers, hsubs]
    exact List.length_pos_iff.mpr
      (((valid_after n steps).managers u m hu).2.inhabited kind name subs hsubs)
  have hle : ((m.table kind).subscribers name).length <=
      ((after n steps).managers.map fun m =>
        ((m.table kind).subscribers name).length).sum :=
    List.le_sum_of_mem (List.mem_map.mpr ⟨m, hm, rfl⟩)
  rw [← AList.lookup_isSome]
  cases hlookup : ((after n steps).registry.counters kind).lookup name with
  | none =>
      rw [Counters.count, hlookup, Option.getD_none] at hcount
      omega
  | some count => rfl

theorem total_pattern_matches (n : Nat) (steps : List (ThreadId × ClusterOp))
    (channel : Bytes) :
    (after n steps).registry.getTotalPatternMatches channel =
      ((after n steps).managers.map fun m => m.globMatches channel).sum := by
  let len := fun (name : Bytes) (m : ThreadLocalPubSub) =>
    if GlobalRegistry.globMatch name channel then
      (m.patterns.subscribers name).length else 0
  let counters := (after n steps).registry.counters .pattern
  have hcount : forall name,
      (if GlobalRegistry.globMatch name channel then counters.count name
        else 0) = ((after n steps).managers.map fun m => len name m).sum := by
    intro name
    have hname := (agreement_after n steps .pattern name).2
    simp only [len]
    split
    · exact hname
    · simp
  calc (after n steps).registry.getTotalPatternMatches channel
      = (counters.keys.map fun name =>
          if GlobalRegistry.globMatch name channel then counters.count name
          else 0).sum := entries_sum counters channel
    _ = (counters.keys.map fun name =>
          ((after n steps).managers.map fun m => len name m).sum).sum := by
        simp only [hcount]
    _ = ((after n steps).managers.map fun m =>
          (counters.keys.map fun name => len name m).sum).sum :=
        sum_comm _ _ _
    _ = ((after n steps).managers.map fun m => m.globMatches channel).sum := by
        refine congrArg List.sum (List.map_congr_left ?_)
        intro m hm
        rw [ThreadLocalPubSub.globMatches_eq]
        refine sum_keys_of_subset (fun name => len name m) ?_ ?_
        · exact fun name hname =>
            mem_counters_of_known hm .pattern hname
        · intro name hname
          have hnone : m.patterns.subscribers name = [] := by
            rw [SubscriptionTable.subscribers, AList.lookup_eq_none.mpr hname]
            rfl
          simp [len, hnone]

/-!
# What a publication gives rise to
-/

/-- How often a thread delivers a publication to each pattern subscription that
it finds: twice if it is another thread with a subscriber of the channel, which
gets both broadcasts. -/
def rounds (thread : ThreadId) (channel : Bytes) (m : ThreadLocalPubSub) : Nat :=
  if m.threadId ≠ thread ∧ channel ∈ m.channels.subs then 2 else 1

theorem length_publishLocal (m : ThreadLocalPubSub) (channel message : Bytes) :
    (m.publishLocal channel message).length =
      (m.channels.subscribers channel).length +
        (m.patternTrie.findMatches channel).length := by
  simp [ThreadLocalPubSub.publishLocal, ThreadLocalPubSub.patternDeliveries]

theorem length_outlook {c : Cluster} (hvalid : c.Valid) {thread : ThreadId}
    {publisher : ThreadLocalPubSub}
    (hpublisher : c.managers[thread]? = some publisher) (channel message : Bytes)
    {u : ThreadId} {m : ThreadLocalPubSub} (hm : c.managers[u]? = some m) :
    ((c.launch thread publisher channel message).outlook m).length =
      (((c.registry.inboxes[u]?).getD []).flatMap m.receive).length +
        ((m.channels.subscribers channel).length +
          rounds thread channel m *
            (m.patternTrie.findMatches channel).length) := by
  rcases hvalid.managers u m hm with ⟨hid, hreg⟩
  unfold Flight.outlook
  rw [show (c.launch thread publisher channel message).pending =
    ThreadLocalPubSub.broadcasts c.registry thread channel message from rfl,
    flatMap_broadcasts]
  by_cases hself : m.threadId = thread
  · have hsame : m = publisher := by
      rw [hid] at hself
      rw [hself, hpublisher] at hm
      exact (Option.some.inj hm).symm
    subst hsame
    rw [if_pos hself]
    simp [launch, Flight.inbox, ThreadLocalPubSub.publish, rounds, hid,
      hself.symm.trans hid, length_publishLocal]
    omega
  · rw [if_neg hself]
    have hne : ¬ u = thread := by rw [← hid]; exact hself
    simp only [launch, Flight.inbox, hid, Function.update_of_ne hne,
      List.nil_append, List.length_append]
    have hsubs := mem_getChannelThreads_iff hreg channel
    rw [hid] at hsubs
    have hpatterns : (if u ∈ c.registry.getAllPatternThreads then
        m.patternDeliveries channel message else []).length =
        (m.patternTrie.findMatches channel).length := by
      by_cases hmatch : m.patternTrie.findMatches channel = []
      · split <;> simp [ThreadLocalPubSub.patternDeliveries, hmatch]
      · have hmem := mem_getAllPatternThreads_of_match hreg hmatch
        rw [hid] at hmem
        rw [if_pos hmem]
        simp [ThreadLocalPubSub.patternDeliveries]
    rw [hpatterns]
    unfold rounds
    by_cases hchannel : channel ∈ m.channels.subs
    · rw [if_pos (hsubs.mpr hchannel), if_pos ⟨hself, hchannel⟩,
        length_publishLocal]
      omega
    · have hexact : m.channels.subscribers channel = [] := by
        rw [SubscriptionTable.subscribers, AList.lookup_eq_none.mpr hchannel]
        rfl
      rw [if_neg (fun hmem => hchannel (hsubs.mp hmem)),
        if_neg (fun h => hchannel h.2), hexact]
      simp

/-- The number of deliveries of all threads. -/
def delivered (c : Cluster) (f : Flight) : Nat :=
  (c.managers.map fun m => (f.delivered m.threadId).length).sum

/-- The number of deliveries for what is already in the inboxes. -/
def waiting (c : Cluster) : Nat :=
  (c.managers.map fun m =>
    (((c.registry.inboxes[m.threadId]?).getD []).flatMap m.receive).length).sum

/-- The number that is replied to a publication. -/
def publishReply (c : Cluster) (thread : ThreadId) (m : ThreadLocalPubSub)
    (channel message : Bytes) : Nat :=
  (ThreadLocalPubSub.publish (m, c.registry) thread channel message).2.1

theorem publishReply_eq (c : Cluster) (thread : ThreadId)
    (m : ThreadLocalPubSub) (channel message : Bytes) :
    c.publishReply thread m channel message =
      c.registry.getChannelSubscriberCount channel +
        c.registry.getTotalPatternMatches channel := by
  have hmaps := sameMaps_foldl_trySend
    (ThreadLocalPubSub.broadcasts c.registry thread channel message) c.registry
  have hregistry := ThreadLocalPubSub.publish_registry (m, c.registry) thread
    channel message
  unfold publishReply
  rw [show (ThreadLocalPubSub.publish (m, c.registry) thread channel
      message).2.1 =
    (ThreadLocalPubSub.publish (m, c.registry) thread channel
      message).2.2.getChannelSubscriberCount channel +
    (ThreadLocalPubSub.publish (m, c.registry) thread channel
      message).2.2.getTotalPatternMatches channel from rfl, hregistry]
  have hchannel := congrFun hmaps.counters .channel
  have hpattern := congrFun hmaps.counters .pattern
  unfold GlobalRegistry.getChannelSubscriberCount
    GlobalRegistry.getTotalPatternMatches
  simp only [GlobalRegistry.counters] at hchannel hpattern
  rw [hchannel, hpattern]

theorem sum_add_right {α : Type} (as : List α) (f g h : α -> Nat)
    (heq : forall a, a ∈ as -> f a = g a + h a) :
    (as.map f).sum = (as.map g).sum + (as.map h).sum := by
  rw [← List.sum_map_add]
  exact congrArg List.sum (List.map_congr_left heq)

/-- A thread that is not the publishing one and has a subscriber of the channel
gets the message and the broadcast to the threads with patterns. -/
def GetsBoth (thread : ThreadId) (channel : Bytes) (m : ThreadLocalPubSub) : Prop :=
  m.threadId ≠ thread ∧ channel ∈ m.channels.subs

/-- A pattern that is counted is cut out of the channel in one way, on a thread
that gets one broadcast, and a pattern that is not counted is not found. -/
def CountedAsFound (thread : ThreadId) (channel : Bytes) (m : ThreadLocalPubSub)
    (pattern : Bytes) : Prop :=
  (GlobalRegistry.LiteralStars pattern channel ∧
      (∃! pieces, SearchCuts (m.patternTrie.parts pattern) channel pieces) ∧
      ¬ GetsBoth thread channel m) ∨
    (¬ GlobalRegistry.LiteralStars pattern channel ∧
      forall pieces, ¬ SearchCuts (m.patternTrie.parts pattern) channel pieces)

/-- The number that is replied is the number of the deliveries that the
publication gives rise to. -/
def CountRight (c : Cluster) (thread : ThreadId) (publisher : ThreadLocalPubSub)
    (channel message : Bytes) (f : Flight) : Prop :=
  c.delivered f = c.waiting + c.publishReply thread publisher channel message

theorem rounds_eq_one_iff {thread : ThreadId} {channel : Bytes}
    {m : ThreadLocalPubSub} :
    rounds thread channel m = 1 <-> ¬ GetsBoth thread channel m := by
  unfold rounds GetsBoth
  split_ifs with h
  · exact iff_of_false (by decide) (not_not.mpr h)
  · exact iff_of_true rfl h

theorem rounds_pos (thread : ThreadId) (channel : Bytes) (m : ThreadLocalPubSub) :
    0 < rounds thread channel m := by
  unfold rounds
  split_ifs <;> decide

theorem countedAsFound_iff (thread : ThreadId) (channel : Bytes)
    (m : ThreadLocalPubSub) (pattern : Bytes) :
    CountedAsFound thread channel m pattern <->
      (if GlobalRegistry.globMatch pattern channel then 1 else 0) =
        rounds thread channel m * m.patternTrie.ways pattern channel := by
  have hpos := rounds_pos thread channel m
  unfold CountedAsFound
  rw [← GlobalRegistry.globMatch_iff, ← PatternTrie.ways_eq_one_iff,
    ← PatternTrie.ways_eq_zero_iff, ← rounds_eq_one_iff]
  split_ifs with hglob
  · rw [eq_comm (a := 1), mul_eq_one]
    simp only [hglob, true_and, not_true_eq_false, false_and, or_false]
    exact and_comm
  · rw [eq_comm (a := 0), Nat.mul_eq_zero]
    rw [or_iff_right (Nat.ne_of_gt hpos), or_iff_right fun h => hglob h.1,
      and_iff_right hglob]

theorem plain_count {pattern : Bytes} (h : PlainPattern pattern)
    (thread : ThreadId) (channel : Bytes) (m : ThreadLocalPubSub) :
    (if GlobalRegistry.globMatch pattern channel then 1 else 0) <=
        rounds thread channel m * m.patternTrie.ways pattern channel ∧
      ((if GlobalRegistry.globMatch pattern channel then 1 else 0) =
          rounds thread channel m * m.patternTrie.ways pattern channel <->
        (GlobTakes pattern channel ->
          GlobalRegistry.LiteralStars pattern channel ∧
            ¬ GetsBoth thread channel m)) := by
  have hpos := rounds_pos thread channel m
  rcases h.ways_eq m.patternTrie channel with ⟨hfinds, hone⟩
  have hzero := PatternTrie.ways_eq_zero_iff m.patternTrie pattern channel
  rw [← not_exists, hfinds] at hzero
  rw [← GlobalRegistry.globMatch_iff, ← rounds_eq_one_iff]
  by_cases htakes : GlobTakes pattern channel
  · have hways : m.patternTrie.ways pattern channel = 1 := by
      have hne := mt hzero.mp (not_not.mpr htakes)
      omega
    rw [hways, Nat.mul_one]
    split_ifs with hglob
    · exact ⟨hpos, ⟨fun heq _ => ⟨hglob, heq.symm⟩, fun h => (h htakes).2.symm⟩⟩
    · refine ⟨Nat.zero_le _, ⟨fun heq => ?_, fun h => absurd (h htakes).1 hglob⟩⟩
      omega
  · rw [hzero.mpr htakes, Nat.mul_zero, if_neg fun hglob =>
      htakes (GlobalRegistry.globMatch_iff.mp hglob).globTakes]
    exact ⟨Nat.le_refl 0, iff_of_true rfl fun h => absurd h htakes⟩

theorem delivered_complete {numThreads : Nat} {steps : List (ThreadId × ClusterOp)}
    {thread : ThreadId} {channel message : Bytes} {publisher : ThreadLocalPubSub}
    (hpublisher : (after numThreads steps).managers[thread]? = some publisher)
    {schedule : List FlightEvent}
    (hroom : Flight.BelowCapacity (after numThreads steps).managers
      ((after numThreads steps).launch thread publisher channel message)
      schedule)
    (hcomplete : Flight.Complete (Flight.run (after numThreads steps).managers
      ((after numThreads steps).launch thread publisher channel message)
      schedule)) :
    (after numThreads steps).delivered
        (Flight.run (after numThreads steps).managers
          ((after numThreads steps).launch thread publisher channel message)
          schedule) =
      (after numThreads steps).waiting +
        (((after numThreads steps).managers.map fun m =>
            (m.channels.subscribers channel).length).sum +
          ((after numThreads steps).managers.map fun m =>
            rounds thread channel m * m.trieMatches channel).sum) := by
  have hvalid := valid_after numThreads steps
  have hids := fun u m hm => (hvalid.managers u m hm).1
  rw [← sum_add_right (after numThreads steps).managers (fun m =>
    (m.channels.subscribers channel).length +
      rounds thread channel m * m.trieMatches channel) _ _ fun _ _ => rfl]
  refine sum_add_right (after numThreads steps).managers _ _ _ ?_
  intro m hm
  rcases List.getElem?_of_mem hm with ⟨u, hu⟩
  have hid := hids u m hu
  rcases @holds_after (fun _ _ => True) numThreads steps
    (fun _ _ _ _ => trivial) u m hu with ⟨R, hR, _⟩
  rw [← Flight.outlook_of_complete hcomplete m,
    Flight.outlook_run hids schedule hvalid.inboxes hroom hu,
    length_outlook hvalid hpublisher channel message hu,
    ThreadLocalPubSub.length_findMatches hR, hid]

/-- The reply is right if and only if the registry's matcher accepts as many
pattern subscriptions as the tries find. -/
theorem countRight_iff_matches {numThreads : Nat}
    {steps : List (ThreadId × ClusterOp)} {thread : ThreadId}
    {channel message : Bytes} {publisher : ThreadLocalPubSub}
    (hpublisher : (after numThreads steps).managers[thread]? = some publisher)
    {schedule : List FlightEvent}
    (hroom : Flight.BelowCapacity (after numThreads steps).managers
      ((after numThreads steps).launch thread publisher channel message)
      schedule)
    (hcomplete : Flight.Complete (Flight.run (after numThreads steps).managers
      ((after numThreads steps).launch thread publisher channel message)
      schedule)) :
    (after numThreads steps).CountRight thread publisher channel message
        (Flight.run (after numThreads steps).managers
          ((after numThreads steps).launch thread publisher channel message)
          schedule) <->
      ((after numThreads steps).managers.map fun m => m.globMatches channel).sum =
        ((after numThreads steps).managers.map fun m =>
          rounds thread channel m * m.trieMatches channel).sum := by
  have hreply : (after numThreads steps).publishReply thread publisher channel
      message =
      ((after numThreads steps).managers.map fun m =>
        (m.channels.subscribers channel).length).sum +
        ((after numThreads steps).managers.map fun m =>
          m.globMatches channel).sum := by
    rw [publishReply_eq, total_pattern_matches]
    exact congrArg (· + _) (agreement_after numThreads steps .channel channel).2
  unfold CountRight
  rw [delivered_complete hpublisher hroom hcomplete, hreply]
  omega

theorem sums_of_countedAsFound {c : Cluster} {thread : ThreadId} {channel : Bytes}
    (h : forall m, m ∈ c.managers -> forall s, s ∈ m.patternSubscriptions ->
      CountedAsFound thread channel m s.1) :
    (c.managers.map fun m => m.globMatches channel).sum =
      (c.managers.map fun m => rounds thread channel m * m.trieMatches channel).sum := by
  refine congrArg List.sum (List.map_congr_left fun m hm => ?_)
  rw [ThreadLocalPubSub.globMatches_eq_sum]
  unfold ThreadLocalPubSub.trieMatches
  rw [← List.sum_map_mul_left]
  refine congrArg List.sum (List.map_congr_left fun s hs => ?_)
  exact (countedAsFound_iff thread channel m s.1).mp (h m hm s hs)

theorem plain_sums_iff {c : Cluster} {thread : ThreadId} {channel : Bytes}
    (h : forall m, m ∈ c.managers -> forall s, s ∈ m.patternSubscriptions ->
      PlainPattern s.1) :
    (c.managers.map fun m => m.globMatches channel).sum =
        (c.managers.map fun m =>
          rounds thread channel m * m.trieMatches channel).sum <->
      forall m, m ∈ c.managers -> forall s, s ∈ m.patternSubscriptions ->
        GlobTakes s.1 channel ->
          GlobalRegistry.LiteralStars s.1 channel ∧ ¬ GetsBoth thread channel m := by
  have hterms : forall m, m ∈ c.managers ->
      m.globMatches channel <= rounds thread channel m * m.trieMatches channel ∧
        (m.globMatches channel = rounds thread channel m * m.trieMatches channel <->
          forall s, s ∈ m.patternSubscriptions -> GlobTakes s.1 channel ->
            GlobalRegistry.LiteralStars s.1 channel ∧
              ¬ GetsBoth thread channel m) := by
    intro m hm
    have hle := fun s hs => (plain_count (h m hm s hs) thread channel m).1
    rw [ThreadLocalPubSub.globMatches_eq_sum]
    unfold ThreadLocalPubSub.trieMatches
    rw [← List.sum_map_mul_left]
    refine ⟨List.sum_le_sum hle, ?_⟩
    rw [sum_eq_iff_of_le hle]
    exact forall_congr' fun s => forall_congr' fun hs =>
      (plain_count (h m hm s hs) thread channel m).2
  rw [sum_eq_iff_of_le fun m hm => (hterms m hm).1]
  exact forall_congr' fun m => forall_congr' fun hm => (hterms m hm).2

/-- The number that is replied is the number of deliveries if and only if as
many pattern subscriptions take the channel, its stars literal, as there are
cuts of the channel along the patterns, where the cuts on a thread that gets
both broadcasts count twice.  It is so if every pattern is counted as it is
found, and for plain patterns only if it is so. -/
theorem publish_count_iff (numThreads : Nat)
    (steps : List (ThreadId × ClusterOp)) (thread : ThreadId)
    (channel message : Bytes) (publisher : ThreadLocalPubSub)
    (hpublisher : (after numThreads steps).managers[thread]? = some publisher)
    (schedule : List FlightEvent)
    (hroom : Flight.BelowCapacity (after numThreads steps).managers
      ((after numThreads steps).launch thread publisher channel message)
      schedule)
    (hcomplete : Flight.Complete (Flight.run (after numThreads steps).managers
      ((after numThreads steps).launch thread publisher channel message)
      schedule)) :
    let c := after numThreads steps
    let done := Flight.run c.managers (c.launch thread publisher channel message)
      schedule
    (forall connId connection,
      (handlePubsubOperation (publisher, c.registry) connId
          (.publish channel message) connection thread).2.1 =
        connection.write (formatRespResponse (.integer
          (Int64.ofNat (c.publishReply thread publisher channel message))))) ∧
    (c.CountRight thread publisher channel message done <->
      (c.managers.map fun m => (m.counted channel).ncard).sum =
        (c.managers.map fun m =>
          rounds thread channel m * (m.found channel).ncard).sum) ∧
    ((forall m, m ∈ c.managers -> forall s, s ∈ m.patternSubscriptions ->
        CountedAsFound thread channel m s.1) ->
      c.CountRight thread publisher channel message done) ∧
    ((forall m, m ∈ c.managers -> forall s, s ∈ m.patternSubscriptions ->
        PlainPattern s.1) ->
      (c.CountRight thread publisher channel message done <->
        forall m, m ∈ c.managers -> forall s, s ∈ m.patternSubscriptions ->
          GlobTakes s.1 channel ->
            GlobalRegistry.LiteralStars s.1 channel ∧
              ¬ GetsBoth thread channel m)) := by
  intro c done
  have hright := countRight_iff_matches hpublisher hroom hcomplete
  have hholds : forall m, m ∈ c.managers ->
      (m.counted channel).ncard = m.globMatches channel ∧
        (m.found channel).ncard = m.trieMatches channel := by
    intro m hm
    rcases List.getElem?_of_mem hm with ⟨u, hu⟩
    rcases @holds_after (fun _ _ => True) numThreads steps
      (fun _ _ _ _ => trivial) u m hu with ⟨R, hR, _⟩
    exact ⟨ThreadLocalPubSub.ncard_counted hR channel,
      ThreadLocalPubSub.ncard_found hR channel⟩
  refine ⟨fun _ _ => rfl, ?_, ?_, ?_⟩
  · rw [List.map_congr_left fun m hm => (hholds m hm).1,
      List.map_congr_left fun m hm =>
        congrArg (rounds thread channel m * ·) (hholds m hm).2]
    exact hright
  · exact fun h => hright.mpr (sums_of_countedAsFound h)
  · exact fun h => hright.trans (plain_sums_iff h)

def plainSubscribed : List (ThreadId × ClusterOp) :=
  [(1, .subscribe 7 [[99]]), (2, .psubscribe 8 [[99, 42]])]

theorem publish_count_plain :
    let c := after 3 plainSubscribed
    c.CountRight 0 (.new 0) [99] [1]
      (Flight.run c.managers (c.launch 0 (.new 0) [99] [1])
        [.send, .send, .drain 2, .drain 1]) := by
  intro c
  have hright := publish_count_iff 3 plainSubscribed 0 [99] [1] (.new 0) rfl
    [.send, .send, .drain 2, .drain 1] (by
      refine ⟨?_, ?_, trivial⟩
      · intro thread msg pending hpending
        cases hpending
        decide
      · intro thread msg pending hpending
        cases hpending
        decide) (by
      refine ⟨rfl, ?_⟩
      intro thread
      match thread with
      | 0 => rfl
      | 1 => rfl
      | 2 => rfl
      | _ + 3 => rfl)
  have hmanagers : forall m, m ∈ c.managers -> forall s,
      s ∈ m.patternSubscriptions ->
        s = (([99, 42] : Bytes), 8) ∧ m.channels.subs.keys = [] := by
    decide
  refine (hright.2.2.2 ?_).mpr ?_
  · intro m hm s hs
    rw [(hmanagers m hm s hs).1]
    exact ⟨by decide, by decide, by decide⟩
  · intro m hm s hs _
    rcases hmanagers m hm s hs with ⟨rfl, hkeys⟩
    refine ⟨.octet (by decide) (Or.inr rfl)
      (.star (by decide) (List.suffix_refl _) .nil), fun h => ?_⟩
    have hmem := AList.mem_keys.mp h.2
    rw [hkeys] at hmem
    cases hmem

def classSubscribed : List (ThreadId × ClusterOp) :=
  [(1, .psubscribe 7 [[91, 97, 93]])]

/-- The registry's matcher does not know character classes: the trie delivers
the message, and the reply is zero. -/
theorem publish_count_wrong :
    ¬ forall (numThreads : Nat) (steps : List (ThreadId × ClusterOp))
      (thread : ThreadId) (channel message : Bytes)
      (publisher : ThreadLocalPubSub) (schedule : List FlightEvent),
      (after numThreads steps).managers[thread]? = some publisher ->
      Flight.BelowCapacity (after numThreads steps).managers
        ((after numThreads steps).launch thread publisher channel message)
        schedule ->
      Flight.Complete (Flight.run (after numThreads steps).managers
        ((after numThreads steps).launch thread publisher channel message)
        schedule) ->
      (after numThreads steps).delivered
          (Flight.run (after numThreads steps).managers
            ((after numThreads steps).launch thread publisher channel message)
            schedule) =
        (after numThreads steps).waiting +
          (after numThreads steps).publishReply thread publisher channel
            message := by
  intro h
  have hfalse := h 2 classSubscribed 0 [97] [1] (.new 0) [.send, .drain 1] rfl
    (by
      refine ⟨?_, trivial⟩
      intro thread msg pending hpending
      cases hpending
      decide)
    (by
      refine ⟨rfl, ?_⟩
      intro thread
      match thread with
      | 0 => rfl
      | 1 => rfl
      | _ + 2 => rfl)
  revert hfalse
  decide

end Cluster

end FeoxServer
