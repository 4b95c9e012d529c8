import FeoxServer.Pubsub.Accesses

/-!
# The order of publications

Publications by all threads at once.  A thread makes its own deliveries when it
handles a publication, and sends the broadcasts one at a time; the others
receive them one at a time from their inboxes.  Every broadcast and every
delivery carries the stamp of its publication.
-/

namespace FeoxServer

open Foundation

/-- Who published, and the place among all publications. -/
structure Stamp where
  thread : ThreadId
  connection : ConnectionId
  number : Nat
  deriving DecidableEq

abbrev Parcel : Type :=
  Stamp × BroadcastMsg

/-- The inboxes are kept with the stamps, in `boxes`. -/
structure Traffic where
  registry : GlobalRegistry
  managers : List ThreadLocalPubSub
  boxes : List (List Parcel)
  sending : ThreadId -> List (ThreadId × Parcel)
  log : ThreadId -> List (Stamp × Delivery)
  clock : Nat

inductive TrafficEvent where
  | operate (op : ClusterOp)
  | publish (connection : ConnectionId) (channel message : Bytes)
  | send
  | receive

namespace Traffic

def new (numThreads : Nat) : Traffic where
  registry := .new numThreads
  managers := (List.range numThreads).map .new
  boxes := List.replicate numThreads []
  sending := fun _ => []
  log := fun _ => []
  clock := 0

def boxOf (boxes : List (List Parcel)) (thread : ThreadId) : List Parcel :=
  (boxes[thread]?).getD []

/-- The registry and the managers without the stamps. -/
def cluster (t : Traffic) : Cluster where
  registry :=
    { t.registry with inboxes := t.boxes.map fun box => box.map Prod.snd }
  managers := t.managers

def deliverTo (boxes : List (List Parcel)) (thread : ThreadId)
    (parcel : Parcel) : List (List Parcel) :=
  match boxes[thread]? with
  | some box =>
      if box.length < inboxCapacity then boxes.set thread (box ++ [parcel])
      else boxes
  | none => boxes

/-- A thread begins a publication only when the one before is sent. -/
def step (t : Traffic) (turn : ThreadId × TrafficEvent) : Traffic :=
  match turn.2 with
  | .operate op =>
      if op.connection.isSome then
        let c := t.cluster.apply (turn.1, op)
        { t with registry := c.registry, managers := c.managers }
      else t
  | .publish connection channel message =>
      match t.managers[turn.1]?, t.sending turn.1 with
      | some m, [] =>
          let stamp := ⟨turn.1, connection, t.clock⟩
          { t with
            sending := Function.update t.sending turn.1
              ((ThreadLocalPubSub.broadcasts t.registry turn.1 channel
                message).map fun send => (send.1, (stamp, send.2)))
            log := Function.update t.log turn.1
              (t.log turn.1 ++ (m.publishLocal channel message).map fun d =>
                (stamp, d))
            clock := t.clock + 1 }
      | _, _ => t
  | .send =>
      match t.sending turn.1 with
      | (thread, parcel) :: rest =>
          { t with
            sending := Function.update t.sending turn.1 rest
            boxes := deliverTo t.boxes thread parcel }
      | [] => t
  | .receive =>
      match t.managers[turn.1]?, t.boxes[turn.1]? with
      | some m, some (parcel :: rest) =>
          { t with
            boxes := t.boxes.set turn.1 rest
            log := Function.update t.log turn.1
              (t.log turn.1 ++ (m.receive parcel.2).map fun d =>
                (parcel.1, d)) }
      | _, _ => t

def run (t : Traffic) (turns : List (ThreadId × TrafficEvent)) : Traffic :=
  turns.foldl step t

/-!
# What a thread still gets from another
-/

/-- The publications of thread `p` on the way through thread `v`: delivered, in
the inbox, and still to be sent. -/
def lineOf (p v : ThreadId) (log : List (Stamp × Delivery))
    (box : List Parcel) (sending : List (ThreadId × Parcel)) : List Nat :=
  (log.filter fun e => e.1.thread = p).map (fun e => e.1.number) ++
    (box.filter fun parcel => parcel.1.thread = p ∧ p ≠ v).map
      (fun parcel => parcel.1.number) ++
    (sending.filter fun send => send.1 = v ∧ p ≠ v).map
      (fun send => send.2.1.number)

def line (t : Traffic) (p v : ThreadId) : List Nat :=
  lineOf p v (t.log v) (boxOf t.boxes v) (t.sending p)

end Traffic

def BroadcastMsg.excludeThread : BroadcastMsg -> Option ThreadId
  | publish _ _ excludeThread | patternPublish _ _ excludeThread => excludeThread

namespace Traffic

/-- Every line is in order and ends before the next publication. -/
structure Ordered (t : Traffic) : Prop where
  sorted : forall p v, (t.line p v).Pairwise (· <= ·)
  bounded : forall p v number, number ∈ t.line p v -> number < t.clock
  sending : forall p send, send ∈ t.sending p ->
    send.2.1.thread = p ∧ send.2.2.excludeThread = some p
  boxes : forall v parcel, parcel ∈ boxOf t.boxes v ->
    parcel.2.excludeThread = some parcel.1.thread
  threadId : forall (u : ThreadId) m, t.managers[u]? = some m -> m.threadId = u

theorem ordered_new (n : Nat) : Ordered (new n) := by
  have hbox : forall v, boxOf (new n).boxes v = [] := by
    intro v
    unfold boxOf new
    cases h : (List.replicate n ([] : List Parcel))[v]? with
    | none => simp
    | some box =>
        rcases List.getElem?_eq_some_iff.mp h with ⟨_, hget⟩
        rw [List.getElem_replicate] at hget
        simp [← hget]
  have hline : forall p v, (new n).line p v = [] := by
    intro p v
    unfold line
    rw [hbox]
    rfl
  constructor
  · intro p v
    rw [hline]
    exact List.Pairwise.nil
  · intro p v number h
    rw [hline] at h
    cases h
  · intro p send h
    cases h
  · intro v parcel h
    rw [hbox] at h
    cases h
  · intro u m h
    simp only [new, List.getElem?_map, Option.map_eq_some_iff] at h
    rcases h with ⟨v, hv, rfl⟩
    rcases List.getElem?_eq_some_iff.mp hv with ⟨_, hget⟩
    rw [List.getElem_range] at hget
    exact hget.symm

theorem receive_excluded {m : ThreadLocalPubSub} {msg : BroadcastMsg}
    (h : msg.excludeThread = some m.threadId) : m.receive msg = [] := by
  cases msg with
  | publish channel message excludeThread =>
      cases h
      simp [ThreadLocalPubSub.receive]
  | patternPublish channel message excludeThread =>
      cases h
      simp [ThreadLocalPubSub.receive]

theorem pairwise_replicate {xs ys : List Nat} {x : Nat} (k : Nat)
    (h : (xs ++ x :: ys).Pairwise (· <= ·)) :
    (xs ++ List.replicate k x ++ ys).Pairwise (· <= ·) := by
  rw [List.pairwise_append, List.pairwise_cons] at h
  rcases h with ⟨hxs, ⟨hx, hys⟩, hcross⟩
  rw [List.append_assoc, List.pairwise_append, List.pairwise_append]
  refine ⟨hxs, ⟨?_, hys, ?_⟩, ?_⟩
  · exact List.pairwise_replicate.mpr (Or.inr (Nat.le_refl x))
  · intro a ha b hb
    rw [List.eq_of_mem_replicate ha]
    exact hx b hb
  · intro a ha b hb
    rcases List.mem_append.mp hb with hb | hb
    · rw [List.eq_of_mem_replicate hb]
      exact hcross a ha x List.mem_cons_self
    · exact hcross a ha b (List.mem_cons_of_mem x hb)

theorem pairwise_append_last {xs : List Nat} {x : Nat} (k : Nat)
    (h : xs.Pairwise (· <= ·)) (hlast : forall y, y ∈ xs -> y < x) :
    (xs ++ List.replicate k x).Pairwise (· <= ·) := by
  rw [List.pairwise_append]
  refine ⟨h, List.pairwise_replicate.mpr (Or.inr (Nat.le_refl x)), ?_⟩
  intro a ha b hb
  rw [List.eq_of_mem_replicate hb]
  exact Nat.le_of_lt (hlast a ha)

/-!
# The steps
-/

theorem boxOf_deliverTo (boxes : List (List Parcel)) (w : ThreadId)
    (parcel : Parcel) (v : ThreadId) :
    boxOf (deliverTo boxes w parcel) v = boxOf boxes v ∨
      v = w ∧ boxOf (deliverTo boxes w parcel) v = boxOf boxes v ++ [parcel] := by
  unfold boxOf deliverTo
  cases hw : boxes[w]? with
  | none => exact Or.inl rfl
  | some old =>
      simp only
      split
      · by_cases hv : w = v
        · subst hv
          rcases List.getElem?_eq_some_iff.mp hw with ⟨hlt, _⟩
          refine Or.inr ⟨rfl, ?_⟩
          rw [List.getElem?_set_self hlt, hw]
          rfl
        · rw [List.getElem?_set_ne hv]
          exact Or.inl rfl
      · exact Or.inl rfl

theorem boxOf_set {boxes : List (List Parcel)} {u : ThreadId}
    {box : List Parcel} (hu : u < boxes.length) (v : ThreadId) :
    boxOf (boxes.set u box) v = if v = u then box else boxOf boxes v := by
  unfold boxOf
  by_cases hv : u = v
  · subst hv
    rw [List.getElem?_set_self hu, if_pos rfl]
    rfl
  · rw [List.getElem?_set_ne hv, if_neg (Ne.symm hv)]

theorem line_send {t : Traffic} (h : Ordered t) {u w : ThreadId}
    {parcel : Parcel} {rest : List (ThreadId × Parcel)}
    (hsending : t.sending u = (w, parcel) :: rest) (p v : ThreadId) :
    List.Sublist
      (lineOf p v (t.log v) (boxOf (deliverTo t.boxes w parcel) v)
        (Function.update t.sending u rest p))
      (t.line p v) := by
  have hfirst : parcel.1.thread = u := (h.sending u (w, parcel)
    (by rw [hsending]; exact List.mem_cons_self)).1
  unfold line lineOf
  by_cases hp : p = u
  · subst hp
    rw [Function.update_self, hsending]
    rcases boxOf_deliverTo t.boxes w parcel v with hsame | ⟨rfl, hmore⟩
    · rw [hsame]
      refine List.Sublist.append_left ?_ _
      refine List.Sublist.map _ (List.Sublist.filter _ ?_)
      exact List.sublist_cons_self _ _
    · rw [hmore]
      by_cases hself : p = v
      · simp [hself]
      · simp [hself, hfirst]
  · rw [Function.update_of_ne hp]
    rcases boxOf_deliverTo t.boxes w parcel v with hsame | ⟨rfl, hmore⟩
    · rw [hsame]
    · have hother : ¬ u = p := fun heq => hp heq.symm
      rw [hmore]
      simp [hfirst, hother]

theorem ordered_send {t : Traffic} (h : Ordered t) (u : ThreadId) :
    Ordered (t.step (u, .send)) := by
  unfold step
  cases hsending : t.sending u with
  | nil =>
      simp only
      exact h
  | cons first rest =>
      rcases first with ⟨w, parcel⟩
      have hfirst := h.sending u (w, parcel)
        (by rw [hsending]; exact List.mem_cons_self)
      constructor
      · exact fun p v => (h.sorted p v).sublist (line_send h hsending p v)
      · exact fun p v number hnumber =>
          h.bounded p v number ((line_send h hsending p v).subset hnumber)
      · intro p send hsend
        by_cases hp : p = u
        · subst hp
          simp only [Function.update_self] at hsend
          exact h.sending p send (by
            rw [hsending]
            exact List.mem_cons_of_mem _ hsend)
        · simp only [Function.update_of_ne hp] at hsend
          exact h.sending p send hsend
      · intro v parcel' hmem
        rcases boxOf_deliverTo t.boxes w parcel v with hsame | ⟨_, hmore⟩
        · rw [hsame] at hmem
          exact h.boxes v parcel' hmem
        · rw [hmore] at hmem
          rcases List.mem_append.mp hmem with hold | hnew
          · exact h.boxes v parcel' hold
          · rw [List.mem_singleton.mp hnew, hfirst.1]
            exact hfirst.2
      · exact h.threadId

theorem line_receive {t : Traffic} (h : Ordered t) {u : ThreadId}
    {m : ThreadLocalPubSub} (hm : t.managers[u]? = some m) {parcel : Parcel}
    {rest : List Parcel} (hbox : boxOf t.boxes u = parcel :: rest)
    (p : ThreadId) :
    lineOf p u
        (t.log u ++ (m.receive parcel.2).map fun d => (parcel.1, d)) rest
        (t.sending p) = t.line p u ∨
      exists xs ys k, t.line p u = xs ++ parcel.1.number :: ys ∧
        lineOf p u
          (t.log u ++ (m.receive parcel.2).map fun d => (parcel.1, d)) rest
          (t.sending p) = xs ++ List.replicate k parcel.1.number ++ ys := by
  unfold line lineOf
  rw [hbox]
  by_cases hp : parcel.1.thread = p
  · by_cases hself : p = u
    · left
      have hnone : m.receive parcel.2 = [] := by
        apply receive_excluded
        rw [h.boxes u parcel (by rw [hbox]; exact List.mem_cons_self), hp,
          hself, h.threadId u m hm]
      simp [hnone, hself]
    · right
      refine ⟨((t.log u).filter fun e => e.1.thread = p).map
          (fun e => e.1.number),
        ((rest.filter fun parcel => parcel.1.thread = p ∧ p ≠ u).map
          (fun parcel => parcel.1.number)) ++
        ((t.sending p).filter fun send => send.1 = u ∧ p ≠ u).map
          (fun send => send.2.1.number), (m.receive parcel.2).length, ?_, ?_⟩
      · simp [hp, hself]
      · have hall : ((m.receive parcel.2).map fun d => (parcel.1, d)).filter
            (fun e => decide (e.1.thread = p)) =
            (m.receive parcel.2).map fun d => (parcel.1, d) := by
          rw [List.filter_eq_self]
          intro e he
          rcases List.mem_map.mp he with ⟨d, _, rfl⟩
          exact decide_eq_true hp
        rw [List.filter_append, hall, List.map_append, List.map_map]
        simp [Function.comp_def, List.append_assoc]
  · left
    have hnone : ((m.receive parcel.2).map fun d => (parcel.1, d)).filter
        (fun e => decide (e.1.thread = p)) = [] := by
      rw [List.filter_eq_nil_iff]
      intro e he
      rcases List.mem_map.mp he with ⟨d, _, rfl⟩
      simpa using hp
    rw [List.filter_append, hnone]
    simp [hp]

theorem ordered_receive {t : Traffic} (h : Ordered t) (u : ThreadId) :
    Ordered (t.step (u, .receive)) := by
  unfold step
  cases hm : t.managers[u]? with
  | none => exact h
  | some m =>
      cases hbox : t.boxes[u]? with
      | none => exact h
      | some box =>
          cases box with
          | nil => exact h
          | cons parcel rest =>
              rcases List.getElem?_eq_some_iff.mp hbox with ⟨hlt, _⟩
              have hbox' : boxOf t.boxes u = parcel :: rest := by
                rw [boxOf, hbox]
                rfl
              constructor
              · intro p v
                unfold line
                simp only
                by_cases hv : v = u
                · subst hv
                  rw [Function.update_self, boxOf_set hlt, if_pos rfl]
                  rcases line_receive h hm hbox' p with
                    hsame | ⟨xs, ys, k, hold, hnew⟩
                  · rw [hsame]
                    exact h.sorted p v
                  · rw [hnew]
                    exact pairwise_replicate k (hold ▸ h.sorted p v)
                · rw [Function.update_of_ne hv, boxOf_set hlt, if_neg hv]
                  exact h.sorted p v
              · intro p v number hnumber
                unfold line at hnumber
                simp only at hnumber
                by_cases hv : v = u
                · subst hv
                  rw [Function.update_self, boxOf_set hlt, if_pos rfl] at hnumber
                  rcases line_receive h hm hbox' p with
                    hsame | ⟨xs, ys, k, hold, hnew⟩
                  · rw [hsame] at hnumber
                    exact h.bounded p v number hnumber
                  · rw [hnew] at hnumber
                    refine h.bounded p v number ?_
                    rw [hold]
                    rcases List.mem_append.mp hnumber with hxs | hys
                    · rcases List.mem_append.mp hxs with hxs | hk
                      · exact List.mem_append_left _ hxs
                      · rw [List.eq_of_mem_replicate hk]
                        exact List.mem_append_right _ List.mem_cons_self
                    · exact List.mem_append_right _
                        (List.mem_cons_of_mem _ hys)
                · rw [Function.update_of_ne hv, boxOf_set hlt, if_neg hv] at hnumber
                  exact h.bounded p v number hnumber
              · exact h.sending
              · intro v parcel' hmem
                simp only at hmem
                rw [boxOf_set hlt] at hmem
                by_cases hv : v = u
                · subst hv
                  rw [if_pos rfl] at hmem
                  refine h.boxes v parcel' ?_
                  rw [hbox']
                  exact List.mem_cons_of_mem _ hmem
                · rw [if_neg hv] at hmem
                  exact h.boxes v parcel' hmem
              · exact h.threadId

theorem mem_broadcasts {r : GlobalRegistry} {u : ThreadId}
    {channel message : Bytes} {send : ThreadId × BroadcastMsg}
    (h : send ∈ ThreadLocalPubSub.broadcasts r u channel message) :
    send.2.excludeThread = some u := by
  unfold ThreadLocalPubSub.broadcasts at h
  rcases List.mem_append.mp h with h | h
  · rcases List.mem_map.mp h with ⟨v, _, rfl⟩
    rfl
  · rcases List.mem_map.mp h with ⟨v, _, rfl⟩
    rfl

theorem line_publish (t : Traffic) {u : ThreadId} (hnone : t.sending u = [])
    (connection : ConnectionId) (deliveries : List Delivery)
    (sends : List (ThreadId × BroadcastMsg)) (p v : ThreadId) :
    exists k, lineOf p v
        (Function.update t.log u (t.log u ++ deliveries.map fun d =>
          (⟨u, connection, t.clock⟩, d)) v)
        (boxOf t.boxes v)
        (Function.update t.sending u (sends.map fun send =>
          (send.1, (⟨u, connection, t.clock⟩, send.2))) p) =
      t.line p v ++ List.replicate k t.clock := by
  unfold line lineOf
  by_cases hp : p = u
  · subst hp
    rw [Function.update_self, hnone]
    by_cases hv : v = p
    · subst hv
      refine ⟨deliveries.length, ?_⟩
      rw [Function.update_self, List.filter_append]
      simp [Function.comp_def, List.filter_map]
    · have hne : ¬ p = v := fun heq => hv heq.symm
      refine ⟨(sends.filter fun send => send.1 = v).length, ?_⟩
      rw [Function.update_of_ne hv]
      simp [Function.comp_def, List.filter_map, hne]
  · have hne : ¬ u = p := fun heq => hp heq.symm
    refine ⟨0, ?_⟩
    rw [Function.update_of_ne hp]
    by_cases hv : v = u
    · subst hv
      rw [Function.update_self, List.filter_append]
      simp [Function.comp_def, List.filter_map, hne]
    · rw [Function.update_of_ne hv]
      simp

theorem ordered_publish {t : Traffic} (h : Ordered t) (u : ThreadId)
    (connection : ConnectionId) (channel message : Bytes) :
    Ordered (t.step (u, .publish connection channel message)) := by
  unfold step
  cases hm : t.managers[u]? with
  | none => exact h
  | some m =>
      cases hsending : t.sending u with
      | cons send rest => exact h
      | nil =>
          simp only
          have hline := line_publish t hsending connection
            (m.publishLocal channel message)
            (ThreadLocalPubSub.broadcasts t.registry u channel message)
          constructor
          · intro p v
            rcases hline p v with ⟨k, hk⟩
            unfold line
            simp only [hk]
            exact pairwise_append_last k (h.sorted p v) (h.bounded p v)
          · intro p v number hnumber
            rcases hline p v with ⟨k, hk⟩
            unfold line at hnumber
            simp only [hk] at hnumber
            rcases List.mem_append.mp hnumber with hold | hnew
            · exact Nat.lt_succ_of_lt (h.bounded p v number hold)
            · rw [List.eq_of_mem_replicate hnew]
              exact Nat.lt_succ_self t.clock
          · intro p send hsend
            by_cases hp : p = u
            · subst hp
              simp only [Function.update_self] at hsend
              rcases List.mem_map.mp hsend with ⟨send', hsend', rfl⟩
              exact ⟨rfl, mem_broadcasts hsend'⟩
            · simp only [Function.update_of_ne hp] at hsend
              exact h.sending p send hsend
          · exact h.boxes
          · exact h.threadId

theorem ordered_operate {t : Traffic} (h : Ordered t) (u : ThreadId)
    (op : ClusterOp) : Ordered (t.step (u, .operate op)) := by
  unfold step
  by_cases hop : op.connection.isSome
  · simp only [hop, if_true]
    refine ⟨h.sorted, h.bounded, h.sending, h.boxes, ?_⟩
    intro v m hv
    simp only [Cluster.apply] at hv
    cases hm : t.cluster.managers[u]? with
    | none =>
        rw [hm] at hv
        exact h.threadId v m hv
    | some old =>
        rw [hm] at hv
        by_cases huv : u = v
        · subst huv
          rcases List.getElem?_eq_some_iff.mp hm with ⟨hlt, _⟩
          simp only [List.getElem?_set_self hlt, Option.some.injEq] at hv
          rw [← hv, (op.perform_settled (old, t.cluster.registry)).threadId]
          exact h.threadId u old hm
        · simp only [List.getElem?_set_ne huv] at hv
          exact h.threadId v m hv
  · simp only [hop]
    exact h

theorem ordered_run (n : Nat) (turns : List (ThreadId × TrafficEvent)) :
    Ordered ((new n).run turns) := by
  have hfold : forall t : Traffic, Ordered t -> Ordered (turns.foldl step t) := by
    induction turns with
    | nil => exact fun t h => h
    | cons turn turns ih =>
        intro t h
        refine ih (t.step turn) ?_
        rcases turn with ⟨u, event⟩
        cases event with
        | operate op => exact ordered_operate h u op
        | publish connection channel message =>
            exact ordered_publish h u connection channel message
        | send => exact ordered_send h u
        | receive => exact ordered_receive h u
  exact hfold (new n) (ordered_new n)

/-!
# Without the stamps

The steps are those of the managers and of the registry.
-/

theorem inboxes_completeAll (thread : ThreadId) (accesses : List Access)
    (r : GlobalRegistry) :
    (Access.completeAll thread r accesses).inboxes = r.inboxes := by
  have hset : forall (r : GlobalRegistry) kind i,
      (r.setInterests kind i).inboxes = r.inboxes := by
    intro r kind i
    cases kind <;> rfl
  have hcount : forall (r : GlobalRegistry) kind i,
      (r.setCounters kind i).inboxes = r.inboxes := by
    intro r kind i
    cases kind <;> rfl
  have hperform : forall (r : GlobalRegistry) (access : Access),
      (access.perform thread r).1.inboxes = r.inboxes := by
    intro r access
    cases access with
    | increment kind name =>
        exact GlobalRegistry.inboxes_incrementSubscribers r kind name
    | decrement kind name => exact hcount r kind _
    | deleteCount kind name => exact hcount r kind _
    | addInterest kind name =>
        exact GlobalRegistry.inboxes_addInterest r kind name thread
    | removeInterest kind name => exact hset r kind _
    | deleteInterest kind name => exact hset r kind _
  have hfold : forall (next : List Access) (r : GlobalRegistry),
      (next.foldl (fun r access => (access.perform thread r).1) r).inboxes =
        r.inboxes := by
    intro next
    induction next with
    | nil => exact fun r => rfl
    | cons access next ih => exact fun r => (ih _).trans (hperform r access)
  induction accesses generalizing r with
  | nil => rfl
  | cons access accesses ih =>
      exact (ih _).trans ((hfold _ _).trans (hperform r access))

theorem inboxes_perform {op : ClusterOp} (hop : op.connection.isSome)
    (st : PubSubState) : (op.perform st).2.inboxes = st.2.inboxes := by
  have htraced : forall {st' : PubSubState}
      {trace : List Access × ThreadLocalPubSub}, Traced st trace st' ->
      st'.2.inboxes = st.2.inboxes := by
    rintro st' trace rfl
    exact inboxes_completeAll st.1.threadId trace.1 st.2
  cases op with
  | subscribe connId channels =>
      exact htraced (ThreadLocalPubSub.forEach_traced
        (ThreadLocalPubSub.subscribeName_traced .channel connId)
        (ThreadLocalPubSub.threadId_subscribeTrace .channel connId) st channels)
  | unsubscribe connId channels =>
      exact htraced
        (ThreadLocalPubSub.unsubscribeNames_traced .channel st connId channels)
  | psubscribe connId patterns =>
      exact htraced (ThreadLocalPubSub.forEach_traced
        (ThreadLocalPubSub.subscribeName_traced .pattern connId)
        (ThreadLocalPubSub.threadId_subscribeTrace .pattern connId) st patterns)
  | punsubscribe connId patterns =>
      exact htraced
        (ThreadLocalPubSub.unsubscribeNames_traced .pattern st connId patterns)
  | connectionDropped connId =>
      exact htraced (ThreadLocalPubSub.connectionDropped_traced st connId)
  | publish channel message => cases hop
  | processInbox => cases hop

theorem cluster_operate (t : Traffic) (u : ThreadId) {op : ClusterOp}
    (hop : op.connection.isSome) :
    (t.step (u, .operate op)).cluster = t.cluster.apply (u, op) := by
  have hinboxes : (t.cluster.apply (u, op)).registry.inboxes =
      t.cluster.registry.inboxes := by
    unfold Cluster.apply
    cases t.cluster.managers[u]? with
    | none => rfl
    | some m => exact inboxes_perform hop (m, t.cluster.registry)
  have hkept : forall c : Cluster,
      c.registry.inboxes = t.cluster.registry.inboxes ->
      cluster { t with registry := c.registry, managers := c.managers } = c := by
    rintro ⟨r, managers⟩ hr
    unfold cluster at hr ⊢
    simp only at hr ⊢
    rw [← hr]
  unfold step
  simp only [hop, if_true]
  exact hkept _ hinboxes

theorem cluster_send {t : Traffic} {u w : ThreadId} {parcel : Parcel}
    {rest : List (ThreadId × Parcel)}
    (hsending : t.sending u = (w, parcel) :: rest) :
    (t.step (u, .send)).cluster =
      { registry := t.cluster.registry.trySend w parcel.2
        managers := t.managers } := by
  unfold step
  simp only [hsending]
  unfold cluster deliverTo GlobalRegistry.trySend
  simp only [List.getElem?_map]
  cases t.boxes[w]? with
  | none => rfl
  | some box =>
      simp only [Option.map_some, List.length_map]
      split
      · simp [List.map_set]
      · rfl

/-- What a thread has delivered, without the stamps. -/
def delivered (t : Traffic) (thread : ThreadId) : List Delivery :=
  (t.log thread).map Prod.snd

theorem receive_all {t : Traffic} {u : ThreadId} {m : ThreadLocalPubSub}
    (hm : t.managers[u]? = some m) (hid : m.threadId = u) {box : List Parcel}
    (hbox : t.boxes[u]? = some box) :
    let st := ThreadLocalPubSub.processInbox (m, t.cluster.registry)
    let t' := t.run (List.replicate box.length (u, .receive))
    t'.delivered u = t.delivered u ++ st.1 ∧ t'.cluster.registry = st.2.2 := by
  have hlt := (List.getElem?_eq_some_iff.mp hbox).1
  have hinbox : (t.cluster.registry.inboxes[u]?).getD [] =
      box.map Prod.snd := by
    simp [cluster, hbox]
  simp only [ThreadLocalPubSub.processInbox, hid, hinbox]
  clear hinbox
  induction box generalizing t with
  | nil =>
      refine ⟨by simp [run], ?_⟩
      have hempty : t.boxes.set u [] = t.boxes := by
        rw [← (List.getElem?_eq_some_iff.mp hbox).2, List.set_getElem_self]
      unfold cluster
      simp only [run, List.length_nil, List.replicate_zero, List.foldl_nil]
      have hmap := congrArg (List.map fun box : List Parcel =>
        box.map Prod.snd) hempty
      rw [List.map_set] at hmap
      simpa using hmap.symm
  | cons parcel rest ih =>
      have hstep : t.step (u, .receive) =
          { t with
            boxes := t.boxes.set u rest
            log := Function.update t.log u
              (t.log u ++ (m.receive parcel.2).map fun d => (parcel.1, d)) } := by
        unfold step
        rw [hm, hbox]
      have hrest := ih (t := t.step (u, .receive)) (by rw [hstep]; exact hm)
        (by rw [hstep]; exact List.getElem?_set_self hlt)
        (by rw [hstep]; simpa using hlt)
      rw [List.length_cons, List.replicate_succ]
      refine ⟨hrest.1.trans ?_, hrest.2.trans ?_⟩
      · rw [hstep]
        simp [delivered, Function.comp_def]
      · rw [hstep]
        simp [cluster, List.map_set]

/-!
# In the order of publication
-/

def subscriptionOf : PubSubMessage -> Option (SubscriptionType × Bytes)
  | .message channel _ => some (.channel, channel)
  | .patternMessage pattern _ _ => some (.pattern, pattern)
  | _ => none

/-- The publications of a connection that a connection of thread `u` has got for
a subscription, in the order of the deliveries. -/
def received (t : Traffic) (publisher : ThreadId × ConnectionId) (u : ThreadId)
    (connId : ConnectionId) (subscription : SubscriptionType × Bytes) :
    List Nat :=
  ((t.log u).filter fun e =>
    (e.1.thread, e.1.connection) = publisher ∧ e.2.1 = connId ∧
      subscriptionOf e.2.2 = some subscription).map fun e => e.1.number

/-- In every interleaving, what a connection gets from another for one
subscription comes in the order of publication. -/
theorem publish_order (numThreads : Nat)
    (turns : List (ThreadId × TrafficEvent))
    (publisher : ThreadId × ConnectionId) (u : ThreadId)
    (connId : ConnectionId) (subscription : SubscriptionType × Bytes) :
    (((new numThreads).run turns).received publisher u connId
      subscription).Pairwise (· <= ·) := by
  have h := (ordered_run numThreads turns).sorted publisher.1 u
  generalize (new numThreads).run turns = t at h
  refine h.sublist ?_
  unfold received line lineOf
  rw [List.append_assoc]
  refine List.Sublist.trans (List.Sublist.map _ ?_)
    (List.sublist_append_left _ _)
  refine List.monotone_filter_right _ ?_
  intro e he
  rw [decide_eq_true_eq] at he ⊢
  exact congrArg Prod.fst he.1

end Traffic

end FeoxServer
