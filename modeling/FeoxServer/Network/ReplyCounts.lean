import FeoxServer.Network.ReplyOrder

/-!
# How often a command is answered

Every command of a chunk is answered by one frame, and a subscription or an
unsubscription by one frame for each name, unless there is no name.
-/

namespace FeoxServer

open Foundation Prog Connection

def PubSubOp.Given : PubSubOp -> Prop
  | subscribe names | psubscribe names | unsubscribe (some names)
  | punsubscribe (some names) => names ≠ []
  | _ => True

theorem Command.WellFormed.given {cmd : Command} {op : PubSubOp}
    (h : cmd.WellFormed) (hop : cmd.toPubsubOp = some op) : op.Given := by
  cases cmd with
  | subscribe names | psubscribe names =>
      cases hop
      exact h
  | unsubscribe names | punsubscribe names =>
      cases hop
      cases names with
      | none => exact trivial
      | some names => exact h
  | publish channel message =>
      cases hop
      exact trivial
  | pubSub subcommand args =>
      simp only [Command.toPubsubOp] at hop
      split at hop <;> cases hop <;> exact trivial
  | _ => cases hop

namespace Mode

theorem parsed_of_dispatches {m : Mode} {v : RespValue} {cmd : Command}
    (h : m.dispatches v = some cmd) : Command.fromResp v = .ok cmd := by
  unfold dispatches at h
  split at h
  · cases h
  · split at h
    · cases h
    · rename_i cmd' hcmd
      split at h <;> cases h
      exact hcmd

theorem given_of_leaves {m : Mode} {v : RespValue} {op : PubSubOp}
    (h : m.leaves v = some op) : op.Given := by
  unfold leaves at h
  split at h
  · rcases Option.bind_eq_some_iff.mp h with ⟨cmd, hcmd, hop⟩
    exact (wellFormed_of_fromResp (parsed_of_dispatches hcmd)).given hop
  · cases h

theorem leavesAll_append (m : Mode) (before after : List RespValue) :
    m.leavesAll (before ++ after) =
      m.leavesAll before ++ (m.afterAll before).leavesAll after := by
  induction before generalizing m with
  | nil => rfl
  | cons v before ih => exact congrArg (_ :: ·) (ih _)

theorem length_leavesAll (m : Mode) (frames : List RespValue) :
    (m.leavesAll frames).length = frames.length := by
  induction frames generalizing m with
  | nil => rfl
  | cons v frames ih => exact congrArg (· + 1) (ih _)

end Mode

section Counts

variable (threadId : ThreadId) (connId : ConnectionId)

/-- How many frames a command that may leave an operation should have. -/
def due (st : PubSubState) (op : Option PubSubOp) : Nat :=
  match op.bind (PubSubOp.names st connId) with
  | some names => max 1 names.length
  | none => 1

/-- All subscriptions of a kind are given up where there are none. -/
def LeavesNothing (st : PubSubState) : Option PubSubOp -> Prop
  | some (.unsubscribe none) => st.1.channels.namesOf connId = []
  | some (.punsubscribe none) => st.1.patterns.namesOf connId = []
  | _ => False

/-- The state behind some commands. -/
def servicesAfter (st : PubSubState) (ops : List (Option PubSubOp)) :
    PubSubState :=
  ops.foldl (serviceAfter threadId connId) st

variable {threadId connId}

theorem silent_iff {st : PubSubState} {op : Option PubSubOp}
    (hgiven : forall o, op = some o -> o.Given) :
    Silent connId st op <-> LeavesNothing connId st op := by
  cases op with
  | none => exact iff_of_false nofun id
  | some op =>
      have hop := hgiven op rfl
      cases op with
      | subscribe names | psubscribe names =>
          exact iff_of_false (fun h => hop (Option.some.inj h)) id
      | unsubscribe names | punsubscribe names =>
          cases names with
          | none => exact ⟨Option.some.inj, congrArg some⟩
          | some names => exact iff_of_false (fun h => hop (Option.some.inj h)) id
      | _ => exact iff_of_false nofun id

theorem length_frames {flow : Flow} (haccepted : flow.Accepted)
    (st : PubSubState) :
    (flow.frames threadId connId st).length = due connId st flow.left <->
      ¬ Silent connId st flow.left := by
  cases flow with
  | deferred op =>
      change (served threadId connId st op).frames.length =
        due connId st (some op) <-> ¬ op.names st connId = some []
      rw [length_served]
      unfold due
      change _ = (match op.names st connId with
        | some names => max 1 names.length
        | none => 1) <-> _
      cases op.names st connId with
      | none => exact iff_of_true rfl nofun
      | some names => cases names <;> simp
  | failed e => exact absurd rfl (haccepted e)
  | _ => exact iff_of_true rfl nofun

theorem filter_number_replyFrames (st : PubSubState) (number : Nat)
    (before : List Flow) (flow : Flow) (after : List Flow) :
    (replyFrames threadId connId st number (before ++ flow :: after)).filter
        (fun x => x.number = number + before.length) =
      (flow.frames threadId connId
          (servicesAfter threadId connId st (before.map Flow.left))).map fun r =>
        ⟨number + before.length, phaseOf flow.left, r⟩ := by
  induction before generalizing st number with
  | nil =>
      rw [List.nil_append, replyFrames, List.filter_append,
        List.filter_eq_self.mpr, List.filter_eq_nil_iff.mpr, List.append_nil]
      · rfl
      · intro x hx hnumber
        have hle := le_number hx
        have heq : x.number = number := of_decide_eq_true hnumber
        omega
      · intro x hx
        rcases List.mem_map.mp hx with ⟨r, _, rfl⟩
        exact decide_eq_true rfl
  | cons first before ih =>
      rw [List.cons_append, replyFrames, List.filter_append,
        List.filter_eq_nil_iff.mpr, List.nil_append, List.length_cons]
      · have hrest := ih (serviceAfter threadId connId st first.left) (number + 1)
        rw [Nat.add_right_comm, Nat.add_assoc] at hrest
        exact hrest
      · intro x hx hnumber
        rcases List.mem_map.mp hx with ⟨r, _, rfl⟩
        have heq : number = number + (first :: before).length :=
          of_decide_eq_true hnumber
        rw [List.length_cons] at heq
        omega

theorem filter_number_sentFrames (st : PubSubState) (before : List Flow)
    (flow : Flow) (after : List Flow) :
    (sentFrames threadId connId st (before ++ flow :: after)).filter
        (fun x => x.number = before.length) =
      (flow.frames threadId connId
          (servicesAfter threadId connId st (before.map Flow.left))).map fun r =>
        ⟨before.length, phaseOf flow.left, r⟩ := by
  have hall := @filter_number_replyFrames threadId connId st 0 before flow after
  rw [Nat.zero_add] at hall
  rw [sentFrames, @filter_number_inPhases _ _ _ _ (phaseOf flow.left) _ ?_ 3,
    if_pos (phaseOf_lt _), hall]
  intro x hx hnumber
  have hmem : x ∈ (replyFrames threadId connId st 0
      (before ++ flow :: after)).filter (fun x => x.number = before.length) :=
    List.mem_filter.mpr ⟨hx, decide_eq_true hnumber⟩
  rw [hall] at hmem
  rcases List.mem_map.mp hmem with ⟨r, _, rfl⟩
  rfl

end Counts

variable {S : FeoxStore} {P : Platform} {fuel : Nat} {threadId : ThreadId}

theorem Replied.left_of_split {sh : Shared S P} {c : Connection} {data : Bytes}
    {read : (Connection × List PubSubOp) × World S P}
    {before after : Replies} {v : RespValue} {flow : Flow}
    (h : Replied fuel threadId sh c data read (before ++ (v, flow) :: after)) :
    (before.map Prod.snd).map Flow.left =
        c.mode.leavesAll (before.map Prod.fst) ∧
      flow.left = (c.mode.afterAll (before.map Prod.fst)).leaves v := by
  have hleft := h.left
  simp only [List.map_append, List.map_cons, Mode.leavesAll_append] at hleft
  have hlength : ((before.map Prod.snd).map Flow.left).length =
      (c.mode.leavesAll (before.map Prod.fst)).length := by
    simp [Mode.length_leavesAll]
  rcases List.append_inj hleft hlength with ⟨hbefore, hrest⟩
  exact ⟨hbefore, (List.cons.inj hrest).1⟩

/-- A command is answered as often as it should be exactly if it does not give
up all subscriptions of a kind that there are none of. -/
theorem replies_counted_iff {sh : Shared S P} {c c1 : Connection} {data : Bytes}
    {ops : List PubSubOp} {world : World S P}
    (hread : (c.processRead fuel data).run (server S P) sh.world =
      some ((c1, .ok ops), world)) :
    exists replies,
      Replied fuel threadId sh c data ((c1, ops), world) replies ∧
      forall before v flow after, replies = before ++ (v, flow) :: after ->
        let op := (c.mode.afterAll (before.map Prod.fst)).leaves v
        let st := servicesAfter threadId c.connectionId sh.pubsub
          (c.mode.leavesAll (before.map Prod.fst))
        (((sentFrames threadId c.connectionId sh.pubsub
            (replies.map Prod.snd)).filter fun x =>
              x.number = before.length).length = due c.connectionId st op <->
          ¬ LeavesNothing c.connectionId st op) := by
  rcases @replied_of_read _ _ _ threadId _ _ _ _ _ _ hread with ⟨replies, h⟩
  refine ⟨replies, h, ?_⟩
  rintro before v flow after rfl
  have haccepted : flow.Accepted :=
    h.whole.accepted (v, flow) (List.mem_append_right _ List.mem_cons_self)
  have hsent := @filter_number_sentFrames threadId c.connectionId sh.pubsub
    (before.map Prod.snd) flow (after.map Prod.snd)
  rw [List.length_map] at hsent
  have hgiven : forall o, flow.left = some o -> o.Given := by
    intro o ho
    rw [h.left_of_split.2] at ho
    exact Mode.given_of_leaves ho
  dsimp only
  rw [List.map_append, List.map_cons, hsent, List.length_map,
    h.left_of_split.1, ← h.left_of_split.2, length_frames haccepted,
    silent_iff hgiven]

def countedRequests : Bytes :=
  requests [["PING"], ["SUBSCRIBE", "a", "b"], ["UNSUBSCRIBE"], ["PUNSUBSCRIBE"]]

theorem replies_counted_iff_subscribe :
    exists c1 ops world replies,
      (newcomer.1.processRead 0 countedRequests).run
        (server mapStore idlePlatform) newcomer.2.world =
          some ((c1, .ok ops), world) ∧
      Replied 0 0 newcomer.2 newcomer.1 countedRequests ((c1, ops), world)
        replies ∧
      forall before v flow after, replies = before ++ (v, flow) :: after ->
        let op := (newcomer.1.mode.afterAll (before.map Prod.fst)).leaves v
        let st := servicesAfter 0 newcomer.1.connectionId newcomer.2.pubsub
          (newcomer.1.mode.leavesAll (before.map Prod.fst))
        (((sentFrames 0 newcomer.1.connectionId newcomer.2.pubsub
            (replies.map Prod.snd)).filter fun x =>
              x.number = before.length).length =
            due newcomer.1.connectionId st op <->
          ¬ LeavesNothing newcomer.1.connectionId st op) := by
  have hread : exists c1 ops world,
      (newcomer.1.processRead 0 countedRequests).run
        (server mapStore idlePlatform) newcomer.2.world =
          some ((c1, .ok ops), world) := ⟨_, _, _, rfl⟩
  rcases hread with ⟨c1, ops, world, hread⟩
  rcases @replies_counted_iff _ _ _ 0 _ _ _ _ _ _ hread with
    ⟨replies, hreplied, hcounts⟩
  exact ⟨c1, ops, world, replies, hread, hreplied, hcounts⟩

/-- The newcomer behind an `UNSUBSCRIBE`. -/
def unsubscribeRead : Connection :=
  { newcomer.1 with
    parser := (newcomer.1.parser.feed (requests [["UNSUBSCRIBE"]])).parseNext.2
    commandsProcessed := 1 }

/-- To unsubscribe without subscriptions is not answered. -/
theorem unsubscribe_unanswered :
    exists c1 ops world flow,
      (newcomer.1.processRead 0 (requests [["UNSUBSCRIBE"]])).run
        (server mapStore idlePlatform) newcomer.2.world =
          some ((c1, .ok ops), world) ∧
      Replied 0 0 newcomer.2 newcomer.1 (requests [["UNSUBSCRIBE"]])
        ((c1, ops), world) [(request ["UNSUBSCRIBE"], flow)] ∧
      (Shared.finishRead { newcomer.2 with world := world } 0 c1
        (.ok ops)).connection.writeBuffer = [] ∧
      sentFrames 0 newcomer.1.connectionId newcomer.2.pubsub [flow] = [] ∧
      due newcomer.1.connectionId newcomer.2.pubsub
        (newcomer.1.mode.leaves (request ["UNSUBSCRIBE"])) = 1 := by
  have hread : (newcomer.1.processRead 0 (requests [["UNSUBSCRIBE"]])).run
      (server mapStore idlePlatform) newcomer.2.world =
        some ((unsubscribeRead, .ok [.unsubscribe none]), newcomer.2.world) := rfl
  have hrun : Session.run 0 0
      (.received (requests [["UNSUBSCRIBE"]]) :: Session.framed
        [(unsubscribeRead.parser, request ["UNSUBSCRIBE"])])
      ⟨newcomer.1, newcomer.2, []⟩ =
        some (⟨unsubscribeRead, newcomer.2, [.unsubscribe none]⟩,
          [(request ["UNSUBSCRIBE"], .deferred (.unsubscribe none))]) := rfl
  have hyields : (newcomer.1.parser.feed (requests [["UNSUBSCRIBE"]])).Yields
      [(unsubscribeRead.parser, request ["UNSUBSCRIBE"])] unsubscribeRead.parser :=
    .cons rfl (.nil _)
  refine ⟨unsubscribeRead, _, _, _, hread, replied_of_run hyields hrun ⟨?_, ?_⟩, ?_, ?_,
    ?_⟩
  · simp [Flow.Accepted]
  · exact Or.inl rfl
  · decide
  · rfl
  · decide

end FeoxServer
