import FeoxServer.Network.Sessions
import FeoxServer.Network.Transcripts
import FeoxServer.Protocol.RespRoundTrip

/-!
# Chunks that end in a rejected frame

Reading gives up at a frame that is no RESP or no command.  What the frames
before it have changed in the store stays; their replies and the operations
they leave are kept for the end of the chunk, which does not come.
-/

namespace FeoxServer

open Foundation Prog

/-- The values at the front of some bytes, and the bytes behind them. -/
inductive Splits : Bytes -> List RespValue -> Bytes -> Prop
  | nil (buf : Bytes) : Splits buf [] buf
  | cons {buf rest : Bytes} {v : RespValue} {vs : List RespValue} {n : Nat}
      (hvalue : parseValue buf = .ok (some (v, n)))
      (hrest : Splits (buf.drop n) vs rest) : Splits buf (v :: vs) rest

/-- The bytes begin with what is no RESP, or with a frame that is no
command. -/
def Rejected (buf : Bytes) : Prop :=
  (exists e, parseValue buf = .error e) ∨
    exists v n e, parseValue buf = .ok (some (v, n)) ∧
      Command.fromResp v = .error e

theorem Splits.length_le {buf rest : Bytes} {vs : List RespValue}
    (h : Splits buf vs rest) : vs.length + rest.length <= buf.length := by
  induction h with
  | nil => simp
  | cons hvalue _ ih =>
      have hbounds := parseValue_incremental.consumes hvalue
      rw [List.length_drop] at ih
      rw [List.length_cons]
      omega

theorem Splits.append {buf rest : Bytes} {vs : List RespValue}
    (h : Splits buf vs rest) (more : Bytes) :
    Splits (buf ++ more) vs (rest ++ more) := by
  induction h with
  | nil => exact .nil _
  | cons hvalue _ ih =>
      have hbounds := parseValue_incremental.consumes hvalue
      refine .cons (parseValue_incremental.value_stable more hvalue) ?_
      rwa [List.drop_append_of_le_length hbounds.2]

namespace Connection

variable {fuel : Nat} {T : Service Call Answer}

def Answers (flow : Flow) : Prop :=
  (exists r, flow = .reply r) ∨ exists op, flow = .deferred op

theorem answer_answers (fuel : Nat) (c : Connection) (cmd : Command) :
    Returns Anything (fun r : Connection × Flow => Answers r.2)
      (answer fuel c cmd) := by
  have hnow : Returns Anything (fun r : Connection × Flow => Answers r.2)
      (executeNow fuel c cmd) :=
    returns_bind (returns_trivial _) fun r _ => Returns.done (Or.inl ⟨r.1, rfl⟩)
  unfold answer
  split
  · refine Returns.done (Or.inl ?_)
    unfold auth
    split_ifs <;> exact ⟨_, rfl⟩
  · split_ifs
    · unfold unauthenticated
      split
      · exact hnow
      · exact Returns.done (Or.inl ⟨_, rfl⟩)
    · refine Returns.done ?_
      change Answers (pubsub cmd)
      unfold pubsub
      split
      · exact Or.inr ⟨_, rfl⟩
      · split <;> exact Or.inl ⟨_, rfl⟩
    · exact hnow

theorem dispatch_answers (fuel : Nat) (c : Connection) (cmd : Command) :
    Returns Anything (fun r : Connection × Flow => Answers r.2)
      (dispatch fuel c cmd) := by
  have hreply : forall (c' : Connection) r,
      Returns Anything (fun r : Connection × Flow => Answers r.2)
        (pure (c', .reply r)) := fun _ r => Returns.done (Or.inl ⟨r, rfl⟩)
  by_cases hordinary : cmd.isTransactionCommand = false
  · rw [dispatch_ordinary hordinary]
    split
    · exact hreply _ _
    · exact answer_answers fuel c cmd
  · cases cmd with
    | multi =>
        simp only [dispatch, beginTransaction]
        split <;> exact hreply _ _
    | exec =>
        simp only [dispatch, exec]
        split
        · exact hreply _ _
        · refine returns_bind (returns_trivial _) fun unchanged _ => ?_
          split
          · exact returns_bind (returns_trivial _) fun _ _ => hreply _ _
          · exact hreply _ _
    | discard =>
        simp only [dispatch, discard]
        split <;> exact hreply _ _
    | watch keys =>
        simp only [dispatch, watch]
        split
        · exact hreply _ _
        · exact returns_bind (returns_trivial _) fun _ _ => hreply _ _
    | unwatch => exact hreply _ _
    | _ => exact absurd rfl hordinary

/-- What becomes of an accepted frame: `QUIT` ends the chunk, and everything
else writes a reply or leaves an operation. -/
theorem flow_of_accepted {c c' : Connection} {v : RespValue} {cmd : Command}
    {flow : Flow} {s s' : T.State} (hcmd : Command.fromResp v = .ok cmd)
    (hrun : (c.processFrame fuel v).run T s = some ((c', flow), s')) :
    (cmd = .quit ∧ flow = .quit) ∨
      (cmd ≠ .quit ∧ ((exists r, flow = .fast r) ∨ Answers flow)) := by
  rcases run_processFrame.mp hrun with ⟨c1, hframe, _⟩
  cases hfast : c.fastPath v with
  | some f =>
      rw [fromResp_of_fastCommand (fastCommand_of_fastPath hfast).2] at hcmd
      cases hcmd
      rw [frameFlow, hfast] at hframe
      rcases (run_bind_eq_some _).mp hframe with ⟨r, s1, _, hdone⟩
      cases hdone
      refine Or.inr ⟨?_, Or.inl ⟨r, rfl⟩⟩
      cases f <;> exact nofun
  | none =>
      rw [frameFlow_eq, route_of_slow hfast hcmd] at hframe
      by_cases hquit : cmd = .quit
      · rw [if_pos hquit] at hframe
        cases hframe
        exact Or.inl ⟨hquit, rfl⟩
      · rw [if_neg hquit] at hframe
        refine Or.inr ⟨hquit, Or.inr ?_⟩
        by_cases hrefused : (c.isInPubsubMode && !cmd.isAllowedInPubsubMode) = true
        · rw [if_pos hrefused] at hframe
          cases hframe
          exact Or.inl ⟨_, rfl⟩
        · rw [if_neg hrefused] at hframe
          exact run_anything (dispatch_answers fuel _ cmd) hframe

theorem processFrame_rejected {c : Connection} {v : RespValue} {e : String}
    (h : Command.fromResp v = .error e) :
    c.processFrame fuel v = pure (c.countCommand.write [], .failed e) := by
  have hslow : c.fastPath v = none := by
    cases hfast : c.fastPath v with
    | none => rfl
    | some f =>
        rw [fromResp_of_fastCommand (fastCommand_of_fastPath hfast).2] at h
        cases h
  rw [processFrame, frameFlow, hslow, slowPath, h]
  rfl

/-!
# What no command sees

A command is dealt with whatever is left to parse and whatever is still to be
written, and touches neither.
-/

/-- The bytes before and behind the commands of a connection, and the messages
that wait for the end of the chunk. -/
structure Surroundings where
  parser : RespParser
  writeBuffer : Bytes
  writePosition : Nat
  pendingPubsubMessages : List PubSubMessage

def surroundings (c : Connection) : Surroundings where
  parser := c.parser
  writeBuffer := c.writeBuffer
  writePosition := c.writePosition
  pendingPubsubMessages := c.pendingPubsubMessages

def within (c : Connection) (e : Surroundings) : Connection :=
  { c with
    parser := e.parser
    writeBuffer := e.writeBuffer
    writePosition := e.writePosition
    pendingPubsubMessages := e.pendingPubsubMessages }

def Unseen (f : Connection -> ServerProg (Connection × Flow)) : Prop :=
  forall (c : Connection) e,
    f (c.within e) = f c >>= fun r => pure (r.1.within e, r.2)

theorem run_unseen {f : Connection -> ServerProg (Connection × Flow)}
    (h : Unseen f) {c c' : Connection} {flow : Flow} {s s' : T.State}
    (hrun : (f c).run T s = some ((c', flow), s')) (e : Surroundings) :
    (f (c.within e)).run T s = some ((c'.within e, flow), s') := by
  rw [h, run_bind_of_some T _ hrun]
  rfl

theorem auth_within (c : Connection) (e : Surroundings) (password : Bytes) :
    (c.within e).auth password =
      ((c.auth password).1.within e, (c.auth password).2) := by
  have hrequired : (c.within e).authRequired = c.authRequired := rfl
  have hexecutor : (c.within e).executor = c.executor := rfl
  rw [auth, auth, hrequired, hexecutor]
  split_ifs <;> rfl

theorem unseen_answer (fuel : Nat) (cmd : Command) :
    Unseen fun c => answer fuel c cmd := by
  intro c e
  have hnow : executeNow fuel (c.within e) cmd =
      executeNow fuel c cmd >>= fun r => pure (r.1.within e, r.2) := by
    rw [executeNow, executeNow, bind_assoc]
    rfl
  have hauth : (c.within e).authenticated = c.authenticated := rfl
  beta_reduce
  unfold answer
  split
  · rw [auth_within]
    rfl
  · rw [hauth]
    split_ifs
    · unfold unauthenticated
      split
      · exact hnow
      · rfl
    · rfl
    · exact hnow

theorem unseen_dispatch (fuel : Nat) (cmd : Command) :
    Unseen fun c => dispatch fuel c cmd := by
  intro c e
  have hstate : (c.within e).transactionState = c.transactionState := rfl
  beta_reduce
  by_cases hordinary : cmd.isTransactionCommand = false
  · simp only [dispatch_ordinary hordinary, hstate]
    split_ifs
    · rfl
    · exact unseen_answer fuel cmd c e
  · cases cmd with
    | multi =>
        simp only [dispatch, beginTransaction, hstate]
        split_ifs <;> rfl
    | exec =>
        simp only [dispatch, exec, hstate]
        split_ifs
        · rfl
        · rw [bind_assoc]
          change checkKeysUnchanged c.watchedVersions >>= _ = _
          congr 1
          funext unchanged
          split_ifs
          · rw [bind_assoc]
            rfl
          · rfl
    | discard =>
        simp only [dispatch, discard, hstate]
        split_ifs <;> rfl
    | watch keys =>
        simp only [dispatch, watch, hstate]
        split_ifs
        · rfl
        · rw [bind_assoc]
          rfl
    | unwatch => rfl
    | _ => exact absurd rfl hordinary

theorem noteClientName_within (c : Connection) (e : Surroundings)
    (cmd : Command) :
    (c.within e).noteClientName cmd = (c.noteClientName cmd).within e := by
  unfold noteClientName
  split
  · split <;> rfl
  · rfl

theorem unseen_frameFlow (fuel : Nat) (v : RespValue) :
    Unseen fun c => frameFlow fuel c v := by
  intro c e
  have hroute : route (c.within e) v = c.route v := rfl
  beta_reduce
  rw [frameFlow_eq, frameFlow_eq, hroute]
  cases c.route v with
  | fast f =>
      rw [bind_assoc]
      rfl
  | dispatched cmd =>
      have hname : noteClientName (c.within e).countCommand cmd =
          (c.countCommand.noteClientName cmd).within e :=
        noteClientName_within c.countCommand e cmd
      exact (congrArg (fun c => dispatch fuel c cmd) hname).trans
        (unseen_dispatch fuel cmd _ e)
  | _ => rfl

theorem frameFlow_untouched {c c' : Connection} {v : RespValue} {flow : Flow}
    {s s' : T.State}
    (hrun : (c.frameFlow fuel v).run T s = some ((c', flow), s')) :
    c' = c'.within c.surroundings := by
  have hsame : (c.frameFlow fuel v).run T s =
      some ((c'.within c.surroundings, flow), s') :=
    run_unseen (unseen_frameFlow fuel v) hrun c.surroundings
  rw [hrun] at hsame
  injection hsame with h
  exact congrArg (fun r => r.1.1) h

theorem processFrame_surroundings {c c' : Connection} {v : RespValue}
    {flow : Flow} {s s' : T.State}
    (hrun : (c.processFrame fuel v).run T s = some ((c', flow), s')) :
    c'.surroundings =
      { c.surroundings with writeBuffer := c.writeBuffer ++ flow.bytes } := by
  rcases run_processFrame.mp hrun with ⟨c1, hframe, rfl⟩
  rw [frameFlow_untouched hframe]
  rfl

theorem processFrame_writes {c c' : Connection} {v : RespValue} {flow : Flow}
    {s s' : T.State}
    (hrun : (c.processFrame fuel v).run T s = some ((c', flow), s')) :
    c'.parser = c.parser ∧ c'.writePosition = c.writePosition ∧
      c'.writeBuffer = c.writeBuffer ++ flow.bytes := by
  have h := processFrame_surroundings hrun
  exact ⟨congrArg Surroundings.parser h, congrArg Surroundings.writePosition h,
    congrArg Surroundings.writeBuffer h⟩

theorem run_processFrame_reparsed {c c' : Connection} (p : RespParser)
    {v : RespValue} {flow : Flow} {s s' : T.State}
    (hrun : (c.processFrame fuel v).run T s = some ((c', flow), s')) :
    (processFrame fuel { c with parser := p } v).run T s =
      some (({ c' with parser := p }, flow), s') := by
  rcases run_processFrame.mp hrun with ⟨c1, hframe, rfl⟩
  have hother : (frameFlow fuel { c with parser := p } v).run T s =
      some ((c1.within { c.surroundings with parser := p }, flow), s') :=
    run_unseen (unseen_frameFlow fuel v) hframe { c.surroundings with parser := p }
  refine run_processFrame.mpr ⟨_, hother, ?_⟩
  rw [frameFlow_untouched hframe]
  rfl

/-!
# The rounds of a chunk
-/

theorem run_readLoop_on {c c1 : Connection} {p : RespParser} {v : RespValue}
    {flow : Flow} {s s1 : T.State} (rounds : Nat) (ops : List PubSubOp)
    (hnext : c.parser.parseNext = (.ok (some v), p))
    (hframe : (processFrame fuel { c with parser := p } v).run T s =
      some ((c1, flow), s1))
    (hon : (exists r, flow = .fast r) ∨ Answers flow) :
    (readLoop fuel (rounds + 1) c ops).run T s =
      (readLoop fuel rounds c1 (ops ++ flow.ops)).run T s1 := by
  have hnil : ops ++ [] = ops := List.append_nil ops
  rw [readLoop, hnext, run_bind_of_some T _ hframe]
  rcases hon with ⟨r, rfl⟩ | ⟨r, rfl⟩ | ⟨op, rfl⟩
  · exact congrArg (fun ops => (readLoop fuel rounds c1 ops).run T s1) hnil.symm
  · exact congrArg (fun ops => (readLoop fuel rounds c1 ops).run T s1) hnil.symm
  · rfl

theorem run_readLoop_quit {c c1 : Connection} {p : RespParser} {v : RespValue}
    {s s1 : T.State} (rounds : Nat) (ops : List PubSubOp)
    (hnext : c.parser.parseNext = (.ok (some v), p))
    (hframe : (processFrame fuel { c with parser := p } v).run T s =
      some ((c1, .quit), s1)) :
    (readLoop fuel (rounds + 1) c ops).run T s = some ((c1, .ok ops), s1) := by
  rw [readLoop, hnext, run_bind_of_some T _ hframe]
  rfl

theorem run_readLoop_rejected {c : Connection} (rounds : Nat)
    (ops : List PubSubOp) (s : T.State) (h : Rejected c.parser.unconsumed) :
    exists c1 e, (readLoop fuel (rounds + 1) c ops).run T s =
      some ((c1, .error e), s) := by
  rcases h with ⟨e, herror⟩ | ⟨v, n, e, hvalue, hcmd⟩
  · unfold readLoop
    rw [RespParser.parseNext_of_error herror]
    exact ⟨_, e, rfl⟩
  · rcases RespParser.parseNext_of_value hvalue with ⟨p, hnext, _⟩
    rw [readLoop, hnext]
    simp only [processFrame_rejected hcmd]
    exact ⟨_, e, rfl⟩

def Quits (frames : List RespValue) : Prop :=
  exists v, v ∈ frames ∧ Command.fromResp v = .ok .quit

theorem emits {flow : Flow}
    (h : flow = .quit ∨ (exists r, flow = .fast r) ∨ Answers flow) :
    flow.bytes ≠ [] ∨ flow.ops ≠ [] := by
  rcases h with rfl | ⟨r, rfl⟩ | ⟨r, rfl⟩ | ⟨op, rfl⟩
  · exact Or.inl nofun
  · refine Or.inl ?_
    rw [Flow.bytes, r.bytes_eq]
    exact formatRespResponse_ne_nil _
  · exact Or.inl (formatRespResponse_ne_nil r)
  · exact Or.inr nofun

theorem run_readLoop_cons {buf : Bytes} {v : RespValue} {n : Nat} {cmd : Command}
    (hvalue : parseValue buf = .ok (some (v, n)))
    (hcmd : Command.fromResp v = .ok cmd) {rounds : Nat} {c c1 : Connection}
    {ops : List PubSubOp} {r : ReadResult} {s s1 : T.State}
    (hbuf : c.parser.unconsumed = buf)
    (hrun : (readLoop fuel rounds c ops).run T s = some ((c1, r), s1)) :
    exists p c2 flow s2,
      p.unconsumed = buf.drop n ∧
      (processFrame fuel { c with parser := p } v).run T s =
        some ((c2, flow), s2) ∧
      ((cmd = .quit ∧ flow = .quit ∧ c1 = c2 ∧ r = .ok ops ∧ s1 = s2) ∨
        (cmd ≠ .quit ∧ ((exists r, flow = .fast r) ∨ Answers flow) ∧
          exists rounds1, (readLoop fuel rounds1 c2 (ops ++ flow.ops)).run T s2 =
            some ((c1, r), s1))) := by
  cases rounds with
  | zero => cases hrun
  | succ rounds =>
      have hvalue' : parseValue c.parser.unconsumed = .ok (some (v, n)) :=
        hbuf.symm ▸ hvalue
      rcases RespParser.parseNext_of_value hvalue' with ⟨p, hnext, hrest⟩
      have hloop := hrun
      rw [readLoop, hnext] at hloop
      rcases (run_bind_eq_some _).mp hloop with ⟨⟨c2, flow⟩, s2, hframe, _⟩
      refine ⟨p, c2, flow, s2, hrest.trans (hbuf ▸ rfl), hframe, ?_⟩
      rcases flow_of_accepted hcmd hframe with ⟨hquit, rfl⟩ | ⟨hgoes, hon⟩
      · rw [run_readLoop_quit rounds ops hnext hframe] at hrun
        cases hrun
        exact Or.inl ⟨hquit, rfl, rfl, rfl, rfl⟩
      · rw [run_readLoop_on rounds ops hnext hframe hon] at hrun
        exact Or.inr ⟨hgoes, hon, rounds, hrun⟩

theorem run_readLoop_alone {buf rest : Bytes} {frames : List RespValue}
    (hsplits : Splits buf frames rest) (hend : rest = [])
    (haccepted : forall v, v ∈ frames -> exists cmd, Command.fromResp v = .ok cmd)
    {rounds : Nat} {c c1 : Connection} {ops : List PubSubOp} {r : ReadResult}
    {s s1 : T.State} (hbuf : c.parser.unconsumed = buf)
    (halone : (readLoop fuel rounds c ops).run T s = some ((c1, r), s1)) :
    exists replies later,
      c1.writePosition = c.writePosition ∧
      c1.writeBuffer = c.writeBuffer ++ replies ∧
      r = .ok (ops ++ later) ∧
      (frames = [] <-> replies = [] ∧ later = []) := by
  induction hsplits generalizing rounds c ops s with
  | nil buf =>
      subst hend
      cases rounds with
      | zero => cases halone
      | succ rounds =>
          have hnone : c.parser.parseNext = (.ok none, c.parser) :=
            RespParser.parseNext_of_none (hbuf.symm ▸ rfl)
          rw [readLoop, hnone] at halone
          cases halone
          exact ⟨[], [], rfl, (List.append_nil _).symm,
            congrArg Except.ok (List.append_nil ops).symm, by simp⟩
  | @cons buf rest v vs n hvalue _ ih =>
      rcases haccepted v List.mem_cons_self with ⟨cmd, hcmd⟩
      rcases run_readLoop_cons hvalue hcmd hbuf halone with
        ⟨p, c2, flow, s2, hp, hframe, hflow⟩
      rcases processFrame_writes hframe with ⟨hparser, hposition, hbuffer⟩
      rcases hflow with ⟨_, rfl, rfl, rfl, rfl⟩ | ⟨_, hon, rounds1, hrest⟩
      · exact ⟨Flow.quit.bytes, [], hposition, hbuffer,
          congrArg Except.ok (List.append_nil ops).symm,
          iff_of_false (List.cons_ne_nil v vs) fun h => absurd h.1 nofun⟩
      · rcases ih hend (fun v hv => haccepted v (List.mem_cons_of_mem _ hv))
          (hparser.symm ▸ hp) hrest with
          ⟨replies, later, hposition', hbuffer', hr, _⟩
        refine ⟨flow.bytes ++ replies, flow.ops ++ later,
          hposition'.trans hposition, ?_, ?_,
          iff_of_false (List.cons_ne_nil v vs) ?_⟩
        · rw [hbuffer', hbuffer, List.append_assoc]
        · rw [hr, List.append_assoc]
        · rintro ⟨hreplies, hops⟩
          rcases emits (Or.inr hon) with h | h
          · exact h (List.append_eq_nil_iff.mp hreplies).1
          · exact h (List.append_eq_nil_iff.mp hops).1

theorem quits_cons {v : RespValue} {vs : List RespValue} {cmd : Command}
    (hcmd : Command.fromResp v = .ok cmd) :
    Quits (v :: vs) <-> cmd = .quit ∨ Quits vs := by
  unfold Quits
  simp only [List.mem_cons, exists_eq_or_imp, hcmd, Except.ok.injEq]

/-- With a rejected frame behind them, the frames do the same; without `QUIT`
the loop then fails. -/
theorem run_readLoop_followed {buf rest bad : Bytes} {frames : List RespValue}
    (hsplits : Splits buf frames rest) (hend : rest = [])
    (haccepted : forall v, v ∈ frames -> exists cmd, Command.fromResp v = .ok cmd)
    (hbad : Rejected bad) {rounds rounds' : Nat} {c c1 : Connection}
    {p : RespParser} {ops : List PubSubOp} {r : ReadResult} {s s1 : T.State}
    (hbuf : c.parser.unconsumed = buf) (hp : p.unconsumed = buf ++ bad)
    (hrounds : frames.length < rounds')
    (halone : (readLoop fuel rounds c ops).run T s = some ((c1, r), s1)) :
    (Quits frames ∧ exists q,
      (readLoop fuel rounds' { c with parser := p } ops).run T s =
        some (({ c1 with parser := q }, r), s1)) ∨
    (¬ Quits frames ∧ exists c2 e,
      (readLoop fuel rounds' { c with parser := p } ops).run T s =
        some ((c2, .error e), s1)) := by
  induction hsplits generalizing rounds rounds' c p ops s with
  | nil buf =>
      subst hend
      have hnone : c.parser.parseNext = (.ok none, c.parser) :=
        RespParser.parseNext_of_none (hbuf.symm ▸ rfl)
      cases rounds with
      | zero => cases halone
      | succ rounds =>
          rw [readLoop, hnone] at halone
          cases halone
          refine Or.inr ⟨fun h => absurd h.choose_spec.1 List.not_mem_nil, ?_⟩
          rcases Nat.exists_eq_add_of_lt hrounds with ⟨rounds'', rfl⟩
          refine run_readLoop_rejected (c := { c with parser := p }) _ ops _ ?_
          rw [hp]
          exact hbad
  | @cons buf rest v vs n hvalue _ ih =>
      rcases haccepted v List.mem_cons_self with ⟨cmd, hcmd⟩
      rcases run_readLoop_cons hvalue hcmd hbuf halone with
        ⟨p1, c2, flow, s2, hp1, hframe, hflow⟩
      have hvalue' : parseValue p.unconsumed = .ok (some (v, n)) :=
        hp.symm ▸ parseValue_incremental.value_stable bad hvalue
      have hbounds := parseValue_incremental.consumes hvalue
      rcases RespParser.parseNext_of_value hvalue' with ⟨q, hnext, hq⟩
      have hother := run_processFrame_reparsed q hframe
      rw [quits_cons hcmd]
      cases rounds' with
      | zero => exact absurd hrounds (Nat.not_lt_zero _)
      | succ rounds' =>
          rcases hflow with ⟨hquit, rfl, rfl, rfl, rfl⟩ | ⟨hgoes, hon, rounds1, hrest⟩
          · refine Or.inl ⟨Or.inl hquit, q, ?_⟩
            exact run_readLoop_quit (c := { c with parser := p }) rounds' ops hnext
              hother
          · have hq' : q.unconsumed = buf.drop n ++ bad := by
              rw [hq, hp, List.drop_append_of_le_length hbounds.2]
            rw [run_readLoop_on (c := { c with parser := p }) rounds' ops hnext
              hother hon]
            have hparser := (processFrame_writes hframe).1
            rcases ih hend (fun v hv => haccepted v (List.mem_cons_of_mem _ hv))
                (hparser.symm ▸ hp1) hq' (Nat.lt_of_succ_lt_succ hrounds) hrest with
              ⟨hquits, hrun⟩ | ⟨hstays, hrun⟩
            · exact Or.inl ⟨Or.inr hquits, hrun⟩
            · exact Or.inr ⟨fun h => h.elim hgoes hstays, hrun⟩

/-!
# What the worker makes of it
-/

def repliesSince (c c' : Connection) : Bytes :=
  c'.writeBuffer.drop c.clearWritten.writeBuffer.length

/-- The same position in a buffer that has only grown. -/
structure Grown (c c' : Connection) : Prop where
  position : c'.writePosition = c.writePosition
  buffer : c.writeBuffer <+: c'.writeBuffer

theorem Grown.refl (c : Connection) : Grown c c :=
  ⟨rfl, List.prefix_rfl⟩

theorem Grown.trans {c c1 c2 : Connection} (h : Grown c c1) (h' : Grown c1 c2) :
    Grown c c2 :=
  ⟨h'.position.trans h.position, h.buffer.trans h'.buffer⟩

theorem grown_confirmAll (messages : List PubSubMessage) (c : Connection) :
    Grown c (c.confirmAll messages) := by
  rcases confirmAll_eq messages c with ⟨count, flags, pending, heq⟩
  rw [heq]
  exact ⟨rfl, List.prefix_rfl⟩

theorem grown_handlePubsubOperation (st : PubSubState) (connId : ConnectionId)
    (op : PubSubOp) (c : Connection) (threadId : ThreadId) :
    Grown c (handlePubsubOperation st connId op c threadId).2.1 := by
  cases op with
  | subscribe names | unsubscribe names | psubscribe names
  | punsubscribe names => exact grown_confirmAll _ c
  | _ => exact ⟨rfl, List.prefix_append _ _⟩

theorem grown_handleOperations (threadId : ThreadId) (ops : List PubSubOp)
    (c : Connection) (st : PubSubState) :
    Grown c (handleOperations threadId ops c st).2.1 := by
  induction ops generalizing c st with
  | nil => exact Grown.refl c
  | cons op ops ih =>
      exact (grown_handlePubsubOperation st c.connectionId op c threadId).trans
        (ih _ _)

theorem pendingWrites_getD (c : Connection) :
    c.pendingWrites.getD [] = c.writeBuffer.drop c.writePosition := by
  unfold pendingWrites
  split
  · rfl
  · rename_i hsent
    exact (List.drop_eq_nil_of_le (Nat.le_of_not_lt hsent)).symm

variable {S : FeoxStore} {P : Platform}

/-- The bytes that are offered to the socket when a chunk has been read.  After
an error the connection is closed with its buffer. -/
def handed (threadId : ThreadId) (sh : Shared S P) (c : Connection) :
    ReadResult -> Bytes
  | .ok ops =>
      (sh.finishRead threadId c (.ok ops)).connection.pendingWrites.getD []
  | .error _ => []

/-- The operations that reach the publish and subscribe service. -/
def handled : ReadResult -> List PubSubOp
  | .ok ops => ops
  | .error _ => []

/-- What the commands of a chunk have done on their own, they have done with
more behind them: the store has their changes, the socket is offered their
replies and the service gets their operations. -/
structure FullEffect (threadId : ThreadId) (sh : Shared S P) (c : Connection)
    (alone whole : (Connection × ReadResult) × World S P) : Prop where
  store : whole.2 = alone.2
  replies : c.repliesSince alone.1.1 <:+:
    handed threadId { sh with world := whole.2 } whole.1.1 whole.1.2
  operations : handled whole.1.2 = handled alone.1.2

theorem clearWritten_position (c : Connection) :
    c.clearWritten.writePosition <= c.clearWritten.writeBuffer.length := by
  unfold clearWritten
  split
  · exact Nat.le_refl 0
  · rename_i hpending
    exact Nat.le_of_lt (Nat.lt_of_not_le hpending)

theorem grown_finishRead (threadId : ThreadId) (sh : Shared S P) (c : Connection)
    (ops : List PubSubOp) :
    Grown c (sh.finishRead threadId c (.ok ops)).connection := by
  refine (grown_handleOperations threadId ops c sh.pubsub).trans ⟨rfl, ?_⟩
  change _ <+: writeRespValues _ _
  rw [writeRespValues_eq_append]
  exact List.prefix_append _ _

theorem handed_ok (threadId : ThreadId) (sh : Shared S P) {c c' : Connection}
    (ops : List PubSubOp) (hgrown : Grown c.clearWritten c') :
    c.repliesSince c' <:+: handed threadId sh c' (.ok ops) := by
  have hfinish := hgrown.trans (grown_finishRead threadId sh c' ops)
  rcases hgrown.buffer with ⟨replies, hreplies⟩
  rcases (grown_finishRead threadId sh c' ops).buffer with ⟨more, hmore⟩
  rw [repliesSince, handed, pendingWrites_getD, hfinish.position, ← hmore,
    ← hreplies, List.drop_left, List.append_assoc,
    List.drop_append_of_le_length c.clearWritten_position]
  exact ⟨_, more, List.append_assoc _ _ _⟩

/-!
# Chunks alone and followed by what is rejected
-/

/-- A chunk that ends in a rejected frame, behind the frames of another. -/
structure FollowedBy (c : Connection) (front bad : Bytes)
    (frames : List RespValue) : Prop where
  splits : Splits (c.parser.unconsumed ++ front) frames []
  accepted : forall v, v ∈ frames -> exists cmd, Command.fromResp v = .ok cmd
  rejected : Rejected bad

theorem clearWritten_feed (c : Connection) (data : Bytes) :
    (c.feed data).clearWritten =
      { c.clearWritten with parser := c.parser.feed data } := by
  have hfields : (c.feed data).writeBuffer = c.writeBuffer ∧
      (c.feed data).writePosition = c.writePosition := ⟨rfl, rfl⟩
  unfold clearWritten
  rw [hfields.1, hfields.2]
  split <;> rfl

theorem run_processRead_alone {c c1 : Connection} {front bad : Bytes}
    {frames : List RespValue} (h : FollowedBy c front bad frames)
    {r : ReadResult} {s s1 : T.State}
    (halone : (c.processRead fuel front).run T s = some ((c1, r), s1)) :
    exists later,
      r = .ok later ∧ Grown c.clearWritten c1 ∧
      (frames = [] <-> c.repliesSince c1 = [] ∧ later = []) := by
  have hloop := halone
  rw [processRead, clearWritten_feed] at hloop
  rcases run_readLoop_alone h.splits rfl h.accepted
    (RespParser.unconsumed_feed _ _) hloop with
    ⟨replies, later, hposition, hbuffer, hr, hemits⟩
  refine ⟨later, hr, ⟨hposition, replies, hbuffer.symm⟩, ?_⟩
  rw [repliesSince, hbuffer, List.drop_left]
  exact hemits

theorem run_processRead_followed {c c1 : Connection} {front bad : Bytes}
    {frames : List RespValue} (h : FollowedBy c front bad frames)
    {r : ReadResult} {s s1 : T.State}
    (halone : (c.processRead fuel front).run T s = some ((c1, r), s1)) :
    (Quits frames ∧ exists q,
      (c.processRead fuel (front ++ bad)).run T s =
        some (({ c1 with parser := q }, r), s1)) ∨
    (¬ Quits frames ∧ exists c2 e,
      (c.processRead fuel (front ++ bad)).run T s =
        some ((c2, .error e), s1)) := by
  have hloop := halone
  rw [processRead, clearWritten_feed] at hloop
  have hunconsumed : (c.parser.feed (front ++ bad)).unconsumed =
      c.parser.unconsumed ++ front ++ bad := by
    rw [RespParser.unconsumed_feed, List.append_assoc]
  rw [processRead, clearWritten_feed]
  have hlength := h.splits.length_le
  refine run_readLoop_followed
    (c := { c.clearWritten with parser := c.parser.feed front }) h.splits rfl
    h.accepted h.rejected (RespParser.unconsumed_feed _ _) hunconsumed ?_ hloop
  simp only [hunconsumed, List.length_append, List.length_nil] at hlength ⊢
  omega

/-- The commands in front of a rejected frame take full effect exactly when
there are none, or one of them is `QUIT`. -/
theorem fullEffect_iff {threadId : ThreadId} {sh : Shared S P} {c : Connection}
    {front bad : Bytes} {frames : List RespValue}
    {alone : (Connection × ReadResult) × World S P}
    (h : FollowedBy c front bad frames)
    (halone : (c.processRead fuel front).run (server S P) sh.world =
      some alone) :
    exists whole,
      (c.processRead fuel (front ++ bad)).run (server S P) sh.world =
        some whole ∧
      (FullEffect threadId sh c alone whole <-> frames = [] ∨ Quits frames) := by
  rcases alone with ⟨⟨c1, r⟩, world⟩
  rcases run_processRead_alone h halone with ⟨later, rfl, hgrown, hemits⟩
  rcases run_processRead_followed h halone with
    ⟨hquits, q, hwhole⟩ | ⟨hstays, c2, e, hwhole⟩
  · refine ⟨_, hwhole, iff_of_true ?_ (Or.inr hquits)⟩
    have hgrown' : Grown c.clearWritten { c1 with parser := q } :=
      ⟨hgrown.position, hgrown.buffer⟩
    exact ⟨rfl, handed_ok threadId _ later hgrown', rfl⟩
  · refine ⟨_, hwhole, ?_⟩
    rw [or_iff_left hstays, hemits]
    constructor
    · intro heffect
      exact ⟨List.eq_nil_of_infix_nil heffect.replies, heffect.operations.symm⟩
    · intro hnothing
      refine ⟨rfl, ?_, hnothing.2.symm⟩
      rw [hnothing.1]
      exact List.nil_infix

/-- A connection that has just been accepted. -/
def newcomer : Connection × Shared mapStore idlePlatform :=
  freshShared.accept 0 { requirepass := none } none 0 0

theorem followedBy_unknown :
    FollowedBy newcomer.1 (requests [["PUBLISH", "news", "hi"]])
      (requests [["NOPE"]]) [request ["PUBLISH", "news", "hi"]] where
  splits := .cons (n := 35) rfl (.nil _)
  accepted := by
    intro v hv
    rw [List.mem_singleton.mp hv]
    exact ⟨_, rfl⟩
  rejected := Or.inr ⟨request ["NOPE"], 14, _, rfl, rfl⟩

theorem fullEffect_iff_publish :
    exists alone whole,
      (newcomer.1.processRead 0 (requests [["PUBLISH", "news", "hi"]])).run
        (server mapStore idlePlatform) newcomer.2.world = some alone ∧
      (newcomer.1.processRead 0
          (requests [["PUBLISH", "news", "hi"]] ++ requests [["NOPE"]])).run
        (server mapStore idlePlatform) newcomer.2.world = some whole ∧
      (FullEffect 0 newcomer.2 newcomer.1 alone whole <->
        [request ["PUBLISH", "news", "hi"]] = [] ∨
          Quits [request ["PUBLISH", "news", "hi"]]) := by
  have halone : exists alone,
      (newcomer.1.processRead 0 (requests [["PUBLISH", "news", "hi"]])).run
        (server mapStore idlePlatform) newcomer.2.world = some alone :=
    Option.isSome_iff_exists.mp (by decide +kernel)
  rcases halone with ⟨alone, halone⟩
  rcases @fullEffect_iff _ _ _ 0 newcomer.2 _ _ _ _ _ followedBy_unknown halone with
    ⟨whole, hwhole, hiff⟩
  exact ⟨alone, whole, halone, hwhole, hiff⟩

/-- The publish of a chunk that ends in an unknown command is lost. -/
theorem publish_lost :
    exists alone whole,
      FollowedBy newcomer.1 (requests [["PUBLISH", "news", "hi"]])
        (requests [["NOPE"]]) [request ["PUBLISH", "news", "hi"]] ∧
      (newcomer.1.processRead 0 (requests [["PUBLISH", "news", "hi"]])).run
        (server mapStore idlePlatform) newcomer.2.world = some alone ∧
      (newcomer.1.processRead 0
          (requests [["PUBLISH", "news", "hi"]] ++ requests [["NOPE"]])).run
        (server mapStore idlePlatform) newcomer.2.world = some whole ∧
      handled alone.1.2 = [.publish (asBytes "news") (asBytes "hi")] ∧
      handled whole.1.2 = [] ∧
      ¬ FullEffect 0 newcomer.2 newcomer.1 alone whole := by
  have hruns : exists alone whole,
      (newcomer.1.processRead 0 (requests [["PUBLISH", "news", "hi"]])).run
        (server mapStore idlePlatform) newcomer.2.world = some alone ∧
      (newcomer.1.processRead 0
          (requests [["PUBLISH", "news", "hi"]] ++ requests [["NOPE"]])).run
        (server mapStore idlePlatform) newcomer.2.world = some whole ∧
      handled alone.1.2 = [.publish (asBytes "news") (asBytes "hi")] ∧
      handled whole.1.2 = [] :=
    ⟨_, _, rfl, rfl, rfl, rfl⟩
  rcases hruns with ⟨alone, whole, halone, hwhole, hpublish, hnone⟩
  refine ⟨alone, whole, followedBy_unknown, halone, hwhole, hpublish, hnone, ?_⟩
  intro heffect
  have hsame := heffect.operations
  rw [hpublish, hnone] at hsame
  cases hsame

end Connection

end FeoxServer
