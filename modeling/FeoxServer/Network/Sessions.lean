import FeoxServer.Network.Frames
import FeoxServer.Server

/-!
# Sessions

A session is a connection in the middle of a chunk, together with what its
worker shares and the operations the chunk has left so far.  Chunks are taken
apart into inputs: the receipt of the bytes, one input for each frame, the end
of the chunk, and the bytes sent in between.  What a worker reads is a run of
inputs.
-/

namespace FeoxServer

open Foundation Prog

namespace Flow

/-- The operations that a frame leaves to the end of its chunk. -/
def ops : Flow -> List PubSubOp
  | deferred op => [op]
  | _ => []

def Accepted (flow : Flow) : Prop :=
  forall e, flow ≠ .failed e

end Flow

structure Session (S : FeoxStore) (P : Platform) where
  connection : Connection
  shared : Shared S P
  ops : List PubSubOp

/-- A frame comes with the parser behind it. -/
inductive Input where
  | received (data : Bytes)
  | frame (parser : RespParser) (v : RespValue)
  | finished
  | sent (n : Nat)

/-- Frames with what became of them, in order. -/
abbrev Replies : Type :=
  List (RespValue × Flow)

/-- The frames that a parser yields, call after call, each with the parser
behind it. -/
inductive RespParser.Yields :
    RespParser -> List (RespParser × RespValue) -> RespParser -> Prop where
  | nil (p : RespParser) : Yields p [] p
  | cons {p p1 p2 : RespParser} {v : RespValue}
      {frames : List (RespParser × RespValue)}
      (hnext : p.parseNext = (.ok (some v), p1))
      (hrest : Yields p1 frames p2) : Yields p ((p1, v) :: frames) p2

theorem RespParser.Yields.unconsumed_le {p p' : RespParser}
    {frames : List (RespParser × RespValue)} (h : p.Yields frames p') :
    p'.unconsumed.length <= p.unconsumed.length := by
  induction h with
  | nil => exact Nat.le_refl _
  | cons hnext _ ih =>
      rcases parseNext_consumes hnext with ⟨n, _, _, hdrop⟩
      rw [hdrop, List.length_drop] at ih
      exact Nat.le_trans ih (Nat.sub_le _ _)

/-- A call that yields a value consumes bytes, so nothing is yielded where
nothing is consumed. -/
theorem RespParser.Yields.unique {p p' : RespParser}
    {frames frames' : List (RespParser × RespValue)}
    (h : p.Yields frames p') (h' : p.Yields frames' p') : frames = frames' := by
  have hconsumed : forall {p p1 p2 : RespParser} {v : RespValue}
      {frames : List (RespParser × RespValue)},
      p.parseNext = (.ok (some v), p1) -> p1.Yields frames p2 -> p ≠ p2 := by
    rintro p p1 p2 v frames hnext hrest rfl
    rcases parseNext_consumes hnext with ⟨n, hpos, hle, hdrop⟩
    have hback := hrest.unconsumed_le
    rw [hdrop, List.length_drop] at hback
    omega
  induction h generalizing frames' with
  | nil p =>
      cases h' with
      | nil => rfl
      | cons hnext hrest => exact absurd rfl (hconsumed hnext hrest)
  | cons hnext hrest ih =>
      cases h' with
      | nil => exact absurd rfl (hconsumed hnext hrest)
      | cons hnext' hrest' =>
          rw [hnext] at hnext'
          cases hnext'
          exact congrArg _ (ih hrest')

namespace Replies

/-- All frames were commands, and there are no more of them: the parser waits,
or the last of them has ended the connection. -/
structure Whole (replies : Replies) (p : RespParser) : Prop where
  accepted : forall reply, reply ∈ replies -> reply.2.Accepted
  last : p.parseNext.1 = .ok none ∨
    exists v, replies.getLast? = some (v, Flow.quit)

theorem Whole.cons {replies : Replies} {p : RespParser} {v : RespValue}
    {flow : Flow} (h : replies.Whole p) (haccepted : flow.Accepted) :
    Whole ((v, flow) :: replies) p := by
  refine ⟨List.forall_mem_cons.mpr ⟨haccepted, h.accepted⟩, ?_⟩
  rcases h.last with hwaits | ⟨w, hquit⟩
  · exact Or.inl hwaits
  · refine Or.inr ⟨w, ?_⟩
    rw [List.getLast?_cons, hquit]
    rfl

end Replies

namespace Session

variable {S : FeoxStore} {P : Platform}

def frame (fuel : Nat) (ses : Session S P) (parser : RespParser) (v : RespValue) :
    Option (Session S P × Flow) :=
  let c := { ses.connection with parser := parser }
  ((c.processFrame fuel v).run (server S P) ses.shared.world).map fun r =>
    ({ connection := r.1.1
       shared := { ses.shared with world := r.2 }
       ops := ses.ops ++ r.1.2.ops }, r.1.2)

def finish (threadId : ThreadId) (ses : Session S P) : Session S P :=
  let outcome := ses.shared.finishRead threadId ses.connection (.ok ses.ops)
  { connection := outcome.connection
    shared := outcome.shared
    ops := [] }

def step (fuel : Nat) (threadId : ThreadId) (ses : Session S P) :
    Input -> Option (Session S P × Replies)
  | .received data =>
      some ({ ses with
        connection := (ses.connection.feed data).clearWritten }, [])
  | .frame parser v =>
      (ses.frame fuel parser v).map fun r => (r.1, [(v, r.2)])
  | .finished => some (ses.finish threadId, [])
  | .sent n =>
      some ({ ses with connection := ses.connection.consumeWrites n }, [])

def run (fuel : Nat) (threadId : ThreadId) :
    List Input -> Session S P -> Option (Session S P × Replies)
  | [], ses => some (ses, [])
  | input :: inputs, ses =>
      (ses.step fuel threadId input).bind fun r =>
        (run fuel threadId inputs r.1).map fun r' => (r'.1, r.2 ++ r'.2)

variable {fuel : Nat} {threadId : ThreadId}

theorem run_cons_eq_some {input : Input} {inputs : List Input}
    {ses ses' : Session S P} {replies : Replies} :
    run fuel threadId (input :: inputs) ses = some (ses', replies) <->
      exists ses1 first later,
        ses.step fuel threadId input = some (ses1, first) ∧
        run fuel threadId inputs ses1 = some (ses', later) ∧
        replies = first ++ later := by
  rw [run, Option.bind_eq_some_iff]
  constructor
  · rintro ⟨⟨ses1, first⟩, hstep, hrest⟩
    rcases Option.map_eq_some_iff.mp hrest with ⟨⟨ses2, later⟩, hrun, heq⟩
    cases heq
    exact ⟨ses1, first, later, hstep, hrun, rfl⟩
  · rintro ⟨ses1, first, later, hstep, hrun, rfl⟩
    exact ⟨(ses1, first), hstep, Option.map_eq_some_iff.mpr
      ⟨(ses', later), hrun, rfl⟩⟩

theorem run_append_eq_some {before after : List Input} {ses ses' : Session S P}
    {replies : Replies} :
    run fuel threadId (before ++ after) ses = some (ses', replies) <->
      exists ses1 first later,
        run fuel threadId before ses = some (ses1, first) ∧
        run fuel threadId after ses1 = some (ses', later) ∧
        replies = first ++ later := by
  induction before generalizing ses replies with
  | nil =>
      constructor
      · intro hrun
        exact ⟨ses, [], replies, rfl, hrun, rfl⟩
      · rintro ⟨ses1, first, later, hnil, hrun, rfl⟩
        cases hnil
        exact hrun
  | cons input before ih =>
      rw [List.cons_append, run_cons_eq_some]
      constructor
      · rintro ⟨ses1, first, later, hstep, hrun, rfl⟩
        rcases ih.mp hrun with ⟨ses2, middle, last, hbefore, hafter, rfl⟩
        exact ⟨ses2, first ++ middle, last,
          run_cons_eq_some.mpr ⟨ses1, first, middle, hstep, hbefore, rfl⟩,
          hafter, (List.append_assoc _ _ _).symm⟩
      · rintro ⟨ses2, first, last, hbefore, hafter, rfl⟩
        rcases run_cons_eq_some.mp hbefore with
          ⟨ses1, head, middle, hstep, hrest, rfl⟩
        exact ⟨ses1, head, middle ++ last, hstep,
          ih.mpr ⟨ses2, middle, last, hrest, hafter, rfl⟩,
          List.append_assoc _ _ _⟩

theorem frame_eq_some {ses ses' : Session S P} {parser : RespParser}
    {v : RespValue} {flow : Flow} :
    ses.frame fuel parser v = some (ses', flow) <->
      exists c world,
        (Connection.processFrame fuel
            { ses.connection with parser := parser } v).run (server S P)
            ses.shared.world = some ((c, flow), world) ∧
        ses' =
          ⟨c, { ses.shared with world := world }, ses.ops ++ flow.ops⟩ := by
  rw [frame, Option.map_eq_some_iff]
  constructor
  · rintro ⟨⟨⟨c, flow'⟩, world⟩, hrun, heq⟩
    cases heq
    exact ⟨c, world, hrun, rfl⟩
  · rintro ⟨c, world, hrun, rfl⟩
    exact ⟨((c, flow), world), hrun, rfl⟩

/-!
# Chunks are runs
-/

def framed (frames : List (RespParser × RespValue)) : List Input :=
  frames.map fun f => .frame f.1 f.2

/-- The loop over the frames of a chunk is a run over the frames that the parser
yields, all of them unless the connection is ended before. -/
theorem run_of_readLoop (threadId : ThreadId) (sh : Shared S P) {rounds : Nat}
    {c c' : Connection} {ops : List PubSubOp} {r : Connection.ReadResult}
    {world : World S P}
    (hrun : (Connection.readLoop fuel rounds c ops).run (server S P) sh.world =
      some ((c', r), world)) :
    exists frames replies ops',
      c.parser.Yields frames c'.parser ∧
      run fuel threadId (framed frames)
          ⟨c, sh, ops⟩ =
        some (⟨c', { sh with world := world }, ops'⟩, replies) ∧
      ((r = .ok ops' ∧ replies.Whole c'.parser) ∨ exists e, r = .error e) := by
  induction rounds generalizing c ops sh with
  | zero => cases hrun
  | succ rounds ih =>
      unfold Connection.readLoop at hrun
      rcases c.parser.parseNext_cases with
        ⟨_, hnext⟩ | ⟨e, _, hnext⟩ | ⟨v, n, p, _, hnext, _⟩
      · rw [hnext] at hrun
        cases hrun
        have hwaits : c.parser.parseNext.1 = .ok none := congrArg Prod.fst hnext
        exact ⟨[], [], ops, .nil _, rfl, Or.inl ⟨rfl, nofun, Or.inl hwaits⟩⟩
      · rw [hnext] at hrun
        cases hrun
        exact ⟨[], [], ops, .nil _, rfl, Or.inr ⟨e, rfl⟩⟩
      · rw [hnext] at hrun
        rcases (run_bind_eq_some _).mp hrun with
          ⟨⟨c1, flow⟩, world1, hframe, hrest⟩
        have hlasting := Connection.run_anything
          (Connection.processFrame_lasting fuel { c with parser := p } v) hframe
        have hparser : c1.parser = p := hlasting.parser
        have hstep : step fuel threadId
            ⟨c, sh, ops⟩ (.frame p v) =
            some (⟨c1, { sh with world := world1 }, ops ++ flow.ops⟩,
              [(v, flow)]) := by
          rw [step, frame_eq_some.mpr ⟨c1, world1, hframe, rfl⟩]
          rfl
        have hagain : flow.Accepted ->
            (Connection.readLoop fuel rounds c1 (ops ++ flow.ops)).run
              (server S P) world1 = some ((c', r), world) ->
            exists frames replies ops',
              c.parser.Yields frames c'.parser ∧
              run fuel threadId (framed frames)
                  ⟨c, sh, ops⟩ =
                some (⟨c', { sh with world := world }, ops'⟩, replies) ∧
              ((r = .ok ops' ∧ replies.Whole c'.parser) ∨
                exists e, r = .error e) := by
          intro haccepted hloop
          rcases ih { sh with world := world1 } hloop with
            ⟨frames, replies, ops', hyields, hframes, hresult⟩
          rw [hparser] at hyields
          refine ⟨(p, v) :: frames, _, ops', .cons hnext hyields,
            run_cons_eq_some.mpr ⟨_, _, replies, hstep, hframes, rfl⟩, ?_⟩
          exact hresult.imp_left fun h => ⟨h.1, h.2.cons haccepted⟩
        have hyields : c.parser.Yields [(p, v)] c1.parser :=
          .cons hnext (hparser.symm ▸ .nil p)
        have hstop : run fuel threadId (framed [(p, v)])
            ⟨c, sh, ops⟩ =
            some (⟨c1, { sh with world := world1 }, ops ++ flow.ops⟩,
              [(v, flow)]) :=
          run_cons_eq_some.mpr ⟨_, _, [], hstep, rfl, rfl⟩
        cases flow with
        | deferred op => exact hagain nofun hrest
        | fast reply | reply reply =>
            have hops : ops ++ [] = ops := List.append_nil ops
            exact hagain nofun (hops.symm ▸ hrest)
        | quit =>
            cases hrest
            exact ⟨[(p, v)], _, _, hyields, hstop, Or.inl ⟨by simp [Flow.ops],
              List.forall_mem_singleton.mpr nofun, Or.inr ⟨v, rfl⟩⟩⟩
        | failed e =>
            cases hrest
            exact ⟨[(p, v)], _, _, hyields, hstop, Or.inr ⟨e, rfl⟩⟩

/-- What a worker reads is a run, with the end of the chunk unless reading
failed. -/
theorem run_of_read {sh : Shared S P} {c : Connection} {data : Bytes}
    {outcome : Shared.ReadOutcome S P}
    (hread : sh.read fuel threadId c data = some outcome) :
    exists frames ending replies ops,
      run fuel threadId (.received data :: framed frames ++ ending)
          ⟨c, sh, []⟩ =
        some (⟨outcome.connection, outcome.shared, ops⟩, replies) ∧
      ((ending = [.finished] ∧ ops = []) ∨
        (ending = [] ∧ outcome.shouldClose = true)) := by
  rcases Option.map_eq_some_iff.mp hread with ⟨⟨⟨c1, r⟩, world⟩, hrun, rfl⟩
  rcases run_of_readLoop threadId _ hrun with
    ⟨frames, replies, ops, _, hframes, ⟨rfl, _⟩ | ⟨e, rfl⟩⟩
  · refine ⟨frames, [.finished], replies, [], ?_, Or.inl ⟨rfl, rfl⟩⟩
    refine run_cons_eq_some.mpr ⟨_, [], _, rfl, ?_, rfl⟩
    exact run_append_eq_some.mpr
      ⟨_, replies, [], hframes, rfl, (List.append_nil _).symm⟩
  · refine ⟨frames, [], replies, ops, ?_, Or.inr ⟨rfl, rfl⟩⟩
    rw [List.append_nil]
    exact run_cons_eq_some.mpr ⟨_, [], _, rfl, hframes, rfl⟩

/-!
# Connections as they are set up
-/

/-- The connection has what `accept` gave it, and an entry in the registry of
clients with its flags. -/
structure Registered (ses : Session S P) : Prop where
  config : ses.connection.authRequired =
    ses.connection.executor.config.authRequired
  registry : ses.connection.executor.clientOps.hasRegistry = true
  client : ses.connection.executor.connectionId =
    some ses.connection.connectionId
  entry : exists info,
    ses.shared.world.clients.lookup ses.connection.connectionId = some info ∧
      info.flags = ses.connection.flags

theorem registered_accept (sh : Shared S P) (config : Config)
    (addr : Option String) (connectionId : Nat) (now : UInt64) :
    Registered
      ⟨(sh.accept threadId config addr connectionId now).1,
        (sh.accept threadId config addr connectionId now).2, []⟩ :=
  ⟨rfl, rfl, rfl, _, AList.lookup_insert _, rfl⟩

theorem clients_run {α : Type} {p : ServerProg α} {w w' : World S P} {a : α}
    (hrun : p.run (server S P) w = some (a, w')) : w'.clients = w.clients :=
  run_observe_eq (server S P) World.clients
    (fun c _ w => by cases c <;> rfl) (only_true p) hrun

theorem registered_frame {ses ses' : Session S P} {parser : RespParser}
    {v : RespValue} {flow : Flow} (h : Registered ses)
    (hframe : ses.frame fuel parser v = some (ses', flow)) :
    Registered ses' := by
  rcases frame_eq_some.mp hframe with ⟨c, world, hrun, rfl⟩
  have hclients : world.clients = ses.shared.world.clients := clients_run hrun
  have hlasting := Connection.run_anything
    (Connection.processFrame_lasting fuel
      { ses.connection with parser := parser } v) hrun
  rcases hlasting.executor with ⟨n, hexecutor⟩
  refine ⟨?_, ?_, ?_, ?_⟩
  · rw [hlasting.authRequired, hexecutor]
    exact h.config
  · rw [hexecutor]
    exact h.registry
  · rw [hlasting.connectionId, hexecutor]
    exact h.client
  · rw [hlasting.connectionId, hlasting.flags, hclients]
    exact h.entry

theorem registered_finish {ses : Session S P} (h : Registered ses) :
    Registered (ses.finish threadId) := by
  rcases handleOperations_eq threadId ses.ops ses.connection ses.shared.pubsub
    with ⟨count, flags, pending, buffer, heq⟩
  have hconnection : (ses.finish threadId).connection =
      ({ ses.connection with
        subscriptionCount := count
        flags := flags
        pendingPubsubMessages := pending
        writeBuffer := buffer } : Connection).processPubsubMessages := by
    rw [← heq]
    rfl
  have hclients : (ses.finish threadId).shared.world.clients =
      ses.shared.world.clients.update (ses.finish threadId).connection := rfl
  refine ⟨?_, ?_, ?_, ?_⟩
  · rw [hconnection]
    exact h.config
  · rw [hconnection]
    exact h.registry
  · rw [hconnection]
    exact h.client
  · rcases h.entry with ⟨info, hinfo, _⟩
    have hid : (ses.finish threadId).connection.connectionId =
        ses.connection.connectionId := by
      rw [hconnection]
      rfl
    refine ⟨ClientRegistry.updated info (ses.finish threadId).connection, ?_, rfl⟩
    rw [hclients, ClientRegistry.lookup_update, if_pos rfl, hid, hinfo]
    rfl

theorem registered_step {ses ses' : Session S P} {input : Input}
    {replies : Replies} (h : Registered ses)
    (hstep : ses.step fuel threadId input = some (ses', replies)) :
    Registered ses' := by
  cases input with
  | received data =>
      rcases (ses.connection.feed data).clearWritten_eq with
        ⟨buffer, position, hclear⟩
      rw [step, hclear] at hstep
      cases hstep
      exact ⟨h.config, h.registry, h.client, h.entry⟩
  | frame parser v =>
      rcases Option.map_eq_some_iff.mp hstep with ⟨⟨ses1, flow⟩, hframe, heq⟩
      cases heq
      exact registered_frame h hframe
  | finished =>
      cases hstep
      exact registered_finish h
  | sent n =>
      cases hstep
      exact ⟨h.config, h.registry, h.client, h.entry⟩

theorem registered_run {inputs : List Input} {ses ses' : Session S P}
    {replies : Replies} (h : Registered ses)
    (hrun : run fuel threadId inputs ses = some (ses', replies)) :
    Registered ses' := by
  induction inputs generalizing ses replies with
  | nil =>
      cases hrun
      exact h
  | cons input inputs ih =>
      rcases run_cons_eq_some.mp hrun with ⟨ses1, first, later, hstep, hrest, _⟩
      exact ih (registered_step h hstep) hrest

end Session

end FeoxServer
