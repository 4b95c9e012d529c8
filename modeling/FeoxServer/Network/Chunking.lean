import FeoxServer.Network.Readings

/-!
# How the input is cut does not matter

What a connection receives comes in chunks, and between two of them the socket takes
some of what is to be sent.  Neither shows in what the connection does with the bytes.
-/

namespace FeoxServer

open Foundation Prog

namespace Connection

variable {fuel : Nat}

/-!
# What is to be seen of a connection
-/

def Surroundings.unsent (e : Surroundings) : Bytes :=
  e.writeBuffer.drop e.writePosition

def unsent (c : Connection) : Bytes :=
  c.surroundings.unsent

theorem unsent_eq (c : Connection) : c.unsent = c.pendingWrites.getD [] := by
  unfold pendingWrites
  split
  · rfl
  · rename_i hend
    exact List.drop_eq_nil_of_le (not_lt.mp hend)

def goesOn (r : Connection × ReadResult) : Bool :=
  r.2.isOk && !r.1.closed

/-- A connection behind a read: all it has written, whether sent or not, and what it has
not parsed, if it is read again. -/
structure Shown where
  connection : Connection
  output : Bytes
  unparsed : Option Bytes
  result : ReadResult

def shown (sent : Bytes) (r : Connection × ReadResult) : Shown where
  connection := r.1.within ⟨.new, [], 0, r.1.pendingPubsubMessages⟩
  output := sent ++ r.1.unsent
  unparsed := if goesOn r then some r.1.parser.unconsumed else none
  result := r.2

/-!
# Reading in chunks
-/

/-- The chunks of a connection have been read: what the socket has taken, what the
chunks have left to the service, and the error that has ended the reading. -/
structure ChunksRead where
  sent : Bytes
  connection : Connection
  ops : List PubSubOp
  failure : Option String

namespace ChunksRead

/-- The result that one read of the whole would have: an error leaves nothing to the
service. -/
def result (r : ChunksRead) : ReadResult :=
  match r.failure with
  | none => .ok r.ops
  | some e => .error e

def shown (r : ChunksRead) : Shown :=
  Connection.shown r.sent (r.connection, r.result)

end ChunksRead

/-- What `run_worker` does with the chunks of one connection, the service aside: the
socket takes up to `n` bytes behind a chunk, and an error or `QUIT` ends the reading.
The bytes sent and the operations left to the service are collected. -/
def readChunks (fuel : Nat) :
    List (Bytes × Nat) -> Connection -> Bytes -> List PubSubOp -> ServerProg ChunksRead
  | [], c, sent, ops => pure ⟨sent, c, ops, none⟩
  | (data, n) :: chunks, c, sent, ops => do
      let (c, r) <- processRead fuel c data
      match r with
      -- The service has dealt with `ops` before this chunk is read.
      | .error e => pure ⟨sent, c, ops, some e⟩
      | .ok more =>
          let sent := sent ++ c.unsent.take n
          let c := c.consumeWrites (min n c.unsent.length)
          if c.closed then pure ⟨sent, c, ops ++ more, none⟩
          else readChunks fuel chunks c sent (ops ++ more)

/-!
# The same frames in other surroundings
-/

def Surroundings.behind (e : Surroundings) (p : RespParser) (written : Bytes) :
    Surroundings :=
  { e with parser := p, writeBuffer := e.writeBuffer ++ written }

def continueLoop (fuel rounds : Nat) (ops : List PubSubOp) (c : Connection) :
    Flow -> ServerProg (Connection × ReadResult)
  | .deferred op => readLoop fuel rounds c (ops ++ [op])
  | .quit => pure (c, .ok ops)
  | .failed e => pure (c, .error e)
  | .fast _ | .reply _ => readLoop fuel rounds c ops

theorem readLoop_of_value {c : Connection} {e : Surroundings} {p : RespParser}
    {v : RespValue} {rounds : Nat} {ops : List PubSubOp}
    (hnext : e.parser.parseNext = (.ok (some v), p)) :
    readLoop fuel (rounds + 1) (c.within e) ops =
      frameFlow fuel c v >>= fun r =>
        continueLoop fuel rounds ops (r.1.within (e.behind p r.2.bytes)) r.2 := by
  have hparser : (c.within e).parser.parseNext = (.ok (some v), p) := hnext
  have hframe : frameFlow fuel { c.within e with parser := p } v =
      frameFlow fuel c v >>= fun r => pure (r.1.within { e with parser := p }, r.2) :=
    unseen_frameFlow fuel v c { e with parser := p }
  rw [readLoop, hparser]
  dsimp only
  rw [processFrame, hframe, bind_assoc, bind_assoc]
  refine congrArg (frameFlow fuel c v >>= ·) (funext fun r => ?_)
  cases hflow : r.2 <;> rfl

theorem readLoop_of_none {c : Connection} {e : Surroundings} (rounds : Nat)
    (ops : List PubSubOp) (hnone : parseValue e.parser.unconsumed = .ok none) :
    readLoop fuel (rounds + 1) (c.within e) ops = pure (c.within e, .ok ops) := by
  have hnext : (c.within e).parser.parseNext = (.ok none, e.parser) :=
    RespParser.parseNext_of_none hnone
  rw [readLoop, hnext]
  rfl

theorem readLoop_of_error {c : Connection} {e : Surroundings} {text : String}
    (rounds : Nat) (ops : List PubSubOp)
    (herror : parseValue e.parser.unconsumed = .error text) :
    readLoop fuel (rounds + 1) (c.within e) ops = pure (c.within e, .error text) := by
  have hnext : (c.within e).parser.parseNext = (.error text, e.parser) :=
    RespParser.parseNext_of_error herror
  rw [readLoop, hnext]
  rfl

theorem frameFlow_closed (fuel : Nat) (c : Connection) (v : RespValue) :
    Returns Anything
      (fun r => (r.2 = .quit ∧ r.1.closed = true) ∨
        (r.2 ≠ .quit ∧ r.1.closed = c.closed)) (frameFlow fuel c v) := by
  rw [frameFlow_eq]
  cases c.route v with
  | fast f =>
      exact returns_bind (returns_trivial _) fun r _ =>
        Returns.done (Or.inr ⟨Flow.noConfusion, rfl⟩)
  | invalid e | refused => exact Returns.done (Or.inr ⟨Flow.noConfusion, rfl⟩)
  | quit => exact Returns.done (Or.inl ⟨rfl, rfl⟩)
  | dispatched cmd =>
      have hclosed := dispatch_spares (f := closed) (fun _ _ _ _ _ _ => rfl) fuel
        (c.countCommand.noteClientName cmd) cmd
      refine returns_mono (returns_and hclosed (dispatch_answers fuel _ cmd)) ?_
      rintro r ⟨hsame, hanswers⟩
      rcases c.countCommand.noteClientName_eq cmd with ⟨name, hname⟩
      rw [hname] at hsame
      refine Or.inr ⟨?_, hsame⟩
      rcases hanswers with ⟨reply, hreply⟩ | ⟨op, hop⟩
      · rw [hreply]
        exact Flow.noConfusion
      · rw [hop]
        exact Flow.noConfusion

/-!
# Two readers of one input

One of them has `more` before it than the other; what they have written is the same,
though not the same part of it has been sent.
-/

structure Parallel (a : Bytes) (e : Surroundings) (b : Bytes) (e' : Surroundings)
    (more : Bytes) : Prop where
  parser : e'.parser.unconsumed = e.parser.unconsumed ++ more
  output : b ++ e'.unsent = a ++ e.unsent
  inside : e.writePosition <= e.writeBuffer.length
  inside' : e'.writePosition <= e'.writeBuffer.length
  messages : e'.pendingPubsubMessages = e.pendingPubsubMessages

theorem Surroundings.unsent_behind {e : Surroundings} (p : RespParser)
    (written : Bytes) (h : e.writePosition <= e.writeBuffer.length) :
    (e.behind p written).unsent = e.unsent ++ written :=
  List.drop_append_of_le_length h

theorem Parallel.behind {a b more : Bytes} {e e' : Surroundings}
    (h : Parallel a e b e' more) {p p' : RespParser} {n : Nat}
    (hn : n <= e.parser.unconsumed.length)
    (hp : p.unconsumed = e.parser.unconsumed.drop n)
    (hp' : p'.unconsumed = e'.parser.unconsumed.drop n) (written : Bytes) :
    Parallel a (e.behind p written) b (e'.behind p' written) more where
  parser := by
    change p'.unconsumed = p.unconsumed ++ more
    rw [hp', hp, h.parser, List.drop_append_of_le_length hn]
  output := by
    rw [Surroundings.unsent_behind _ _ h.inside, Surroundings.unsent_behind _ _ h.inside',
      ← List.append_assoc, ← List.append_assoc, h.output]
  inside := le_trans h.inside (List.length_append ▸ Nat.le_add_right _ _)
  inside' := le_trans h.inside' (List.length_append ▸ Nat.le_add_right _ _)
  messages := h.messages

theorem Parallel.shown_eq {a b more : Bytes} {e e' : Surroundings}
    (h : Parallel a e b e' more) {c : Connection} {r : ReadResult}
    (hmore : goesOn (c.within e, r) = true -> more = []) :
    shown b (c.within e', r) = shown a (c.within e, r) := by
  have hconnection : (c.within e').within ⟨.new, [], 0, e'.pendingPubsubMessages⟩ =
      (c.within e).within ⟨.new, [], 0, e.pendingPubsubMessages⟩ := by
    rw [h.messages]
    rfl
  have hunparsed :
      (if goesOn (c.within e', r) then some e'.parser.unconsumed else none) =
        if goesOn (c.within e, r) then some e.parser.unconsumed else none := by
    change (if goesOn (c.within e, r) then some e'.parser.unconsumed else none) = _
    split
    · rename_i hon
      rw [h.parser, hmore hon, List.append_nil]
    · rfl
  exact Shown.mk.injEq .. ▸ ⟨hconnection, h.output, hunparsed, rfl⟩

/-- The one with more before it does what the other does, and where that one is at its
end, what `resume` does. -/
theorem readLoop_parallel {a b more : Bytes}
    (resume : Connection × ReadResult -> ServerProg Shown)
    (hfailed : forall c text, resume (c, .error text) = pure (shown a (c, .error text)))
    (hquit : forall c ops, c.closed = true ->
      resume (c, .ok ops) = pure (shown a (c, .ok ops)))
    (hwaits : forall (c : Connection) (e e' : Surroundings) ops rounds,
      c.closed = false -> Parallel a e b e' more ->
        parseValue e.parser.unconsumed = .ok none ->
          e'.parser.unconsumed.length < rounds ->
            (readLoop fuel rounds (c.within e') ops >>= fun r => pure (shown b r)) =
              resume (c.within e, .ok ops))
    {c : Connection} {e e' : Surroundings} {ops : List PubSubOp} {rounds rounds' : Nat}
    (hopen : c.closed = false) (h : Parallel a e b e' more)
    (hrounds : e.parser.unconsumed.length < rounds)
    (hrounds' : e'.parser.unconsumed.length < rounds') :
    (readLoop fuel rounds' (c.within e') ops >>= fun r => pure (shown b r)) =
      readLoop fuel rounds (c.within e) ops >>= resume := by
  induction rounds generalizing c e e' ops rounds' with
  | zero => omega
  | succ rounds ih =>
      rcases Nat.exists_eq_add_of_lt (Nat.zero_lt_of_lt hrounds') with ⟨k, hk⟩
      rw [Nat.zero_add] at hk
      subst hk
      rcases e.parser.parseNext_cases with
        ⟨hparse, _⟩ | ⟨text, hparse, _⟩ | ⟨v, n, p, hparse, hnext, hrest⟩
      · rw [readLoop_of_none _ _ hparse]
        exact hwaits c e e' ops (k + 1) hopen h hparse hrounds'
      · have hparse' : parseValue e'.parser.unconsumed = .error text :=
          h.parser ▸ parseValue_append more (by simp) hparse
        rw [readLoop_of_error _ _ hparse, readLoop_of_error _ _ hparse']
        change pure (shown b (c.within e', .error text)) = resume (c.within e, .error text)
        rw [hfailed, h.shown_eq (by simp [goesOn, Except.isOk, Except.toBool])]
      · have hbounds := parseValue_incremental.consumes hparse
        have hparse' : parseValue e'.parser.unconsumed = .ok (some (v, n)) :=
          h.parser ▸ parseValue_incremental.value_stable more hparse
        rcases RespParser.parseNext_of_value hparse' with ⟨p', hnext', hrest'⟩
        have hlength := congrArg List.length hrest
        have hlength' := congrArg List.length hrest'
        rw [List.length_drop] at hlength hlength'
        have hbounds' := parseValue_incremental.consumes hparse'
        rw [readLoop_of_value hnext, readLoop_of_value hnext', bind_assoc, bind_assoc]
        refine bind_congr_of_returns (frameFlow_closed fuel c v) ?_
        rintro ⟨c1, flow⟩ hclosed
        have hnow := h.behind hbounds.2 hrest hrest' flow.bytes
        have hgo : forall ops, c1.closed = false ->
            (readLoop fuel k (c1.within (e'.behind p' flow.bytes)) ops >>=
                fun r => pure (shown b r)) =
              readLoop fuel rounds (c1.within (e.behind p flow.bytes)) ops >>= resume :=
          fun ops hon => ih hon hnow (by change p.unconsumed.length < _; omega)
            (by change p'.unconsumed.length < _; omega)
        cases flow with
        | fast reply | reply reply | deferred op =>
            rcases hclosed with ⟨hq, _⟩ | ⟨_, hsame⟩
            · cases hq
            · exact hgo _ (hsame.trans hopen)
        | failed text =>
            change pure (shown b (c1.within (e'.behind p' _), .error text)) =
              resume (c1.within (e.behind p _), .error text)
            rw [hfailed, hnow.shown_eq (by simp [goesOn, Except.isOk, Except.toBool])]
        | quit =>
            rcases hclosed with ⟨_, hend⟩ | ⟨hne, _⟩
            · have hshut : (c1.within (e.behind p Flow.quit.bytes)).closed = true := hend
              change pure (shown b (c1.within (e'.behind p' _), .ok ops)) =
                resume (c1.within (e.behind p _), .ok ops)
              rw [hquit _ _ hshut, hnow.shown_eq (by simp [goesOn, hshut])]
            · exact absurd rfl hne

theorem readLoop_same {a b : Bytes} {c : Connection} {e e' : Surroundings}
    {ops : List PubSubOp} {rounds rounds' : Nat} (hopen : c.closed = false)
    (h : Parallel a e b e' []) (hrounds : e.parser.unconsumed.length < rounds)
    (hrounds' : e'.parser.unconsumed.length < rounds') :
    (readLoop fuel rounds' (c.within e') ops >>= fun r => pure (shown b r)) =
      readLoop fuel rounds (c.within e) ops >>= fun r => pure (shown a r) := by
  refine readLoop_parallel _ (fun _ _ => rfl) (fun _ _ _ => rfl) ?_ hopen h hrounds hrounds'
  intro c e e' ops rounds _ h hnone hrounds
  rcases Nat.exists_eq_add_of_lt (Nat.zero_lt_of_lt hrounds) with ⟨k, rfl⟩
  have hnone' : parseValue e'.parser.unconsumed = .ok none := by
    rw [h.parser, List.append_nil]
    exact hnone
  rw [Nat.zero_add, readLoop_of_none k ops hnone']
  change (pure (shown b (c.within e', .ok ops)) : ServerProg Shown) =
    pure (shown a (c.within e, .ok ops))
  rw [h.shown_eq fun _ => rfl]

theorem readLoop_ops (fuel : Nat) (before later : List PubSubOp) (rounds : Nat) (c : Connection) :
    readLoop fuel rounds c (before ++ later) =
      readLoop fuel rounds c later >>= fun r => pure (r.1, r.2.map (before ++ ·)) := by
  induction rounds generalizing c later with
  | zero => rfl
  | succ rounds ih =>
      unfold readLoop
      rcases c.parser.parseNext_cases with
        ⟨_, hnext⟩ | ⟨e, _, hnext⟩ | ⟨v, n, p, _, hnext, _⟩
      · rw [hnext]
        rfl
      · rw [hnext]
        rfl
      · rw [hnext]
        dsimp only
        rw [bind_assoc]
        refine congrArg (processFrame fuel { c with parser := p } v >>= ·) ?_
        funext r
        rcases r with ⟨c1, flow⟩
        cases flow with
        | deferred op =>
            have happend : before ++ later ++ [op] = before ++ (later ++ [op]) :=
              List.append_assoc before later [op]
            exact (congrArg (readLoop fuel rounds c1) happend).trans
              (ih (later ++ [op]) c1)
        | fast reply | reply reply => exact ih later c1
        | quit | failed text => rfl

/-!
# Chunks
-/

theorem unsent_clearWritten (c : Connection) :
    c.clearWritten.unsent = c.unsent ∧
      c.clearWritten.writePosition <= c.clearWritten.writeBuffer.length := by
  unfold clearWritten
  split
  · rename_i hend
    exact ⟨(List.drop_eq_nil_of_le hend).symm, Nat.le_refl 0⟩
  · rename_i hmore
    exact ⟨rfl, by omega⟩

theorem sent_consumeWrites (c : Connection) (n : Nat) :
    c.unsent.take n ++ (c.consumeWrites (min n c.unsent.length)).unsent = c.unsent := by
  have hrest : (c.consumeWrites (min n c.unsent.length)).unsent =
      c.unsent.drop (min n c.unsent.length) :=
    (List.drop_drop ..).symm
  rw [hrest]
  rcases Nat.le_total n c.unsent.length with h | h
  · rw [Nat.min_eq_left h, List.take_append_drop]
  · rw [Nat.min_eq_right h, List.take_of_length_le h, List.drop_length, List.append_nil]

theorem shown_consumeWrites (sent : Bytes) (c : Connection) (n : Nat) (r : ReadResult) :
    shown (sent ++ c.unsent.take n) (c.consumeWrites (min n c.unsent.length), r) =
      shown sent (c, r) := by
  have houtput : sent ++ c.unsent.take n ++
      (c.consumeWrites (min n c.unsent.length)).unsent = sent ++ c.unsent := by
    rw [List.append_assoc, sent_consumeWrites]
  exact Shown.mk.injEq .. ▸ ⟨rfl, houtput, rfl, rfl⟩

def chunkBehind (fuel : Nat) (chunks : List (Bytes × Nat)) (n : Nat) (sent : Bytes)
    (ops : List PubSubOp) (c : Connection) : ReadResult -> ServerProg ChunksRead
  | .error e => pure ⟨sent, c, ops, some e⟩
  | .ok more =>
      let sent := sent ++ c.unsent.take n
      let c := c.consumeWrites (min n c.unsent.length)
      if c.closed then pure ⟨sent, c, ops ++ more, none⟩
      else readChunks fuel chunks c sent (ops ++ more)

theorem readChunks_cons (fuel : Nat) (chunks : List (Bytes × Nat)) (data sent : Bytes)
    (n : Nat) (c : Connection) (ops : List PubSubOp) :
    readChunks fuel ((data, n) :: chunks) c sent ops =
      processRead fuel c data >>= fun r => chunkBehind fuel chunks n sent ops r.1 r.2 := by
  rw [readChunks]
  refine congrArg (processRead fuel c data >>= ·) (funext fun r => ?_)
  rcases r with ⟨c1, e | more⟩ <;> rfl

theorem readChunks_parallel {chunks : List (Bytes × Nat)} {a b : Bytes} {c : Connection}
    {e e' : Surroundings} {ops : List PubSubOp} {rounds : Nat} (hopen : c.closed = false)
    (hwaits : chunks = [] -> parseValue e.parser.unconsumed = .ok none)
    (h : Parallel a e b e' (chunks.map Prod.fst).flatten)
    (hrounds : e'.parser.unconsumed.length < rounds) :
    (readLoop fuel rounds (c.within e') ops >>= fun r => pure (shown b r)) =
      readChunks fuel chunks (c.within e) a ops >>= fun r => pure r.shown := by
  induction chunks generalizing c e e' a ops rounds with
  | nil =>
      exact (readLoop_same hopen h (Nat.lt_succ_self _) hrounds).trans
        (by rw [readLoop_of_none _ ops (hwaits rfl)]; rfl)
  | cons chunk chunks ih =>
      rcases chunk with ⟨data, n⟩
      rcases ((c.within e).feed data).clearWritten_eq with ⟨buffer, position, hclear⟩
      rcases unsent_clearWritten ((c.within e).feed data) with ⟨hunsent, hinside⟩
      rw [hclear] at hunsent hinside
      have hnow : Parallel a
          ⟨e.parser.feed data, buffer, position, e.pendingPubsubMessages⟩ b e'
          (chunks.map Prod.fst).flatten :=
        ⟨by rw [h.parser, RespParser.unconsumed_feed]; simp,
          h.output.trans (congrArg (a ++ ·) hunsent.symm), hinside, h.inside', h.messages⟩
      have hprocess : processRead fuel (c.within e) data =
          readLoop fuel ((e.parser.feed data).unconsumed.length + 1)
            (c.within ⟨e.parser.feed data, buffer, position, e.pendingPubsubMessages⟩)
            [] := by
        rw [processRead, hclear]
        rfl
      rw [readChunks_cons, hprocess, bind_assoc]
      refine (readLoop_parallel (fun r =>
        chunkBehind fuel chunks n a [] r.1 r.2 >>= fun r => pure r.shown)
        (fun _ _ => rfl) ?_ ?_ hopen hnow (Nat.lt_succ_self _) hrounds).trans ?_
      · intro c1 ops1 hshut
        have hshut' : (c1.consumeWrites (min n c1.unsent.length)).closed = true := hshut
        simp only [chunkBehind, hshut', if_true]
        change (pure (shown (a ++ c1.unsent.take n)
          (c1.consumeWrites (min n c1.unsent.length), .ok ops1)) : ServerProg Shown) = _
        rw [shown_consumeWrites]
      · intro c1 e1 e1' ops1 rounds1 hopen1 h1 hnone hrounds1
        have hopen1' : ((c1.within e1).consumeWrites
            (min n (c1.within e1).unsent.length)).closed = false := hopen1
        simp only [chunkBehind, hopen1', List.nil_append]
        have hconsumed := sent_consumeWrites (c1.within e1) n
        refine ih hopen1 (fun _ => hnone) (e := { e1 with
          writePosition := e1.writePosition + min n (c1.within e1).unsent.length })
          ⟨h1.parser, ?_, ?_, h1.inside', h1.messages⟩ hrounds1
        · rw [h1.output, List.append_assoc]
          exact congrArg (a ++ ·) hconsumed.symm
        · have hlength : (c1.within e1).unsent.length =
              e1.writeBuffer.length - e1.writePosition := List.length_drop
          have hinside1 := h1.inside
          change e1.writePosition + min n (c1.within e1).unsent.length <=
            e1.writeBuffer.length
          omega
      · have hops := readLoop_ops fuel ops []
          ((e.parser.feed data).unconsumed.length + 1)
          (c.within ⟨e.parser.feed data, buffer, position, e.pendingPubsubMessages⟩)
        rw [List.append_nil] at hops
        rw [hops, Prog.bind_assoc]
        refine congrArg (readLoop fuel _ _ [] >>= ·) (funext fun r => ?_)
        rcases r with ⟨c1, text | more⟩ <;> rfl

theorem processRead_clearWritten (fuel : Nat) (c : Connection) (data : Bytes) :
    processRead fuel c.clearWritten data = processRead fuel c data := by
  have htwice : c.clearWritten.clearWritten = c.clearWritten := by
    by_cases h : c.writeBuffer.length <= c.writePosition
    · simp [clearWritten, h]
    · simp [clearWritten, h]
  have hfed : (c.clearWritten.feed data).clearWritten = (c.feed data).clearWritten := by
    rcases c.clearWritten_eq with ⟨buffer, position, hclear⟩
    rw [clearWritten_feed, clearWritten_feed, htwice, hclear]
  rw [processRead, processRead, hfed]

/-- However the input is cut and whatever part of the output the socket takes between
two chunks, a connection makes the same calls, writes the same bytes, ends the same
and, if reading does not fail, leaves the same operations as if it had read everything
at once. -/
theorem readChunks_eq_processRead (fuel : Nat) (c : Connection) (hopen : c.closed = false)
    (chunks : List (Bytes × Nat)) (hchunks : chunks ≠ []) :
    (readChunks fuel chunks c [] [] >>= fun r => pure r.shown) =
      processRead fuel c (chunks.map Prod.fst).flatten >>= fun r => pure (shown [] r) := by
  have hcleared : readChunks fuel chunks c.clearWritten [] [] =
      readChunks fuel chunks c [] [] := by
    cases chunks with
    | nil => exact absurd rfl hchunks
    | cons chunk chunks =>
        rw [readChunks_cons, readChunks_cons, processRead_clearWritten]
  rcases c.clearWritten_eq with ⟨buffer, position, hclear⟩
  have hopen' : c.clearWritten.closed = false := by
    rw [hclear]
    exact hopen
  rcases (c.clearWritten.feed (chunks.map Prod.fst).flatten).clearWritten_eq with
    ⟨buffer', position', hclear'⟩
  rcases unsent_clearWritten (c.clearWritten.feed (chunks.map Prod.fst).flatten) with
    ⟨hunsent, hinside⟩
  rw [hclear'] at hunsent hinside
  have hparallel : Parallel [] c.clearWritten.surroundings []
      ⟨c.clearWritten.parser.feed (chunks.map Prod.fst).flatten, buffer', position',
        c.clearWritten.pendingPubsubMessages⟩ (chunks.map Prod.fst).flatten :=
    ⟨RespParser.unconsumed_feed _ _, hunsent, (unsent_clearWritten c).2, hinside, rfl⟩
  rw [← hcleared, ← processRead_clearWritten, processRead, hclear']
  exact (readChunks_parallel hopen' (fun h => absurd h hchunks) hparallel
    (Nat.lt_succ_self _)).symm

/-- A publication and `PING` in three chunks. -/
def cutInput : List (Bytes × Nat) :=
  [(asBytes "*3\r\n$7\r\nPUBL", 3), (asBytes "ISH\r\n$4\r\nnews\r\n$2\r\nhi\r\n*1", 2),
    (asBytes "\r\n$4\r\nPING\r\n", 4)]

theorem readChunks_eq_processRead_publish :
    let c := newWithAddr 0 { requirepass := none } none 1 0
    (readChunks 0 cutInput c [] [] >>= fun r => pure r.shown) =
      processRead 0 c (cutInput.map Prod.fst).flatten >>= fun r => pure (shown [] r) :=
  readChunks_eq_processRead 0 (newWithAddr 0 { requirepass := none } none 1 0) rfl
    cutInput (List.cons_ne_nil _ _)

end Connection

end FeoxServer
