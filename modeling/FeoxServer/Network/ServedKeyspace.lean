import FeoxServer.Network.Chunking
import FeoxServer.Network.DirectExecution
import FeoxServer.Protocol.KeyspaceRefinement
import FeoxServer.Protocol.Requests

/-!
# Requests to the keyspace

A connection that reads requests for commands of the keyspace writes what the keyspace
replies.
-/

namespace FeoxServer

open Foundation Prog

/-!
# Commands for the executor
-/

/-- What the executor is asked to do where a password is not in question. -/
structure Command.Executed (cmd : Command) : Prop where
  ordinary : cmd.isTransactionCommand = false
  unpublished : cmd.isPubsubCommand = false
  stays : cmd ≠ .quit
  checked : forall password, cmd ≠ .auth password

theorem KeyspaceCommand.executed (c : KeyspaceCommand) : c.command.Executed := by
  rcases c with c | ⟨key, c⟩ | ⟨key, c⟩
  all_goals
    cases c
    all_goals exact ⟨rfl, rfl, by rintro ⟨⟩, by rintro _ ⟨⟩⟩

theorem Flow.bytes_of_value {flow : Flow} {r : RespValue} (h : flow.value = some r) :
    flow.bytes = formatRespResponse r := by
  cases flow with
  | fast reply =>
      cases h
      exact reply.bytes_eq
  | reply r =>
      cases h
      rfl
  | deferred op | quit | failed e => cases h

namespace Connection

/-- Authenticated, without subscriptions and outside a transaction. -/
structure Idle (c : Connection) : Prop where
  open_ : c.closed = false
  authenticated : c.authenticated = true
  unsubscribed : c.subscriptionCount = 0
  outside : c.transactionState = .none

theorem frameFlow_executed {c : Connection} (hidle : c.Idle) {v : RespValue}
    {cmd : Command} (hparsed : Command.fromResp v = .ok cmd) (hcmd : cmd.Executed)
    (fuel : Nat) :
    exists x : CommandExecutor, forall {T : Service Call Answer} {s s' : T.State}
      {r : RespValue}, (x.respond fuel cmd).run T s = some (r, s') ->
        exists c' flow, (frameFlow fuel c v).run T s = some ((c', flow), s') ∧
          flow.value = some r ∧ c'.Idle := by
  rw [frameFlow_eq]
  cases hfast : c.fastPath v with
  | some f =>
      refine ⟨c.executor, fun {T s s' r} hrun => ?_⟩
      rw [fromResp_of_fastCommand (fastCommand_of_fastPath hfast).2] at hparsed
      cases hparsed
      rw [← f.run_bind_toResp] at hrun
      rcases (run_bind_eq_some _).mp hrun with ⟨reply, s1, hreply, hdone⟩
      cases hdone
      refine ⟨c.countCommand, .fast reply, ?_, rfl, hidle.open_, hidle.authenticated,
        hidle.unsubscribed, hidle.outside⟩
      rw [route, hfast]
      exact (run_bind_of_some _ _ hreply).trans rfl
  | none =>
      have hgate : c.isInPubsubMode = false := by
        simp [isInPubsubMode, hidle.unsubscribed]
      have hroute := route_of_slow hfast hparsed
      rw [if_neg hcmd.stays, hgate, Bool.false_and, if_neg Bool.false_ne_true] at hroute
      rcases noteClientName_eq c.countCommand cmd with ⟨name, hname⟩
      have hqueue : ({ c.countCommand with clientName := name } :
          Connection).transactionState ≠ .queuing := by
        change c.transactionState ≠ .queuing
        rw [hidle.outside]
        rintro ⟨⟩
      refine ⟨{ c.executor with commandsProcessed := c.executor.commandsProcessed + 1 },
        fun {T s s' r} hrun => ?_⟩
      rw [hroute]
      dsimp only
      have hanswer : answer fuel { c.countCommand with clientName := name } cmd =
          executeNow fuel { c.countCommand with clientName := name } cmd := by
        unfold answer
        split
        · rename_i password
          exact absurd rfl (hcmd.checked password)
        · change (if !c.authenticated then _ else _) = _
          rw [hidle.authenticated, hcmd.unpublished]
          rfl
      have hexecute : (c.executor.execute fuel cmd).run T s =
          some ((r, { c.executor with
            commandsProcessed := c.executor.commandsProcessed + 1 }), s') := by
        unfold CommandExecutor.execute
        rw [run_bind_of_some _ _ hrun]
        rfl
      rw [hname, dispatch_ordinary hcmd.ordinary, if_neg hqueue, hanswer]
      exact ⟨_, .reply r, run_bind_of_some _ _ hexecute, rfl, hidle.open_,
        hidle.authenticated, hidle.unsubscribed, hidle.outside⟩

/-!
# Reading the requests
-/

section Serving

variable {ε : Type} {S : FeoxStore} {P : Platform} {cell : S.State -> Bytes -> ε}
  {view : S.State -> Bytes -> Option Bytes} {N : KeyNames}

/-- The bytes that a client writes for some commands. -/
def requested (commands : List KeyspaceCommand) : Bytes :=
  commands.flatMap fun k => formatRespResponse k.command.request

/-- What a client can write. -/
def AllSendable (commands : List KeyspaceCommand) : Prop :=
  forall k, k ∈ commands -> k.command.Sendable ∧ Fits k.command.request

/-- A connection that waits for more: with `future` it will have been sent the requests
for `todo`. -/
structure Expects (todo : List KeyspaceCommand) (future : Bytes) (c : Connection) :
    Prop where
  idle : c.Idle
  inside : c.writePosition <= c.writeBuffer.length
  waits : parseValue c.parser.unconsumed = .ok none
  bytes : c.parser.unconsumed ++ future = requested todo
  sendable : AllSendable todo

theorem Expects.nil {todo : List KeyspaceCommand} {c : Connection}
    (h : c.Expects todo []) : todo = [] ∧ c.parser.unconsumed = [] := by
  have hbytes := h.bytes
  rw [List.append_nil] at hbytes
  cases todo with
  | nil => exact ⟨rfl, hbytes⟩
  | cons k todo =>
      rcases h.sendable k List.mem_cons_self with ⟨_, hlengths⟩
      have hread := parseValue_formatRespResponse k.command.lineSafe_request hlengths
        (requested todo)
      have hwaits := h.waits
      rw [hbytes] at hwaits
      cases hread.symm.trans hwaits

/-- From `c` to `c'` the first commands of `todo` have been answered. -/
structure Progress (view : S.State -> Bytes -> Option Bytes) (N : KeyNames)
    (l r : Bytes -> Nat) (ks : Keyspace) (todo : List KeyspaceCommand) (future : Bytes)
    (c : Connection) (done later : List KeyspaceCommand) (c' : Connection)
    (w' : World S P) : Prop where
  split : todo = done ++ later
  expects : c'.Expects later future
  written : Appended c c' ((ks.replies done).flatMap formatRespResponse)
  hosts : Hosts view N (ks.after done) (KeyspaceCommand.roomLeft l later)
    (KeyspaceCommand.roomRight r later) w'

theorem readLoop_served (hS : SharedStore S cell view) (hN : N.Separate)
    (todo : List KeyspaceCommand) (fuel rounds : Nat) {c : Connection} {e : Surroundings}
    {future : Bytes} {ks : Keyspace} {l r : Bytes -> Nat} {w : World S P}
    (hidle : c.Idle) (hinside : e.writePosition <= e.writeBuffer.length)
    (hbytes : e.parser.unconsumed ++ future = requested todo)
    (hsendable : AllSendable todo)
    (h : Hosts view N ks (KeyspaceCommand.roomLeft l todo)
      (KeyspaceCommand.roomRight r todo) w) (hfits : ks.Fits N todo)
    (hrounds : e.parser.unconsumed.length < rounds) :
    exists done later c' w', (readLoop (fuel + 1) rounds (c.within e) []).run
        (server S P) w = some ((c', .ok []), w') ∧
      Progress view N l r ks todo future (c.within e) done later c' w' := by
  induction todo generalizing c e ks w rounds with
  | nil =>
      rcases Nat.exists_eq_add_of_lt hrounds with ⟨rounds, rfl⟩
      have hnothing := (List.append_eq_nil_iff.mp hbytes).1
      have hwaits : parseValue e.parser.unconsumed = .ok none := by
        rw [hnothing]
        rfl
      rw [readLoop_of_none _ _ hwaits]
      exact ⟨[], [], c.within e, w, rfl, rfl,
        ⟨⟨hidle.open_, hidle.authenticated, hidle.unsubscribed, hidle.outside⟩, hinside,
          hwaits, hbytes, hsendable⟩, .refl _, h⟩
  | cons k todo ih =>
      rcases Nat.exists_eq_add_of_lt (Nat.zero_lt_of_lt hrounds) with ⟨rounds, rfl⟩
      rcases hsendable k List.mem_cons_self with ⟨hsend, hlengths⟩
      have hread := parseValue_formatRespResponse k.command.lineSafe_request hlengths
        (requested todo)
      have hwhole : e.parser.unconsumed ++ future =
          formatRespResponse k.command.request ++ requested todo := hbytes
      rw [← hwhole] at hread
      rcases e.parser.parseNext_cases with
        ⟨hparse, _⟩ | ⟨text, hparse, _⟩ | ⟨v, n, p, hparse, hnext, hrest⟩
      · rw [Nat.zero_add, readLoop_of_none _ _ hparse]
        exact ⟨[], k :: todo, c.within e, w, rfl, rfl,
          ⟨⟨hidle.open_, hidle.authenticated, hidle.unsubscribed, hidle.outside⟩, hinside,
            hparse, hbytes, hsendable⟩, .refl _, h⟩
      · cases hread.symm.trans (parseValue_append future (by simp) hparse)
      · have hbounds := parseValue_incremental.consumes hparse
        cases hread.symm.trans (parseValue_incremental.value_stable future hparse)
        have hbytes1 : p.unconsumed ++ future = requested todo := by
          rw [hrest, ← List.drop_append_of_le_length hbounds.2, hwhole, List.drop_left]
        rcases frameFlow_executed hidle (fromResp_request hsend) k.executed (fuel + 1)
          with ⟨x, hframe⟩
        rcases h.of_cons.respond hS hN k fuel x hfits.1 with ⟨w1, hreply, h1⟩
        rcases hframe hreply with ⟨c1, flow, hflow, hvalue, hidle1⟩
        have hwritten := Flow.bytes_of_value hvalue
        have hlength := congrArg List.length hrest
        rw [List.length_drop] at hlength
        rcases ih rounds (e := e.behind p flow.bytes) hidle1
          (le_trans hinside (List.length_append ▸ Nat.le_add_right _ _))
          hbytes1 (fun k hmem => hsendable k (List.mem_cons_of_mem _ hmem)) h1 hfits.2
          (by change p.unconsumed.length < _; omega) with
          ⟨done, later, c2, w2, hloop, hprogress⟩
        refine ⟨k :: done, later, c2, w2, ?_,
          congrArg (k :: ·) hprogress.split, hprogress.expects, ?_, hprogress.hosts⟩
        · rw [Nat.zero_add, readLoop_of_value hnext, run_bind_of_some _ _ hflow]
          cases flow with
          | fast reply | reply reply => exact hloop
          | deferred op | quit | failed e => cases hvalue
        · refine ⟨hprogress.written.position, hprogress.written.buffer.trans ?_⟩
          change (e.writeBuffer ++ flow.bytes) ++ _ = e.writeBuffer ++ _
          rw [hwritten, List.append_assoc]
          rfl

end Serving

end Connection

end FeoxServer
