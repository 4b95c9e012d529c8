import FeoxServer.Network.Modes
import FeoxServer.Network.ReplyFraming

/-!
# Before authentication

A connection that has not given the password is kept from the store: what it
sends changes nothing there, and what it is sent does not depend on it, unless
a command takes a way around the check.
-/

namespace FeoxServer

open Foundation Prog Connection

/-!
# Calls aside from the store
-/

namespace Call

def Aside : Call -> Prop
  | platform _ | getKeyVersion _ | getAllClients | getClient _ => True
  | _ => False

end Call

/-- What can be seen without the store. -/
structure SameAside {S : FeoxStore} {P : Platform} (w w' : World S P) : Prop where
  platform : w'.platform = w.platform
  watch : w'.watch = w.watch
  clients : w'.clients = w.clients

/-- A run that spares the store, and that comes to the same with any other
store. -/
structure Spares {S : FeoxStore} {P : Platform} {α : Type} (p : ServerProg α)
    (w : World S P) (a : α) (w' : World S P) : Prop where
  run : p.run (server S P) w = some (a, w')
  store : w'.store = w.store
  watch : w'.watch = w.watch
  elsewhere : forall w1, SameAside w w1 -> exists w1',
    p.run (server S P) w1 = some (a, w1') ∧ SameAside w' w1'

variable {S : FeoxStore} {P : Platform}

theorem reply_aside {c : Call} (hc : c.Aside) {w w1 : World S P}
    (h : SameAside w w1) :
    (World.reply c w).1 = (World.reply c w1).1 ∧
      SameAside (World.reply c w).2 (World.reply c w1).2 := by
  cases c with
  | platform c =>
      refine ⟨congrArg (fun s => (P.reply c s).1) h.platform.symm, ?_⟩
      exact ⟨congrArg (fun s => (P.reply c s).2) h.platform, h.watch, h.clients⟩
  | getKeyVersion key =>
      exact ⟨congrArg (WatchRegistry.getKeyVersion · key) h.watch.symm, h⟩
  | getAllClients => exact ⟨congrArg ClientRegistry.getAllClients h.clients.symm, h⟩
  | getClient id => exact ⟨congrArg (ClientRegistry.getClient · id) h.clients.symm, h⟩
  | _ => cases hc

theorem spares_of_only {α : Type} {p : ServerProg α} {w w' : World S P} {a : α}
    (hp : Only Call.Aside p) (hrun : p.run (server S P) w = some (a, w')) :
    Spares p w a w' := by
  have hstep : forall c, Call.Aside c -> forall w : World S P,
      (World.reply c w).2.store = w.store ∧ (World.reply c w).2.watch = w.watch := by
    intro c hc w
    cases c <;> first | exact ⟨rfl, rfl⟩ | cases hc
  refine ⟨hrun, ?_, ?_, ?_⟩
  · exact run_observe_eq (server S P) World.store
      (fun c hc w => (hstep c hc w).1) hp hrun
  · exact run_observe_eq (server S P) World.watch
      (fun c hc w => (hstep c hc w).2) hp hrun
  · intro w1 hsame
    rcases run_agrees (server S P) (server S P) (fun c hc _ _ h => reply_aside hc h)
      hp hsame with ⟨hnone, _⟩ | ⟨a', s', t', hs, ht, hrel⟩
    · rw [hrun] at hnone
      cases hnone
    · rw [hrun] at hs
      cases hs
      exact ⟨t', ht, hrel⟩

theorem Spares.bind {α β : Type} {p : ServerProg α} {f : α -> ServerProg β}
    {w w1 w2 : World S P} {a : α} {b : β} (hp : Spares p w a w1)
    (hf : Spares (f a) w1 b w2) : Spares (p >>= f) w b w2 := by
  refine ⟨?_, hf.store.trans hp.store, hf.watch.trans hp.watch, ?_⟩
  · rw [run_bind_of_some _ _ hp.run]
    exact hf.run
  · intro v hsame
    rcases hp.elsewhere v hsame with ⟨v1, hrun1, hsame1⟩
    rcases hf.elsewhere v1 hsame1 with ⟨v2, hrun2, hsame2⟩
    refine ⟨v2, ?_, hsame2⟩
    rw [run_bind_of_some _ _ hrun1]
    exact hrun2

theorem spares_pure {α : Type} (a : α) (w : World S P) :
    Spares (pure a) w a w :=
  ⟨rfl, rfl, rfl, fun w1 hsame => ⟨w1, rfl, hsame⟩⟩

/-!
# Commands without the store
-/

namespace Command

def sparesStore : Command -> Bool
  | ping _ | echo _ | config _ _ | command _ _ | quit | flushDb | auth _
  | client _ _ | subscribe _ | unsubscribe _ | psubscribe _ | punsubscribe _
  | publish _ _ | pubSub _ _ | multi | exec | discard | watch _ | unwatch => true
  | _ => false

end Command

theorem aside_client (ops : ClientOperations) (subcommand : String)
    (args : List Bytes) (connectionId : Option Nat) :
    Only Call.Aside (ops.execute subcommand args connectionId) := by
  have hlines : forall clients, Only Call.Aside (ClientOperations.listLines clients) := by
    intro clients
    induction clients with
    | nil => exact Only.done _
    | cons client clients ih =>
        exact only_bind (only_call trivial) fun now =>
          only_bind ih fun lines => Only.done _
  have hlist : Only Call.Aside ops.clientList := by
    unfold ClientOperations.clientList
    split
    · exact only_bind (only_call trivial) fun clients =>
        only_bind (hlines clients) fun output => Only.done _
    · exact Only.done _
  have hname : Only Call.Aside (ops.clientGetname connectionId) := by
    unfold ClientOperations.clientGetname
    split
    · refine only_bind (only_call trivial) ?_
      rintro (_ | client) <;> exact Only.done _
    · exact Only.done _
  have hkill : Only Call.Aside (ops.clientKill args) := by
    unfold ClientOperations.clientKill
    split
    · exact Only.done _
    · split
      · exact only_bind (only_call trivial) fun clients => Only.done _
      · exact Only.done _
  have hinfo : Only Call.Aside (ops.clientInfo connectionId) := by
    unfold ClientOperations.clientInfo
    split
    · refine only_bind (only_call trivial) ?_
      rintro (_ | client)
      · exact Only.done _
      · exact only_bind (only_call trivial) fun now => Only.done _
    · exact Only.done _
  unfold ClientOperations.execute
  split <;> first | assumption | exact Only.done _

theorem aside_respond (fuel : Nat) (x : CommandExecutor) {cmd : Command}
    (hspares : cmd.sparesStore = true) :
    Only Call.Aside (x.respond fuel cmd) := by
  cases cmd with
  | ping msg => cases msg <;> exact Only.done _
  | client subcommand args => exact aside_client _ _ _ _
  | _ => first | exact Only.done _ | cases hspares

theorem aside_execute (fuel : Nat) (x : CommandExecutor) {cmd : Command}
    (hspares : cmd.sparesStore = true) :
    Only Call.Aside (x.execute fuel cmd) :=
  only_bind (aside_respond fuel _ hspares) fun _ => Only.done _

theorem aside_executeAll (fuel : Nat) (x : CommandExecutor)
    {cmds : List Command}
    (hspares : forall cmd, cmd ∈ cmds -> cmd.sparesStore = true)
    (results : List RespValue) :
    Only Call.Aside (executeAll fuel x cmds results) := by
  induction cmds generalizing x results with
  | nil => exact Only.done _
  | cons cmd cmds ih =>
      rw [List.forall_mem_cons] at hspares
      exact only_bind (aside_execute fuel x hspares.1) fun r =>
        ih r.2 hspares.2 (results ++ [r.1])

theorem aside_checkKeysUnchanged (watched : List (Bytes × UInt64)) :
    Only Call.Aside (checkKeysUnchanged watched) := by
  induction watched with
  | nil => exact Only.done _
  | cons key watched ih =>
      refine only_bind (only_call trivial) fun version => ?_
      split_ifs
      · exact Only.done _
      · exact ih

theorem aside_watchLoop (keys : List Bytes) (watched : WatchedKeys) :
    Only Call.Aside (watchLoop keys watched) := by
  induction keys generalizing watched with
  | nil => exact Only.done _
  | cons key keys ih => exact only_bind (only_call trivial) fun version => ih _

/-!
# Frames before authentication
-/

namespace Connection

/-- A frame that is executed on the store without a check: a plain `SET` or
`GET`, or the `EXEC` behind a command of the store. -/
def Reaches (T : Service Call Answer) (s : T.State) (c : Connection)
    (v : RespValue) : Prop :=
  (exists f, c.fastPath v = some f) ∨
    (c.route v = .dispatched .exec ∧ c.transactionState = .queuing ∧
      c.watchHolds T s = true ∧
      exists cmd, cmd ∈ c.queuedCommands ∧ cmd.sparesStore = false)

variable {fuel : Nat}

theorem spares_done {p : ServerProg (Connection × Flow)} {a b : Connection × Flow}
    {w w' : World S P} (hp : p = pure a)
    (hrun : p.run (server S P) w = some (b, w')) : Spares p w b w' := by
  rw [hp] at hrun ⊢
  cases hrun
  exact spares_pure a w

theorem spares_answer {c : Connection} {cmd : Command} {r : Connection × Flow}
    {w w' : World S P} (hlocked : c.authenticated = false)
    (hrun : (answer fuel c cmd).run (server S P) w = some (r, w')) :
    Spares (answer fuel c cmd) w r w' := by
  by_cases hping : exists msg, cmd = .ping msg
  · rcases hping with ⟨msg, rfl⟩
    have hnow : answer fuel c (.ping msg) = executeNow fuel c (.ping msg) := by
      unfold answer
      rw [hlocked]
      rfl
    rw [hnow] at hrun ⊢
    refine spares_of_only (only_bind (aside_execute fuel _ rfl) fun _ => ?_) hrun
    exact Only.done _
  · have hpure : exists a, answer fuel c cmd = pure a := by
      unfold answer
      rw [hlocked]
      split
      · exact ⟨_, rfl⟩
      · change exists a, unauthenticated fuel c cmd = pure a
        unfold unauthenticated
        split
        · exact absurd ⟨_, rfl⟩ hping
        · exact ⟨_, rfl⟩
    rcases hpure with ⟨a, ha⟩
    exact spares_done ha hrun

theorem spares_exec {c : Connection} {r : Connection × Flow} {w w' : World S P}
    (hkept : c.transactionState = .queuing -> c.watchHolds (server S P) w = true ->
      forall cmd, cmd ∈ c.queuedCommands -> cmd.sparesStore = true)
    (hrun : (exec fuel c).run (server S P) w = some (r, w')) :
    Spares (exec fuel c) w r w' := by
  by_cases hqueuing : c.transactionState = .queuing
  · have hexec := hrun
    unfold exec at hexec ⊢
    rw [if_neg (not_not.mpr hqueuing)] at hexec ⊢
    rcases (run_bind_eq_some _).mp hexec with ⟨unchanged, w1, hcheck, hrest⟩
    refine (spares_of_only (aside_checkKeysUnchanged _) hcheck).bind ?_
    cases unchanged with
    | false => exact spares_done rfl hrest
    | true =>
        have hholds : c.watchHolds (server S P) w = true := by
          rw [watchHolds, hcheck]
        refine spares_of_only ?_ hrest
        exact only_bind (aside_executeAll fuel _ (hkept hqueuing hholds) _)
          fun _ => Only.done _
  · have hpure : exec fuel c = pure (c, error "-ERR EXEC without MULTI") :=
      if_pos hqueuing
    exact spares_done hpure hrun

theorem spares_dispatch {c : Connection} {cmd : Command} {r : Connection × Flow}
    {w w' : World S P} (hlocked : c.authenticated = false)
    (hkept : cmd = .exec -> c.transactionState = .queuing ->
      c.watchHolds (server S P) w = true ->
      forall cmd, cmd ∈ c.queuedCommands -> cmd.sparesStore = true)
    (hrun : (dispatch fuel c cmd).run (server S P) w = some (r, w')) :
    Spares (dispatch fuel c cmd) w r w' := by
  by_cases hordinary : cmd.isTransactionCommand = false
  · rw [dispatch_ordinary hordinary] at hrun ⊢
    split_ifs at hrun ⊢
    · exact spares_done rfl hrun
    · exact spares_answer hlocked hrun
  · cases cmd with
    | multi | discard | unwatch => exact spares_done rfl hrun
    | exec => exact spares_exec (hkept rfl) hrun
    | watch keys =>
        refine spares_of_only ?_ hrun
        simp only [dispatch, watch]
        split_ifs
        · exact Only.done _
        · exact only_bind (aside_watchLoop _ _) fun _ => Only.done _
    | _ => exact absurd rfl hordinary

theorem spares_processFrame {c : Connection} {v : RespValue}
    {r : Connection × Flow} {w w' : World S P} (hlocked : c.authenticated = false)
    (hkept : ¬ c.Reaches (server S P) w v)
    (hrun : (c.processFrame fuel v).run (server S P) w = some (r, w')) :
    Spares (c.processFrame fuel v) w r w' := by
  rcases (run_bind_eq_some _).mp hrun with ⟨r1, w1, hframe, hdone⟩
  refine Spares.bind ?_ (spares_done rfl hdone)
  rw [frameFlow_eq] at hframe ⊢
  cases hroute : c.route v with
  | fast f =>
      refine absurd (Or.inl ⟨f, ?_⟩) hkept
      unfold route at hroute
      split at hroute
      · rename_i g hfast
        cases hroute
        exact hfast
      · split at hroute
        · cases hroute
        · split_ifs at hroute
  | dispatched cmd =>
      rw [hroute] at hframe
      change (dispatch fuel (c.countCommand.noteClientName cmd) cmd).run
        (server S P) w = _ at hframe
      change Spares (dispatch fuel (c.countCommand.noteClientName cmd) cmd) w r1 w1
      rcases c.countCommand.noteClientName_eq cmd with ⟨name, hname⟩
      rw [hname] at hframe ⊢
      refine spares_dispatch hlocked ?_ hframe
      rintro rfl hqueuing hholds cmd hcmd
      by_contra hunsafe
      exact hkept (Or.inr ⟨hroute, hqueuing, hholds, cmd, hcmd,
        Bool.eq_false_iff.mpr hunsafe⟩)
  | _ =>
      rw [hroute] at hframe
      exact spares_done rfl hframe

/-- The frame is an `AUTH` with the configured password, outside `MULTI`. -/
def GivesPassword (c : Connection) (v : RespValue) : Prop :=
  exists password, c.mode.dispatches v = some (.auth password) ∧
    c.transactionState = .none ∧
    c.executor.checkAuth (fromUtf8Lossy password) = true

theorem locked_after {c : Connection} {v : RespValue}
    (hlocked : c.authenticated = false) (hkept : ¬ c.GivesPassword v) :
    (c.mode.after v).authenticated = false := by
  unfold Mode.after
  split
  · rename_i password hdispatches
    split
    · rename_i h
      exact absurd ⟨password, hdispatches, h.1, h.2.2⟩ hkept
    · exact hlocked
  · exact hlocked
  · exact hlocked
  · exact hlocked
  · exact hlocked

theorem leaves_of_locked {c : Connection} (v : RespValue)
    (hlocked : c.authenticated = false) : c.mode.leaves v = none :=
  if_neg fun h => Bool.false_ne_true (hlocked.symm.trans h.2)

end Connection

/-!
# Sessions among others
-/

/-- One input of a session, in the world that the others have left. -/
structure Visit (S : FeoxStore) (P : Platform) where
  before : Session S P
  input : Input
  after : Session S P
  replies : Replies

/-- The inputs of a session, one after the other; between them the others do
what they like. -/
inductive Visits (fuel : Nat) (threadId : ThreadId) :
    Session S P -> List (Visit S P) -> Session S P -> Prop
  | nil (ses : Session S P) : Visits fuel threadId ses [] ses
  | cons {ses ses1 ses2 : Session S P} {visits : List (Visit S P)}
      {input : Input} {replies : Replies} (shared : Shared S P)
      (hstep : Session.step fuel threadId { ses with shared := shared } input =
        some (ses1, replies))
      (hrest : Visits fuel threadId ses1 visits ses2) :
      Visits fuel threadId ses
        (⟨{ ses with shared := shared }, input, ses1, replies⟩ :: visits) ses2

theorem visits_cons {fuel : Nat} {threadId : ThreadId} {ses ses' : Session S P}
    {x : Visit S P} {visits : List (Visit S P)}
    (h : Visits fuel threadId ses (x :: visits) ses') :
    exists shared,
      x.before = { ses with shared := shared } ∧
      Session.step fuel threadId { ses with shared := shared } x.input =
        some (x.after, x.replies) ∧
      Visits fuel threadId x.after visits ses' := by
  cases h with
  | cons shared hstep hrest => exact ⟨shared, rfl, hstep, hrest⟩

theorem visits_of_run {fuel : Nat} {threadId : ThreadId} {inputs : List Input}
    {ses ses' : Session S P} {replies : Replies}
    (hrun : Session.run fuel threadId inputs ses = some (ses', replies)) :
    exists visits, Visits fuel threadId ses visits ses' ∧
      visits.map Visit.input = inputs ∧ visits.flatMap Visit.replies = replies := by
  induction inputs generalizing ses replies with
  | nil =>
      cases hrun
      exact ⟨[], .nil _, rfl, rfl⟩
  | cons input inputs ih =>
      rcases Session.run_cons_eq_some.mp hrun with ⟨ses1, first, later, hstep, hrest, rfl⟩
      rcases ih hrest with ⟨visits, hvisits, rfl, rfl⟩
      exact ⟨_ :: visits, .cons ses.shared hstep hvisits, rfl, rfl⟩

/-- A chunk that a worker reads is a row of visits: the chunk, the frames that the
parser yields, and the end of the chunk unless reading failed. -/
theorem visits_of_read {fuel : Nat} {threadId : ThreadId} {sh : Shared S P}
    {c : Connection} {data : Bytes} {outcome : Shared.ReadOutcome S P}
    (hread : sh.read fuel threadId c data = some outcome) :
    exists visits frames ending ops,
      Visits fuel threadId ⟨c, sh, []⟩ visits
        ⟨outcome.connection, outcome.shared, ops⟩ ∧
      visits.map Visit.input =
        .received data :: Session.framed frames ++ ending ∧
      ((ending = [.finished] ∧ ops = []) ∨
        (ending = [] ∧ outcome.shouldClose = true)) := by
  rcases Session.run_of_read hread with
    ⟨frames, ending, replies, ops, hrun, hending⟩
  rcases visits_of_run hrun with ⟨visits, hvisits, hinputs, _⟩
  exact ⟨visits, frames, ending, ops, hvisits, hinputs, hending⟩

namespace Visit

/-- The input does not get around the check, and is not the password. -/
def Kept (x : Visit S P) : Prop :=
  match x.input with
  | .frame parser v =>
      ¬ GivesPassword { x.before.connection with parser := parser } v ∧
        ¬ Reaches (server S P) x.before.shared.world
          { x.before.connection with parser := parser } v
  | _ => True

theorem kept_of_command {x : Visit S P} {parser : RespParser} {v : RespValue}
    {cmd : Command} (hinput : x.input = .frame parser v)
    (hcmd : Command.fromResp v = .ok cmd)
    (hslow : forall f, cmd ≠ FastCommand.command f) (hexec : cmd ≠ .exec)
    (hauth : forall password, cmd ≠ .auth password) : x.Kept := by
  unfold Kept
  rw [hinput]
  constructor
  · rintro ⟨password, hdispatches, _⟩
    unfold Mode.dispatches at hdispatches
    rw [hcmd] at hdispatches
    dsimp only at hdispatches
    split_ifs at hdispatches
    exact hauth password (Option.some.inj hdispatches)
  · rintro (⟨f, hfast⟩ | ⟨hroute, _⟩)
    · rw [Connection.fastPath_eq_none hcmd hslow] at hfast
      cases hfast
    · unfold Connection.route at hroute
      rw [Connection.fastPath_eq_none hcmd hslow, hcmd] at hroute
      dsimp only at hroute
      split_ifs at hroute
      cases hroute
      exact hexec rfl

/-- What is shared is as before, and nothing is left to the service. -/
structure Unaffected (x : Visit S P) : Prop where
  store : x.after.shared.world.store = x.before.shared.world.store
  watch : x.after.shared.world.watch = x.before.shared.world.watch
  pubsub : x.after.shared.pubsub = x.before.shared.pubsub
  ops : x.after.ops = []

/-- The same input in a world with any other store. -/
structure Alike (x y : Visit S P) : Prop where
  input : y.input = x.input
  world : SameAside x.before.shared.world y.before.shared.world

/-- The same replies, down to the bytes. -/
structure RepliesAlike (x y : Visit S P) : Prop where
  replies : y.replies = x.replies
  connection : y.after.connection = x.after.connection

end Visit

namespace Session

/-- A session before authentication. -/
structure Locked (ses : Session S P) : Prop where
  authenticated : ses.connection.authenticated = false
  ops : ses.ops = []

variable {fuel : Nat} {threadId : ThreadId}

theorem locked_frame {ses ses' : Session S P} {parser : RespParser}
    {v : RespValue} {flow : Flow} (hlocked : Locked ses)
    (hpassword : ¬ GivesPassword { ses.connection with parser := parser } v)
    (hkept : ¬ Reaches (server S P) ses.shared.world
      { ses.connection with parser := parser } v)
    (hframe : ses.frame fuel parser v = some (ses', flow)) :
    Locked ses' ∧
      Visit.Unaffected ⟨ses, .frame parser v, ses', [(v, flow)]⟩ ∧
      forall shared, SameAside ses.shared.world shared.world ->
        exists ses1, frame fuel { ses with shared := shared } parser v =
            some (ses1, flow) ∧
          ses1.connection = ses'.connection ∧ ses1.ops = ses'.ops := by
  rcases frame_eq_some.mp hframe with ⟨c, world, hrun, rfl⟩
  have hlocked' :
      Connection.authenticated { ses.connection with parser := parser } = false :=
    hlocked.authenticated
  have hspares := spares_processFrame hlocked' hkept hrun
  have hmode := processFrame_mode hrun
  have hops : ses.ops ++ flow.ops = [] := by
    rw [hlocked.ops, hmode.2, leaves_of_locked v hlocked']
    rfl
  refine ⟨⟨?_, hops⟩, ⟨hspares.store, hspares.watch, rfl, hops⟩, ?_⟩
  · exact (congrArg Mode.authenticated hmode.1).trans
      (locked_after hlocked' hpassword)
  · intro shared hsame
    rcases hspares.elsewhere shared.world hsame with ⟨world', hrun', _⟩
    exact ⟨_, frame_eq_some.mpr ⟨c, world', hrun', rfl⟩, rfl, rfl⟩

theorem locked_step {ses ses' : Session S P} {input : Input} {replies : Replies}
    (hlocked : Locked ses)
    (hkept : Visit.Kept ⟨ses, input, ses', replies⟩)
    (hstep : ses.step fuel threadId input = some (ses', replies)) :
    Locked ses' ∧ Visit.Unaffected ⟨ses, input, ses', replies⟩ ∧
      forall shared, SameAside ses.shared.world shared.world ->
        exists ses1, step fuel threadId { ses with shared := shared } input =
            some (ses1, replies) ∧
          ses1.connection = ses'.connection ∧ ses1.ops = ses'.ops := by
  cases input with
  | received data =>
      cases hstep
      rcases (ses.connection.feed data).clearWritten_eq with
        ⟨buffer, position, hclear⟩
      refine ⟨⟨?_, hlocked.ops⟩, ⟨rfl, rfl, rfl, hlocked.ops⟩,
        fun shared _ => ⟨_, rfl, rfl, rfl⟩⟩
      rw [hclear]
      exact hlocked.authenticated
  | frame parser v =>
      rcases Option.map_eq_some_iff.mp hstep with ⟨⟨ses1, flow⟩, hframe, heq⟩
      cases heq
      rcases locked_frame hlocked hkept.1 hkept.2 hframe with
        ⟨hlocked', hunaffected, helsewhere⟩
      refine ⟨hlocked', ⟨hunaffected.store, hunaffected.watch,
        hunaffected.pubsub, hunaffected.ops⟩, fun shared hsame => ?_⟩
      rcases helsewhere shared hsame with ⟨ses2, hframe2, hconnection, hops⟩
      refine ⟨ses2, ?_, hconnection, hops⟩
      rw [step, hframe2]
      rfl
  | finished =>
      cases hstep
      rcases ses with ⟨c, shared, ops⟩
      cases hlocked.ops
      exact ⟨⟨hlocked.authenticated, rfl⟩, ⟨rfl, rfl, rfl, rfl⟩,
        fun shared _ => ⟨_, rfl, rfl, rfl⟩⟩
  | sent n =>
      cases hstep
      exact ⟨⟨hlocked.authenticated, hlocked.ops⟩, ⟨rfl, rfl, rfl, hlocked.ops⟩,
        fun shared _ => ⟨_, rfl, rfl, rfl⟩⟩

theorem locked_visits {ses ses' : Session S P} {visits : List (Visit S P)}
    (hvisits : Visits fuel threadId ses visits ses') (hlocked : Locked ses)
    (hkept : forall x, x ∈ visits -> x.Kept) :
    (forall x, x ∈ visits -> x.Unaffected) ∧
      forall other other' visits', other.connection = ses.connection ->
        other.ops = ses.ops -> Visits fuel threadId other visits' other' ->
        List.Forall₂ Visit.Alike visits visits' ->
        List.Forall₂ Visit.RepliesAlike visits visits' := by
  induction hvisits with
  | nil =>
      refine ⟨fun x hx => absurd hx List.not_mem_nil,
        fun other other' visits' _ _ _ halike => ?_⟩
      rw [List.forall₂_nil_left_iff.mp halike]
      exact List.Forall₂.nil
  | @cons ses ses1 ses2 visits input replies shared hstep hrest ih =>
      rw [List.forall_mem_cons] at hkept
      have hlocked' : Locked { ses with shared := shared } :=
        ⟨hlocked.authenticated, hlocked.ops⟩
      rcases locked_step hlocked' hkept.1 hstep with
        ⟨hlocked1, hunaffected, helsewhere⟩
      rcases ih hlocked1 hkept.2 with ⟨hall, hothers⟩
      refine ⟨List.forall_mem_cons.mpr ⟨hunaffected, hall⟩, ?_⟩
      intro other other' visits' hconnection hops hvisits' halike
      rcases List.forall₂_cons_left_iff.mp halike with
        ⟨y, visits'', hfirst, htail, rfl⟩
      rcases visits_cons hvisits' with ⟨shared', hbefore, hstep', hrest'⟩
      have hsame : { other with shared := shared' } =
          { ses with shared := shared' } := by
        rw [hconnection, hops]
      have hinput : y.input = input := hfirst.input
      have hworld : SameAside shared.world shared'.world := by
        have h := hfirst.world
        rw [hbefore] at h
        exact h
      rcases helsewhere shared' hworld with ⟨ses3, hstep3, hconnection3, hops3⟩
      rw [hinput, hsame] at hstep'
      have hboth := Option.some.inj (hstep'.symm.trans hstep3)
      have hafter : y.after = ses3 := congrArg Prod.fst hboth
      refine List.Forall₂.cons ⟨congrArg Prod.snd hboth, ?_⟩ ?_
      · rw [hafter]
        exact hconnection3
      · rw [← hafter] at hconnection3 hops3
        exact hothers _ _ _ hconnection3 hops3 hrest' htail

/-- As long as no frame gets around the check, a connection that has not given
the password changes nothing, leaves nothing to the service, and is sent the
same whatever the store holds. -/
theorem kept_before_auth {sh : Shared S P} {config : Config}
    (hrequired : config.authRequired = true) {addr : Option String}
    {connectionId : Nat} {now : UInt64} {visits : List (Visit S P)}
    {ses' : Session S P}
    (hvisits : Visits fuel threadId
      ⟨(sh.accept threadId config addr connectionId now).1,
        (sh.accept threadId config addr connectionId now).2, []⟩ visits ses')
    (hkept : forall x, x ∈ visits -> x.Kept) :
    (forall x, x ∈ visits -> x.Unaffected) ∧
      forall shared other' visits',
        Visits fuel threadId
          ⟨(sh.accept threadId config addr connectionId now).1, shared, []⟩
          visits' other' ->
        List.Forall₂ Visit.Alike visits visits' ->
        List.Forall₂ Visit.RepliesAlike visits visits' := by
  have hlocked : @Locked S P
      ⟨(sh.accept threadId config addr connectionId now).1,
        (sh.accept threadId config addr connectionId now).2, []⟩ :=
    ⟨congrArg not hrequired, rfl⟩
  rcases locked_visits hvisits hlocked hkept with ⟨hall, hothers⟩
  exact ⟨hall, fun shared other' visits' hvisits' halike =>
    hothers ⟨_, shared, []⟩ other' visits' rfl rfl hvisits' halike⟩

/-- A connection that has to give a password. -/
def guest : Connection × Shared mapStore idlePlatform :=
  freshShared.accept 0 { requirepass := some "secret" } none 0 0

/-- A command that is refused, a watched key, and a command that is queued and
given up. -/
def guestCommands : List (List String) :=
  [["DEL", "k"], ["WATCH", "k"], ["MULTI"], ["DEL", "k"], ["DISCARD"]]

def guestInputs : List Input :=
  guestCommands.map fun words => .frame .new (request words)

theorem kept_before_auth_guest :
    exists ses visits,
      Visits 0 0 ⟨guest.1, guest.2, []⟩ visits ses ∧
      visits.map Visit.input = guestInputs ∧
      (visits.flatMap Visit.replies).map Prod.snd =
        [Connection.error "-NOAUTH Authentication required.",
          .reply (.simpleString (asBytes "OK")),
          .reply (.simpleString (asBytes "OK")),
          .reply (.simpleString (asBytes "QUEUED")),
          .reply (.simpleString (asBytes "OK"))] ∧
      (forall x, x ∈ visits -> x.Unaffected) ∧
      forall shared other' visits',
        Visits 0 0 ⟨guest.1, shared, []⟩ visits' other' ->
        List.Forall₂ Visit.Alike visits visits' ->
        List.Forall₂ Visit.RepliesAlike visits visits' := by
  have hrun : exists ses replies,
      run 0 0 guestInputs ⟨guest.1, guest.2, []⟩ = some (ses, replies) ∧
      replies.map Prod.snd =
        [Connection.error "-NOAUTH Authentication required.",
          .reply (.simpleString (asBytes "OK")),
          .reply (.simpleString (asBytes "OK")),
          .reply (.simpleString (asBytes "QUEUED")),
          .reply (.simpleString (asBytes "OK"))] := ⟨_, _, rfl, rfl⟩
  rcases hrun with ⟨ses, replies, hrun, hreplies⟩
  rcases visits_of_run hrun with ⟨visits, hvisits, hinputs, rfl⟩
  have hslow : forall words, words ∈ guestCommands ->
      exists cmd, Command.fromResp (request words) = .ok cmd ∧
        (forall f, cmd ≠ FastCommand.command f) ∧ cmd ≠ .exec ∧
        forall password, cmd ≠ .auth password := by
    have hfast : forall f, FastCommand.command f ≠ .discard ∧
        FastCommand.command f ≠ .multi ∧ (forall keys, FastCommand.command f ≠ .del keys) ∧
        forall keys, FastCommand.command f ≠ .watch keys := by
      intro f
      cases f <;> exact ⟨nofun, nofun, nofun, nofun⟩
    have hdel : exists cmd, Command.fromResp (request ["DEL", "k"]) = .ok cmd ∧
        (forall f, cmd ≠ FastCommand.command f) ∧ cmd ≠ .exec ∧
        forall password, cmd ≠ .auth password :=
      ⟨_, rfl, fun f heq => (hfast f).2.2.1 _ heq.symm, nofun, nofun⟩
    refine List.forall_mem_cons.mpr ⟨hdel, ?_⟩
    refine List.forall_mem_cons.mpr
      ⟨⟨_, rfl, fun f heq => (hfast f).2.2.2 _ heq.symm, nofun, nofun⟩, ?_⟩
    refine List.forall_mem_cons.mpr
      ⟨⟨_, rfl, fun f heq => (hfast f).2.1 heq.symm, nofun, nofun⟩, ?_⟩
    refine List.forall_mem_cons.mpr ⟨hdel, ?_⟩
    exact List.forall_mem_singleton.mpr
      ⟨_, rfl, fun f heq => (hfast f).1 heq.symm, nofun, nofun⟩
  have hkept : forall x, x ∈ visits -> x.Kept := by
    intro x hx
    have hinput : x.input ∈ visits.map Visit.input := List.mem_map_of_mem hx
    rw [hinputs] at hinput
    rcases List.mem_map.mp hinput with ⟨words, hwords, hframe⟩
    rcases hslow words hwords with ⟨cmd, hcmd, hslow, hexec, hauth⟩
    exact Visit.kept_of_command hframe.symm hcmd hslow hexec hauth
  have hconclusion := kept_before_auth rfl hvisits hkept
  exact ⟨ses, visits, hvisits, hinputs, hreplies, hconclusion⟩

/-- A plain `SET` is carried out for the guest. -/
theorem set_before_auth :
    exists ses x,
      Visits 0 0 ⟨guest.1, guest.2, []⟩ [x] ses ∧
      x.input = .frame .new (request ["SET", "k", "v"]) ∧
      ¬ GivesPassword { x.before.connection with parser := .new }
        (request ["SET", "k", "v"]) ∧
      x.after.connection.authenticated = false ∧ ¬ x.Unaffected := by
  have hstep : exists ses1 replies,
      step 0 0 ⟨guest.1, guest.2, []⟩ (.frame .new (request ["SET", "k", "v"])) =
        some (ses1, replies) ∧
      ses1.connection.authenticated = false ∧
      (mapStore.reply (.getBytes (asBytes "k")) ses1.shared.world.store).1 ≠
        (mapStore.reply (.getBytes (asBytes "k")) guest.2.world.store).1 :=
    ⟨_, _, rfl, rfl, nofun⟩
  rcases hstep with ⟨ses1, replies, hstep, hlocked, hstore⟩
  have hvisits := @Visits.cons _ _ 0 0 ⟨guest.1, guest.2, []⟩ _ _ _ _ _ guest.2
    hstep (.nil ses1)
  refine ⟨ses1, _, hvisits, rfl, ?_, hlocked, ?_⟩
  · rintro ⟨password, hdispatches, _⟩
    cases hdispatches
  · intro hunaffected
    exact hstore (congrArg
      (fun s => (mapStore.reply (.getBytes (asBytes "k")) s).1) hunaffected.store)

end Session

end FeoxServer
