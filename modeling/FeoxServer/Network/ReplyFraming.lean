import FeoxServer.Network.DirectExecution
import FeoxServer.Network.Rejections
import FeoxServer.Protocol.ReplyLines

/-!
# Replies as frames

What the connection writes for a command is one frame, and a parser reads it
back, unless the reply repeats a word of the client that has a line end in it.
-/

namespace FeoxServer

open Foundation Prog

namespace Flow

/-- The values that are written for a frame at once. -/
def written : Flow -> List RespValue
  | fast r => [r.toResp]
  | reply r => [r]
  | quit => [CommandExecutor.okReply]
  | deferred _ | failed _ => []

theorem bytes_eq_written (flow : Flow) :
    flow.bytes = flow.written.flatMap formatRespResponse := by
  cases flow with
  | fast r => rw [bytes, r.bytes_eq, written, List.flatMap_singleton]
  | reply r => rw [bytes, written, List.flatMap_singleton]
  | quit => decide
  | deferred op => rfl
  | failed e => rfl

end Flow

/-- Errors of the store are single lines. -/
def PlainStore (S : FeoxStore) : Prop :=
  forall c s, Plain c (S.reply c s).1

theorem MapStore.plainStore : PlainStore mapStore := by
  have hnone : OneLine (asBytes keyNotFound.text) := by decide
  have hinvalid : OneLine (asBytes invalidOperation.text) := by decide
  intro c s text htext
  cases c with
  | getBytes key =>
      simp only [mapStore, reply, StoreCall.failureText] at htext
      split at htext
      · cases htext
      · cases htext
        exact hnone
  | delete key =>
      simp only [mapStore, reply, StoreCall.failureText] at htext
      split at htext
      · cases htext
      · cases htext
        exact hnone
  | compareAndSwap key expected newValue =>
      simp only [mapStore, reply, compareAndSwap, StoreCall.failureText] at htext
      split at htext
      · split at htext <;> cases htext
      · cases htext
        exact hnone
  | atomicIncrement key delta =>
      simp only [mapStore, reply, atomicIncrement, StoreCall.failureText] at htext
      split at htext
      · cases htext
      · split at htext
        · cases htext
        · cases htext
          exact hinvalid
  | updateTtl key _ | persist key =>
      simp only [mapStore, reply, modify, StoreCall.failureText] at htext
      split at htext
      · cases htext
      · cases htext
        exact hnone
  | getTtl key =>
      simp only [mapStore, reply, StoreCall.failureText] at htext
      split at htext
      · cases htext
      · cases htext
        exact hnone
  | jsonPatch key patch =>
      cases htext
      exact hinvalid
  | _ => cases htext
theorem PlainStore.answers {S : FeoxStore} (h : PlainStore S) (P : Platform)
    (c : Call) (w : World S P) : PlainAnswer c ((server S P).reply c w).1 := by
  cases c with
  | store c => exact h c w.store
  | _ => exact trivial

namespace Connection

/-!
# Words that a reply repeats
-/

/-- A subcommand of `PUBSUB` that the service does not get. -/
def unknownSubcommand (cmd : Command) : List String :=
  match cmd.toPubsubOp, cmd with
  | none, .pubSub subcommand _ => [subcommand]
  | _, _ => []

def wordsOf (c : Connection) (cmd : Command) : List String :=
  if !c.authenticated then []
  else if cmd.isPubsubCommand then unknownSubcommand cmd
  else cmd.repeated.toList

/-- Whether `EXEC` finds the watched keys unchanged. -/
def watchHolds (T : Service Call Answer) (s : T.State) (c : Connection) : Bool :=
  match (checkKeysUnchanged c.watchedVersions).run T s with
  | some (unchanged, _) => unchanged
  | none => false

def dispatchedWords (T : Service Call Answer) (s : T.State) (c : Connection)
    (cmd : Command) : List String :=
  if cmd = .exec then
    if c.transactionState = .queuing ∧ c.watchHolds T s = true then
      c.queuedCommands.filterMap Command.repeated
    else []
  else if cmd.isTransactionCommand ∨ c.transactionState = .queuing then []
  else c.wordsOf cmd

/-- The words of the client that the reply to a frame repeats. -/
def repeats (T : Service Call Answer) (s : T.State) (c : Connection)
    (v : RespValue) : List String :=
  match c.route v with
  | .dispatched cmd => c.dispatchedWords T s cmd
  | _ => []

/-- The words are single lines. -/
def SingleLines (words : List String) : Prop :=
  forall word, word ∈ words -> OneLine (asBytes word)

theorem singleLines_nil : SingleLines [] :=
  fun _ hword => absurd hword List.not_mem_nil

theorem safeIff_toList {repeated : Option String} {r : RespValue}
    (h : SafeIff repeated r) : LineSafe r <-> SingleLines repeated.toList := by
  unfold SingleLines
  simpa [SafeIff, Option.mem_toList] using h

variable {T : Service Call Answer} {fuel : Nat}

theorem respond_singleLines (hT : forall c s, PlainAnswer c (T.reply c s).1)
    {x : CommandExecutor} {cmd : Command} {r : RespValue} {s s' : T.State}
    (hrun : (x.respond fuel cmd).run T s = some (r, s')) :
    LineSafe r <-> SingleLines cmd.repeated.toList :=
  safeIff_toList (run_returns T hT (CommandExecutor.respond_safeIff fuel x cmd) hrun)

theorem execute_singleLines (hT : forall c s, PlainAnswer c (T.reply c s).1)
    {x x' : CommandExecutor} {cmd : Command} {r : RespValue} {s s' : T.State}
    (hrun : (x.execute fuel cmd).run T s = some ((r, x'), s')) :
    LineSafe r <-> SingleLines cmd.repeated.toList := by
  rcases run_execute hrun with ⟨n, hrespond, _⟩
  exact respond_singleLines hT hrespond

theorem fast_lineSafe (hT : forall c s, PlainAnswer c (T.reply c s).1)
    {f : FastCommand} {r : FastReply} {s s' : T.State}
    (hrun : f.run.run T s = some (r, s')) : LineSafe r.toResp := by
  have hrespond := f.run_bind_toResp 0 (.new { requirepass := none })
  have hreply : (CommandExecutor.respond 0 (.new { requirepass := none })
      f.command).run T s = some (r.toResp, s') := by
    rw [← hrespond, run_bind_of_some _ _ hrun]
    rfl
  refine (respond_singleLines hT hreply).mpr ?_
  cases f <;> exact singleLines_nil

theorem singleLines_append {front back : List String} :
    SingleLines (front ++ back) <-> SingleLines front ∧ SingleLines back :=
  List.forall_mem_append

theorem results_singleLines (hT : forall c s, PlainAnswer c (T.reply c s).1)
    {x : CommandExecutor} {cmds : List Command} {results : List RespValue}
    {s s' : T.State} (h : Results T fuel x s cmds results s') :
    (forall r, r ∈ results -> LineSafe r) <->
      SingleLines (cmds.filterMap Command.repeated) := by
  induction h with
  | nil => simp [SingleLines]
  | @cons x x1 s s1 s' cmd r cmds results hrun _ ih =>
      have hwords : (cmd :: cmds).filterMap Command.repeated =
          cmd.repeated.toList ++ cmds.filterMap Command.repeated := by
        rw [List.filterMap_cons]
        cases cmd.repeated <;> rfl
      rw [List.forall_mem_cons, ih, execute_singleLines hT hrun, hwords,
        singleLines_append]

theorem singleLines_singleton {word : String} :
    SingleLines [word] <-> OneLine (asBytes word) :=
  List.forall_mem_singleton

theorem safe_without_words {r : RespValue} (h : LineSafe r) :
    LineSafe r <-> SingleLines [] :=
  iff_of_true h singleLines_nil

/-- What is left to the service writes nothing; other publish and subscribe
commands repeat an unknown subcommand. -/
theorem pubsub_singleLines {cmd : Command} {r : RespValue}
    (h : pubsub cmd = .reply r) :
    LineSafe r <-> SingleLines (unknownSubcommand cmd) := by
  unfold pubsub at h
  unfold unknownSubcommand
  split at h
  · cases h
  · rename_i hnone
    rw [hnone]
    split at h
    · rename_i subcommand args
      cases h
      rw [singleLines_singleton, lineSafe_error_iff]
      exact oneLine_quoted _ _ _ (by decide) (by decide) (by decide)
    · rename_i hother
      cases h
      split
      · exact absurd rfl (hother _ _)
      · exact safe_without_words (lineSafe_fixed _ (by decide))

theorem answer_singleLines (hT : forall c s, PlainAnswer c (T.reply c s).1)
    {c c' : Connection} {cmd : Command} {r : RespValue} {s s' : T.State}
    (hrun : (answer fuel c cmd).run T s = some ((c', .reply r), s')) :
    LineSafe r <-> SingleLines (c.wordsOf cmd) := by
  have hnow : (executeNow fuel c cmd).run T s = some ((c', .reply r), s') ->
      (LineSafe r <-> SingleLines cmd.repeated.toList) := by
    intro hexecute
    rcases (run_bind_eq_some _).mp hexecute with ⟨⟨r1, x⟩, s1, hrespond, hdone⟩
    cases hdone
    exact execute_singleLines hT hrespond
  unfold answer at hrun
  split at hrun
  · rename_i password
    have hwords : c.wordsOf (.auth password) = [] := by
      unfold wordsOf
      split <;> rfl
    rw [hwords]
    unfold auth at hrun
    split_ifs at hrun
    · cases hrun
      exact safe_without_words (lineSafe_fixed _ (by decide))
    · cases hrun
      exact safe_without_words (LineSafe.simpleString (by decide))
    · cases hrun
      exact safe_without_words (lineSafe_fixed _ (by decide))
  · unfold wordsOf
    split_ifs at hrun with hunknown hpubsub
    · rw [if_pos hunknown]
      unfold unauthenticated at hrun
      split at hrun
      · exact hnow hrun
      · cases hrun
        exact safe_without_words (lineSafe_fixed _ (by decide))
    · rw [if_neg hunknown, if_pos hpubsub]
      injection hrun with hrun
      injection hrun with hpair _
      injection hpair with _ hflow
      exact pubsub_singleLines hflow
    · rw [if_neg hunknown, if_neg hpubsub]
      exact hnow hrun

theorem dispatch_singleLines (hT : forall c s, PlainAnswer c (T.reply c s).1)
    {c c' : Connection} {cmd : Command} {r : RespValue} {s s' : T.State}
    (hrun : (dispatch fuel c cmd).run T s = some ((c', .reply r), s')) :
    LineSafe r <-> SingleLines (c.dispatchedWords T s cmd) := by
  have hok : LineSafe r -> (LineSafe r <-> SingleLines []) := safe_without_words
  unfold dispatchedWords
  by_cases hordinary : cmd.isTransactionCommand = false
  · have hexec : cmd ≠ .exec := by
      rintro rfl
      cases hordinary
    rw [if_neg hexec]
    rw [dispatch_ordinary hordinary] at hrun
    split_ifs at hrun with hqueuing
    · rw [if_pos (Or.inr hqueuing)]
      cases hrun
      exact hok (LineSafe.simpleString (by decide))
    · have hplain : ¬ (cmd.isTransactionCommand = true ∨
          c.transactionState = .queuing) := by
        rw [hordinary]
        exact fun h => h.elim Bool.false_ne_true hqueuing
      rw [if_neg hplain]
      exact answer_singleLines hT hrun
  · cases cmd with
    | exec =>
        rw [if_pos rfl]
        by_cases hqueuing : c.transactionState = .queuing
        · rcases run_exec_cases hqueuing hrun with
            ⟨hchanged, _, hflow⟩ | ⟨s1, results, x, hunchanged, hall, _, hflow⟩
          · have hfails : c.watchHolds T s = false := by
              rw [watchHolds, hchanged]
            rw [hfails, if_neg (fun h => Bool.false_ne_true h.2)]
            cases hflow
            exact hok (LineSafe.bulkString none)
          · have hholds : c.watchHolds T s = true := by
              rw [watchHolds, hunchanged]
            rw [if_pos ⟨hqueuing, hholds⟩]
            rcases results_of_executeAll hall with ⟨results', heq, hresults⟩
            rw [List.nil_append] at heq
            cases hflow
            rw [lineSafe_array_iff, heq]
            exact results_singleLines hT hresults
        · rw [if_neg (fun h => hqueuing h.1)]
          simp only [dispatch, exec, if_pos hqueuing] at hrun
          cases hrun
          exact hok (lineSafe_fixed _ (by decide))
    | multi =>
        simp only [dispatch, beginTransaction] at hrun
        split_ifs at hrun
        · cases hrun
          exact hok (lineSafe_fixed _ (by decide))
        · cases hrun
          exact hok (LineSafe.simpleString (by decide))
    | discard =>
        simp only [dispatch, discard] at hrun
        split_ifs at hrun
        · cases hrun
          exact hok (lineSafe_fixed _ (by decide))
        · cases hrun
          exact hok (LineSafe.simpleString (by decide))
    | watch keys =>
        simp only [dispatch, watch] at hrun
        split_ifs at hrun
        · cases hrun
          exact hok (lineSafe_fixed _ (by decide))
        · rcases (run_bind_eq_some _).mp hrun with ⟨watched, s1, _, hdone⟩
          cases hdone
          exact hok (LineSafe.simpleString (by decide))
    | unwatch =>
        cases hrun
        exact hok (LineSafe.simpleString (by decide))
    | _ => exact absurd rfl hordinary

theorem dispatchedWords_noted (s : T.State) (c : Connection) (cmd : Command) :
    dispatchedWords T s (c.countCommand.noteClientName cmd) cmd =
      c.dispatchedWords T s cmd := by
  rcases c.countCommand.noteClientName_eq cmd with ⟨name, hname⟩
  rw [hname]
  rfl

/-- What is written for a frame is made of single lines exactly if the words
that it repeats are. -/
theorem written_singleLines (hT : forall c s, PlainAnswer c (T.reply c s).1)
    {c c' : Connection} {v r : RespValue} {flow : Flow} {s s' : T.State}
    (hrun : (c.processFrame fuel v).run T s = some ((c', flow), s'))
    (hwritten : flow.written = [r]) :
    LineSafe r <-> SingleLines (c.repeats T s v) := by
  rcases run_processFrame.mp hrun with ⟨c1, hframe, _⟩
  rw [frameFlow_eq] at hframe
  unfold repeats
  cases hroute : c.route v with
  | fast f =>
      rw [hroute] at hframe
      rcases (run_bind_eq_some _).mp hframe with ⟨reply, s1, hfast, hdone⟩
      cases hdone
      injection hwritten with hreply
      rw [← hreply]
      exact safe_without_words (fast_lineSafe hT hfast)
  | invalid e =>
      rw [hroute] at hframe
      cases hframe
      cases hwritten
  | quit =>
      rw [hroute] at hframe
      cases hframe
      injection hwritten with hreply
      rw [← hreply]
      exact safe_without_words CommandExecutor.lineSafe_okReply
  | refused =>
      rw [hroute] at hframe
      cases hframe
      injection hwritten with hreply
      rw [← hreply]
      exact safe_without_words (lineSafe_fixed _ (by decide))
  | dispatched cmd =>
      rw [hroute] at hframe
      rcases run_anything (dispatch_answers fuel _ cmd) hframe with
        ⟨reply, hflow⟩ | ⟨op, hflow⟩
      · obtain rfl : flow = .reply reply := hflow
        injection hwritten with hreply
        change LineSafe r <-> SingleLines (c.dispatchedWords T s cmd)
        rw [← hreply, ← dispatchedWords_noted s c cmd]
        exact dispatch_singleLines hT hframe
      · obtain rfl : flow = .deferred op := hflow
        cases hwritten

/-- The parser reads exactly the reply from what a frame has appended, with
nothing left, if and only if the words that the reply repeats are single
lines. -/
theorem reply_framed_iff {S : FeoxStore} (hS : PlainStore S) {P : Platform}
    {c c' : Connection} {v r : RespValue} {flow : Flow} {w w' : World S P}
    (hrun : (c.processFrame fuel v).run (server S P) w = some ((c', flow), w'))
    (hwritten : flow.written = [r]) (hfits : Fits r) :
    exists appended,
      c'.writeBuffer = c.writeBuffer ++ appended ∧
      (drain parseValue appended = ([r], .waiting []) <->
        SingleLines (c.repeats (server S P) w v)) := by
  refine ⟨flow.bytes, (processFrame_writes hrun).2.2, ?_⟩
  rw [flow.bytes_eq_written, hwritten, List.flatMap_singleton,
    drain_formatRespResponse_iff hfits]
  exact written_singleLines (hS.answers P) hrun hwritten

/-- Both the refusal of `CONFIG x` and the reply to an `EXEC` behind it repeat the
word, and both are one frame. -/
theorem reply_framed_iff_config :
    exists c1 w1 c2 w2 c3 w3 c4 w4 e refused executed,
      (newcomer.1.processFrame 0 (request ["CONFIG", "x"])).run
          (server mapStore idlePlatform) newcomer.2.world =
        some ((c1, .reply (.error e)), w1) ∧
      (c1.processFrame 0 (request ["MULTI"])).run
          (server mapStore idlePlatform) w1 =
        some ((c2, .reply (.simpleString (asBytes "OK"))), w2) ∧
      (c2.processFrame 0 (request ["CONFIG", "x"])).run
          (server mapStore idlePlatform) w2 =
        some ((c3, .reply (.simpleString (asBytes "QUEUED"))), w3) ∧
      (c3.processFrame 0 (request ["EXEC"])).run
          (server mapStore idlePlatform) w3 =
        some ((c4, .reply (.array (some [.error e]))), w4) ∧
      newcomer.1.repeats (server mapStore idlePlatform) newcomer.2.world
        (request ["CONFIG", "x"]) = ["x"] ∧
      c3.repeats (server mapStore idlePlatform) w3 (request ["EXEC"]) = ["x"] ∧
      c1.writeBuffer = newcomer.1.writeBuffer ++ refused ∧
      c4.writeBuffer = c3.writeBuffer ++ executed ∧
      drain parseValue refused = ([.error e], .waiting []) ∧
      drain parseValue executed = ([.array (some [.error e])], .waiting []) := by
  have hrun : exists c1 w1 c2 w2 c3 w3 c4 w4 e,
      (newcomer.1.processFrame 0 (request ["CONFIG", "x"])).run
          (server mapStore idlePlatform) newcomer.2.world =
        some ((c1, .reply (.error e)), w1) ∧
      (c1.processFrame 0 (request ["MULTI"])).run
          (server mapStore idlePlatform) w1 =
        some ((c2, .reply (.simpleString (asBytes "OK"))), w2) ∧
      (c2.processFrame 0 (request ["CONFIG", "x"])).run
          (server mapStore idlePlatform) w2 =
        some ((c3, .reply (.simpleString (asBytes "QUEUED"))), w3) ∧
      (c3.processFrame 0 (request ["EXEC"])).run
          (server mapStore idlePlatform) w3 =
        some ((c4, .reply (.array (some [.error e]))), w4) ∧
      newcomer.1.repeats (server mapStore idlePlatform) newcomer.2.world
        (request ["CONFIG", "x"]) = ["x"] ∧
      c3.repeats (server mapStore idlePlatform) w3 (request ["EXEC"]) = ["x"] :=
    ⟨_, _, _, _, _, _, _, _, _, rfl, rfl, rfl, rfl, rfl, rfl⟩
  rcases hrun with ⟨c1, w1, c2, w2, c3, w3, c4, w4, e, hrefused, hmulti, hqueued,
    hexecuted, hword, hwords⟩
  have hsingle : SingleLines ["x"] :=
    List.forall_mem_singleton.mpr (oneLine_of_not_mem (by decide))
  have hfits : Fits (.array (some [.error e])) :=
    .array (show 1 < 2 ^ 63 by decide) (List.forall_mem_singleton.mpr (.error e))
  rcases reply_framed_iff MapStore.plainStore hrefused rfl (.error e) with
    ⟨refused, hbuffer1, hiff1⟩
  rcases reply_framed_iff MapStore.plainStore hexecuted rfl hfits with
    ⟨executed, hbuffer4, hiff4⟩
  rw [hword] at hiff1
  rw [hwords] at hiff4
  exact ⟨c1, w1, c2, w2, c3, w3, c4, w4, e, refused, executed, hrefused, hmulti,
    hqueued, hexecuted, hword, hwords, hbuffer1, hbuffer4, hiff1.mpr hsingle,
    hiff4.mpr hsingle⟩

/-- A subcommand with a line end becomes a frame of its own. -/
theorem injected_frame :
    exists c' flow w' e,
      (newcomer.1.processFrame 0 (request ["CONFIG", "x\r\n+OK"])).run
        (server mapStore idlePlatform) newcomer.2.world = some ((c', flow), w') ∧
      flow.written = [.error e] ∧
      c'.writeBuffer = newcomer.1.writeBuffer ++ flow.bytes ∧
      (drain parseValue flow.bytes).1.length = 2 ∧
      drain parseValue flow.bytes ≠ ([.error e], .waiting []) := by
  have hrun : exists c' w' e,
      (newcomer.1.processFrame 0 (request ["CONFIG", "x\r\n+OK"])).run
        (server mapStore idlePlatform) newcomer.2.world =
        some ((c', .reply (.error e)), w') ∧
      (drain parseValue (Flow.reply (.error e)).bytes).1.length = 2 :=
    ⟨_, _, _, rfl, rfl⟩
  rcases hrun with ⟨c', w', e, hrun, htwo⟩
  refine ⟨c', _, w', e, hrun, rfl, (processFrame_writes hrun).2.2, htwo, ?_⟩
  intro hone
  rw [hone] at htwo
  cases htwo

end Connection

end FeoxServer
