import FeoxServer.Protocol.Executor
import FeoxServer.Protocol.RespRoundTrip

/-!
# Lines in replies

Bulk strings carry any bytes, but an error is a line.  A few errors repeat a
word of the command; all others are fixed texts or texts of the store.
-/

namespace FeoxServer

open Foundation Prog

/-!
# Texts with a fixed frame
-/

theorem oneLine_append_left {front : Bytes} (b : Bytes)
    (hfront : (13 : UInt8) ∉ front) : OneLine (front ++ b) <-> OneLine b := by
  induction front with
  | nil => rfl
  | cons kind front ih =>
      rw [List.mem_cons, not_or] at hfront
      rw [List.cons_append, oneLine_cons (Ne.symm hfront.1)]
      exact ih hfront.2

/-- A back that neither holds a carriage return nor starts with a line feed
makes no line end. -/
theorem oneLine_append_right {b back : Bytes} (hcr : (13 : UInt8) ∉ back)
    (hlf : back.head? ≠ some 10) : OneLine (b ++ back) <-> OneLine b := by
  have hiff : forall j, CrlfAt (b ++ back) j <-> CrlfAt b j := by
    intro j
    unfold CrlfAt
    constructor
    · rintro ⟨hj, hj'⟩
      have hlt : j < b.length := by
        by_contra hge
        rw [List.getElem?_append_right (Nat.not_lt.mp hge)] at hj
        exact hcr (List.mem_of_getElem? hj)
      refine ⟨by rwa [List.getElem?_append_left hlt] at hj, ?_⟩
      have hlt' : j + 1 < b.length := by
        by_contra hge
        have hzero : j + 1 - b.length = 0 := by omega
        rw [List.getElem?_append_right (Nat.not_lt.mp hge), hzero,
          ← List.head?_eq_getElem?] at hj'
        exact hlf hj'
      rwa [List.getElem?_append_left hlt'] at hj'
    · rintro ⟨hj, hj'⟩
      have hlt' : j + 1 < b.length := (List.getElem?_eq_some_iff.mp hj').1
      rw [List.getElem?_append_left (by omega),
        List.getElem?_append_left hlt']
      exact ⟨hj, hj'⟩
  unfold OneLine
  simp only [hiff]

theorem oneLine_quoted (front text back : String)
    (hfront : (13 : UInt8) ∉ asBytes front) (hcr : (13 : UInt8) ∉ asBytes back)
    (hlf : (asBytes back).head? ≠ some 10) :
    OneLine (asBytes (front ++ text ++ back)) <-> OneLine (asBytes text) := by
  rw [asBytes_append, asBytes_append, oneLine_append_right hcr hlf,
    oneLine_append_left _ hfront]

/-!
# Single lines
-/

theorem lineSafe_error_iff {e : String} :
    LineSafe (.error e) <-> OneLine (asBytes e) := by
  constructor
  · intro h
    cases h with
    | error he => exact he
  · exact LineSafe.error

theorem lineSafe_array_iff {items : List RespValue} :
    LineSafe (.array (some items)) <-> forall v, v ∈ items -> LineSafe v := by
  constructor
  · intro h
    cases h with
    | array hitems => exact hitems
  · exact LineSafe.array

theorem lineSafe_fixed (e : String) (h : (13 : UInt8) ∉ asBytes e) :
    LineSafe (.error e) :=
  LineSafe.error (oneLine_of_not_mem h)

namespace CommandExecutor

theorem lineSafe_okReply : LineSafe okReply :=
  LineSafe.simpleString (by decide)

theorem lineSafe_bulkArray (values : List Bytes) : LineSafe (bulkArray values) := by
  refine LineSafe.array fun v hv => ?_
  rcases List.mem_map.mp hv with ⟨value, _, rfl⟩
  exact LineSafe.bulkString _

theorem lineSafe_commandDef (d : CommandDef) :
    LineSafe (.array (some d.toRespArray)) := by
  have htexts : forall texts : List String,
      LineSafe (.array (some (texts.map CommandDef.bulkText))) := by
    intro texts
    refine LineSafe.array fun v hv => ?_
    rcases List.mem_map.mp hv with ⟨text, _, rfl⟩
    exact LineSafe.bulkString _
  refine LineSafe.array fun v hv => ?_
  simp only [CommandDef.toRespArray, List.mem_cons, List.not_mem_nil,
    or_false] at hv
  rcases hv with rfl | rfl | rfl | rfl | rfl | rfl | rfl | rfl | rfl | rfl
  all_goals first
    | exact LineSafe.bulkString _
    | exact LineSafe.integer _
    | exact htexts _
    | exact LineSafe.array (by simp)

theorem lineSafe_allCommands : LineSafe allCommands := by
  refine LineSafe.array fun v hv => ?_
  rcases List.mem_map.mp hv with ⟨d, _, rfl⟩
  exact lineSafe_commandDef d

end CommandExecutor

/-!
# Answers of the store
-/

def failureText {α : Type} : Except FeoxError α -> Option String
  | .ok _ => none
  | .error e => some e.text

def StoreCall.failureText : (c : StoreCall) -> StoreAnswer c -> Option String
  | .getBytes _, a => FeoxServer.failureText a
  | .containsKey _, _ => none
  | .insert _ _, a => FeoxServer.failureText a
  | .insertBytes _ _, a => FeoxServer.failureText a
  | .insertWithTimestamp _ _, a => FeoxServer.failureText a
  | .insertBytesWithTimestamp _ _, a => FeoxServer.failureText a
  | .insertBytesWithTtlAndTimestamp _ _ _, a => FeoxServer.failureText a
  | .delete _, a => FeoxServer.failureText a
  | .compareAndSwap _ _ _, a => FeoxServer.failureText a
  | .atomicIncrement _ _, a => FeoxServer.failureText a
  | .updateTtl _ _, a => FeoxServer.failureText a
  | .getTtl _, a => FeoxServer.failureText a
  | .persist _, a => FeoxServer.failureText a
  | .jsonPatch _ _, a => FeoxServer.failureText a
  | .rangeQuery _ _ _, a => FeoxServer.failureText a
  | .stats, _ => none

def Plain (c : StoreCall) (a : StoreAnswer c) : Prop :=
  forall text, c.failureText a = some text -> OneLine (asBytes text)

def PlainAnswer : (c : Call) -> Answer c -> Prop
  | .store c, a => Plain c a
  | _, _ => True

namespace CommandExecutor

theorem lineSafe_storeError {e : FeoxError} (h : OneLine (asBytes e.text)) :
    LineSafe (storeError e) := by
  unfold storeError
  rw [lineSafe_error_iff, asBytes_append,
    oneLine_append_left _ (by decide)]
  exact h

theorem lineSafe_commandError {e : Error} (h : OneLine (asBytes e.display)) :
    LineSafe (commandError e) := by
  unfold commandError
  rw [lineSafe_error_iff, asBytes_append,
    oneLine_append_left _ (by decide)]
  exact h

theorem lineSafe_missingReply {missing : Int64} {e : FeoxError}
    (h : OneLine (asBytes e.text)) : LineSafe (missingReply missing e) := by
  unfold missingReply
  split
  · exact LineSafe.integer _
  · exact lineSafe_storeError h

end CommandExecutor

def PlainResult {α : Type} (r : Except Error α) : Prop :=
  forall e, r = .error e -> OneLine (asBytes e.display)

@[simp] theorem plainResult_ok {α : Type} (a : α) :
    PlainResult (.ok a : Except Error α) := by
  intro e h
  cases h

theorem plainResult_database {α : Type} {e : FeoxError}
    (h : OneLine (asBytes e.text)) :
    PlainResult (.error (.database e) : Except Error α) := by
  intro e' he
  cases he
  rw [Error.display_database, asBytes_append, oneLine_append_left _ (by decide)]
  exact h

theorem plainResult_system {α : Type} (text : String)
    (h : (13 : UInt8) ∉ asBytes (Error.system text).display) :
    PlainResult (.error (.system text) : Except Error α) := by
  intro e he
  cases he
  exact oneLine_of_not_mem h

theorem plainResult_protocol {α : Type} (text : String)
    (h : (13 : UInt8) ∉ asBytes (Error.protocol text).display) :
    PlainResult (.error (.protocol text) : Except Error α) := by
  intro e he
  cases he
  exact oneLine_of_not_mem h

theorem PlainResult.error {α β : Type} {e : Error}
    (h : PlainResult (.error e : Except Error α)) :
    PlainResult (.error e : Except Error β) := by
  intro e' he
  cases he
  exact h e rfl

/-!
# Lists
-/

namespace ListOperations

theorem plain_readOrCreate (key : Bytes) :
    Returns Plain (fun _ => True) (readOrCreate key) :=
  returns_trivial _

theorem plain_writeMetadata (key metaBytes newMeta : Bytes) (isNew : Bool) :
    Returns Plain PlainResult (writeMetadata key metaBytes newMeta isNew) := by
  unfold writeMetadata
  split
  · simp only [returns_call_bind_iff]
    rintro (e | _) _ <;> simp
  · simp only [returns_call_bind_iff]
    rintro (e | swapped) he
    · exact Returns.done (plainResult_database (he _ rfl))
    · simp

theorem plain_pushOne (pushMeta : ListMeta -> ListMeta × Int64)
    (key value : Bytes) (fuel retries : Nat) :
    Returns Plain PlainResult (pushOne pushMeta key value fuel retries) := by
  induction fuel generalizing retries with
  | zero => exact Returns.exhausted
  | succ fuel ih =>
      unfold pushOne
      refine returns_bind (plain_readOrCreate key) ?_
      rintro (_ | ⟨metaBytes, isNew⟩) _
      · exact ih retries
      · refine returns_bind (plain_writeMetadata key metaBytes _ isNew) ?_
        rintro (e | _ | _) he
        · exact Returns.done he.error
        · simp only
          split
          · exact Returns.done (plainResult_system _ (by decide))
          · exact ih _
        · simp only [returns_call_bind_iff]
          rintro (e | _) he
          · exact Returns.done (plainResult_database (he _ rfl))
          · simp

theorem plain_push (pushMeta : ListMeta -> ListMeta × Int64) (fuel : Nat)
    (key : Bytes) (values : List Bytes) :
    Returns Plain PlainResult (push pushMeta fuel key values) := by
  have hall : Returns Plain PlainResult (pushAll pushMeta fuel key values) := by
    induction values with
    | nil => simp [pushAll]
    | cons value values ih =>
        refine returns_bind (plain_pushOne pushMeta key value fuel 0) ?_
        rintro (e | _) he
        · exact Returns.done he
        · exact ih
  refine returns_bind hall ?_
  rintro (e | _) he
  · exact Returns.done he.error
  · simp only [returns_call_bind_iff]
    rintro (e | metaBytes) he
    · exact Returns.done (plainResult_database (he _ rfl))
    · simp

theorem plain_popOne (popMeta : ListMeta -> ListMeta × Int64) (key : Bytes)
    (fuel retries : Nat) :
    Returns Plain PlainResult (popOne popMeta key fuel retries) := by
  induction fuel generalizing retries with
  | zero => exact Returns.exhausted
  | succ fuel ih =>
      unfold popOne
      simp only [returns_call_bind_iff]
      rintro (e | metaBytes) _
      · simp
      · simp only
        split
        · simp
        · simp only [returns_call_bind_iff]
          rintro (e | _ | _) he
          · exact Returns.done (plainResult_database (he _ rfl))
          · simp only
            split
            · simp
            · exact ih _
          · simp only [returns_call_bind_iff]
            rintro (e | value) _
            · exact ih _
            · simp only [returns_call_bind_iff]
              rintro (e | _) he
              · exact Returns.done (plainResult_database (he _ rfl))
              · simp

theorem plain_pop (popMeta : ListMeta -> ListMeta × Int64) (fuel : Nat)
    (key : Bytes) (count : Option UInt64) :
    Returns Plain PlainResult (pop popMeta fuel key count) := by
  have hloop : forall n popped,
      Returns Plain PlainResult (popLoop popMeta fuel key n popped) := by
    intro n
    induction n with
    | zero => simp [popLoop]
    | succ n ih =>
        intro popped
        refine returns_bind (plain_popOne popMeta key fuel 0) ?_
        rintro (e | _ | value) he
        · exact Returns.done he.error
        · simp
        · exact ih _
  exact hloop _ []

theorem plain_llen (key : Bytes) : Returns Plain PlainResult (llen key) := by
  simp only [llen, returns_call_bind_iff]
  rintro (e | metaBytes) _ <;> simp

theorem plain_lrange (key : Bytes) (start stop : Int64) :
    Returns Plain PlainResult (lrange key start stop) := by
  simp only [lrange, returns_call_bind_iff]
  rintro (e | metaBytes) _
  · simp
  · simp only
    split
    · simp
    · split
      · simp
      · exact returns_bind (returns_trivial _) fun _ _ => by simp

theorem plain_lindex (key : Bytes) (index : Int64) :
    Returns Plain PlainResult (lindex key index) := by
  simp only [lindex, returns_call_bind_iff]
  rintro (e | metaBytes) _
  · simp
  · simp only
    split
    · simp
    · split
      · simp
      · simp only [returns_call_bind_iff]
        rintro (e | value) _ <;> simp

end ListOperations

theorem plain_onStore {α : Type} {Q : α -> Prop} {p : StoreProg α}
    (hp : Returns Plain Q p) : Returns PlainAnswer Q (onStore p) :=
  returns_hoist hp fun _ _ ha => ha

/-!
# Hashes
-/

namespace HashOperations

theorem plain_hset (key : Bytes) (fields : List (Bytes × Bytes)) :
    Returns PlainAnswer PlainResult (hset key fields) := by
  have hloop : forall count,
      Returns PlainAnswer PlainResult (hsetLoop key fields count) := by
    induction fields with
    | nil => simp [hsetLoop]
    | cons field fields ih =>
        intro count
        simp only [hsetLoop, returns_call_bind_iff]
        rintro (e | isNew) he
        · exact Returns.done (plainResult_database (he _ rfl))
        · exact ih _
  refine returns_bind (hloop 0) ?_
  rintro (e | count) he
  · exact Returns.done he.error
  · simp only
    split
    · exact returns_bind (returns_trivial _) fun _ _ => by simp
    · simp

theorem plain_hdel (key : Bytes) (fields : List Bytes) :
    Returns PlainAnswer PlainResult (hdel key fields) := by
  refine returns_bind (returns_trivial _) fun count _ => ?_
  split
  · exact returns_bind (returns_trivial _) fun _ _ => by simp
  · simp

theorem plain_hincrby (key field : Bytes) (delta : Int64) :
    Returns PlainAnswer PlainResult (hincrby key field delta) := by
  have hincremented :
      Returns PlainAnswer PlainResult (incremented key field delta) := by
    simp only [incremented, returns_call_bind_iff]
    intro fieldExists _
    split
    · simp only [returns_call_bind_iff]
      rintro (e | data) _
      · simp
      · simp only
        split
        · simp
        · exact Returns.done (plainResult_protocol _ (by decide))
    · exact returns_bind (returns_trivial _) fun _ _ => by simp
  refine returns_bind hincremented ?_
  rintro (e | newValue) he
  · exact Returns.done he
  · simp only [returns_call_bind_iff]
    rintro (e | _) he
    · exact Returns.done (plainResult_database (he _ rfl))
    · simp

theorem plain_collect {α : Type} (f : List (Bytes × Bytes) -> List α)
    (key : Bytes) : Returns PlainAnswer PlainResult (collect f key) := by
  simp only [collect, returns_call_bind_iff]
  rintro (e | pairs) he
  · exact Returns.done (plainResult_database (he _ rfl))
  · simp

end HashOperations

/-!
# Commands
-/

def unknown (known : List String) (subcommand : String) : Option String :=
  if toUppercase subcommand ∈ known then none else some subcommand

/-- The word of a command that its error repeats: a subcommand that is not
known. -/
def Command.repeated : Command -> Option String
  | .config action _ => unknown ["GET", "SET"] action
  | .command (some subcmd) _ =>
      unknown ["COUNT", "INFO", "DOCS", "LIST", "HELP"] subcmd
  | .client subcommand _ =>
      unknown ["ID", "LIST", "SETNAME", "GETNAME", "KILL", "INFO", "PAUSE",
        "UNPAUSE"] subcommand
  | _ => none

def SafeIff (repeated : Option String) (r : RespValue) : Prop :=
  LineSafe r <-> forall text, repeated = some text -> OneLine (asBytes text)

theorem safeIff_of_lineSafe {r : RespValue} (h : LineSafe r) :
    SafeIff none r := by
  constructor
  · rintro _ text ⟨⟩
  · exact fun _ => h

theorem safeIff_known {known : List String} {subcommand : String}
    {r : RespValue} (hknown : toUppercase subcommand ∈ known) (h : LineSafe r) :
    SafeIff (unknown known subcommand) r := by
  unfold unknown
  rw [if_pos hknown]
  exact safeIff_of_lineSafe h

theorem safeIff_unknown {known : List String} {subcommand : String}
    (front back : String) (hunknown : toUppercase subcommand ∉ known)
    (hfront : (13 : UInt8) ∉ asBytes front) (hcr : (13 : UInt8) ∉ asBytes back)
    (hlf : (asBytes back).head? ≠ some 10) :
    SafeIff (unknown known subcommand)
      (.error (front ++ subcommand ++ back)) := by
  unfold SafeIff unknown
  rw [if_neg hunknown]
  rw [lineSafe_error_iff, oneLine_quoted front subcommand back hfront hcr hlf]
  constructor
  · rintro h text ⟨⟩
    exact h
  · exact fun h => h subcommand rfl

namespace ClientOperations

theorem clientId_lineSafe (connectionId : Option Nat) :
    LineSafe (clientId connectionId) := by
  cases connectionId with
  | none => exact lineSafe_fixed _ (by decide)
  | some connId => exact LineSafe.integer _

theorem clientSetname_lineSafe (args : List Bytes) :
    LineSafe (clientSetname args) := by
  unfold clientSetname
  split
  · exact lineSafe_fixed _ (by decide)
  · exact LineSafe.simpleString (by decide)

theorem clientPause_lineSafe (args : List Bytes) :
    LineSafe (clientPause args) := by
  unfold clientPause
  split
  · exact lineSafe_fixed _ (by decide)
  · exact LineSafe.simpleString (by decide)

theorem clientList_lineSafe (ops : ClientOperations) :
    Returns PlainAnswer LineSafe ops.clientList := by
  unfold clientList
  split
  · simp only [returns_call_bind_iff]
    intro clients _
    exact returns_bind (returns_trivial _) fun _ _ =>
      Returns.done (LineSafe.bulkString _)
  · exact Returns.done (lineSafe_fixed _ (by decide))

theorem clientGetname_lineSafe (ops : ClientOperations)
    (connectionId : Option Nat) :
    Returns PlainAnswer LineSafe (ops.clientGetname connectionId) := by
  unfold clientGetname
  split
  · simp only [returns_call_bind_iff]
    rintro (_ | client) _ <;> exact Returns.done (LineSafe.bulkString _)
  · exact Returns.done (LineSafe.bulkString _)

theorem clientKill_lineSafe (ops : ClientOperations) (args : List Bytes) :
    Returns PlainAnswer LineSafe (ops.clientKill args) := by
  unfold clientKill
  split
  · exact Returns.done (lineSafe_fixed _ (by decide))
  · split
    · simp only [returns_call_bind_iff]
      exact fun clients _ => Returns.done (LineSafe.integer _)
    · exact Returns.done (LineSafe.integer _)

theorem clientInfo_lineSafe (ops : ClientOperations)
    (connectionId : Option Nat) :
    Returns PlainAnswer LineSafe (ops.clientInfo connectionId) := by
  unfold clientInfo
  split
  · simp only [returns_call_bind_iff]
    rintro (_ | client) _
    · exact Returns.done (lineSafe_fixed _ (by decide))
    · simp only [returns_call_bind_iff]
      exact fun now _ => Returns.done (LineSafe.bulkString _)
  · exact Returns.done (lineSafe_fixed _ (by decide))

theorem execute_safeIff (ops : ClientOperations) (subcommand : String)
    (args : List Bytes) (connectionId : Option Nat) :
    Returns PlainAnswer
      (SafeIff (Command.client subcommand args).repeated)
      (ops.execute subcommand args connectionId) := by
  have hknown : forall {p : ServerProg RespValue},
      toUppercase subcommand ∈ ["ID", "LIST", "SETNAME", "GETNAME", "KILL",
        "INFO", "PAUSE", "UNPAUSE"] -> Returns PlainAnswer LineSafe p ->
        Returns PlainAnswer
          (SafeIff (Command.client subcommand args).repeated) p :=
    fun hmem hp => returns_mono hp fun _ => safeIff_known hmem
  unfold execute
  split
  · exact hknown (by simp [*]) (Returns.done (clientId_lineSafe connectionId))
  · exact hknown (by simp [*]) (clientList_lineSafe ops)
  · exact hknown (by simp [*]) (Returns.done (clientSetname_lineSafe args))
  · exact hknown (by simp [*]) (clientGetname_lineSafe ops connectionId)
  · exact hknown (by simp [*]) (clientKill_lineSafe ops args)
  · exact hknown (by simp [*]) (clientInfo_lineSafe ops connectionId)
  · exact hknown (by simp [*]) (Returns.done (clientPause_lineSafe args))
  · exact hknown (by simp [*])
      (Returns.done (LineSafe.simpleString (by decide)))
  · exact Returns.done (safeIff_unknown "-ERR Unknown CLIENT subcommand '" "'"
      (by simp; and_intros <;> assumption) (by decide) (by decide) (by decide))

end ClientOperations

namespace CommandExecutor

theorem configCommand_safeIff (action : String) (args : List Bytes) :
    SafeIff (Command.config action args).repeated (configCommand action args) := by
  unfold configCommand
  split
  · refine safeIff_known (by simp [*]) (LineSafe.array fun v hv => ?_)
    rcases List.mem_flatMap.mp hv with ⟨arg, _, hpair⟩
    simp only [List.mem_cons, List.not_mem_nil, or_false] at hpair
    rcases hpair with rfl | rfl <;> exact LineSafe.bulkString _
  · exact safeIff_known (by simp [*]) lineSafe_okReply
  · exact safeIff_unknown "ERR Unknown CONFIG subcommand '" "'"
      (by simp; and_intros <;> assumption) (by decide) (by decide) (by decide)

theorem handleCommandSubcommand_safeIff (subcommand : Option String)
    (args : List Bytes) :
    SafeIff (Command.command subcommand args).repeated
      (handleCommandSubcommand subcommand args) := by
  unfold handleCommandSubcommand
  cases subcommand with
  | none => exact safeIff_of_lineSafe lineSafe_allCommands
  | some subcmd =>
      simp only
      split
      · exact safeIff_known (by simp [*]) (LineSafe.integer _)
      · refine safeIff_known (by simp [*]) ?_
        split
        · exact lineSafe_allCommands
        · refine LineSafe.array fun v hv => ?_
          rcases List.mem_map.mp hv with ⟨arg, _, rfl⟩
          unfold commandInfo
          split
          · exact lineSafe_commandDef _
          · exact LineSafe.bulkString _
      · exact safeIff_known (by simp [*]) (LineSafe.array (by simp))
      · refine safeIff_known (by simp [*]) (LineSafe.array fun v hv => ?_)
        rcases List.mem_map.mp hv with ⟨d, _, rfl⟩
        exact LineSafe.bulkString _
      · refine safeIff_known (by simp [*]) (LineSafe.array fun v hv => ?_)
        rcases List.mem_map.mp hv with ⟨line, _, rfl⟩
        exact LineSafe.bulkString _
      · exact safeIff_unknown "ERR Unknown subcommand '"
          "'. Try COMMAND HELP." (by simp; and_intros <;> assumption) (by decide)
          (by decide) (by decide)

theorem modifying_lineSafe {α : Type} (key : Bytes) (modified : α -> Bool)
    {reply : α -> RespValue} (hreply : forall a, LineSafe (reply a))
    {p : ServerProg (Except Error α)} (hp : Returns PlainAnswer PlainResult p) :
    Returns PlainAnswer LineSafe (modifying key modified reply p) := by
  refine returns_bind hp ?_
  rintro (e | a) he
  · exact Returns.done (lineSafe_commandError (he e rfl))
  · simp only
    split
    · exact Returns.ask fun _ _ => Returns.done (hreply a)
    · exact Returns.done (hreply a)

theorem reading_lineSafe {α : Type} {reply : α -> RespValue}
    (hreply : forall a, LineSafe (reply a)) {p : ServerProg (Except Error α)}
    (hp : Returns PlainAnswer PlainResult p) :
    Returns PlainAnswer LineSafe (reading reply p) := by
  refine returns_bind hp ?_
  rintro (e | a) he
  · exact Returns.done (lineSafe_commandError (he e rfl))
  · exact Returns.done (hreply a)

theorem popReply_lineSafe (values : List Bytes) : LineSafe (popReply values) := by
  match values with
  | [] => exact LineSafe.bulkString _
  | [value] => exact LineSafe.bulkString _
  | first :: second :: rest => exact lineSafe_bulkArray _

theorem set_lineSafe (key value : Bytes) (ex px : Option UInt64) :
    Returns PlainAnswer LineSafe (set key value ex px) := by
  have hcall : Returns PlainAnswer
      (fun r => forall e, r = .error e -> OneLine (asBytes e.text))
      (setCall key value ex px) := by
    cases ex <;> cases px <;>
      exact Returns.ask fun r hr => Returns.done fun e he =>
        hr e.text (by rw [he]; rfl)
  refine returns_bind hcall ?_
  rintro (e | _) he
  · exact Returns.done (lineSafe_storeError (he e rfl))
  · exact Returns.ask fun _ _ => Returns.done lineSafe_okReply

theorem del_lineSafe (keys : List Bytes) (count : Int64) :
    Returns PlainAnswer LineSafe (del keys count) := by
  induction keys generalizing count with
  | nil => exact Returns.done (LineSafe.integer _)
  | cons key keys ih =>
      simp only [del, returns_call_bind_iff]
      rintro (e | _) _
      · exact ih _
      · exact Returns.ask fun _ _ => ih _

theorem existing_lineSafe (keys : List Bytes) (count : Int64) :
    Returns PlainAnswer LineSafe (existing keys count) := by
  induction keys generalizing count with
  | nil => exact Returns.done (LineSafe.integer _)
  | cons key keys ih =>
      simp only [existing, returns_call_bind_iff]
      exact fun found _ => ih _

theorem stringIncr_lineSafe (key : Bytes) (delta : Int64) :
    Returns PlainAnswer LineSafe (stringIncr key delta) := by
  have hwrite : forall n, Returns PlainAnswer LineSafe (writeNumber key n) := by
    intro n
    simp only [writeNumber, returns_call_bind_iff]
    rintro (e | _) he
    · exact Returns.done (lineSafe_storeError (he _ rfl))
    · exact Returns.ask fun _ _ => Returns.done (LineSafe.integer _)
  simp only [stringIncr, returns_call_bind_iff]
  rintro (_ | val) _
  · simp only [returns_call_bind_iff]
    rintro (e | data) he
    · simp only
      split
      · exact hwrite _
      · exact Returns.done (lineSafe_storeError (he _ rfl))
    · simp only
      split
      · exact hwrite _
      · exact Returns.done (lineSafe_fixed _ (by decide))
  · exact Returns.ask fun _ _ => Returns.done (LineSafe.integer _)

theorem mget_lineSafe (keys : List Bytes) (values : List RespValue)
    (hvalues : forall v, v ∈ values -> LineSafe v) :
    Returns PlainAnswer LineSafe (mget keys values) := by
  induction keys generalizing values with
  | nil => exact Returns.done (LineSafe.array hvalues)
  | cons key keys ih =>
      have hmore : forall s v, v ∈ values ++ [.bulkString s] -> LineSafe v := by
        intro s v hv
        rcases List.mem_append.mp hv with hv | hv
        · exact hvalues v hv
        · rw [List.mem_singleton.mp hv]
          exact LineSafe.bulkString s
      simp only [mget, returns_call_bind_iff]
      rintro (e | value) _
      · exact ih _ (hmore none)
      · exact ih _ (hmore (some value))

theorem mset_lineSafe (pairs : List (Bytes × Bytes)) :
    Returns PlainAnswer LineSafe (mset pairs) := by
  induction pairs with
  | nil => exact Returns.done lineSafe_okReply
  | cons pair pairs ih =>
      simp only [mset, returns_call_bind_iff]
      rintro (e | _) he
      · exact Returns.done (lineSafe_storeError (he _ rfl))
      · exact Returns.ask fun _ _ => ih

theorem info_lineSafe (x : CommandExecutor) (sectionName : Option String) :
    Returns PlainAnswer LineSafe (info x sectionName) := by
  simp only [info, returns_call_bind_iff]
  intro uptime _ stats _
  refine returns_bind (returns_trivial _) fun _ _ => ?_
  refine returns_bind (returns_trivial _) fun _ _ => ?_
  refine returns_bind (returns_trivial _) fun _ _ => ?_
  exact returns_bind (returns_trivial _) fun _ _ =>
    Returns.done (LineSafe.bulkString _)

theorem keysInRange_lineSafe (pattern : String) (start stop : Bytes) :
    Returns PlainAnswer LineSafe (keysInRange pattern start stop) := by
  simp only [keysInRange, returns_call_bind_iff]
  rintro (e | pairs) he
  · exact Returns.done (lineSafe_storeError (he _ rfl))
  · exact Returns.done (lineSafe_bulkArray _)

theorem keys_lineSafe (pattern : String) :
    Returns PlainAnswer LineSafe (keys pattern) := by
  unfold keys
  simp only
  split
  · exact keysInRange_lineSafe _ _ _
  · split
    · simp only [returns_call_bind_iff]
      rintro (e | _) _ <;> exact Returns.done (lineSafe_bulkArray _)
    · exact keysInRange_lineSafe _ _ _

theorem scan_lineSafe (cursor : Bytes) (count : UInt64)
    (pattern : Option String) :
    Returns PlainAnswer LineSafe (scan cursor count pattern) := by
  simp only [scan, returns_call_bind_iff]
  rintro (e | pairs) he
  · exact Returns.done (lineSafe_storeError (he _ rfl))
  · refine Returns.done (LineSafe.array fun v hv => ?_)
    simp only [List.mem_cons, List.not_mem_nil, or_false] at hv
    rcases hv with rfl | rfl
    · exact LineSafe.bulkString _
    · exact lineSafe_bulkArray _

/-- All commands without a repeated word reply in single lines, whatever the
bytes of their arguments. -/
theorem respond_lineSafe (fuel : Nat) (x : CommandExecutor) (cmd : Command)
    (hconfig : forall action args, cmd ≠ .config action args)
    (hcommand : forall subcommand args, cmd ≠ .command subcommand args)
    (hclient : forall subcommand args, cmd ≠ .client subcommand args) :
    Returns PlainAnswer LineSafe (respond fuel x cmd) := by
  cases cmd with
  | get key =>
      simp only [respond, get, returns_call_bind_iff]
      rintro (e | value) he
      · refine Returns.done ?_
        split
        · exact LineSafe.bulkString _
        · exact lineSafe_storeError (he _ rfl)
      · exact Returns.done (LineSafe.bulkString _)
  | set key value ex px => exact set_lineSafe key value ex px
  | del keys => exact del_lineSafe keys 0
  | exists_ keys => exact existing_lineSafe keys 0
  | incr key => exact stringIncr_lineSafe key 1
  | incrBy key delta => exact stringIncr_lineSafe key delta
  | decr key => exact stringIncr_lineSafe key (-1)
  | decrBy key delta => exact stringIncr_lineSafe key (-delta)
  | expire key _ | pexpire key _ | persist key =>
      simp only [respond, expire, persist, returns_call_bind_iff]
      rintro (e | _) he
      · exact Returns.done (lineSafe_missingReply (he _ rfl))
      · exact Returns.done (LineSafe.integer _)
  | ttl key | pttl key =>
      simp only [respond, timeToLive, returns_call_bind_iff]
      rintro (e | _ | ttl) he
      · exact Returns.done (lineSafe_missingReply (he _ rfl))
      · exact Returns.done (LineSafe.integer _)
      · exact Returns.done (LineSafe.integer _)
  | mget keys => exact mget_lineSafe keys [] (by simp)
  | mset pairs => exact mset_lineSafe pairs
  | ping msg =>
      cases msg with
      | none => exact Returns.done (LineSafe.simpleString (by decide))
      | some m => exact Returns.done (LineSafe.bulkString _)
  | echo msg => exact Returns.done (LineSafe.bulkString _)
  | info sectionName => exact info_lineSafe x sectionName
  | config action args => exact absurd rfl (hconfig action args)
  | command subcommand args => exact absurd rfl (hcommand subcommand args)
  | client subcommand args => exact absurd rfl (hclient subcommand args)
  | quit => exact Returns.done lineSafe_okReply
  | flushDb => exact Returns.done (lineSafe_fixed _ (by decide))
  | keys pattern => exact keys_lineSafe pattern
  | scan cursor count pattern => exact scan_lineSafe cursor count pattern
  | jsonPatch key patch =>
      simp only [respond, jsonPatch, returns_call_bind_iff]
      rintro (e | _) he
      · exact Returns.done (lineSafe_storeError (he _ rfl))
      · exact Returns.done lineSafe_okReply
  | cas key expected newValue =>
      simp only [respond, cas, returns_call_bind_iff]
      rintro (e | swapped) he
      · exact Returns.done (lineSafe_storeError (he _ rfl))
      · exact Returns.done (LineSafe.integer _)
  | auth password =>
      refine Returns.done ?_
      split <;> exact lineSafe_fixed _ (by decide)
  | lpush key values | rpush key values =>
      exact modifying_lineSafe key _ LineSafe.integer
        (plain_onStore (ListOperations.plain_push _ _ _ _))
  | lpop key count | rpop key count =>
      exact modifying_lineSafe key _ popReply_lineSafe
        (plain_onStore (ListOperations.plain_pop _ _ _ _))
  | llen key =>
      exact reading_lineSafe LineSafe.integer
        (plain_onStore (ListOperations.plain_llen key))
  | lrange key start stop =>
      exact reading_lineSafe lineSafe_bulkArray
        (plain_onStore (ListOperations.plain_lrange key start stop))
  | lindex key index =>
      exact reading_lineSafe LineSafe.bulkString
        (plain_onStore (ListOperations.plain_lindex key index))
  | hset key fields =>
      exact modifying_lineSafe key _ LineSafe.integer
        (HashOperations.plain_hset key fields)
  | hget key field =>
      exact returns_bind (returns_trivial _) fun _ _ =>
        Returns.done (LineSafe.bulkString _)
  | hmget key fields =>
      refine returns_bind (returns_trivial _) fun values _ =>
        Returns.done (LineSafe.array fun v hv => ?_)
      rcases List.mem_map.mp hv with ⟨value, _, rfl⟩
      exact LineSafe.bulkString _
  | hdel key fields =>
      exact modifying_lineSafe key _ LineSafe.integer
        (HashOperations.plain_hdel key fields)
  | hexists key field =>
      exact returns_bind (returns_trivial _) fun _ _ =>
        Returns.done (LineSafe.integer _)
  | hgetall key =>
      exact reading_lineSafe (fun _ => lineSafe_bulkArray _)
        (HashOperations.plain_collect _ key)
  | hkeys key | hvals key =>
      exact reading_lineSafe lineSafe_bulkArray
        (HashOperations.plain_collect _ key)
  | hlen key =>
      exact returns_bind (returns_trivial _) fun _ _ =>
        Returns.done (LineSafe.integer _)
  | hincrBy key field delta =>
      exact modifying_lineSafe key _ LineSafe.integer
        (HashOperations.plain_hincrby key field delta)
  | _ => exact Returns.done (lineSafe_fixed _ (by decide))

/-- A reply is made of single lines exactly if the word that it repeats is a
single line. -/
theorem respond_safeIff (fuel : Nat) (x : CommandExecutor) (cmd : Command) :
    Returns PlainAnswer (SafeIff cmd.repeated) (respond fuel x cmd) := by
  cases cmd with
  | config action args => exact Returns.done (configCommand_safeIff action args)
  | command subcommand args =>
      exact Returns.done (handleCommandSubcommand_safeIff subcommand args)
  | client subcommand args =>
      exact x.clientOps.execute_safeIff subcommand args x.connectionId
  | _ =>
      exact returns_mono (respond_lineSafe fuel x _ (by simp) (by simp) (by simp))
        fun _ => safeIff_of_lineSafe

end CommandExecutor

end FeoxServer
