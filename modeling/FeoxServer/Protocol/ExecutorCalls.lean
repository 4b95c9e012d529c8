import FeoxServer.Protocol.ReadingCommands

/-!
# The calls of a command

No command reads versions of keys; only the connection does.  Only the client
commands look at the registry of clients.
-/

namespace FeoxServer

open Foundation Prog

@[simp] def Call.Unversioned : Call -> Prop
  | .getKeyVersion _ => False
  | .store _ | .platform _ | .notifyKeyModified _ | .addUpdate _ _
  | .shouldFlush | .takeUpdates | .getAllClients | .getClient _ => True

abbrev Unversioned {α : Type} (p : ServerProg α) : Prop :=
  Only Call.Unversioned p

@[simp] def Call.Basic : Call -> Prop
  | .getKeyVersion _ | .getAllClients | .getClient _ => False
  | .store _ | .platform _ | .notifyKeyModified _ | .addUpdate _ _
  | .shouldFlush | .takeUpdates => True

abbrev Basic {α : Type} (p : ServerProg α) : Prop :=
  Only Call.Basic p

theorem Basic.unversioned {α : Type} {p : ServerProg α} (h : Basic p) :
    Unversioned p :=
  only_mono h fun c hc => by cases c <;> first | exact trivial | exact hc

theorem Observing.basic {α : Type} {p : ServerProg α} (h : Observing p) : Basic p :=
  only_mono h fun c hc => by cases c <;> first | exact trivial | exact hc.elim

theorem basic_onStore {α : Type} (p : StoreProg α) :
    Basic (onStore p) :=
  only_hoist (only_true p) fun _ _ => trivial

/-!
# Hashes and clients
-/

namespace HashOperations

theorem basic_applyUpdates (updates : List (Bytes × Int64)) :
    Basic (applyUpdates updates) := by
  induction updates with
  | nil => simp [applyUpdates]
  | cons update updates ih =>
      unfold applyUpdates
      split
      · simpa using ih
      · exact ih

theorem basic_updateCount (key : Bytes) (delta : Int64) :
    Basic (updateCount key delta) := by
  simp only [updateCount, maybeFlushMetadata, flushMetadata,
    only_call_bind_iff, Call.Basic, true_and]
  intro _ due
  split
  · simpa using basic_applyUpdates
  · simp

theorem basic_hset (key : Bytes) (fields : List (Bytes × Bytes)) :
    Basic (hset key fields) := by
  have hloop : forall count, Basic (hsetLoop key fields count) := by
    induction fields with
    | nil => simp [hsetLoop]
    | cons field fields ih =>
        intro count
        simp only [hsetLoop, only_call_bind_iff, Call.Basic, true_and]
        rintro (e | isNew)
        · simp
        · exact ih _
  refine only_bind (hloop 0) ?_
  rintro (e | count)
  · simp
  · simp only
    split
    · exact only_bind (basic_updateCount key count) fun _ => by simp
    · simp

theorem basic_hdel (key : Bytes) (fields : List Bytes) :
    Basic (hdel key fields) := by
  have hloop : forall count, Basic (hdelLoop key fields count) := by
    induction fields with
    | nil => simp [hdelLoop]
    | cons field fields ih =>
        intro count
        simp only [hdelLoop, only_call_bind_iff, Call.Basic, true_and]
        rintro (e | _)
        · exact ih _
        · exact ih _
  refine only_bind (hloop 0) fun count => ?_
  split
  · exact only_bind (basic_updateCount key (-count)) fun _ => by simp
  · simp

theorem basic_hincrby (key field : Bytes) (delta : Int64) :
    Basic (hincrby key field delta) := by
  have hincremented : Basic (incremented key field delta) := by
    simp only [incremented, only_call_bind_iff, Call.Basic, true_and]
    intro fieldExists
    split
    · simp only [only_call_bind_iff, Call.Basic, true_and]
      rintro (e | data)
      · simp
      · simp only
        split <;> simp
    · exact only_bind (basic_updateCount key 1) fun _ => by simp
  refine only_bind hincremented ?_
  rintro (e | newValue)
  · simp
  · simp only [only_call_bind_iff, Call.Basic, true_and]
    rintro (e | _) <;> simp

theorem basic_hlen (key : Bytes) : Basic (hlen key) := by
  have hflush : Basic flushMetadata := by
    simpa [flushMetadata] using basic_applyUpdates
  refine only_bind hflush fun _ => ?_
  simp only [only_call_bind_iff, Call.Basic, true_and]
  rintro (e | data) <;> simp

end HashOperations

namespace ClientOperations

theorem only_execute {Q : Call -> Prop} (hall : Q .getAllClients)
    (hone : forall id, Q (.getClient id)) (hplatform : forall c, Q (.platform c))
    (ops : ClientOperations) (subcommand : String) (args : List Bytes)
    (connectionId : Option Nat) :
    Only Q (ops.execute subcommand args connectionId) := by
  have hlines : forall clients, Only Q (listLines clients) := by
    intro clients
    induction clients with
    | nil => simp [listLines]
    | cons client clients ih =>
        simp only [listLines, only_call_bind_iff, hplatform, true_and]
        exact fun _ => only_bind ih fun _ => by simp
  have hlist : Only Q ops.clientList := by
    unfold clientList
    split
    · simp only [only_call_bind_iff, hall, true_and]
      exact fun clients => only_bind (hlines clients) fun _ => by simp
    · simp
  have hname : Only Q (ops.clientGetname connectionId) := by
    unfold clientGetname
    split
    · simp only [only_call_bind_iff, hone, true_and]
      rintro (_ | client) <;> simp
    · simp
  have hkill : Only Q (ops.clientKill args) := by
    unfold clientKill
    split
    · simp
    · split <;> simp [hall]
  have hinfo : Only Q (ops.clientInfo connectionId) := by
    unfold clientInfo
    split
    · simp only [only_call_bind_iff, hone, true_and]
      rintro (_ | client) <;> simp [hplatform]
    · simp
  unfold execute
  split <;> first | assumption | simp

end ClientOperations

/-!
# The executor
-/

/-- Whether the command is handled by `ClientOperations`. -/
def Command.isClientCommand : Command -> Bool
  | .client _ _ => true
  | _ => false

namespace CommandExecutor

theorem basic_fastSetBytes (key value : Bytes) :
    Basic (fastSetBytes key value) := by
  simp only [fastSetBytes, only_call_bind_iff, Call.Basic, true_and]
  rintro (e | _) <;> simp

theorem basic_set (key value : Bytes) (ex px : Option UInt64) :
    Basic (set key value ex px) := by
  have hcall : Basic (setCall key value ex px) := by
    cases ex <;> cases px <;> simp [setCall]
  refine only_bind hcall ?_
  rintro (e | _) <;> simp

theorem basic_del (keys : List Bytes) (count : Int64) :
    Basic (del keys count) := by
  induction keys generalizing count with
  | nil => simp [del]
  | cons key keys ih =>
      simp only [del, only_call_bind_iff, Call.Basic, true_and]
      rintro (e | _)
      · exact ih _
      · simpa using ih _

theorem basic_stringIncr (key : Bytes) (delta : Int64) :
    Basic (stringIncr key delta) := by
  have hwrite : forall n, Basic (writeNumber key n) := by
    intro n
    simp only [writeNumber, only_call_bind_iff, Call.Basic, true_and]
    rintro (e | _) <;> simp
  simp only [stringIncr, only_call_bind_iff, Call.Basic, true_and]
  rintro (_ | val)
  · simp only [only_call_bind_iff, Call.Basic, true_and]
    rintro (e | data)
    · simp only
      split
      · exact hwrite _
      · simp
    · simp only
      split
      · exact hwrite _
      · simp
  · simp

theorem basic_mset (pairs : List (Bytes × Bytes)) :
    Basic (mset pairs) := by
  induction pairs with
  | nil => simp [mset]
  | cons pair pairs ih =>
      simp only [mset, only_call_bind_iff, Call.Basic, true_and]
      rintro (e | _)
      · simp
      · simpa using ih

theorem basic_modifying {α : Type} (key : Bytes) (modified : α -> Bool)
    (reply : α -> RespValue) {p : ServerProg (Except Error α)}
    (hp : Basic p) : Basic (modifying key modified reply p) := by
  refine only_bind hp ?_
  rintro (e | a)
  · simp
  · simp only
    split <;> simp

theorem basic_respond {cmd : Command} (hcmd : cmd.isClientCommand = false)
    (fuel : Nat) (x : CommandExecutor) : Basic (respond fuel x cmd) := by
  cases cmd with
  | set key value ex px => exact basic_set key value ex px
  | del keys => exact basic_del keys 0
  | incr key => exact basic_stringIncr key 1
  | incrBy key delta => exact basic_stringIncr key delta
  | decr key => exact basic_stringIncr key (-1)
  | decrBy key delta => exact basic_stringIncr key (-delta)
  | mset pairs => exact basic_mset pairs
  | jsonPatch key patch =>
      simp only [respond, jsonPatch, only_call_bind_iff, Call.Basic,
        true_and]
      rintro (e | _) <;> simp
  | cas key expected newValue =>
      simp only [respond, cas, only_call_bind_iff, Call.Basic, true_and]
      rintro (e | swapped) <;> simp
  | lpush key values =>
      exact basic_modifying key _ _ (basic_onStore _)
  | rpush key values =>
      exact basic_modifying key _ _ (basic_onStore _)
  | lpop key count =>
      exact basic_modifying key _ _ (basic_onStore _)
  | rpop key count =>
      exact basic_modifying key _ _ (basic_onStore _)
  | hset key fields =>
      exact basic_modifying key _ _
        (HashOperations.basic_hset key fields)
  | hdel key fields =>
      exact basic_modifying key _ _
        (HashOperations.basic_hdel key fields)
  | hlen key =>
      exact only_bind (HashOperations.basic_hlen key) fun _ => by simp
  | hincrBy key field delta =>
      exact basic_modifying key _ _
        (HashOperations.basic_hincrby key field delta)
  | client subcommand args => cases hcmd
  | _ => exact (observing_respond rfl fuel x).basic

theorem unversioned_respond (fuel : Nat) (x : CommandExecutor) (cmd : Command) :
    Unversioned (respond fuel x cmd) := by
  cases hcmd : cmd.isClientCommand with
  | false => exact (basic_respond hcmd fuel x).unversioned
  | true =>
      cases cmd with
      | client subcommand args =>
          exact ClientOperations.only_execute trivial (fun _ => trivial)
            (fun _ => trivial) x.clientOps subcommand args x.connectionId
      | _ => cases hcmd

theorem unversioned_execute (fuel : Nat) (x : CommandExecutor) (cmd : Command) :
    Unversioned (x.execute fuel cmd) :=
  only_bind (unversioned_respond fuel _ cmd) fun _ => by simp

end CommandExecutor

end FeoxServer
