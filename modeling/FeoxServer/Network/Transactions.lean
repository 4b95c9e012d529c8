import FeoxServer.Foundation.Versioning
import FeoxServer.Network.Frames
import FeoxServer.Protocol.ExecutorCalls
import FeoxServer.Store.MapStore

/-!
# Optimistic transactions

A connection works while others do: before each of its calls, others may have
notified any keys and changed everything but the versions in any way.  What
happened to the versions is written down as a history, and `EXEC` is compared
with it.
-/

namespace FeoxServer

open Foundation Prog WatchEvent

/-- What others do between two calls of a connection. -/
structure Disturbance (S : FeoxStore) (P : Platform) where
  notified : List Bytes
  others : World S P -> World S P

/-- The world with the disturbances to come and the history so far. -/
structure Observed (S : FeoxStore) (P : Platform) where
  world : World S P
  pending : List (Disturbance S P)
  history : History Bytes

namespace Observed

variable {S : FeoxStore} {P : Platform}

def notify (o : Observed S P) (key : Bytes) : Observed S P :=
  { o with
    world := { o.world with watch := o.world.watch.notifyKeyModified key }
    history := .modified key :: o.history }

def disturb (o : Observed S P) : Observed S P :=
  match o.pending with
  | [] => o
  | d :: pending =>
      d.notified.foldl notify
        { o with
          world := { d.others o.world with watch := o.world.watch }
          pending := pending }

/-- What a call adds to the history. -/
def events : Call -> History Bytes
  | .notifyKeyModified key => [.modified key]
  | .getKeyVersion key => [.read key]
  | _ => []

def reply (c : Call) (o : Observed S P) : Answer c × Observed S P :=
  let o := o.disturb
  let (answer, world) := World.reply c o.world
  (answer, { o with world := world, history := events c ++ o.history })

end Observed

abbrev observed (S : FeoxStore) (P : Platform) : Service Call Answer where
  State := Observed S P
  reply := Observed.reply

namespace Observed

variable {S : FeoxStore} {P : Platform}

/-!
# The registry follows the history
-/

structure Faithful (o : Observed S P) : Prop where
  globalVersion : o.world.watch.globalVersion =
    UInt64.ofNat (modifications o.history + 1)
  keyVersion : forall key, o.world.watch.getKeyVersion key =
    UInt64.ofNat (version key o.history)

theorem Faithful.of_watch {o o' : Observed S P} (h : Faithful o)
    (hwatch : o'.world.watch = o.world.watch)
    (hhistory : o'.history = o.history) : Faithful o' where
  globalVersion := by rw [hwatch, hhistory, h.globalVersion]
  keyVersion key := by rw [hwatch, hhistory, h.keyVersion]

theorem Faithful.notify {o : Observed S P} (h : Faithful o) (key : Bytes) :
    Faithful (o.notify key) where
  globalVersion := by
    simp only [Observed.notify, WatchRegistry.notifyKeyModified,
      h.globalVersion, modifications]
    exact (UInt64.ofNat_add _ 1).symm
  keyVersion key' := by
    by_cases hk : key' = key
    · subst hk
      simp [Observed.notify, version, h.globalVersion]
    · simp only [Observed.notify, version, if_neg (Ne.symm hk)]
      rw [WatchRegistry.getKeyVersion_notify_of_ne _ hk, h.keyVersion]

theorem Faithful.read {o : Observed S P} (h : Faithful o) (key : Bytes) :
    Faithful { o with history := .read key :: o.history } where
  globalVersion := h.globalVersion
  keyVersion := h.keyVersion

/-- What a step without reads does to the registry and the history. -/
structure Moved (o o' : Observed S P) : Prop where
  faithful : Faithful o -> Faithful o'
  history : OnlyModified o.history o'.history

theorem Moved.refl (o : Observed S P) : Moved o o where
  faithful h := h
  history := OnlyModified.refl _

theorem Moved.trans {o o1 o2 : Observed S P} (h01 : Moved o o1)
    (h12 : Moved o1 o2) : Moved o o2 where
  faithful h := h12.faithful (h01.faithful h)
  history := h01.history.trans h12.history

theorem moved_notify (o : Observed S P) (key : Bytes) : Moved o (o.notify key) where
  faithful h := h.notify key
  history := ⟨[.modified key], rfl, by simp⟩

theorem moved_disturb (o : Observed S P) : Moved o o.disturb := by
  unfold disturb
  split
  · exact Moved.refl o
  · rename_i d pending _
    have hfold : forall (keys : List Bytes) (o : Observed S P),
        Moved o (keys.foldl notify o) := by
      intro keys
      induction keys with
      | nil => exact Moved.refl
      | cons key keys ih =>
          exact fun o => (moved_notify o key).trans (ih _)
    refine Moved.trans ?_ (hfold d.notified _)
    exact ⟨fun h => h.of_watch rfl rfl, OnlyModified.refl _⟩

theorem moved_reply {c : Call} (hc : c.Unversioned) (o : Observed S P) :
    Moved o (reply c o).2 := by
  refine (moved_disturb o).trans ?_
  cases c with
  | getKeyVersion key => exact hc.elim
  | notifyKeyModified key => exact moved_notify o.disturb key
  | _ => exact ⟨fun h => h.of_watch rfl rfl, OnlyModified.refl _⟩

theorem moved_run {α : Type} {p : ServerProg α} (hp : Unversioned p)
    {o o' : Observed S P} {a : α}
    (hrun : p.run (observed S P) o = some (a, o')) : Moved o o' :=
  run_induction (observed S P) (R := Moved) Moved.refl
    (fun _ hc _ o h => h.trans (moved_reply hc o)) hp hrun

/-!
# Reading versions
-/

theorem faithful_run {α : Type} {p : ServerProg α} {o o' : Observed S P} {a : α}
    (hrun : p.run (observed S P) o = some (a, o')) (h : Faithful o) :
    Faithful o' := by
  refine run_induction (observed S P) (R := fun o o' => Faithful o -> Faithful o')
    (fun _ => id) ?_ (only_true p) hrun h
  intro c _ o0 o1 h01 h0
  by_cases hc : c.Unversioned
  · exact (moved_reply hc o1).faithful (h01 h0)
  · cases c with
    | getKeyVersion key =>
        exact ((moved_disturb o1).faithful (h01 h0)).read key
    | _ => exact absurd trivial hc

def Noted (watched : WatchedKeys) (o : Observed S P) : Prop :=
  forall key, watched.lookup key =
    (recorded key o.history).map UInt64.ofNat

theorem Noted.moved {watched : WatchedKeys} {o o' : Observed S P}
    (h : Noted watched o) (hmoved : Moved o o') : Noted watched o' := by
  intro key
  rw [hmoved.history.recorded_eq, h key]

theorem noted_read {watched : WatchedKeys} {o : Observed S P}
    (hfaithful : Faithful o) (h : Noted watched o) (key : Bytes) :
    Noted (watched.insert key (o.world.watch.getKeyVersion key))
      { o with history := .read key :: o.history } := by
  intro key'
  by_cases hk : key' = key
  · subst hk
    simp [recorded, hfaithful.keyVersion]
  · rw [AList.lookup_insert_ne hk, h key']
    simp [recorded, Ne.symm hk]

theorem run_watchLoop {keys : List Bytes} {watched watched' : WatchedKeys}
    {o o' : Observed S P}
    (hrun : (Connection.watchLoop keys watched).run (observed S P) o =
      some (watched', o')) (hfaithful : Faithful o) (h : Noted watched o) :
    Noted watched' o' := by
  induction keys generalizing watched o with
  | nil =>
      cases hrun
      exact h
  | cons key keys ih =>
      have hmoved := moved_disturb o
      have hfaithful' := hmoved.faithful hfaithful
      exact ih hrun (hfaithful'.read key)
        (noted_read hfaithful' (h.moved hmoved) key)

/-!
# Comparing versions
-/

/-- A noted version differs from the current one exactly if the key was modified
after its last read. -/
theorem getKeyVersion_ne_iff {o : Observed S P} (hfaithful : Faithful o)
    {key : Bytes} {n : Nat} (hn : recorded key o.history = some n)
    (hbound : modifications o.history < 2 ^ 64) :
    o.world.watch.getKeyVersion key ≠ UInt64.ofNat n <->
      ModifiedSinceLastRead key o.history := by
  have hversion := version_le_modifications key o.history
  have hle := recorded_le_version hn
  rw [← recorded_ne_version_iff hn, hfaithful.keyVersion, ne_eq, ne_eq,
    ← UInt64.toNat_inj,
    UInt64.toNat_ofNat_of_lt' (hversion.trans_lt hbound),
    UInt64.toNat_ofNat_of_lt' ((hle.trans hversion).trans_lt hbound)]

/-- The comparison fails exactly if it meets a key that was modified after its
last read. -/
theorem run_checkKeysUnchanged {entries : List (Bytes × UInt64)} {b : Bool}
    {o o' : Observed S P}
    (hrun : (Connection.checkKeysUnchanged entries).run (observed S P) o =
      some (b, o')) (hfaithful : Faithful o)
    (hnodup : (entries.map Prod.fst).Nodup)
    (hnoted : forall entry, entry ∈ entries ->
      some entry.2 = (recorded entry.1 o.history).map UInt64.ofNat)
    (hbound : modifications o'.history < 2 ^ 64) :
    exists during, o'.history = during ++ o.history ∧
      (b = false <-> ReadWith ModifiedSinceLastRead during o.history) := by
  induction entries generalizing o with
  | nil =>
      cases hrun
      exact ⟨[], rfl, by simp⟩
  | cons entry entries ih =>
      rcases entry with ⟨key, watchedVersion⟩
      rw [List.map_cons, List.nodup_cons] at hnodup
      have hmoved := moved_disturb o
      have hfaithful' := hmoved.faithful hfaithful
      rcases hmoved.history with ⟨dist, hdist, honly⟩
      have hentry : some watchedVersion =
          (recorded key o.disturb.history).map UInt64.ofNat := by
        rw [hmoved.history.recorded_eq]
        exact hnoted _ List.mem_cons_self
      rcases Option.map_eq_some_iff.mp hentry.symm with ⟨n, hn, rfl⟩
      have hstale := getKeyVersion_ne_iff hfaithful' hn
      change Prog.run (observed S P)
        (if o.disturb.world.watch.getKeyVersion key ≠ UInt64.ofNat n then
          pure false
        else Connection.checkKeysUnchanged entries)
        { o.disturb with history := .read key :: o.disturb.history } =
          some (b, o') at hrun
      split at hrun
      · rename_i hne
        cases hrun
        have hlast := (hstale hbound).mp hne
        rw [hdist] at hlast
        refine ⟨.read key :: dist, by rw [hdist]; rfl, ?_⟩
        simp [hlast]
      · rename_i hsame
        have hrest : forall entry, entry ∈ entries ->
            some entry.2 = (recorded entry.1
              (.read key :: o.disturb.history)).map UInt64.ofNat := by
          intro entry hmem
          have hne : key ≠ entry.1 := by
            rintro rfl
            exact hnodup.1 (List.mem_map.mpr ⟨entry, hmem, rfl⟩)
          rw [recorded, if_neg hne, hmoved.history.recorded_eq]
          exact hnoted entry (List.mem_cons_of_mem _ hmem)
        rcases ih hrun (hfaithful'.read key) hnodup.2 hrest with
          ⟨during, hduring, hiff⟩
        have hbound' : modifications o.disturb.history < 2 ^ 64 := by
          rw [hduring, modifications_append, modifications] at hbound
          omega
        have hunmodified := (not_congr (hstale hbound')).mp hsame
        rw [hdist] at hunmodified
        refine ⟨during ++ .read key :: dist, ?_, ?_⟩
        · rw [hduring, hdist]
          simp
        · simp only [hdist] at hiff
          rw [hiff, readWith_append, readWith_read]
          simp [hunmodified, OnlyModified.not_readWith honly]

end Observed

/-!
# Reachable states of a connection
-/

section Reachable

variable {S : FeoxStore} {P : Platform}

/-- Whether a command ends the watching of keys: `UNWATCH`, or `EXEC` and
`DISCARD` in a transaction. -/
def Connection.clears (c : Connection) : Command -> Bool
  | .unwatch => true
  | .exec | .discard => decide (c.transactionState = .queuing)
  | _ => false

def Connection.clearsWatches (c : Connection) (v : RespValue) : Bool :=
  match c.route v with
  | .dispatched cmd => c.clears cmd
  | _ => false

def Observed.mark (o : Observed S P) (cleared : Bool) : Observed S P :=
  if cleared then { o with history := .cleared :: o.history } else o

/-- The states between the frames of a connection, from the start of the
server on.  Whatever else happens to the connection leaves its transaction
alone. -/
inductive Watching (fuel : Nat) : Connection -> Observed S P -> Prop where
  | accepted (fd : Int) (config : Config) (addr : Option String)
      (connectionId : Nat) (now : UInt64) {o : Observed S P} :
      o.world.watch = .new -> o.history = [] ->
      Watching fuel (.newWithAddr fd config addr connectionId now) o
  | frame {c c' : Connection} {o o' : Observed S P} {v : RespValue}
      {flow : Flow} (pending : List (Disturbance S P)) :
      Watching fuel c o ->
      (c.processFrame fuel v).run (observed S P) { o with pending := pending } =
        some ((c', flow), o') ->
      Watching fuel c' (o'.mark (c.clearsWatches v))
  | between {c c' : Connection} {o : Observed S P} : Watching fuel c o ->
      c'.transactionState = c.transactionState ->
      c'.queuedCommands = c.queuedCommands ->
      c'.watchedKeys = c.watchedKeys -> Watching fuel c' o

/-- What holds between the frames of a connection. -/
structure Consistent (c : Connection) (o : Observed S P) : Prop where
  faithful : o.Faithful
  noted : Observed.Noted c.watchedKeys o

namespace Observed

theorem Faithful.mark {o : Observed S P} (h : Faithful o) (cleared : Bool) :
    Faithful (o.mark cleared) := by
  cases cleared
  · exact h
  · exact ⟨h.globalVersion, h.keyVersion⟩

theorem noted_mark_cleared (o : Observed S P) : Noted ∅ (o.mark true) := by
  intro key
  simp [Observed.mark, recorded]

end Observed

/-!
# One frame
-/

theorem basic_fast (f : FastCommand) : Basic f.run := by
  cases f with
  | set key value =>
      refine only_bind (CommandExecutor.basic_fastSetBytes key value) ?_
      rintro (e | _) <;> simp
  | get key =>
      simp only [FastCommand.run, CommandExecutor.fastGet, only_call_bind_iff,
        Call.Basic, true_and]
      rintro (e | value) <;> simp

namespace Connection

theorem unversioned_executeAll (fuel : Nat) (x : CommandExecutor)
    (cmds : List Command) (results : List RespValue) :
    Unversioned (executeAll fuel x cmds results) := by
  induction cmds generalizing x results with
  | nil => simp [executeAll]
  | cons cmd cmds ih =>
      exact only_bind (x.unversioned_execute fuel cmd) fun _ => ih _ _

theorem unversioned_answer (fuel : Nat) (c : Connection) (cmd : Command) :
    Unversioned (answer fuel c cmd) := by
  have hnow : Unversioned (executeNow fuel c cmd) :=
    only_bind (c.executor.unversioned_execute fuel cmd) fun _ => by simp
  unfold answer
  split
  · simp
  · split
    · unfold unauthenticated
      split
      · exact hnow
      · simp
    · split
      · simp
      · exact hnow

theorem noted_dispatch_ordinary {fuel : Nat} {c c' : Connection} {cmd : Command}
    {flow : Flow} {o o' : Observed S P} (hcmd : cmd.isTransactionCommand = false)
    (h : Consistent c o)
    (hrun : (c.dispatch fuel cmd).run (observed S P) o = some ((c', flow), o')) :
    Observed.Noted c'.watchedKeys (o'.mark (c.clears cmd)) := by
  have hclears : c.clears cmd = false := by
    cases cmd <;> first | rfl | cases hcmd
  rw [hclears]
  rw [dispatch_ordinary hcmd] at hrun
  split at hrun
  · cases hrun
    exact h.noted
  · have hmoved := Observed.moved_run (unversioned_answer fuel c _) hrun
    rcases run_anything (answer_returns fuel c _) hrun with ⟨x, b, hc'⟩
    obtain rfl : c' = _ := hc'
    exact h.noted.moved hmoved

/-- A dispatched command keeps the notes of the connection those of the
history, once the history is marked. -/
theorem noted_dispatch {fuel : Nat} {c c' : Connection} {cmd : Command}
    {flow : Flow} {o o' : Observed S P} (h : Consistent c o)
    (hrun : (c.dispatch fuel cmd).run (observed S P) o = some ((c', flow), o')) :
    Observed.Noted c'.watchedKeys (o'.mark (c.clears cmd)) := by
  by_cases hordinary : cmd.isTransactionCommand = false
  · exact noted_dispatch_ordinary hordinary h hrun
  cases cmd with
  | multi =>
      rcases run_done_eq_some.mp hrun with ⟨hbegin, rfl⟩
      obtain rfl : c.beginTransaction.1 = c' := congrArg Prod.fst hbegin
      unfold beginTransaction
      split <;> exact h.noted
  | exec =>
      simp only [dispatch, exec] at hrun
      split at hrun
      · rename_i hstate
        cases hrun
        rw [clears, decide_eq_false hstate]
        exact h.noted
      · rename_i hstate
        rcases (run_bind_eq_some _).mp hrun with ⟨unchanged, o1, _, hrest⟩
        have hempty : c'.watchedKeys = ∅ := by
          split at hrest
          · rcases (run_bind_eq_some _).mp hrest with ⟨r, o2, _, hdone⟩
            cases hdone
            rfl
          · cases hrest
            rfl
        rw [hempty, clears, decide_eq_true (not_not.mp hstate)]
        exact o'.noted_mark_cleared
  | discard =>
      rcases run_done_eq_some.mp hrun with ⟨hdiscard, rfl⟩
      obtain rfl : c.discard.1 = c' := congrArg Prod.fst hdiscard
      unfold discard
      split
      · rename_i hstate
        rw [clears, decide_eq_false hstate]
        exact h.noted
      · rename_i hstate
        rw [clears, decide_eq_true (not_not.mp hstate)]
        exact o.noted_mark_cleared
  | watch keys =>
      simp only [dispatch, watch] at hrun
      split at hrun
      · cases hrun
        exact h.noted
      · rcases (run_bind_eq_some _).mp hrun with ⟨watched, o1, hloop, hdone⟩
        cases hdone
        exact Observed.run_watchLoop hloop h.faithful h.noted
  | unwatch =>
      cases hrun
      exact o.noted_mark_cleared
  | _ => exact absurd rfl hordinary

theorem consistent_frame {fuel : Nat} {c c' : Connection} {v : RespValue}
    {flow : Flow} {o o' : Observed S P} (h : Consistent c o)
    (hrun : (c.processFrame fuel v).run (observed S P) o =
      some ((c', flow), o')) :
    Consistent c' (o'.mark (c.clearsWatches v)) := by
  refine ⟨(Observed.faithful_run hrun h.faithful).mark _, ?_⟩
  rcases run_processFrame.mp hrun with ⟨c1, hframe, rfl⟩
  change Observed.Noted c1.watchedKeys _
  rw [frameFlow_eq] at hframe
  unfold clearsWatches
  cases hroute : c.route v with
  | fast f =>
      rw [hroute] at hframe
      rcases (run_bind_eq_some _).mp hframe with ⟨r, o1, hfast, hdone⟩
      cases hdone
      exact h.noted.moved (Observed.moved_run ((basic_fast f).unversioned) hfast)
  | invalid e | quit | refused =>
      rw [hroute] at hframe
      cases hframe
      exact h.noted
  | dispatched cmd =>
      rw [hroute] at hframe
      rcases c.countCommand.noteClientName_eq cmd with ⟨name, hname⟩
      simp only [hname] at hframe
      exact noted_dispatch (c := { c.countCommand with clientName := name })
        ⟨h.faithful, h.noted⟩ hframe

theorem consistent_of_watching {fuel : Nat} {c : Connection} {o : Observed S P}
    (h : Watching fuel c o) : Consistent c o := by
  induction h with
  | accepted fd config addr connectionId now hwatch hhistory =>
      refine ⟨⟨?_, ?_⟩, ?_⟩
      · rw [hwatch, hhistory]
        rfl
      · intro key
        rw [hwatch, hhistory]
        rfl
      · intro key
        rw [hhistory]
        rfl
  | frame pending _ hrun ih =>
      refine consistent_frame ?_ hrun
      exact ⟨ih.faithful.of_watch rfl rfl, ih.noted⟩
  | between _ _ _ hwatched ih =>
      exact ⟨ih.faithful, hwatched ▸ ih.noted⟩

/-- Frames in a row, each with the disturbances during it. -/
def runFrames (fuel : Nat) :
    List (RespValue × List (Disturbance S P)) -> Connection × Observed S P ->
      Option (Connection × Observed S P)
  | [], st => some st
  | (v, pending) :: frames, (c, o) =>
      match (c.processFrame fuel v).run (observed S P)
          { o with pending := pending } with
      | some ((c', _), o') =>
          runFrames fuel frames (c', o'.mark (c.clearsWatches v))
      | none => none

theorem watching_runFrames {fuel : Nat}
    {frames : List (RespValue × List (Disturbance S P))}
    {st st' : Connection × Observed S P} (h : Watching fuel st.1 st.2)
    (hrun : runFrames fuel frames st = some st') : Watching fuel st'.1 st'.2 := by
  induction frames generalizing st with
  | nil =>
      cases hrun
      exact h
  | cons frame frames ih =>
      rcases frame with ⟨v, pending⟩
      rcases st with ⟨c, o⟩
      unfold runFrames at hrun
      split at hrun
      · rename_i hframe
        exact ih (Watching.frame pending h hframe) hrun
      · cases hrun

/-!
# The law of EXEC
-/

/-- `EXEC` replies nil and does nothing but compare versions. -/
structure Aborts (c c' : Connection) (flow : Flow) (o o' : Observed S P) :
    Prop where
  reply : flow = .reply (.bulkString none)
  executed : c'.executor = c.executor
  compared : (checkKeysUnchanged c.watchedVersions).run (observed S P) o =
    some (false, o')

/-- `EXEC` executes all queued commands in order and replies their results. -/
def ExecutesAll (fuel : Nat) (c c' : Connection) (flow : Flow)
    (o o' : Observed S P) : Prop :=
  exists o1 results,
    (checkKeysUnchanged c.watchedVersions).run (observed S P) o =
      some (true, o1) ∧
    (executeAll fuel c.executor c.queuedCommands []).run (observed S P) o1 =
      some ((results, c'.executor), o') ∧
    flow = .reply (.array (some results)) ∧
    results.length = c.queuedCommands.length

theorem executeAll_length (fuel : Nat) (x : CommandExecutor)
    (cmds : List Command) (results : List RespValue) :
    Returns Anything (fun r : List RespValue × CommandExecutor =>
      r.1.length = results.length + cmds.length)
      (executeAll fuel x cmds results) := by
  induction cmds generalizing x results with
  | nil => exact Returns.done rfl
  | cons cmd cmds ih =>
      refine returns_bind (returns_trivial _) fun r _ => ?_
      refine returns_mono (ih r.2 (results ++ [r.1])) fun r' hr' => ?_
      rw [hr', List.length_append, List.length_cons, List.length_cons,
        List.length_nil]
      omega

/-- `EXEC` in a transaction compares versions first, and the comparison decides
between the two ways to go on. -/
theorem run_exec {fuel : Nat} {c c' : Connection} {v : RespValue} {flow : Flow}
    {o o' : Observed S P} (hroute : c.route v = .dispatched .exec)
    (hqueuing : c.transactionState = .queuing)
    (hrun : (c.processFrame fuel v).run (observed S P) o =
      some ((c', flow), o')) :
    Aborts c c' flow o o' ∨ ExecutesAll fuel c c' flow o o' := by
  rcases run_processFrame.mp hrun with ⟨c1, hframe, rfl⟩
  rw [frameFlow_eq, hroute] at hframe
  change (exec fuel c.countCommand).run (observed S P) o = _ at hframe
  rcases run_exec_cases (c := c.countCommand) hqueuing hframe with
    ⟨hcheck, rfl, rfl⟩ | ⟨o1, results, x, hcheck, hall, rfl, rfl⟩
  · exact Or.inl ⟨rfl, rfl, hcheck⟩
  · have hlength := run_anything (executeAll_length fuel _ _ _) hall
    exact Or.inr ⟨o1, results, hcheck, hall, rfl,
      hlength.trans (Nat.zero_add _)⟩

/-- In the history from `o` to `o'` a key is compared of which `R` holds up to
that comparison. -/
def Compared (R : Bytes -> History Bytes -> Prop) (o o' : Observed S P) : Prop :=
  exists during, o'.history = during ++ o.history ∧
    ReadWith R during o.history

/-- The law: `EXEC` aborts exactly if some key was notified after it was
watched and before it is compared, and executes everything otherwise. -/
def ExecLaw (fuel : Nat) (c c' : Connection) (flow : Flow)
    (o o' : Observed S P) : Prop :=
  (Aborts c c' flow o o' <-> Compared ModifiedSinceRead o o') ∧
    (¬ Compared ModifiedSinceRead o o' -> ExecutesAll fuel c c' flow o o')

theorem compared_iff {R : Bytes -> History Bytes -> Prop} {o o1 o' : Observed S P}
    {during : History Bytes} (hduring : o1.history = during ++ o.history)
    (honly : OnlyModified o1.history o'.history) :
    Compared R o o' <-> ReadWith R during o.history := by
  rcases honly with ⟨later, hlater, hmodified⟩
  have heq : o'.history = (later ++ during) ++ o.history := by
    rw [hlater, hduring, List.append_assoc]
  have hread : ReadWith R (later ++ during) o.history <->
      ReadWith R during o.history := by
    rw [readWith_append]
    simp [OnlyModified.not_readWith hmodified]
  constructor
  · rintro ⟨all, hall, hR⟩
    rw [heq] at hall
    rw [← List.append_cancel_right hall] at hR
    exact hread.mp hR
  · intro hR
    exact ⟨later ++ during, heq, hread.mpr hR⟩

theorem mem_watchedVersions {c : Connection} {o : Observed S P}
    (h : Consistent c o) {entry : Bytes × UInt64}
    (hentry : entry ∈ c.watchedVersions) :
    some entry.2 = (recorded entry.1 o.history).map UInt64.ofNat := by
  rcases List.mem_map.mp hentry with ⟨⟨key, version⟩, hmem, rfl⟩
  rw [← h.noted]
  exact (AList.mem_lookup_iff.mpr hmem).symm

theorem nodup_watchedVersions (c : Connection) :
    (c.watchedVersions.map Prod.fst).Nodup := by
  have hkeys : c.watchedVersions.map Prod.fst = c.watchedKeys.keys := by
    simp only [watchedVersions, List.map_map]
    rfl
  rw [hkeys]
  exact c.watchedKeys.keys_nodup

/-- `EXEC` aborts exactly if it compares a key that was notified after it was
last watched. -/
theorem exec_compared_iff (fuel : Nat) {c : Connection} (c' : Connection)
    (flow : Flow) {o o' : Observed S P} (h : Consistent c o)
    (hbound : modifications o'.history < 2 ^ 64) :
    (Aborts c c' flow o o' -> Compared ModifiedSinceLastRead o o') ∧
      (ExecutesAll fuel c c' flow o o' ->
        ¬ Compared ModifiedSinceLastRead o o') := by
  have hentries : forall entry, entry ∈ c.watchedVersions ->
      some entry.2 = (recorded entry.1 o.history).map UInt64.ofNat :=
    fun _ hentry => mem_watchedVersions h hentry
  constructor
  · intro haborts
    rcases Observed.run_checkKeysUnchanged haborts.compared h.faithful
      c.nodup_watchedVersions hentries hbound with ⟨during, hduring, hiff⟩
    exact ⟨during, hduring, hiff.mp rfl⟩
  · rintro ⟨o1, results, hcheck, hall, _⟩
    have hmoved := Observed.moved_run (unversioned_executeAll _ _ _ _) hall
    have hbound1 : modifications o1.history < 2 ^ 64 := by
      rcases hmoved.history with ⟨later, hlater, _⟩
      rw [hlater, modifications_append] at hbound
      omega
    rcases Observed.run_checkKeysUnchanged hcheck h.faithful
      c.nodup_watchedVersions hentries hbound1 with ⟨during, hduring, hiff⟩
    rw [compared_iff hduring hmoved.history, ← hiff]
    simp

/-- `EXEC` follows the law exactly if, once some key was notified after a
`WATCH` of it, some key was notified after the last `WATCH` of it: watching a
key again forgets what came before. -/
theorem exec_law_iff {fuel : Nat} {c c' : Connection} {v : RespValue}
    {flow : Flow} {o o' : Observed S P} (hreach : Watching fuel c o)
    (pending : List (Disturbance S P))
    (hroute : c.route v = .dispatched .exec)
    (hqueuing : c.transactionState = .queuing)
    (hrun : (c.processFrame fuel v).run (observed S P)
      { o with pending := pending } = some ((c', flow), o'))
    (hbound : modifications o'.history < 2 ^ 64) :
    ExecLaw fuel c c' flow { o with pending := pending } o' <->
      (Compared ModifiedSinceRead { o with pending := pending } o' ->
        Compared ModifiedSinceLastRead { o with pending := pending } o') := by
  have hconsistent := consistent_of_watching hreach
  have hstart : Consistent c { o with pending := pending } :=
    ⟨hconsistent.faithful.of_watch rfl rfl, hconsistent.noted⟩
  have hlast := exec_compared_iff fuel c' flow hstart hbound
  have hweaker : Compared ModifiedSinceLastRead { o with pending := pending } o' ->
      Compared ModifiedSinceRead { o with pending := pending } o' := by
    rintro ⟨during, hduring, hread⟩
    exact ⟨during, hduring, hread.mono fun _ _ h => h.modifiedSinceRead⟩
  rcases run_exec hroute hqueuing hrun with haborts | hexecutes
  · have hmodified := hlast.1 haborts
    exact ⟨fun _ _ => hmodified, fun _ =>
      ⟨⟨fun _ => hweaker hmodified, fun _ => haborts⟩,
        fun hnone => absurd (hweaker hmodified) hnone⟩⟩
  · have hnot := hlast.2 hexecutes
    have hnoabort : ¬ Aborts c c' flow { o with pending := pending } o' :=
      fun haborts => hnot (hlast.1 haborts)
    constructor
    · rintro ⟨hiff, _⟩ hsince
      exact absurd (hiff.mpr hsince) hnoabort
    · intro himplies
      have hnone := mt himplies hnot
      exact ⟨⟨fun h => absurd h hnoabort, fun h => absurd h hnone⟩,
        fun _ => hexecutes⟩

end Connection

end Reachable

/-!
# Watching a key twice
-/

namespace Connection

/-- A command as a client sends it. -/
def request (words : List String) : RespValue :=
  .array (some (words.map fun word => .bulkString (some (asBytes word))))

def freshConnection : Connection :=
  newWithAddr 0 { requirepass := none } none 0 0

def freshWorld : Observed mapStore idlePlatform where
  world :=
    { store := (∅ : MapStore.Entries)
      platform := ()
      watch := .new
      tracker := ∅
      clients := ∅ }
  pending := []
  history := []

def notifies (word : String) : Disturbance mapStore idlePlatform where
  notified := [asBytes word]
  others := id

/-- Whatever was notified between two `WATCH` of a key is forgotten. -/
theorem exec_after_rewatch_executes :
    exists c o c' o',
      runFrames 0 [(request ["WATCH", "k"], []),
          (request ["WATCH", "k"], [notifies "k"]), (request ["MULTI"], [])]
        (freshConnection, freshWorld) = some (c, o) ∧
      (c.processFrame 0 (request ["EXEC"])).run (observed _ _)
          { o with pending := [] } =
        some ((c', .reply (.array (some []))), o') ∧
      ¬ ExecLaw 0 c c' (.reply (.array (some []))) { o with pending := [] } o' := by
  refine ⟨_, _, _, _, rfl, rfl, ?_⟩
  rintro ⟨hiff, _⟩
  have hcompared := hiff.mpr
    ⟨_, rfl, asBytes "k", [], [], rfl, [.read (asBytes "k"),
      .modified (asBytes "k")], [], rfl, by decide, by decide⟩
  cases hcompared.reply

theorem watching_fresh : Watching 0 freshConnection freshWorld :=
  Watching.accepted 0 _ none 0 0 rfl rfl

theorem exec_law_iff_notified :
    exists c o c' o',
      runFrames 0 [(request ["WATCH", "k"], []), (request ["MULTI"], [])]
        (freshConnection, freshWorld) = some (c, o) ∧
      (c.processFrame 0 (request ["EXEC"])).run (observed _ _)
          { o with pending := [notifies "k"] } =
        some ((c', .reply (.bulkString none)), o') ∧
      (ExecLaw 0 c c' (.reply (.bulkString none))
          { o with pending := [notifies "k"] } o' <->
        (Compared ModifiedSinceRead { o with pending := [notifies "k"] } o' ->
          Compared ModifiedSinceLastRead
            { o with pending := [notifies "k"] } o')) := by
  have hscript : exists c o c' o',
      runFrames 0 [(request ["WATCH", "k"], []), (request ["MULTI"], [])]
        (freshConnection, freshWorld) = some (c, o) ∧
      (c.processFrame 0 (request ["EXEC"])).run (observed _ _)
          { o with pending := [notifies "k"] } =
        some ((c', .reply (.bulkString none)), o') ∧
      c.route (request ["EXEC"]) = .dispatched .exec ∧
      c.transactionState = .queuing ∧ modifications o'.history < 2 ^ 64 :=
    ⟨_, _, _, _, rfl, rfl, rfl, rfl, by decide⟩
  rcases hscript with
    ⟨c, o, c', o', hframes, hrun, hroute, hqueuing, hbound⟩
  have hwatching := watching_runFrames watching_fresh hframes
  exact ⟨c, o, c', o', hframes, hrun,
    exec_law_iff hwatching _ hroute hqueuing hrun hbound⟩

end Connection

end FeoxServer
