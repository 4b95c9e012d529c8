import FeoxServer.Protocol.DerivedKeys
import FeoxServer.Protocol.Executor
import FeoxServer.Store.KeyedStore

/-!
# The keys that commands work on

In a store with one entry for every key, a command on strings or lists changes
the entries of its own keys only, and what a reading command replies depends on
the entries of its keys only.
-/

namespace FeoxServer

open Foundation Prog

/-- The call works on keys of `K`, or notifies somebody of a key. -/
def Call.On (K : Set Bytes) : Call -> Prop
  | .store c => c.touches ⊆ K
  | .notifyKeyModified _ => True
  | _ => False

section Server

variable {ε : Type} {S : FeoxStore} {P : Platform}
  {cell : S.State -> Bytes -> ε}

theorem run_on_others (hS : KeyedStore S cell) {α : Type} {K : Set Bytes}
    {p : ServerProg α} (hp : Only (Call.On K) p) {w w' : World S P} {a : α}
    (hrun : p.run (server S P) w = some (a, w')) :
    w'.tracker = w.tracker ∧
      forall k, k ∉ K -> cell w'.store k = cell w.store k := by
  have htracker := run_observe_eq (server S P) World.tracker
    (P := Call.On K) (fun c hc w => by cases c <;> first | rfl | cases hc) hp hrun
  refine ⟨htracker, fun k hk => ?_⟩
  refine run_observe_eq (server S P) (fun w => cell w.store k)
    (P := Call.On K) (fun c hc w => ?_) hp hrun
  cases c with
  | store c => exact hS.others c w.store fun hmem => hk (hc hmem)
  | notifyKeyModified key => rfl
  | _ => cases hc

/-- What a program replies, whatever it leaves behind. -/
def replyOf {α : Type} (p : ServerProg α) (w : World S P) : Option α :=
  (p.run (server S P) w).map Prod.fst

theorem run_on_alike (hS : KeyedStore S cell) {α : Type} {K : Set Bytes}
    {p : ServerProg α} (hp : Only (Call.On K) p) {w w' : World S P}
    (h : Set.EqOn (cell w.store) (cell w'.store) K) :
    replyOf p w = replyOf p w' := by
  have hstep : forall c, Call.On K c -> forall v v' : World S P,
      Set.EqOn (cell v.store) (cell v'.store) K ->
        (World.reply c v).1 = (World.reply c v').1 ∧
          Set.EqOn (cell (World.reply c v).2.store)
            (cell (World.reply c v').2.store) K := by
    intro c hc v v' hv
    cases c with
    | store c =>
        refine ⟨hS.answer c (hv.mono hc), fun k hk => ?_⟩
        by_cases htouched : k ∈ c.touches
        · exact hS.own c (hv.mono hc) htouched
        · change cell (S.reply c v.store).2 k = cell (S.reply c v'.store).2 k
          rw [hS.others c v.store htouched, hS.others c v'.store htouched]
          exact hv hk
    | notifyKeyModified key => exact ⟨rfl, hv⟩
    | _ => cases hc
  unfold replyOf
  rcases run_agrees (server S P) (server S P) hstep hp h with
    ⟨hw, hw'⟩ | ⟨a, v, v', hw, hw', _⟩
  · rw [hw, hw']
  · rw [hw, hw']
    rfl

end Server

/-- While the changes of `tracker` are pending, commands of the first kind leave
the replies to those of the second kind as they are. -/
def Isolates (Writes Reads : Command -> Prop) (tracker : MetadataTracker) :
    Prop :=
  forall {ε : Type} {S : FeoxStore} {P : Platform} {cell : S.State -> Bytes -> ε}
    {write read : Command} {fuel : Nat} {x : CommandExecutor}
    {w w' : World S P} {r : RespValue},
    KeyedStore S cell -> w.tracker = tracker -> Writes write -> Reads read ->
      (x.respond fuel write).run (server S P) w = some (r, w') ->
        replyOf (x.respond fuel read) w' = replyOf (x.respond fuel read) w

theorem on_onStore {α : Type} {K : Set Bytes} {p : StoreProg α}
    (hp : Only (fun c => c.touches ⊆ K) p) : Only (Call.On K) (onStore p) :=
  only_hoist hp fun _ hc => hc

theorem touches_subset {K : Set Bytes} {c : StoreCall} {key : Bytes}
    (h : c.key? = some key) (hkey : key ∈ K) : c.touches ⊆ K := by
  rw [StoreCall.touches_eq_singleton h]
  exact Set.singleton_subset_iff.mpr hkey

theorem on_modifying {α : Type} {K : Set Bytes} (key : Bytes)
    (modified : α -> Bool) (reply : α -> RespValue)
    {p : ServerProg (Except Error α)} (hp : Only (Call.On K) p) :
    Only (Call.On K) (CommandExecutor.modifying key modified reply p) := by
  refine only_bind hp fun r => ?_
  cases r with
  | error e => exact Only.done _
  | ok a =>
      simp only
      split
      · exact only_call_bind_iff.mpr ⟨trivial, fun _ => Only.done _⟩
      · exact Only.done _

theorem on_reading {α : Type} {K : Set Bytes} (reply : α -> RespValue)
    {p : ServerProg (Except Error α)} (hp : Only (Call.On K) p) :
    Only (Call.On K) (CommandExecutor.reading reply p) :=
  only_bind hp fun _ => Only.done _

namespace ListOperations

/-!
# Lists
-/

abbrev OnList {α : Type} (key : Bytes) (p : StoreProg α) : Prop :=
  Only (fun c => c.touches ⊆ keysOf key) p

theorem touches_metaKey {c : StoreCall} {key : Bytes}
    (h : c.key? = some (metaKey key)) : c.touches ⊆ keysOf key :=
  touches_subset h (metaKey_mem key)

theorem touches_valueKey {c : StoreCall} {key : Bytes} {pos : Int64}
    (h : c.key? = some (valueKey key pos)) : c.touches ⊆ keysOf key :=
  touches_subset h (valueKey_mem key pos)

theorem onList_readOrCreate (key : Bytes) : OnList key (readOrCreate key) := by
  unfold readOrCreate
  refine only_call_bind_iff.mpr ⟨touches_metaKey rfl, ?_⟩
  intro answer
  cases answer with
  | ok bytes => exact Only.done _
  | error e =>
      refine only_call_bind_iff.mpr ⟨touches_metaKey rfl, fun created => ?_⟩
      cases created <;> exact Only.done _

theorem onList_writeMetadata (key metaBytes newMeta : Bytes) (isNew : Bool) :
    OnList key (writeMetadata key metaBytes newMeta isNew) := by
  unfold writeMetadata
  split
  · refine only_call_bind_iff.mpr ⟨touches_metaKey rfl, fun answer => ?_⟩
    cases answer <;> exact Only.done _
  · refine only_call_bind_iff.mpr ⟨touches_metaKey rfl, fun answer => ?_⟩
    cases answer <;> exact Only.done _

theorem onList_pushOne (pushMeta : ListMeta -> ListMeta × Int64)
    (key value : Bytes) (fuel retries : Nat) :
    OnList key (pushOne pushMeta key value fuel retries) := by
  induction fuel generalizing retries with
  | zero => exact Only.exhausted
  | succ fuel ih =>
      unfold pushOne
      refine only_bind (onList_readOrCreate key) fun found => ?_
      cases found with
      | none => exact ih retries
      | some found =>
          refine only_bind (onList_writeMetadata key _ _ _) fun written => ?_
          cases written with
          | error e => exact Only.done _
          | ok swapped =>
              cases swapped with
              | true =>
                  refine only_call_bind_iff.mpr ⟨touches_valueKey rfl, fun answer => ?_⟩
                  cases answer <;> exact Only.done _
              | false =>
                  simp only
                  split
                  · exact Only.done _
                  · exact ih (retries + 1)

theorem onList_push (pushMeta : ListMeta -> ListMeta × Int64) (fuel : Nat)
    (key : Bytes) (values : List Bytes) :
    OnList key (push pushMeta fuel key values) := by
  have hall : OnList key (pushAll pushMeta fuel key values) := by
    induction values with
    | nil => exact Only.done _
    | cons value values ih =>
        unfold pushAll
        refine only_bind (onList_pushOne pushMeta key value fuel 0) fun r => ?_
        cases r with
        | ok _ => exact ih
        | error e => exact Only.done _
  refine only_bind hall fun r => ?_
  cases r with
  | error e => exact Only.done _
  | ok _ =>
      refine only_call_bind_iff.mpr ⟨touches_metaKey rfl, fun answer => ?_⟩
      cases answer <;> exact Only.done _

theorem onList_popOne (popMeta : ListMeta -> ListMeta × Int64) (key : Bytes)
    (fuel retries : Nat) : OnList key (popOne popMeta key fuel retries) := by
  induction fuel generalizing retries with
  | zero => exact Only.exhausted
  | succ fuel ih =>
      unfold popOne
      refine only_call_bind_iff.mpr ⟨touches_metaKey rfl, fun answer => ?_⟩
      cases answer with
      | error e => exact Only.done _
      | ok metaBytes =>
          simp only
          split
          · exact Only.done _
          · refine only_call_bind_iff.mpr ⟨touches_metaKey rfl, fun swapped => ?_⟩
            rcases swapped with e | ⟨_ | _⟩
            · exact Only.done _
            · simp only
              split
              · exact Only.done _
              · exact ih (retries + 1)
            · refine only_call_bind_iff.mpr ⟨touches_valueKey rfl, fun value => ?_⟩
              cases value with
              | error e => exact ih retries
              | ok value =>
                  refine only_call_bind_iff.mpr ⟨touches_valueKey rfl, fun deleted => ?_⟩
                  cases deleted <;> exact Only.done _

theorem onList_pop (popMeta : ListMeta -> ListMeta × Int64) (fuel : Nat)
    (key : Bytes) (count : Option UInt64) :
    OnList key (pop popMeta fuel key count) := by
  have hloop : forall n popped, OnList key (popLoop popMeta fuel key n popped) := by
    intro n
    induction n with
    | zero => exact fun popped => Only.done _
    | succ n ih =>
        intro popped
        unfold popLoop
        refine only_bind (onList_popOne popMeta key fuel 0) fun r => ?_
        rcases r with e | ⟨_ | value⟩
        · exact Only.done _
        · exact Only.done _
        · exact ih _
  exact hloop _ []

/-!
The reading commands only get values.
-/

section Reading

variable {Q : StoreCall -> Prop} {key : Bytes}

theorem only_llen (hmeta : Q (.getBytes (metaKey key))) : Only Q (llen key) := by
  unfold llen
  refine only_call_bind_iff.mpr ⟨hmeta, fun answer => ?_⟩
  cases answer <;> exact Only.done _

theorem only_lrange (hmeta : Q (.getBytes (metaKey key)))
    (hvalue : forall pos, Q (.getBytes (valueKey key pos)))
    (start stop : Int64) : Only Q (lrange key start stop) := by
  have hloop : forall head n i results,
      Only Q (rangeLoop key head n i results) := by
    intro head n
    induction n with
    | zero => exact fun i results => Only.done _
    | succ n ih =>
        intro i results
        unfold rangeLoop
        refine only_call_bind_iff.mpr ⟨hvalue _, fun answer => ?_⟩
        cases answer with
        | ok value => exact ih _ _
        | error e => exact ih _ _
  unfold lrange
  refine only_call_bind_iff.mpr ⟨hmeta, fun answer => ?_⟩
  cases answer with
  | error e => exact Only.done _
  | ok metaBytes =>
      simp only
      split
      · exact Only.done _
      · split
        · exact Only.done _
        · exact only_bind (hloop _ _ _ _) fun _ => Only.done _

theorem only_lindex (hmeta : Q (.getBytes (metaKey key)))
    (hvalue : forall pos, Q (.getBytes (valueKey key pos))) (index : Int64) :
    Only Q (lindex key index) := by
  unfold lindex
  refine only_call_bind_iff.mpr ⟨hmeta, fun answer => ?_⟩
  cases answer with
  | error e => exact Only.done _
  | ok metaBytes =>
      simp only
      split
      · exact Only.done _
      · split
        · exact Only.done _
        · refine only_call_bind_iff.mpr ⟨hvalue _, fun value => ?_⟩
          cases value <;> exact Only.done _

end Reading

theorem onList_llen (key : Bytes) : OnList key (llen key) :=
  only_llen (touches_metaKey rfl)

theorem onList_lrange (key : Bytes) (start stop : Int64) :
    OnList key (lrange key start stop) :=
  only_lrange (touches_metaKey rfl) (fun _ => touches_valueKey rfl) start stop

theorem onList_lindex (key : Bytes) (index : Int64) :
    OnList key (lindex key index) :=
  only_lindex (touches_metaKey rfl) (fun _ => touches_valueKey rfl) index

end ListOperations

end FeoxServer
