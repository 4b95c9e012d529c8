import FeoxServer.Foundation.Guarded
import FeoxServer.Protocol.ListTallies
import FeoxServer.Store.FaultyStore

/-!
# Lists under faults

One client works on a list, and any call of the store may fail without effect.
The list survives as long as no fault strikes between the metadata of a command
and its values, and no failed read of the metadata makes a push start a list anew
that has elements.
-/

namespace FeoxServer

open Foundation Prog

namespace ListOperations

/-!
# What the client knows
-/

/-- The elements of a list, each with whether its push replied success. -/
abbrev Ledger : Type :=
  List (Bytes × Bool)

/-- The ledger after a command and its reply.  A push that failed has put some of
its values, which no reply has acknowledged. -/
inductive Entered : Ledger -> ListCommand Bytes -> Except Error (ListReply Bytes) ->
    Ledger -> Prop where
  | lpush (ledger : Ledger) (values : List Bytes) (n : ListReply Bytes) :
      Entered ledger (.lpush values) (.ok n)
        (Deque.next ledger (.lpush (values.map (·, true))))
  | rpush (ledger : Ledger) (values : List Bytes) (n : ListReply Bytes) :
      Entered ledger (.rpush values) (.ok n)
        (Deque.next ledger (.rpush (values.map (·, true))))
  | lpushFailed (ledger : Ledger) (values : List Bytes) (k : Nat) (e : Error) :
      Entered ledger (.lpush values) (.error e)
        (Deque.next ledger (.lpush ((values.take k).map (·, false))))
  | rpushFailed (ledger : Ledger) (values : List Bytes) (k : Nat) (e : Error) :
      Entered ledger (.rpush values) (.error e)
        (Deque.next ledger (.rpush ((values.take k).map (·, false))))
  | lpop (popped rest : Ledger) (count : Option UInt64) :
      Entered (popped ++ rest) (.lpop count) (.ok (.values (popped.map Prod.fst))) rest
  | rpop (popped rest : Ledger) (count : Option UInt64) :
      Entered (rest ++ popped.reverse) (.rpop count)
        (.ok (.values (popped.map Prod.fst))) rest
  | lpopFailed (ledger : Ledger) (count : Option UInt64) (e : Error) :
      Entered ledger (.lpop count) (.error e) ledger
  | rpopFailed (ledger : Ledger) (count : Option UInt64) (e : Error) :
      Entered ledger (.rpop count) (.error e) ledger

/-- The ledger after a sequence of commands and their replies. -/
inductive Entries : Ledger -> List (ListCommand Bytes) ->
    List (Except Error (ListReply Bytes)) -> Ledger -> Prop where
  | nil (ledger : Ledger) : Entries ledger [] [] ledger
  | cons {ledger ledger' ledger'' : Ledger} {command : ListCommand Bytes}
      {r : Except Error (ListReply Bytes)} {commands : List (ListCommand Bytes)}
      {rs : List (Except Error (ListReply Bytes))} :
      Entered ledger command r ledger' -> Entries ledger' commands rs ledger'' ->
        Entries ledger (command :: commands) (r :: rs) ledger''

def acknowledgedValues (ledger : Ledger) : List Bytes :=
  (ledger.filter Prod.snd).map Prod.fst

/-- Once reads succeed, the length is that of the range, and every acknowledged
value that was not returned is still in the range, in order. -/
def Survives (S : FeoxStore) (key : Bytes) (commands : List (ListCommand Bytes))
    (rs : List (Except Error (ListReply Bytes))) (s : S.State) : Prop :=
  exists items n s1 s2, (lrange key 0 (-1)).run S s = some (.ok items, s1) ∧
    (llen key).run S s = some (.ok n, s2) ∧ n.toInt = items.length ∧
      exists ledger, Entries [] commands rs ledger ∧
        (acknowledgedValues ledger).Sublist items

/-!
# Harmless faults
-/

section Faults

variable {S : FeoxStore} {view : S.State -> Bytes -> Option Bytes} {key : Bytes}

/-- Every call of the store may fail. -/
abbrev faultyStore (S : FeoxStore) : FeoxStore :=
  faulty (fun _ => true) S

def isDelete : Exchange StoreCall StoreAnswer -> Bool
  | ⟨.delete _, _⟩ => true
  | _ => false

/-- A fault does no harm, or none is foreseen.  Metadata is written over only
while the list is empty; no call to a value key fails; and no swap fails after
the command has popped a value. -/
def harmless (view : S.State -> Bytes -> Option Bytes) (key : Bytes)
    (log : List (Exchange StoreCall StoreAnswer)) (c : StoreCall)
    (s : S.State) (faults : Faults) : Bool :=
  match c with
  | .insert k _ =>
      if k = metaKey key then
        faults.head?.join.isSome || lengthIn (view s) key = 0
      else faults.head?.join.isNone
  | .getBytes k => k = metaKey key || faults.head?.join.isNone
  | .delete _ => faults.head?.join.isNone
  | .compareAndSwap _ _ _ => !log.any isDelete || faults.head?.join.isNone
  | _ => true

abbrev spared (view : S.State -> Bytes -> Option Bytes) (key : Bytes) :
    Guard (faultyStore S) :=
  fun log c st => harmless view key log c st.1 st.2 = true

/-- The commands run one after the other, and every fault is harmless. -/
def Spared (view : S.State -> Bytes -> Option Bytes) (key : Bytes) (fuel : Nat) :
    List (ListCommand Bytes) -> (faultyStore S).State -> Prop
  | [], _ => True
  | command :: commands, st =>
      (perform fuel key command).Obeys (spared view key) [] st ∧
        forall r, r ∈ (perform fuel key command).run (faultyStore S) st ->
          Spared view key fuel commands r.2

instance decidableSpared (view : S.State -> Bytes -> Option Bytes) (key : Bytes)
    (fuel : Nat) : forall commands st, Decidable (Spared view key fuel commands st)
  | [], _ => .isTrue trivial
  | command :: commands, st =>
      have : forall st', Decidable (Spared view key fuel commands st') :=
        decidableSpared view key fuel commands
      inferInstanceAs (Decidable (_ ∧ forall r,
        r ∈ (perform fuel key command).run (faultyStore S) st ->
          Spared view key fuel commands r.2))

def Stands (view : S.State -> Bytes -> Option Bytes) (key : Bytes) (room : Nat)
    (items : List Bytes) (st : (faultyStore S).State) : Prop :=
  exists m, Represents (view st.1) key items m ∧ Sound room m

theorem Stands.of_view {room : Nat} {items : List Bytes}
    {st st' : (faultyStore S).State} (h : Stands view key room items st)
    (hview : view st'.1 = view st.1) : Stands view key room items st' := by
  unfold Stands
  rw [hview]
  exact h

theorem ensures_faulty {α : Type} {good : Guard (faultyStore S)}
    {Q : α -> List (Exchange StoreCall StoreAnswer) -> (faultyStore S).State -> Prop}
    {c : StoreCall} {next : StoreAnswer c -> StoreProg α}
    {log : List (Exchange StoreCall StoreAnswer)} {s s' : S.State} {faults : Faults}
    {r : StoreAnswer c} {refused : FeoxError -> StoreAnswer c}
    (hrefusal : forall e, c.refusal e = some (refused e))
    (hreply : S.reply c s = (r, s'))
    (hfails : forall e, faults.head?.join = some e -> good log c (withFaults s faults) ->
      (next (refused e)).Ensures good Q (⟨c, refused e⟩ :: log)
        (withFaults s faults.tail))
    (hserves : faults.head?.join = none -> good log c (withFaults s faults) ->
      (next r).Ensures good Q (⟨c, r⟩ :: log) (withFaults s' faults.tail)) :
    (Prog.ask c next).Ensures good Q log (withFaults s faults) := by
  cases hhead : faults.head?.join with
  | none =>
      exact ensures_ask (faulty_served (fun _ => true) rfl hreply hhead) (hserves hhead)
  | some e =>
      exact ensures_ask (faulty_refused (fun _ => true) rfl (hrefusal e) s hhead)
        (hfails e hhead)

/-- A read leaves the list as it is.  It fails when a fault is foreseen or there
is nothing under the key. -/
theorem ensures_getBytes {α : Type} (hS : BehavesAsMap S view) {good : Guard (faultyStore S)}
    {Q : α -> List (Exchange StoreCall StoreAnswer) -> (faultyStore S).State -> Prop}
    {k : Bytes} {next : Except FeoxError Bytes -> StoreProg α}
    {log : List (Exchange StoreCall StoreAnswer)} {st : (faultyStore S).State}
    (hok : forall bytes st', view st.1 k = some bytes -> view st'.1 = view st.1 ->
      (next (.ok bytes)).Ensures good Q (⟨.getBytes k, .ok bytes⟩ :: log) st')
    (herror : forall e st', (st.2.head?.join = none -> view st.1 k = none) ->
      view st'.1 = view st.1 -> good log (.getBytes k) st ->
        (next (.error e)).Ensures good Q (⟨.getBytes k, .error e⟩ :: log) st') :
    (Prog.ask (.getBytes k) next).Ensures good Q log st := by
  change (Prog.ask (.getBytes k) next).Ensures good Q log (withFaults st.1 st.2)
  cases hvalue : view st.1 k with
  | some bytes =>
      rcases hS.getBytes_present hvalue with ⟨s1, hreply, hview⟩
      refine ensures_faulty (fun e => rfl) hreply
        (fun e hhead hgood => ?_) fun hhead hgood => ?_
      · refine herror e _ (fun hnone => ?_) rfl hgood
        rw [hhead] at hnone
        contradiction
      · exact hok bytes _ hvalue hview
  | none =>
      rcases hS.getBytes_absent hvalue with ⟨e, s1, hreply, hview⟩
      refine ensures_faulty (fun e => rfl) hreply
        (fun e hhead hgood => ?_) fun hhead hgood => ?_
      · exact herror e _ (fun _ => hvalue) rfl hgood
      · exact herror e _ (fun _ => hvalue) hview hgood

/-!
# Pushing
-/

def putValue (key : Bytes) (pos : Int64) (value : Bytes) : StoreProg (Except Error Unit) :=
  .ask (.insert (valueKey key pos) value) fun
    | .ok _ => .done (.ok ())
    | .error e => .done (.error (.database e))

def nextRound (pushMeta : ListMeta -> ListMeta × Int64) (key value : Bytes)
    (fuel retries : Nat) : StoreProg (Except Error Unit) :=
  if retries + 1 >= maxRetries then
    .done (.error (.system "Operation failed due to contention"))
  else pushOne pushMeta key value fuel (retries + 1)

def createRound (pushMeta : ListMeta -> ListMeta × Int64) (key value : Bytes)
    (fuel retries : Nat) : StoreProg (Except Error Unit) :=
  .ask (.insert (metaKey key) initialMetadata) fun
    | .error _ => pushOne pushMeta key value fuel retries
    | .ok _ => .ask (.insert (metaKey key) (buildMetadata (pushMeta initialMeta).1)) fun
        | .error _ => nextRound pushMeta key value fuel retries
        | .ok _ => putValue key (pushMeta initialMeta).2 value

def swapRound (pushMeta : ListMeta -> ListMeta × Int64) (key value : Bytes)
    (fuel retries : Nat) (metaBytes : Bytes) : StoreProg (Except Error Unit) :=
  .ask (.compareAndSwap (metaKey key) metaBytes
      (buildMetadata (pushMeta (parseMetadata metaBytes)).1)) fun
    | .error e => .done (.error (.database e))
    | .ok true => putValue key (pushMeta (parseMetadata metaBytes)).2 value
    | .ok false => nextRound pushMeta key value fuel retries

theorem pushOne_eq (pushMeta : ListMeta -> ListMeta × Int64) (key value : Bytes)
    (fuel retries : Nat) :
    pushOne pushMeta key value (fuel + 1) retries =
      .ask (.getBytes (metaKey key)) fun
        | .ok metaBytes => swapRound pushMeta key value fuel retries metaBytes
        | .error _ => createRound pushMeta key value fuel retries := by
  refine congrArg (Prog.ask _) (funext fun r => ?_)
  cases r with
  | ok metaBytes =>
      refine congrArg (Prog.ask _) (funext fun r => ?_)
      match r with
      | .error e => rfl
      | .ok true => exact congrArg (Prog.ask _) (funext fun r => by cases r <;> rfl)
      | .ok false => rfl
  | error e =>
      refine congrArg (Prog.ask _) (funext fun r => ?_)
      cases r with
      | error e => rfl
      | ok u =>
          refine congrArg (Prog.ask _) (funext fun r => ?_)
          cases r with
          | error e => rfl
          | ok u => exact congrArg (Prog.ask _) (funext fun r => by cases r <;> rfl)

/-- A push with this metadata puts its value at this end of the list. -/
structure PutsAt (pushMeta : ListMeta -> ListMeta × Int64)
    (put : List Bytes -> Bytes -> List Bytes) : Prop where
  opens : Opens pushMeta
  represents : forall {v key items m room}, Represents v key items m ->
    Sound (room + 1) m -> forall value,
      Represents (written v key (pushMeta m).1 (pushMeta m).2 (some value)) key
        (put items value) (pushMeta m).1

theorem putsAt_lpush : PutsAt lpushMeta fun items value => value :: items where
  opens := opens_lpushMeta
  represents h hsound value := by
    have hleft := hsound.left
    have hlength := hsound.length
    have hcount := h.count
    exact represents_lpush h (by omega) (by omega) value

theorem putsAt_rpush : PutsAt rpushMeta fun items value => items ++ [value] where
  opens := opens_rpushMeta
  represents h hsound value := by
    have hright := hsound.right
    have hlength := hsound.length
    have hcount := h.count
    exact represents_rpush h (by omega) (by omega) value

theorem Represents.restart {v : Bytes -> Option Bytes} {m : ListMeta}
    (h : Represents v key [] m) :
    Represents (Function.update v (metaKey key) (some (buildMetadata initialMeta))) key
      [] initialMeta where
  stored := Or.inl (Function.update_self _ _ _)
  count := rfl
  window := rfl
  holds := by
    have hkeys : (fun pos => Function.update v (metaKey key)
        (some (buildMetadata initialMeta)) (valueKey key pos)) =
          fun pos => v (valueKey key pos) :=
      funext fun pos => Function.update_of_ne (valueKey_ne_metaKey key pos) _ _
    rw [hkeys]
    exact h.holds.move _

def PushTried (view : S.State -> Bytes -> Option Bytes) (key : Bytes)
    (put : List Bytes -> Bytes -> List Bytes) (room : Nat) (items : List Bytes)
    (value : Bytes) (r : Except Error Unit) (st : (faultyStore S).State) : Prop :=
  match r with
  | .ok _ => Stands view key room (put items value) st
  | .error _ => Stands view key (room + 1) items st

section Push

variable {pushMeta : ListMeta -> ListMeta × Int64}
  {put : List Bytes -> Bytes -> List Bytes}

theorem ensures_putValue (hS : BehavesAsMap S view) (hput : PutsAt pushMeta put)
    {items : List Bytes} {m : ListMeta} {room : Nat} {v : Bytes -> Option Bytes}
    (hrep : Represents v key items m) (hsound : Sound (room + 1) m) {value : Bytes}
    {log : List (Exchange StoreCall StoreAnswer)} {s : S.State} {faults : Faults}
    (hview : view s = Function.update v (metaKey key)
      (some (buildMetadata (pushMeta m).1))) :
    (putValue key (pushMeta m).2 value).Ensures (spared view key)
      (fun r _ => PushTried view key put room items value r) log
      (withFaults s faults) := by
  rcases hS.insert s (valueKey key (pushMeta m).2) value with ⟨s1, hreply, hview1⟩
  refine ensures_faulty (fun e => rfl) hreply (fun e hhead hgood => ?_)
    fun hhead hgood => ?_
  · change (if _ then _ else _) = true at hgood
    rw [if_neg (valueKey_ne_metaKey key _)] at hgood
    change faults.head?.join.isNone = true at hgood
    rw [hhead] at hgood
    contradiction
  · refine ⟨(pushMeta m).1, ?_, hput.opens.sound hsound⟩
    change Represents (view s1) key _ _
    rw [hview1, hview]
    exact hput.represents hrep hsound value

theorem ensures_pushOne (hS : BehavesAsMap S view) (hput : PutsAt pushMeta put)
    {room : Nat} (hbound : room + 1 < 2 ^ 63 - 1000000000) {items : List Bytes}
    (value : Bytes) (fuel retries : Nat) (log : List (Exchange StoreCall StoreAnswer))
    {s : S.State} (faults : Faults)
    (h : Stands view key (room + 1) items (withFaults s faults)) :
    (pushOne pushMeta key value fuel retries).Ensures (spared view key)
      (fun r _ => PushTried view key put room items value r) log
      (withFaults s faults) := by
  induction fuel generalizing retries log s faults with
  | zero => trivial
  | succ fuel ih =>
      have hnext : forall log {s} faults, Stands view key (room + 1) items (withFaults s faults) ->
          (nextRound pushMeta key value fuel retries).Ensures (spared view key)
            (fun r _ => PushTried view key put room items value r) log
            (withFaults s faults) := by
        intro log s faults h
        unfold nextRound
        by_cases hlast : retries + 1 >= maxRetries
        · rw [if_pos hlast]
          exact h
        · rw [if_neg hlast]
          exact ih (retries + 1) log faults h
      -- Only an empty list is started anew.
      have hcreate : forall log {s} faults, Stands view key (room + 1) items (withFaults s faults) ->
          (createRound pushMeta key value fuel retries).Ensures (spared view key)
            (fun r _ => PushTried view key put room items value r) log
            (withFaults s faults) := by
        intro log s faults h
        rcases h with ⟨m, hrep, hsound⟩
        rcases hS.insert s (metaKey key) initialMetadata with ⟨s1, hreply, hview1⟩
        refine ensures_faulty (fun e => rfl) hreply (fun e hhead hgood => ?_)
          fun hhead hgood => ?_
        · exact ih retries _ _ ⟨m, hrep, hsound⟩
        · have hempty : lengthIn (view s) key = 0 := by
            change (if metaKey key = metaKey key then _ else _) = true at hgood
            rw [if_pos rfl] at hgood
            change (faults.head?.join.isSome || decide (lengthIn (view s) key = 0)) = true
              at hgood
            rw [hhead] at hgood
            exact of_decide_eq_true hgood
          have hnil : items = [] := (count_eq_zero_iff hrep).mp
            (count_eq_zero_of_lengthIn hrep.stored hsound hempty)
          subst hnil
          have hrestart := hrep.restart
          have hinitial : Sound (room + 1) initialMeta := sound_initialMeta hbound
          change view s1 = _ at hview1
          rcases hS.insert s1 (metaKey key) (buildMetadata (pushMeta initialMeta).1) with
            ⟨s2, hreply2, hview2⟩
          refine ensures_faulty (fun e => rfl) hreply2 (fun e hhead hgood => ?_)
            fun hhead hgood => ?_
          · refine hnext _ _ ⟨initialMeta, ?_, hinitial⟩
            change Represents (view s1) key [] initialMeta
            rw [hview1]
            exact hrestart
          · refine ensures_putValue hS hput hrestart hinitial ?_
            rw [hview2, hview1]
            rfl
      rw [pushOne_eq]
      refine ensures_getBytes hS (fun metaBytes st' hbytes hview => ?_)
        fun e st' _ hview _ => hcreate _ st'.2 (h.of_view hview)
      rcases h.of_view hview with ⟨m, hrep, hsound⟩
      have hmeta : view st'.1 (metaKey key) = some (buildMetadata m) := by
        rcases hrep.stored with hmeta | ⟨hnone, _⟩
        · exact hmeta
        · rw [hview, hbytes] at hnone
          contradiction
      rw [hview, hbytes] at hmeta
      obtain rfl : metaBytes = buildMetadata m := Option.some.inj hmeta
      rw [← hview] at hbytes
      rcases hS.compareAndSwap_equal (buildMetadata (pushMeta m).1) hbytes with
        ⟨s2, hreply, hview2⟩
      change (swapRound pushMeta key value fuel retries (buildMetadata m)).Ensures _ _ _ _
      unfold swapRound
      rw [parseMetadata_buildMetadata]
      change (Prog.ask _ _).Ensures _ _ _ (withFaults st'.1 st'.2)
      refine ensures_faulty (fun e => rfl) hreply
        (fun e hhead hgood => ?_) fun hhead hgood => ?_
      · exact ⟨m, hrep, hsound⟩
      · exact ensures_putValue hS hput hrep hsound hview2

/-- After a try to push several values the list stands with the first of them, and
with all of them if the push succeeded. -/
def PushesTried (view : S.State -> Bytes -> Option Bytes) (key : Bytes)
    (put : List Bytes -> Bytes -> List Bytes) (room : Nat) (items values : List Bytes)
    {α : Type} (r : Except Error α) (st : (faultyStore S).State) : Prop :=
  match r with
  | .ok _ => Stands view key room (values.foldl put items) st
  | .error _ => exists k, Stands view key room ((values.take k).foldl put items) st

theorem Sound.less {room room' : Nat} {m : ListMeta} (h : Sound room m)
    (hle : room' <= room) : Sound room' m := by
  have hleft := h.left
  have hright := h.right
  have hlength := h.length
  exact ⟨h.span, by omega, by omega, by omega⟩

theorem Stands.less {room room' : Nat} {items : List Bytes}
    {st : (faultyStore S).State} (h : Stands view key room items st)
    (hle : room' <= room) : Stands view key room' items st := by
  rcases h with ⟨m, hrep, hsound⟩
  exact ⟨m, hrep, hsound.less hle⟩

theorem ensures_pushAll (hS : BehavesAsMap S view) (hput : PutsAt pushMeta put)
    (fuel room : Nat) (values : List Bytes) {items : List Bytes}
    (hbound : room + values.length < 2 ^ 63 - 1000000000)
    (log : List (Exchange StoreCall StoreAnswer)) (st : (faultyStore S).State)
    (h : Stands view key (room + values.length) items st) :
    (pushAll pushMeta fuel key values).Ensures (spared view key)
      (fun r _ => PushesTried view key put room items values r) log st := by
  induction values generalizing items log st with
  | nil => exact h
  | cons value values ih =>
      rw [List.length_cons] at hbound h
      have hone : room + values.length + 1 < 2 ^ 63 - 1000000000 := by omega
      refine (ensures_pushOne hS hput hone value fuel 0 log st.2 h).bind ?_
      intro r log st hr
      cases r with
      | error e => exact ⟨0, hr.less (by omega)⟩
      | ok u =>
          refine (ih (by omega) log st hr).mono fun r log st hr => ?_
          cases r with
          | ok u => exact hr
          | error e =>
              rcases hr with ⟨k, hk⟩
              exact ⟨k + 1, hk⟩

theorem ensures_push (hS : BehavesAsMap S view) (hput : PutsAt pushMeta put)
    (fuel room : Nat) (values : List Bytes) {items : List Bytes}
    (hbound : room + values.length < 2 ^ 63 - 1000000000)
    (log : List (Exchange StoreCall StoreAnswer)) (st : (faultyStore S).State)
    (h : Stands view key (room + values.length) items st) :
    (push pushMeta fuel key values).Ensures (spared view key)
      (fun r _ => PushesTried view key put room items values r) log st := by
  refine (ensures_pushAll hS hput fuel room values hbound log st h).bind ?_
  intro r log st hr
  cases r with
  | error e => exact hr
  | ok u =>
      refine ensures_getBytes hS (fun metaBytes st' _ hview => hr.of_view hview)
        fun e st' _ hview _ => ⟨values.length, ?_⟩
      rw [List.take_length]
      exact hr.of_view hview

end Push

/-!
# Popping
-/

/-- A pop with this metadata takes the first element of the list as `shape` lays
it out. -/
structure TakesAt (popMeta : ListMeta -> ListMeta × Int64)
    (shape : List Bytes -> List Bytes) : Prop where
  closes : Closes popMeta
  length : forall items, (shape items).length = items.length
  value : forall {v key value items m}, Represents v key (shape (value :: items)) m ->
    v (valueKey key (popMeta m).2) = some value
  represents : forall {v key value items m}, Represents v key (shape (value :: items)) m ->
    Represents (written v key (popMeta m).1 (popMeta m).2 none) key (shape items)
      (popMeta m).1

theorem takesAt_lpop : TakesAt lpopMeta id where
  closes := closes_lpopMeta
  length _ := rfl
  value h := h.holds.read (i := 0) (by simp [lpopMeta])
  represents h := represents_lpop h

theorem takesAt_rpop : TakesAt rpopMeta List.reverse where
  closes := closes_rpopMeta
  length _ := List.length_reverse
  value {v key value items m} h := by
    rw [List.reverse_cons] at h
    have hwindow := (represents_rpop h).window
    change v (valueKey key (rpopMeta m).1.tail) = some value
    rw [h.holds.read (i := items.reverse.length) hwindow]
    simp
  represents h := by
    rw [List.reverse_cons] at h
    exact represents_rpop h

def takeValue (popMeta : ListMeta -> ListMeta × Int64) (key : Bytes)
    (fuel retries : Nat) (pos : Int64) : StoreProg (Except Error (Option Bytes)) :=
  .ask (.getBytes (valueKey key pos)) fun
    | .error _ => popOne popMeta key fuel retries
    | .ok value => .ask (.delete (valueKey key pos)) fun
        | .ok _ => .done (.ok (some value))
        | .error e => .done (.error (.database e))

def popRound (popMeta : ListMeta -> ListMeta × Int64) (key : Bytes)
    (fuel retries : Nat) (metaBytes : Bytes) :
    StoreProg (Except Error (Option Bytes)) :=
  .ask (.compareAndSwap (metaKey key) metaBytes
      (buildMetadata (popMeta (parseMetadata metaBytes)).1)) fun
    | .error e => .done (.error (.database e))
    | .ok true => takeValue popMeta key fuel retries (popMeta (parseMetadata metaBytes)).2
    | .ok false =>
        if retries + 1 >= maxRetries then .done (.ok none)
        else popOne popMeta key fuel (retries + 1)

theorem popOne_eq (popMeta : ListMeta -> ListMeta × Int64) (key : Bytes)
    (fuel retries : Nat) :
    popOne popMeta key (fuel + 1) retries =
      .ask (.getBytes (metaKey key)) fun
        | .error _ => .done (.ok none)
        | .ok metaBytes =>
            if (parseMetadata metaBytes).count = 0 ∨
                (parseMetadata metaBytes).tail <= (parseMetadata metaBytes).head then
              .done (.ok none)
            else popRound popMeta key fuel retries metaBytes := by
  refine congrArg (Prog.ask _) (funext fun r => ?_)
  cases r with
  | error e => rfl
  | ok metaBytes =>
      refine if_congr Iff.rfl rfl (congrArg (Prog.ask _) (funext fun r => ?_))
      match r with
      | .error e => rfl
      | .ok false => rfl
      | .ok true =>
          refine congrArg (Prog.ask _) (funext fun r => ?_)
          cases r with
          | error e => rfl
          | ok value => exact congrArg (Prog.ask _) (funext fun r => by cases r <;> rfl)

def PopTried (view : S.State -> Bytes -> Option Bytes) (key : Bytes)
    (shape : List Bytes -> List Bytes) (room : Nat) (items : List Bytes)
    (deleted : Bool) (r : Except Error (Option Bytes))
    (log : List (Exchange StoreCall StoreAnswer)) (st : (faultyStore S).State) : Prop :=
  match r with
  | .ok none => Stands view key room (shape items) st
  | .ok (some value) => exists rest, items = value :: rest ∧
      Stands view key room (shape rest) st ∧ log.any isDelete = true
  | .error _ => deleted = false ∧ Stands view key room (shape items) st

section Pop

variable {popMeta : ListMeta -> ListMeta × Int64} {shape : List Bytes -> List Bytes}

theorem ensures_takeValue (hS : BehavesAsMap S view) (htake : TakesAt popMeta shape)
    {value : Bytes} {rest : List Bytes} {m : ListMeta} {room : Nat}
    {v : Bytes -> Option Bytes} (hrep : Represents v key (shape (value :: rest)) m)
    (hsound : Sound room m) (hcount : m.count ≠ 0) (fuel retries : Nat)
    (deleted : Bool) {log : List (Exchange StoreCall StoreAnswer)}
    {st : (faultyStore S).State}
    (hview : view st.1 = Function.update v (metaKey key)
      (some (buildMetadata (popMeta m).1))) :
    (takeValue popMeta key fuel retries (popMeta m).2).Ensures (spared view key)
      (PopTried view key shape room (value :: rest) deleted) log st := by
  have hvalue : view st.1 (valueKey key (popMeta m).2) = some value := by
    rw [hview, Function.update_of_ne (valueKey_ne_metaKey key _)]
    exact htake.value hrep
  refine ensures_getBytes hS (fun bytes st' hbytes hsame => ?_)
    fun e st' hnone _ hgood => ?_
  · obtain rfl : value = bytes := Option.some.inj (hvalue.symm.trans hbytes)
    rw [← hsame] at hvalue
    rcases hS.delete_present hvalue with ⟨s2, hreply, hview2⟩
    refine ensures_faulty (s := st'.1) (fun e => rfl) hreply (fun e hhead hgood => ?_)
      fun hhead hgood => ?_
    · change st'.2.head?.join.isNone = true at hgood
      rw [hhead] at hgood
      contradiction
    · refine ⟨rest, rfl, ⟨(popMeta m).1, ?_, htake.closes.sound hsound hcount⟩, rfl⟩
      change Represents (view s2) key _ _
      rw [hview2, hsame, hview]
      exact htake.represents hrep
  · change (decide (valueKey key (popMeta m).2 = metaKey key) ||
      st.2.head?.join.isNone) = true at hgood
    rw [decide_eq_false (valueKey_ne_metaKey key _), Bool.false_or] at hgood
    rw [hnone (Option.isNone_iff_eq_none.mp hgood)] at hvalue
    contradiction

theorem ensures_popOne (hS : BehavesAsMap S view) (htake : TakesAt popMeta shape)
    (room : Nat) (items : List Bytes) (fuel retries : Nat)
    (log : List (Exchange StoreCall StoreAnswer)) (st : (faultyStore S).State)
    (h : Stands view key room (shape items) st) :
    (popOne popMeta key fuel retries).Ensures (spared view key)
      (PopTried view key shape room items (log.any isDelete)) log st := by
  cases fuel with
  | zero => trivial
  | succ fuel =>
      rw [popOne_eq]
      refine ensures_getBytes hS (fun metaBytes st' hbytes hview => ?_)
        fun e st' _ hview _ => h.of_view hview
      rcases h.of_view hview with ⟨m, hrep, hsound⟩
      have hmeta : view st'.1 (metaKey key) = some (buildMetadata m) := by
        rcases hrep.stored with hmeta | ⟨hnone, _⟩
        · exact hmeta
        · rw [hview, hbytes] at hnone
          contradiction
      obtain rfl : metaBytes = buildMetadata m := by
        rw [hview, hbytes] at hmeta
        exact Option.some.inj hmeta
      simp only [parseMetadata_buildMetadata]
      by_cases hempty : m.count = 0 ∨ m.tail <= m.head
      · rw [if_pos hempty]
        exact ⟨m, hrep, hsound⟩
      · rw [if_neg hempty]
        have hcount : m.count ≠ 0 := fun hzero => hempty (Or.inl hzero)
        cases items with
        | nil =>
            have hnil := (count_eq_zero_iff hrep).mpr
              (List.length_eq_zero_iff.mp (htake.length []))
            exact absurd hnil hcount
        | cons value rest =>
            rcases hS.compareAndSwap_equal (buildMetadata (popMeta m).1) hmeta with
              ⟨s2, hreply, hview2⟩
            unfold popRound
            rw [parseMetadata_buildMetadata]
            refine ensures_faulty (s := st'.1) (fun e => rfl) hreply
              (fun e hhead hgood => ?_) fun hhead hgood => ?_
            · refine ⟨?_, m, hrep, hsound⟩
              change (!(log.any isDelete) || st'.2.head?.join.isNone) = true at hgood
              rw [hhead] at hgood
              simpa using hgood
            · exact ensures_takeValue hS htake hrep hsound hcount fuel retries _ hview2

def PopsTried (view : S.State -> Bytes -> Option Bytes) (key : Bytes)
    (shape : List Bytes -> List Bytes) (room : Nat) (items popped : List Bytes)
    (r : Except Error (List Bytes)) (st : (faultyStore S).State) : Prop :=
  match r with
  | .ok values => exists taken rest, items = taken ++ rest ∧ values = popped ++ taken ∧
      Stands view key room (shape rest) st
  | .error _ => popped = [] ∧ Stands view key room (shape items) st

theorem ensures_popLoop (hS : BehavesAsMap S view) (htake : TakesAt popMeta shape)
    (room fuel n : Nat) {items popped : List Bytes}
    {log : List (Exchange StoreCall StoreAnswer)} {st : (faultyStore S).State}
    (h : Stands view key room (shape items) st)
    (hpopped : popped ≠ [] -> log.any isDelete = true) :
    (popLoop popMeta fuel key n popped).Ensures (spared view key)
      (fun r _ st => PopsTried view key shape room items popped r st) log st := by
  induction n generalizing items popped log st with
  | zero => exact ⟨[], items, rfl, (List.append_nil _).symm, h⟩
  | succ n ih =>
      refine (ensures_popOne hS htake room items fuel 0 log st h).bind ?_
      intro r log' st' hr
      match r with
      | .error e =>
          rcases hr with ⟨hnone, hstands⟩
          refine ⟨?_, hstands⟩
          by_contra hne
          rw [hpopped hne] at hnone
          contradiction
      | .ok none => exact ⟨[], items, rfl, (List.append_nil _).symm, hr⟩
      | .ok (some value) =>
          rcases hr with ⟨rest, rfl, hstands, hdeleted⟩
          refine (@ih rest (popped ++ [value]) log' st' hstands fun _ => hdeleted).mono ?_
          intro r _ st hr
          cases r with
          | error e => exact absurd hr.1 (by simp)
          | ok values =>
              rcases hr with ⟨taken, rest', rfl, rfl, hrest⟩
              exact ⟨value :: taken, rest', rfl, by simp, hrest⟩

end Pop

/-!
# Commands
-/

theorem map_next_lpush (ledger : Ledger) (values : List Bytes) (b : Bool) :
    (Deque.next ledger (.lpush (values.map (·, b)))).map Prod.fst =
      values.foldl (fun items value => value :: items) (ledger.map Prod.fst) := by
  unfold Deque.next
  induction values generalizing ledger with
  | nil => rfl
  | cons value values ih => exact ih ((value, b) :: ledger)

theorem map_next_rpush (ledger : Ledger) (values : List Bytes) (b : Bool) :
    (Deque.next ledger (.rpush (values.map (·, b)))).map Prod.fst =
      values.foldl (fun items value => items ++ [value]) (ledger.map Prod.fst) := by
  rw [foldl_concat, Deque.next, List.map_append, List.map_map]
  congr 1
  exact List.map_id _

/-- After a command the list stands with the values of a ledger that the reply
allows. -/
def Kept (view : S.State -> Bytes -> Option Bytes) (key : Bytes) (room : Nat)
    (ledger : Ledger) (command : ListCommand Bytes)
    (r : Except Error (ListReply Bytes)) (st : (faultyStore S).State) : Prop :=
  exists ledger', Entered ledger command r ledger' ∧
    Stands view key room (ledger'.map Prod.fst) st

theorem ensures_perform (hS : BehavesAsMap S view) {command : ListCommand Bytes}
    (hcommand : Changes command) (fuel room : Nat) {ledger : Ledger}
    (hbound : room + (command.lpushed + command.rpushed) < 2 ^ 63 - 1000000000)
    {st : (faultyStore S).State}
    (h : Stands view key (room + (command.lpushed + command.rpushed))
      (ledger.map Prod.fst) st) :
    (perform fuel key command).Ensures (spared view key)
      (fun r _ st => Kept view key room ledger command r st) [] st := by
  cases hcommand with
  | lpush values =>
      refine (ensures_push hS putsAt_lpush fuel room values hbound [] st h).bind ?_
      intro r _ st hr
      cases r with
      | ok n =>
          refine ⟨_, .lpush ledger values _, ?_⟩
          rw [map_next_lpush]
          exact hr
      | error e =>
          rcases hr with ⟨k, hk⟩
          refine ⟨_, .lpushFailed ledger values k e, ?_⟩
          rw [map_next_lpush]
          exact hk
  | rpush values =>
      have hroom : (ListCommand.rpush values).lpushed +
          (ListCommand.rpush values).rpushed = values.length := Nat.zero_add _
      rw [hroom] at hbound h
      refine (ensures_push hS putsAt_rpush fuel room values hbound [] st h).bind ?_
      intro r _ st hr
      cases r with
      | ok n =>
          refine ⟨_, .rpush ledger values _, ?_⟩
          rw [map_next_rpush]
          exact hr
      | error e =>
          rcases hr with ⟨k, hk⟩
          refine ⟨_, .rpushFailed ledger values k e, ?_⟩
          rw [map_next_rpush]
          exact hk
  | lpop count =>
      refine (ensures_popLoop hS takesAt_lpop room fuel (count.getD 1).toNat h
        fun hne => absurd rfl hne).bind ?_
      intro r _ st hr
      cases r with
      | error e => exact ⟨ledger, .lpopFailed ledger count e, hr.2⟩
      | ok values =>
          rcases hr with ⟨taken, rest, hsplit, rfl, hstands⟩
          rcases List.map_eq_append_iff.mp hsplit with ⟨popped, kept, rfl, rfl, rfl⟩
          exact ⟨kept, .lpop popped kept count, hstands⟩
  | rpop count =>
      have hreversed : Stands view key room (ledger.reverse.map Prod.fst).reverse st := by
        rw [← List.map_reverse, List.reverse_reverse]
        exact h
      refine (ensures_popLoop hS takesAt_rpop room fuel (count.getD 1).toNat hreversed
        fun hne => absurd rfl hne).bind ?_
      intro r _ st hr
      cases r with
      | error e =>
          refine ⟨ledger, .rpopFailed ledger count e, ?_⟩
          rw [← List.reverse_reverse (ledger.map Prod.fst), ← List.map_reverse]
          exact hr.2
      | ok values =>
          rcases hr with ⟨taken, rest, hsplit, rfl, hstands⟩
          rcases List.map_eq_append_iff.mp hsplit with ⟨popped, kept, hledger, rfl, rfl⟩
          obtain rfl : ledger = kept.reverse ++ popped.reverse := by
            rw [← List.reverse_append, ← hledger, List.reverse_reverse]
          refine ⟨kept.reverse, .rpop popped kept.reverse count, ?_⟩
          rw [List.map_reverse]
          exact hstands

theorem performAll_kept (hS : BehavesAsMap S view) {commands : List (ListCommand Bytes)}
    (hcommands : forall command, command ∈ commands -> Changes command) (fuel : Nat)
    {ledger : Ledger} {st st' : (faultyStore S).State}
    {rs : List (Except Error (ListReply Bytes))}
    (hbound : (commands.map fun c => c.lpushed + c.rpushed).sum < 2 ^ 63 - 1000000000)
    (h : Stands view key (commands.map fun c => c.lpushed + c.rpushed).sum
      (ledger.map Prod.fst) st)
    (hspared : Spared view key fuel commands st)
    (hrun : (performAll fuel key commands).run (faultyStore S) st = some (rs, st')) :
    exists ledger', Entries ledger commands rs ledger' ∧
      Stands view key 0 (ledger'.map Prod.fst) st' := by
  induction commands generalizing ledger st rs with
  | nil =>
      cases hrun
      exact ⟨ledger, .nil ledger, h⟩
  | cons command commands ih =>
      rcases hspared with ⟨hobeys, hlater⟩
      rcases (run_bind_eq_some _).mp hrun with ⟨r, st1, hfirst, hrest⟩
      rcases (run_bind_eq_some _).mp hrest with ⟨rs', st2, hothers, hdone⟩
      cases hdone
      rw [List.map_cons, List.sum_cons, Nat.add_comm] at hbound h
      rcases (ensures_perform hS (hcommands command List.mem_cons_self) fuel _ hbound
        h).run hobeys hfirst with ⟨_, ledger1, hentered, hstands⟩
      rcases ih (fun c hc => hcommands c (List.mem_cons_of_mem _ hc)) (by omega) hstands
        (hlater _ hfirst) hothers with ⟨ledger2, hentries, hend⟩
      exact ⟨ledger2, .cons hentered hentries, hend⟩

/-- A list survives every run in which all faults are harmless. -/
theorem survives_of_spared (hS : BehavesAsMap S view)
    {commands : List (ListCommand Bytes)}
    (hcommands : forall command, command ∈ commands -> Changes command) (fuel : Nat)
    {s s' : S.State} (habsent : Absent (view s) key) {faults faults' : Faults}
    (hbound : (commands.map fun c => c.lpushed + c.rpushed).sum < 2 ^ 63 - 1000000000)
    (hspared : Spared view key fuel commands (withFaults s faults))
    {rs : List (Except Error (ListReply Bytes))}
    (hrun : (performAll fuel key commands).run (faultyStore S) (withFaults s faults) =
      some (rs, withFaults s' faults')) :
    Survives S key commands rs s' := by
  have hempty : Stands view key (commands.map fun c => c.lpushed + c.rpushed).sum
      (([] : Ledger).map Prod.fst) (withFaults s faults) :=
    ⟨initialMeta, habsent.represents, sound_initialMeta hbound⟩
  rcases performAll_kept hS hcommands fuel hbound hempty hspared hrun with
    ⟨ledger, hentries, m, hrep, hsound⟩
  change Represents (view s') key _ m at hrep
  have hlength : (ledger.map Prod.fst).length < 2 ^ 63 := by
    have hcount := hrep.count
    have hbound := hsound.length
    omega
  rcases hrep.shown hS hlength with ⟨n, s1, s2, hrange, hlen, hn⟩
  exact ⟨ledger.map Prod.fst, n, s1, s2, hrange, hlen, hn, ledger, hentries,
    List.filter_sublist.map Prod.fst⟩

end Faults

abbrev pushesAndPop : List (ListCommand Bytes) :=
  [.rpush [[1], [2]], .rpush [[3]], .lpop none]

abbrev swapFault : Faults :=
  List.replicate 9 none ++ [some MapStore.invalidOperation]

abbrev afterSwapFault : MapStore.Entries :=
  ((performAll 1 [107] pushesAndPop).run (faultyStore mapStore)
    (withFaults (S := mapStore) (∅ : MapStore.Entries) swapFault)).elim ∅ fun r => r.2.1

theorem survives_swap_fault :
    Survives mapStore [107] pushesAndPop
      [.ok (.length 2), .error (.database MapStore.invalidOperation),
        .ok (.values [[1]])] afterSwapFault :=
  survives_of_spared (S := mapStore) MapStore.behavesAsMap
    (by
      intro command hcommand
      simp only [pushesAndPop, List.mem_cons, List.not_mem_nil, or_false] at hcommand
      rcases hcommand with rfl | rfl | rfl
      · exact .rpush _
      · exact .rpush _
      · exact .lpop none)
    1 (s := (∅ : MapStore.Entries)) ⟨rfl, fun _ => rfl⟩ (by decide)
    (@of_decide_eq_true _ (decidableSpared (S := mapStore) MapStore.view [107] 1
      pushesAndPop (withFaults (S := mapStore) (∅ : MapStore.Entries) swapFault))
        (by decide +kernel))
    (show (performAll 1 [107] pushesAndPop).run (faultyStore mapStore)
      (withFaults (S := mapStore) (∅ : MapStore.Entries) swapFault) =
        some (_, withFaults (S := mapStore) afterSwapFault []) from rfl)

/-- A list whose first push wrote the metadata but not the value. -/
abbrev pushedHalf : MapStore.Entries :=
  AList.insert (metaKey [107]) (buildMetadata (rpushMeta initialMeta).1, none) ∅

theorem not_survives_value_fault :
    (performAll 1 [107] [.rpush [[1]]]).run (faultyStore mapStore)
        (withFaults (S := mapStore) (∅ : MapStore.Entries)
          [none, none, none, some MapStore.invalidOperation]) =
      some ([.error (.database MapStore.invalidOperation)],
        withFaults (S := mapStore) pushedHalf []) ∧
      ¬ Survives mapStore [107] [.rpush [[1]]]
        [.error (.database MapStore.invalidOperation)] pushedHalf := by
  constructor
  · rfl
  · rintro ⟨items, n, s1, s2, hrange, hlen, hn, _⟩
    have hnone : ((lrange [107] 0 (-1)).run mapStore pushedHalf).map Prod.fst =
        some (.ok []) := rfl
    have hone : ((llen [107]).run mapStore pushedHalf).map Prod.fst =
        some (.ok 1) := rfl
    rw [hrange] at hnone
    rw [hlen] at hone
    obtain rfl : items = [] := Except.ok.inj (Option.some.inj hnone)
    obtain rfl : n = 1 := Except.ok.inj (Option.some.inj hone)
    exact absurd hn (by decide)

end ListOperations

end FeoxServer
