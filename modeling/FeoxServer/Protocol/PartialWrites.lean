import FeoxServer.Protocol.ListIsolation
import FeoxServer.Protocol.TypeIsolation
import FeoxServer.Store.FaultyStore
import FeoxServer.Store.ValueStore

/-!
# Writes of several parts

A command that writes several parts inserts one after the other and stops at the
first insertion that fails.  This module says what is left of the parts before.
-/

namespace FeoxServer

open Foundation Prog

/-- A store in which insertions may fail. -/
abbrev insertFaulty (S : FeoxStore) : FeoxStore :=
  faulty StoreCall.isInsert S

/-- The commands that tell what is stored as values. -/
inductive ValueReads : Command -> Prop where
  | get (key : Bytes) : ValueReads (.get key)
  | hget (key field : Bytes) : ValueReads (.hget key field)
  | hlen (key : Bytes) : ValueReads (.hlen key)
  | llen (key : Bytes) : ValueReads (.llen key)
  | lrange (key : Bytes) (start stop : Int64) : ValueReads (.lrange key start stop)

def Call.Reading : Call -> Prop
  | .store c => c.OnValues ∧ c.isInsert = false
  | .takeUpdates => True
  | _ => False

theorem ValueReads.reading {cmd : Command} (h : ValueReads cmd) (fuel : Nat)
    (x : CommandExecutor) : Only Call.Reading (x.respond fuel cmd) := by
  cases h with
  | get key =>
      refine only_call_bind_iff.mpr ⟨⟨trivial, rfl⟩, fun r => ?_⟩
      cases r <;> exact Only.done _
  | hget key field =>
      refine only_bind ?_ fun _ => Only.done _
      refine only_call_bind_iff.mpr ⟨⟨trivial, rfl⟩, fun r => ?_⟩
      cases r <;> exact Only.done _
  | hlen key =>
      refine only_bind ?_ fun _ => Only.done _
      have hupdates : forall updates,
          Only Call.Reading (HashOperations.applyUpdates updates) := by
        intro updates
        induction updates with
        | nil => exact Only.done _
        | cons update updates ih =>
            unfold HashOperations.applyUpdates
            split
            · exact only_call_bind_iff.mpr ⟨⟨trivial, rfl⟩, fun _ => ih⟩
            · exact ih
      refine only_bind (only_call_bind_iff.mpr ⟨trivial, hupdates⟩) fun _ => ?_
      refine only_call_bind_iff.mpr ⟨⟨trivial, rfl⟩, fun r => ?_⟩
      cases r <;> exact Only.done _
  | llen key =>
      exact only_bind (only_hoist (ListOperations.only_llen
        (Q := fun c => c.OnValues ∧ c.isInsert = false) ⟨trivial, rfl⟩)
          fun _ hc => hc) fun _ => Only.done _
  | lrange key start stop =>
      exact only_bind (only_hoist (ListOperations.only_lrange
        (Q := fun c => c.OnValues ∧ c.isInsert = false) ⟨trivial, rfl⟩
          (fun _ => ⟨trivial, rfl⟩) start stop) fun _ hc => hc)
        fun _ => Only.done _

section Faulty

variable {S : FeoxStore} {P : Platform}
  {view : S.State -> Bytes -> Option Bytes}

/-!
# Reading
-/

def reliable (w : World (insertFaulty S) P) : World S P :=
  { store := w.store.1, platform := w.platform, watch := w.watch,
    tracker := w.tracker, clients := w.clients }

/-- The call is none that may fail. -/
def Call.Spared : Call -> Prop
  | .store c => c.isInsert = false
  | _ => True

theorem replyOf_reliable {α : Type} {p : ServerProg α} (hp : Only Call.Spared p)
    (w : World (insertFaulty S) P) : replyOf p w = replyOf p (reliable w) := by
  have hstep : forall c, Call.Spared c ->
      forall (v : World (insertFaulty S) P) (u : World S P), reliable v = u ->
        ((server (insertFaulty S) P).reply c v).1 = ((server S P).reply c u).1 ∧
          reliable ((server (insertFaulty S) P).reply c v).2 =
            ((server S P).reply c u).2 := by
    rintro c hc v u rfl
    cases c with
    | store c =>
        have hspared : (insertFaulty S).reply c v.store =
            ((S.reply c v.store.1).1, withFaults (S.reply c v.store.1).2 v.store.2) :=
          faulty_spared _ hc rfl v.store.2
        change ((insertFaulty S).reply c v.store).1 = (S.reply c v.store.1).1 ∧
          reliable { v with store := ((insertFaulty S).reply c v.store).2 } =
            { reliable v with store := (S.reply c v.store.1).2 }
        rw [hspared]
        exact ⟨rfl, rfl⟩
    | _ => exact ⟨rfl, rfl⟩
  unfold replyOf
  rcases run_agrees (server (insertFaulty S) P) (server S P) hstep hp
      (Eq.refl (reliable w)) with
    ⟨hw, hw'⟩ | ⟨a, v, v', hw, hw', _⟩
  · rw [hw, hw']
    rfl
  · rw [hw, hw']
    rfl

theorem ValueReads.replyOf_reliable {cmd : Command} (h : ValueReads cmd)
    (fuel : Nat) (x : CommandExecutor) (w : World (insertFaulty S) P) :
    replyOf (x.respond fuel cmd) w = replyOf (x.respond fuel cmd) (reliable w) := by
  refine FeoxServer.replyOf_reliable (only_mono (h.reading fuel x) fun c hc => ?_) w
  cases c with
  | store c => exact hc.2
  | _ => exact trivial

theorem ValueReads.replyOf_eq (hS : ValueStore S view) {cmd : Command}
    (h : ValueReads cmd) (fuel : Nat) (x : CommandExecutor)
    {w w' : World (insertFaulty S) P} (hview : view w'.store.1 = view w.store.1)
    (htracker : w'.tracker = w.tracker) :
    replyOf (x.respond fuel cmd) w' = replyOf (x.respond fuel cmd) w := by
  have hstep : forall c, Call.Reading c -> forall v v' : World S P,
      (view v.store = view v'.store ∧ v.tracker = v'.tracker) ->
        ((server S P).reply c v).1 = ((server S P).reply c v').1 ∧
          (view ((server S P).reply c v).2.store =
              view ((server S P).reply c v').2.store ∧
            ((server S P).reply c v).2.tracker =
              ((server S P).reply c v').2.tracker) := by
    rintro c hc v v' ⟨hv, ht⟩
    cases c with
    | store c =>
        have hdetermined := hS.determined hc.1 hv
        exact ⟨hdetermined.1, hdetermined.2, ht⟩
    | takeUpdates =>
        have hentries : v.tracker.entries = v'.tracker.entries := by rw [ht]
        refine ⟨?_, hv, rfl⟩
        change List.map _ v.tracker.entries = List.map _ v'.tracker.entries
        rw [hentries]
    | _ => cases hc
  rw [h.replyOf_reliable fuel x w', h.replyOf_reliable fuel x w]
  unfold replyOf
  rcases run_agrees (server S P) (server S P) hstep (h.reading fuel x)
      (s := reliable w') (t := reliable w) ⟨hview, htracker⟩ with
    ⟨hw, hw'⟩ | ⟨a, v, v', hw, hw', _⟩
  · rw [hw, hw']
  · rw [hw, hw']
    rfl

/-!
# Insertions
-/

def writeAll (v : Bytes -> Option Bytes) (pairs : List (Bytes × Bytes)) :
    Bytes -> Option Bytes :=
  pairs.foldl (fun v pair => Function.update v pair.1 (some pair.2)) v

theorem writeAll_apply (v : Bytes -> Option Bytes) (pairs : List (Bytes × Bytes))
    (key : Bytes) :
    writeAll v pairs key = (pairs.reverse.lookup key).or (v key) := by
  induction pairs using List.reverseRecOn with
  | nil => rfl
  | append_singleton pairs pair ih =>
      rw [List.reverse_append, List.reverse_singleton, List.singleton_append,
        List.lookup_cons, writeAll, List.foldl_append]
      change Function.update (writeAll v pairs) pair.1 (some pair.2) key = _
      by_cases hkey : key = pair.1
      · subst hkey
        simp
      · rw [Function.update_of_ne hkey, ih, beq_false_of_ne hkey]

/-- The first of `n` insertions that fails. -/
def firstFault (faults : Faults) (n : Nat) : Option Nat :=
  (faults.take n).findIdx? Option.isSome

theorem exists_of_head {faults : Faults} (h : faults.head?.join ≠ none) :
    exists e, faults.head?.join = some e :=
  Option.ne_none_iff_exists'.mp h

theorem firstFault_some {e : FeoxError} {faults : Faults}
    (h : faults.head?.join = some e) (n : Nat) :
    firstFault faults (n + 1) = some 0 := by
  match faults, h with
  | some _ :: faults, _ => simp [firstFault, List.findIdx?_cons]

theorem firstFault_succ {faults : Faults} (h : faults.head?.join = none)
    (n : Nat) :
    firstFault faults (n + 1) = (firstFault faults.tail n).map Nat.succ := by
  match faults, h with
  | [], _ => simp [firstFault]
  | none :: faults, _ => simp [firstFault, List.findIdx?_cons]

theorem firstFault_lt {faults : Faults} {n i : Nat}
    (h : firstFault faults n = some i) : i < n := by
  have hlt := (List.findIdx?_eq_some_iff_getElem.mp h).1
  exact hlt.trans_le (List.length_take_le n faults)

theorem mset_run (hS : ValueStore S view) (pairs : List (Bytes × Bytes))
    (w : World (insertFaulty S) P) :
    exists r w', (CommandExecutor.mset pairs).run (server (insertFaulty S) P) w =
        some (r, w') ∧ w'.tracker = w.tracker ∧
      match firstFault w.store.2 pairs.length with
      | none => r = CommandExecutor.okReply
      | some i => (exists e, r = CommandExecutor.storeError e) ∧
          view w'.store.1 = writeAll (view w.store.1) (pairs.take i) := by
  induction pairs generalizing w with
  | nil => exact ⟨_, w, rfl, rfl, rfl⟩
  | cons pair pairs ih =>
      rcases pair with ⟨key, value⟩
      by_cases hhead : w.store.2.head?.join = none
      · rcases hS.insertWithTimestamp w.store.1 key value with ⟨s1, hreply, hview⟩
        have hinsert : (insertFaulty S).reply (.insertWithTimestamp key value)
            w.store = (.ok (), withFaults s1 w.store.2.tail) :=
          faulty_served _ rfl hreply hhead
        rcases ih { w with
            store := withFaults s1 w.store.2.tail
            watch := w.watch.notifyKeyModified key } with
          ⟨r, w', hrun, htracker, hresult⟩
        refine ⟨r, w', ?_, htracker, ?_⟩
        · unfold CommandExecutor.mset
          rw [HashOperations.run_callStore hinsert]
          exact hrun
        · rw [List.length_cons, firstFault_succ hhead]
          simp only [withFaults, hview] at hresult
          cases hfault : firstFault w.store.2.tail pairs.length with
          | none =>
              simp only [hfault] at hresult
              exact hresult
          | some i =>
              simp only [hfault] at hresult
              exact hresult
      · rcases exists_of_head hhead with ⟨e, hhead⟩
        have hinsert : (insertFaulty S).reply (.insertWithTimestamp key value)
            w.store = (.error e, withFaults w.store.1 w.store.2.tail) :=
          faulty_refused _ rfl rfl w.store.1 hhead
        refine ⟨CommandExecutor.storeError e,
          { w with store := withFaults w.store.1 w.store.2.tail }, ?_, rfl, ?_⟩
        · unfold CommandExecutor.mset
          rw [HashOperations.run_callStore hinsert]
          rfl
        · rw [List.length_cons, firstFault_some hhead]
          exact ⟨⟨e, rfl⟩, rfl⟩

theorem hsetLoop_run (hS : ValueStore S view) (key : Bytes)
    (fields : List (Bytes × Bytes)) (count : Int64)
    (w : World (insertFaulty S) P) :
    exists r w', (HashOperations.hsetLoop key fields count).run
          (server (insertFaulty S) P) w = some (r, w') ∧ w'.tracker = w.tracker ∧
      match firstFault w.store.2 fields.length with
      | none => exists n, r = .ok n
      | some i => (exists e, r = .error (.database e)) ∧
          view w'.store.1 = writeAll (view w.store.1)
            ((fields.take i).map fun f => (HashOperations.fieldKey key f.1, f.2)) := by
  induction fields generalizing w count with
  | nil => exact ⟨_, w, rfl, rfl, ⟨count, rfl⟩⟩
  | cons pair fields ih =>
      rcases pair with ⟨field, value⟩
      by_cases hhead : w.store.2.head?.join = none
      · rcases hS.insertBytes w.store.1 (HashOperations.fieldKey key field) value with
          ⟨s1, hreply, hview⟩
        have hinsert : (insertFaulty S).reply
            (.insertBytes (HashOperations.fieldKey key field) value) w.store =
              (.ok (view w.store.1 (HashOperations.fieldKey key field)).isNone,
                withFaults s1 w.store.2.tail) :=
          faulty_served _ rfl hreply hhead
        rcases ih (if (view w.store.1 (HashOperations.fieldKey key field)).isNone then
          count + 1 else count) { w with store := withFaults s1 w.store.2.tail }
          with ⟨r, w', hrun, htracker, hresult⟩
        refine ⟨r, w', ?_, htracker, ?_⟩
        · unfold HashOperations.hsetLoop
          rw [HashOperations.run_callStore hinsert]
          exact hrun
        · rw [List.length_cons, firstFault_succ hhead]
          simp only [withFaults, hview] at hresult
          cases hfault : firstFault w.store.2.tail fields.length with
          | none =>
              simp only [hfault] at hresult
              exact hresult
          | some i =>
              simp only [hfault] at hresult
              exact hresult
      · rcases exists_of_head hhead with ⟨e, hhead⟩
        have hinsert : (insertFaulty S).reply
            (.insertBytes (HashOperations.fieldKey key field) value) w.store =
              (.error e, withFaults w.store.1 w.store.2.tail) :=
          faulty_refused _ rfl rfl w.store.1 hhead
        refine ⟨.error (.database e),
          { w with store := withFaults w.store.1 w.store.2.tail }, ?_, rfl, ?_⟩
        · unfold HashOperations.hsetLoop
          rw [HashOperations.run_callStore hinsert]
          rfl
        · rw [List.length_cons, firstFault_some hhead]
          exact ⟨⟨e, rfl⟩, rfl⟩

/-!
# Pushes
-/

namespace ListOperations

/-- The faults foreseen for the elements of a push.  A list that is not there is
created with two insertions, the first of which is repeated until it succeeds. -/
def elementFaults (isThere : Bool) (faults : Faults) : Faults :=
  if isThere then faults else (faults.dropWhile Option.isSome).drop 2

theorem elementFaults_new {faults : Faults} (h : faults.head?.join = none) :
    elementFaults false faults = faults.tail.tail := by
  match faults, h with
  | [], _ => rfl
  | none :: faults, _ => simp [elementFaults]

theorem elementFaults_retried {e : FeoxError} {faults : Faults}
    (h : faults.head?.join = some e) :
    elementFaults false faults = elementFaults false faults.tail := by
  match faults, h with
  | some _ :: faults, _ => rfl

def countIn (v : Bytes -> Option Bytes) (key : Bytes) : UInt64 :=
  match v (metaKey key) with
  | some metaBytes => (parseMetadata metaBytes).count
  | none => 0

/-- With `n` units of fuel the program ends with this outcome, and with less it
ends with no other. -/
def Settles {T : FeoxStore} {α : Type} (p : Nat -> StoreProg α) (n : Nat)
    (t : T.State) (outcome : α × T.State) : Prop :=
  forall fuel, (run T (p fuel) t = none ∧ fuel < n) ∨
    run T (p fuel) t = some outcome

def elementReply : Option FeoxError -> Except Error Unit
  | none => .ok ()
  | some e => .error (.database e)

theorem element_run (hS : ValueStore S view) (key : Bytes) (pos : Int64)
    (value : Bytes) (s : S.State) (faults : Faults) :
    exists s', run (insertFaulty S) (do
        match <- Store.insert (valueKey key pos) value with
        | .ok _ => pure (.ok ())
        | .error e => pure (.error (.database e))) (withFaults s faults) =
          some (elementReply faults.head?.join, withFaults s' faults.tail) ∧
      view s' (metaKey key) = view s (metaKey key) := by
  cases hhead : faults.head?.join with
  | none =>
      rcases hS.insert s (valueKey key pos) value with ⟨s', hinsert, hview⟩
      refine ⟨s', ?_, ?_⟩
      · rw [run_call_bind, faulty_served _ rfl hinsert hhead]
        rfl
      · rw [hview, Function.update_of_ne (valueKey_ne_metaKey key _).symm]
  | some e =>
      refine ⟨s, ?_, rfl⟩
      rw [run_call_bind, faulty_refused _ rfl rfl s hhead]
      rfl

theorem pushOne_there_run (hS : ValueStore S view)
    (pushMeta : ListMeta -> ListMeta × Int64) {key metaBytes : Bytes}
    {s : S.State} (h : view s (metaKey key) = some metaBytes) (value : Bytes)
    (faults : Faults) :
    exists s', (forall fuel retries,
        run (insertFaulty S) (pushOne pushMeta key value (fuel + 1) retries)
          (withFaults s faults) =
            some (elementReply faults.head?.join, withFaults s' faults.tail)) ∧
      view s' (metaKey key) =
        some (buildMetadata (pushMeta (parseMetadata metaBytes)).1) := by
  let m := pushMeta (parseMetadata metaBytes)
  rcases hS.getBytes_present h with ⟨s1, hget, hview1⟩
  rw [← hview1] at h
  rcases hS.compareAndSwap_equal (buildMetadata m.1) h with ⟨s2, hswap, hview2⟩
  have hget' := faulty_spared StoreCall.isInsert rfl hget faults
  have hswap' := faulty_spared StoreCall.isInsert rfl hswap faults
  rcases element_run hS key m.2 value s2 faults with ⟨s3, helement, hview3⟩
  refine ⟨s3, fun fuel retries => ?_, ?_⟩
  · unfold pushOne readOrCreate
    simp only [pure_eq, writeMetadata, ge_iff_le, bind_assoc, run_call_bind,
      hget', done_bind, Bool.false_eq_true, if_false, hswap', m]
    exact helement
  · rw [hview3, hview2, Function.update_self]

theorem pushOne_created_run (hS : ValueStore S view)
    (pushMeta : ListMeta -> ListMeta × Int64) {key : Bytes} {s : S.State}
    (h : view s (metaKey key) = none) (value : Bytes) {faults : Faults}
    (hhead : faults.head?.join = none) :
    exists s', Settles (fun fuel => pushOne pushMeta key value fuel 0) 2
        (withFaults s faults : (insertFaulty S).State)
        (elementReply faults.tail.tail.head?.join,
          withFaults s' faults.tail.tail.tail) ∧
      view s' (metaKey key) = some (buildMetadata (pushMeta initialMeta).1) := by
  have hparse : parseMetadata initialMetadata = initialMeta :=
    parseMetadata_buildMetadata initialMeta
  rcases hS.getBytes_absent h with ⟨e, s1, hget, hview1⟩
  rcases hS.insert s1 (metaKey key) initialMetadata with ⟨s2, hcreate, hview2⟩
  have hget' := faulty_spared StoreCall.isInsert rfl hget faults
  have hcreate' := faulty_served StoreCall.isInsert rfl hcreate hhead
  cases hsecond : faults.tail.head?.join with
  | none =>
      rcases hS.insert s2 (metaKey key) (buildMetadata (pushMeta initialMeta).1)
        with ⟨s3, hwrite, hview3⟩
      have hwrite' := faulty_served StoreCall.isInsert rfl hwrite hsecond
      rcases element_run hS key (pushMeta initialMeta).2 value s3
        faults.tail.tail with ⟨s4, helement, hview4⟩
      refine ⟨s4, fun fuel => ?_, ?_⟩
      · cases fuel with
        | zero => exact Or.inl ⟨rfl, Nat.zero_lt_two⟩
        | succ fuel =>
            refine Or.inr ?_
            unfold pushOne readOrCreate
            simp only [pure_eq, writeMetadata, zero_add, ge_iff_le, bind_assoc,
              run_call_bind, hget', hcreate', done_bind, if_true, hparse,
              hwrite']
            exact helement
      · rw [hview4, hview3, Function.update_self]
  | some e' =>
      -- The new list stays empty, and the next round finds it.
      have hwrite' : (insertFaulty S).reply
          (.insert (metaKey key) (buildMetadata (pushMeta initialMeta).1))
          (withFaults s2 faults.tail) =
            (.error e', withFaults s2 faults.tail.tail) :=
        faulty_refused _ rfl rfl s2 hsecond
      have hmeta : view s2 (metaKey key) = some initialMetadata := by
        rw [hview2, Function.update_self]
      rcases pushOne_there_run hS pushMeta hmeta value faults.tail.tail with
        ⟨s3, hagain, hview3⟩
      refine ⟨s3, fun fuel => ?_, by rw [hview3, hparse]⟩
      have hretry : forall fuel, run (insertFaulty S)
          (pushOne pushMeta key value (fuel + 1) 0) (withFaults s faults) =
            run (insertFaulty S) (pushOne pushMeta key value fuel 1)
              (withFaults s2 faults.tail.tail) := by
        intro fuel
        rw [pushOne, readOrCreate]
        simp [hget', hcreate', hparse, writeMetadata, hwrite', maxRetries]
      rcases fuel with _ | _ | fuel
      · exact Or.inl ⟨rfl, Nat.zero_lt_two⟩
      · exact Or.inl ⟨hretry 0, Nat.one_lt_two⟩
      · exact Or.inr ((hretry (fuel + 1)).trans (hagain fuel 1))

theorem pushOne_new_run (hS : ValueStore S view)
    (pushMeta : ListMeta -> ListMeta × Int64) {key : Bytes} {s : S.State}
    (h : view s (metaKey key) = none) (value : Bytes) (faults : Faults) :
    exists s', Settles (fun fuel => pushOne pushMeta key value fuel 0)
        (faults.length + 2) (withFaults s faults : (insertFaulty S).State)
        (elementReply (elementFaults false faults).head?.join,
          withFaults s' (elementFaults false faults).tail) ∧
      view s' (metaKey key) = some (buildMetadata (pushMeta initialMeta).1) := by
  induction faults generalizing s with
  | nil => exact pushOne_created_run hS pushMeta h value rfl
  | cons fault faults ih =>
      cases fault with
      | none =>
          rcases @pushOne_created_run _ _ hS pushMeta _ _ h value (none :: faults)
            rfl with ⟨s', hsettles, hview⟩
          refine ⟨s', fun fuel => ?_, hview⟩
          rw [elementFaults_new rfl]
          exact (hsettles fuel).imp_left fun hnone =>
            ⟨hnone.1, hnone.2.trans_le (Nat.le_add_left 2 _)⟩
      | some e =>
          rcases hS.getBytes_absent h with ⟨e', s1, hget, hview1⟩
          have hget' := faulty_spared StoreCall.isInsert rfl hget
            (some e :: faults)
          have hcreate' : (insertFaulty S).reply
              (.insert (metaKey key) initialMetadata)
              (withFaults s1 (some e :: faults)) =
                (.error e, withFaults s1 faults) := faulty_refused _ rfl rfl s1 rfl
          rw [← hview1] at h
          rcases ih h with ⟨s', hsettles, hview⟩
          refine ⟨s', fun fuel => ?_, hview⟩
          cases fuel with
          | zero => exact Or.inl ⟨rfl, Nat.succ_pos _⟩
          | succ fuel =>
              have hretry : run (insertFaulty S)
                  (pushOne pushMeta key value (fuel + 1) 0)
                  (withFaults s (some e :: faults)) =
                    run (insertFaulty S) (pushOne pushMeta key value fuel 0)
                      (withFaults s1 faults) := by
                rw [pushOne, readOrCreate]
                simp [hget', hcreate']
              rw [hretry, elementFaults_retried rfl]
              exact (hsettles fuel).imp_left fun hnone =>
                ⟨hnone.1, Nat.succ_lt_succ hnone.2⟩

theorem elementFaults_length (isThere : Bool) (faults : Faults) :
    (elementFaults isThere faults).length <= faults.length := by
  cases isThere with
  | true => exact Nat.le_refl _
  | false =>
      exact ((List.drop_sublist 2 _).trans (List.dropWhile_sublist _)).length_le

theorem pushOne_faulty_run (hS : ValueStore S view)
    {pushMeta : ListMeta -> ListMeta × Int64}
    (hcount : forall m, (pushMeta m).1.count = m.count + 1) (key value : Bytes)
    (s : S.State) (faults : Faults) :
    exists s', Settles (fun fuel => pushOne pushMeta key value fuel 0)
        (faults.length + 2) (withFaults s faults : (insertFaulty S).State)
        (elementReply (elementFaults (view s (metaKey key)).isSome faults).head?.join,
          withFaults s' (elementFaults (view s (metaKey key)).isSome faults).tail) ∧
      (view s' (metaKey key)).isSome = true ∧
      countIn (view s') key = countIn (view s) key + 1 := by
  unfold countIn
  cases hmeta : view s (metaKey key) with
  | some metaBytes =>
      rcases pushOne_there_run hS pushMeta hmeta value faults with ⟨s', hrun, hview⟩
      refine ⟨s', fun fuel => ?_, by rw [hview]; rfl, ?_⟩
      · cases fuel with
        | zero => exact Or.inl ⟨rfl, Nat.succ_pos _⟩
        | succ fuel => exact Or.inr (hrun fuel 0)
      · simp only [hview, parseMetadata_buildMetadata, hcount]
  | none =>
      rcases pushOne_new_run hS pushMeta hmeta value faults with ⟨s', hsettles, hview⟩
      refine ⟨s', hsettles, by rw [hview]; rfl, ?_⟩
      simp only [hview, parseMetadata_buildMetadata, hcount]
      rfl

theorem pushAll_faulty_run (hS : ValueStore S view)
    {pushMeta : ListMeta -> ListMeta × Int64}
    (hcount : forall m, (pushMeta m).1.count = m.count + 1) (key : Bytes)
    (values : List Bytes) (s : S.State) (faults : Faults) :
    exists r s' rest, Settles (fun fuel => pushAll pushMeta fuel key values)
        (faults.length + 2) (withFaults s faults : (insertFaulty S).State)
        (r, withFaults s' rest) ∧
      match firstFault (elementFaults (view s (metaKey key)).isSome faults)
          values.length with
      | none => r = .ok () ∧ (s' = s ∨ (view s' (metaKey key)).isSome = true)
      | some i => (exists e, r = .error (.database e)) ∧
          countIn (view s') key = countIn (view s) key + UInt64.ofNat (i + 1) := by
  induction values generalizing s faults with
  | nil => exact ⟨.ok (), s, faults, fun _ => Or.inr rfl, rfl, Or.inl rfl⟩
  | cons value values ih =>
      rcases pushOne_faulty_run hS hcount key value s faults with
        ⟨s1, hone, hthere, hcount1⟩
      have hlength := elementFaults_length (view s (metaKey key)).isSome faults
      generalize elementFaults (view s (metaKey key)).isSome faults = element
        at hone hlength ⊢
      cases hhead : element.head?.join with
      | none =>
          rcases ih s1 element.tail with ⟨r, s', rest, hrest, hresult⟩
          refine ⟨r, s', rest, fun fuel => ?_, ?_⟩
          · rcases hone fuel with ⟨hnone, hfuel⟩ | hsome
            · exact Or.inl ⟨run_bind_of_none _ _ hnone, hfuel⟩
            · rw [hhead] at hsome
              change (run _ (pushOne pushMeta key value fuel 0 >>= _) _ = none ∧ _) ∨
                run _ (pushOne pushMeta key value fuel 0 >>= _) _ = _
              rw [run_bind_of_some _ _ hsome]
              refine (hrest fuel).imp_left fun hnone => ⟨hnone.1, ?_⟩
              have htail : element.tail.length <= element.length := by simp
              omega
          · rw [hthere] at hresult
            change match firstFault element.tail values.length with
              | none => _
              | some i => _ at hresult
            rw [List.length_cons, firstFault_succ hhead]
            cases hfault : firstFault element.tail values.length with
            | none =>
                simp only [hfault] at hresult
                refine ⟨hresult.1, Or.inr ?_⟩
                rcases hresult.2 with rfl | hmeta
                · exact hthere
                · exact hmeta
            | some i =>
                simp only [hfault] at hresult
                refine ⟨hresult.1, ?_⟩
                rw [hresult.2, hcount1, add_assoc, add_comm 1, Nat.succ_eq_add_one,
                  UInt64.ofNat_add (i + 1)]
                rfl
      | some e =>
          refine ⟨.error (.database e), s1, element.tail, fun fuel => ?_, ?_⟩
          · rcases hone fuel with ⟨hnone, hfuel⟩ | hsome
            · exact Or.inl ⟨run_bind_of_none _ _ hnone, hfuel⟩
            · rw [hhead] at hsome
              exact Or.inr (run_bind_of_some _ _ hsome)
          · rw [List.length_cons, firstFault_some hhead]
            exact ⟨⟨e, rfl⟩, hcount1⟩

theorem countIn_add_ne {v v' : Bytes -> Option Bytes} {key : Bytes} {n : Nat}
    (h : countIn v' key = countIn v key + UInt64.ofNat (n + 1))
    (hn : n + 1 < 2 ^ 64) : v' ≠ v := by
  rintro rfl
  have hzero : UInt64.ofNat (n + 1) = 0 := left_eq_add.mp h
  have hnat := congrArg UInt64.toNat hzero
  rw [UInt64.toNat_ofNat_of_lt' hn] at hnat
  exact Nat.succ_ne_zero n hnat

theorem settles_push {pushMeta : ListMeta -> ListMeta × Int64} {key : Bytes}
    {values : List Bytes} {n : Nat} {s s1 : (insertFaulty S).State}
    {r : Except Error Unit} {e : Except Error Int64 × (insertFaulty S).State}
    (hsettles : Settles (fun fuel => pushAll pushMeta fuel key values) n s (r, s1))
    (hrest : run (insertFaulty S)
      (match r with
        | .error e => pure (.error e)
        | .ok _ => do
            match <- Store.getBytes (metaKey key) with
            | .ok metaBytes => pure (.ok (parseMetadata metaBytes).count.toInt64)
            | .error e => pure (.error (.database e))) s1 = some e) :
    Settles (fun fuel => push pushMeta fuel key values) n s e := by
  intro fuel
  rcases hsettles fuel with ⟨hnone, hfuel⟩ | hsome
  · exact Or.inl ⟨run_bind_of_none _ _ hnone, hfuel⟩
  · exact Or.inr ((run_bind_of_some _ _ hsome).trans hrest)

/-- A push fails exactly with one of its elements, and has moved the count by
then. -/
theorem push_faulty_run (hS : ValueStore S view)
    {pushMeta : ListMeta -> ListMeta × Int64}
    (hcount : forall m, (pushMeta m).1.count = m.count + 1) (key : Bytes)
    (values : List Bytes) (s : S.State) (faults : Faults) :
    exists r s' rest, Settles (fun fuel => push pushMeta fuel key values)
        (faults.length + 2) (withFaults s faults : (insertFaulty S).State)
        (r, withFaults s' rest) ∧
      match firstFault (elementFaults (view s (metaKey key)).isSome faults)
          values.length with
      | none => (exists n, r = .ok n) ∨ view s' = view s
      | some i => (exists e, r = .error (.database e)) ∧
          countIn (view s') key = countIn (view s) key + UInt64.ofNat (i + 1) := by
  rcases pushAll_faulty_run hS hcount key values s faults with
    ⟨r, s1, rest, hsettles, hresult⟩
  cases hfault : firstFault (elementFaults (view s (metaKey key)).isSome faults)
      values.length with
  | some i =>
      simp only [hfault] at hresult
      rcases hresult with ⟨⟨e, rfl⟩, hcountIn⟩
      exact ⟨.error (.database e), s1, rest, settles_push hsettles rfl, ⟨e, rfl⟩,
        hcountIn⟩
  | none =>
      simp only [hfault] at hresult
      rcases hresult with ⟨rfl, hstate⟩
      cases hmeta : view s1 (metaKey key) with
      | some metaBytes =>
          rcases hS.getBytes_present hmeta with ⟨s2, hget, hview2⟩
          have hget' := faulty_spared StoreCall.isInsert rfl hget rest
          refine ⟨.ok (parseMetadata metaBytes).count.toInt64, s2, rest,
            settles_push hsettles ?_, Or.inl ⟨_, rfl⟩⟩
          change run _ (Store.getBytes (metaKey key) >>= _) _ = _
          rw [run_call_bind, hget']
          rfl
      | none =>
          have hsame : s1 = s := hstate.resolve_right (by rw [hmeta]; exact Bool.false_ne_true)
          subst hsame
          rcases hS.getBytes_absent hmeta with ⟨e, s2, hget, hview2⟩
          have hget' := faulty_spared StoreCall.isInsert rfl hget rest
          refine ⟨.error (.database e), s2, rest, settles_push hsettles ?_, Or.inr hview2⟩
          change run _ (Store.getBytes (metaKey key) >>= _) _ = _
          rw [run_call_bind, hget']
          rfl

end ListOperations

/-!
# Failing without a trace
-/

/-- The commands that write several parts.  No list in memory is longer than the
counts of the lists can tell. -/
inductive MultiPart : Command -> Prop where
  | mset (pairs : List (Bytes × Bytes)) : MultiPart (.mset pairs)
  | hset (key : Bytes) (fields : List (Bytes × Bytes)) : MultiPart (.hset key fields)
  | lpush (key : Bytes) {values : List Bytes} (h : values.length < 2 ^ 64) :
      MultiPart (.lpush key values)
  | rpush (key : Bytes) {values : List Bytes} (h : values.length < 2 ^ 64) :
      MultiPart (.rpush key values)

/-- When the command is answered with an error, the values read as before. -/
def FailsCleanly (cmd : Command) (w : World (insertFaulty S) P) : Prop :=
  forall fuel (x : CommandExecutor) text w',
    (x.respond fuel cmd).run (server (insertFaulty S) P) w = some (.error text, w') ->
      forall read, ValueReads read -> forall fuel' (x' : CommandExecutor),
        replyOf (x'.respond fuel' read) w' = replyOf (x'.respond fuel' read) w

def AlreadyThere (v : Bytes -> Option Bytes) (pairs : List (Bytes × Bytes)) : Prop :=
  forall key value, pairs.reverse.lookup key = some value -> v key = some value

/-- The parts before the first failing one leave no trace.  A push has changed
the count before its first element can fail. -/
def PartsUnseen (v : Bytes -> Option Bytes) (faults : Faults) : Command -> Prop
  | .mset pairs =>
      forall i, firstFault faults pairs.length = some i ->
        AlreadyThere v (pairs.take i)
  | .hset key fields =>
      forall i, firstFault faults fields.length = some i ->
        AlreadyThere v
          ((fields.take i).map fun f => (HashOperations.fieldKey key f.1, f.2))
  | .lpush key values | .rpush key values =>
      firstFault (ListOperations.elementFaults
        (v (ListOperations.metaKey key)).isSome faults) values.length = none
  | _ => True

theorem writeAll_eq_iff (v : Bytes -> Option Bytes) (pairs : List (Bytes × Bytes)) :
    writeAll v pairs = v <-> AlreadyThere v pairs := by
  constructor
  · intro h key value hlookup
    rw [← h, writeAll_apply, hlookup]
    rfl
  · intro h
    funext key
    rw [writeAll_apply]
    cases hlookup : pairs.reverse.lookup key with
    | none => rfl
    | some value => exact (h key value hlookup).symm

theorem replyOf_get_iff (hS : ValueStore S view) (w : World (insertFaulty S) P)
    (key value : Bytes) (x : CommandExecutor) :
    replyOf (x.respond 0 (.get key)) w = some (.bulkString (some value)) <->
      view w.store.1 key = some value := by
  rw [(ValueReads.get key).replyOf_reliable 0 x w]
  cases hview : view w.store.1 key with
  | some stored =>
      rw [replyOf_get hS.toBehavesAsMap (w := reliable w) 0 x hview]
      constructor
      · intro h
        injection h with h
        injection h with h
      · intro h
        rw [h]
  | none =>
      rcases hS.getBytes_absent hview with ⟨e, s1, hget, _⟩
      refine iff_of_false ?_ (Option.some_ne_none value).symm
      unfold replyOf CommandExecutor.respond CommandExecutor.get
      rw [HashOperations.run_callStore (w := reliable w) hget]
      intro h
      injection h with h
      change (if e.keyNotFound then _ else _) = _ at h
      split at h
      · cases h
      · cases h

theorem FailsCleanly.view_eq (hS : ValueStore S view) {cmd : Command}
    {w w' : World (insertFaulty S) P} (h : FailsCleanly cmd w) (fuel : Nat)
    (x : CommandExecutor) {text : String}
    (hrun : (x.respond fuel cmd).run (server (insertFaulty S) P) w =
      some (.error text, w')) : view w'.store.1 = view w.store.1 := by
  funext key
  have hreads := h fuel x text w' hrun (.get key) (.get key) 0 x
  refine Option.ext fun value => ?_
  rw [← replyOf_get_iff hS w' key value x, hreads, replyOf_get_iff hS w key value x]

theorem failsCleanly_of (hS : ValueStore S view) {cmd : Command}
    {w : World (insertFaulty S) P}
    (h : forall fuel (x : CommandExecutor) text w',
      (x.respond fuel cmd).run (server (insertFaulty S) P) w =
        some (.error text, w') ->
          view w'.store.1 = view w.store.1 ∧ w'.tracker = w.tracker) :
    FailsCleanly cmd w := by
  intro fuel x text w' hrun read hread fuel' x'
  have hsame := h fuel x text w' hrun
  exact hread.replyOf_eq hS fuel' x' hsame.1 hsame.2

/-- A command that changes a key is answered with an error exactly when its
operation fails. -/
theorem modifying_error_iff {key : Bytes} {modified : Int64 -> Bool}
    {p : ServerProg (Except Error Int64)} {w w' : World (insertFaulty S) P}
    {text : String} :
    (CommandExecutor.modifying key modified .integer p).run
        (server (insertFaulty S) P) w = some (.error text, w') <->
      exists e, p.run (server (insertFaulty S) P) w = some (.error e, w') ∧
        CommandExecutor.commandError e = .error text := by
  unfold CommandExecutor.modifying
  rw [run_bind_eq_some]
  constructor
  · rintro ⟨r, w1, hp, hrest⟩
    cases r with
    | error e =>
        injection hrest with hrest
        injection hrest with hreply hworld
        exact ⟨e, hworld ▸ hp, hreply⟩
    | ok n =>
        cases hmodified : modified n with
        | true =>
            simp only [hmodified, if_true] at hrest
            injection hrest with hrest
            injection hrest with hreply hworld
            cases hreply
        | false =>
            simp only [hmodified, Bool.false_eq_true, if_false] at hrest
            injection hrest with hrest
            injection hrest with hreply hworld
            cases hreply
  · rintro ⟨e, hp, hreply⟩
    refine ⟨.error e, w', hp, ?_⟩
    rw [← hreply]
    rfl

theorem mset_failsCleanly_iff (hS : ValueStore S view)
    (pairs : List (Bytes × Bytes)) (w : World (insertFaulty S) P) :
    FailsCleanly (.mset pairs) w <->
      PartsUnseen (view w.store.1) w.store.2 (.mset pairs) := by
  rcases mset_run hS pairs w with ⟨r, w1, hrun, htracker, hresult⟩
  constructor
  · intro h i hfault
    simp only [hfault] at hresult
    rcases hresult with ⟨⟨e, rfl⟩, hview⟩
    rw [← writeAll_eq_iff, ← hview]
    exact h.view_eq hS 0 (.new { requirepass := none }) hrun
  · intro h
    refine failsCleanly_of hS fun fuel x text w' hrun' => ?_
    obtain ⟨rfl, rfl⟩ : r = .error text ∧ w1 = w' :=
      Prod.mk.inj (Option.some.inj (hrun.symm.trans hrun'))
    refine ⟨?_, htracker⟩
    cases hfault : firstFault w.store.2 pairs.length with
    | none =>
        simp only [hfault] at hresult
        cases hresult
    | some i =>
        simp only [hfault] at hresult
        rw [hresult.2]
        exact (writeAll_eq_iff _ _).mpr (h i hfault)

theorem hset_error_iff (key : Bytes) (fields : List (Bytes × Bytes))
    (w w' : World (insertFaulty S) P) (e : Error) :
    (HashOperations.hset key fields).run (server (insertFaulty S) P) w =
        some (.error e, w') <->
      (HashOperations.hsetLoop key fields 0).run (server (insertFaulty S) P) w =
        some (.error e, w') := by
  unfold HashOperations.hset
  constructor
  · intro h
    rcases (run_bind_eq_some _).mp h with ⟨r, w1, hloop, hrest⟩
    cases r with
    | error e' =>
        injection hrest with hrest
        injection hrest with herror hworld
        injection herror with herror
        rw [hloop, herror, hworld]
    | ok n =>
        change run _ (if n > 0 then _ else _) _ = _ at hrest
        split at hrest
        · rcases (run_bind_eq_some _).mp hrest with ⟨_, w2, _, hdone⟩
          injection hdone with hdone
          injection hdone with herror _
          cases herror
        · injection hrest with hrest
          injection hrest with herror _
          cases herror
  · intro h
    rw [run_bind_of_some _ _ h]
    rfl

theorem hset_failsCleanly_iff (hS : ValueStore S view) (key : Bytes)
    (fields : List (Bytes × Bytes)) (w : World (insertFaulty S) P) :
    FailsCleanly (.hset key fields) w <->
      PartsUnseen (view w.store.1) w.store.2 (.hset key fields) := by
  rcases hsetLoop_run hS key fields 0 w with ⟨r, w1, hrun, htracker, hresult⟩
  constructor
  · intro h i hfault
    simp only [hfault] at hresult
    rcases hresult with ⟨⟨e, rfl⟩, hview⟩
    rw [← writeAll_eq_iff, ← hview]
    refine h.view_eq hS 0 (.new { requirepass := none })
      (modifying_error_iff.mpr ⟨_, (hset_error_iff _ _ _ _ _).mpr hrun, rfl⟩)
  · intro h
    refine failsCleanly_of hS fun fuel x text w' hrun' => ?_
    rcases modifying_error_iff.mp hrun' with ⟨e, hhset, _⟩
    have hloop := (hset_error_iff _ _ _ _ _).mp hhset
    obtain ⟨rfl, rfl⟩ : r = .error e ∧ w1 = w' :=
      Prod.mk.inj (Option.some.inj (hrun.symm.trans hloop))
    refine ⟨?_, htracker⟩
    cases hfault : firstFault w.store.2 fields.length with
    | none =>
        simp only [hfault] at hresult
        rcases hresult with ⟨n, hresult⟩
        cases hresult
    | some i =>
        simp only [hfault] at hresult
        rw [hresult.2]
        exact (writeAll_eq_iff _ _).mpr (h i hfault)

theorem onStore_error_iff {α : Type} (p : StoreProg (Except Error α))
    (w w' : World (insertFaulty S) P) (e : Error) :
    (onStore p).run (server (insertFaulty S) P) w = some (.error e, w') <->
      exists t, run (insertFaulty S) p w.store = some (.error e, t) ∧
        { w with store := t } = w' := by
  rw [run_onStore, Option.map_eq_some_iff]
  constructor
  · rintro ⟨⟨r, t⟩, hrun, heq⟩
    injection heq with hr hw
    exact ⟨t, hr ▸ hrun, hw⟩
  · rintro ⟨t, hrun, hw⟩
    exact ⟨(.error e, t), hrun, Prod.ext rfl hw⟩

theorem push_failsCleanly_iff (hS : ValueStore S view)
    {pushMeta : ListOperations.ListMeta -> ListOperations.ListMeta × Int64}
    {cmd : Command} {key : Bytes}
    {values : List Bytes} (hvalues : values.length < 2 ^ 64)
    (hcount : forall m, (pushMeta m).1.count = m.count + 1)
    (hrespond : forall fuel (x : CommandExecutor), x.respond fuel cmd =
      CommandExecutor.push key (ListOperations.push pushMeta fuel key values))
    (w : World (insertFaulty S) P) :
    FailsCleanly cmd w <->
      firstFault (ListOperations.elementFaults
        (view w.store.1 (ListOperations.metaKey key)).isSome w.store.2)
          values.length = none := by
  rcases ListOperations.push_faulty_run hS hcount key values w.store.1 w.store.2
    with ⟨r, s', rest, hsettles, hresult⟩
  constructor
  · intro h
    cases hfault : firstFault (ListOperations.elementFaults
        (view w.store.1 (ListOperations.metaKey key)).isSome w.store.2)
          values.length with
    | none => rfl
    | some i =>
        simp only [hfault] at hresult
        rcases hresult with ⟨⟨e, rfl⟩, hcountIn⟩
        have hrun := (hsettles (w.store.2.length + 2)).resolve_left fun hnone =>
          Nat.lt_irrefl _ hnone.2
        have hview := h.view_eq hS (w.store.2.length + 2)
          (.new { requirepass := none }) (by
            rw [hrespond]
            exact modifying_error_iff.mpr
              ⟨_, (onStore_error_iff _ _ _ _).mpr ⟨_, hrun, rfl⟩, rfl⟩)
        have hi := firstFault_lt hfault
        exact absurd hview (ListOperations.countIn_add_ne hcountIn (by omega))
  · intro hfault
    simp only [hfault] at hresult
    refine failsCleanly_of hS fun fuel x text w' hrun => ?_
    rw [hrespond] at hrun
    rcases modifying_error_iff.mp hrun with ⟨e, hstore, _⟩
    rcases (onStore_error_iff _ _ _ _).mp hstore with ⟨t, hpush, rfl⟩
    rcases hsettles fuel with ⟨hnone, _⟩ | hsome
    · cases hnone.symm.trans hpush
    · obtain ⟨rfl, rfl⟩ : r = .error e ∧ withFaults s' rest = t :=
        Prod.mk.inj (Option.some.inj (hsome.symm.trans hpush))
      refine ⟨hresult.resolve_left ?_, rfl⟩
      rintro ⟨n, hn⟩
      cases hn

/-- A write of several parts that fails leaves everything as it was exactly when
the parts before the failing one are not seen. -/
theorem failsCleanly_iff_partsUnseen (hS : ValueStore S view) {cmd : Command}
    (hcmd : MultiPart cmd) (w : World (insertFaulty S) P) :
    FailsCleanly cmd w <-> PartsUnseen (view w.store.1) w.store.2 cmd := by
  cases hcmd with
  | mset pairs => exact mset_failsCleanly_iff hS pairs w
  | hset key fields => exact hset_failsCleanly_iff hS key fields w
  | lpush key h => exact push_failsCleanly_iff hS h (fun _ => rfl) (fun _ _ => rfl) w
  | rpush key h => exact push_failsCleanly_iff hS h (fun _ => rfl) (fun _ _ => rfl) w

end Faulty

/-- An empty server whose insertions fail as foreseen. -/
abbrev failingServer (faults : Faults) : World (insertFaulty mapStore) idlePlatform :=
  { store := withFaults (∅ : MapStore.Entries) faults, platform := (),
    watch := .new, tracker := ∅, clients := ∅ }

abbrev outOfMemory : FeoxError :=
  { keyNotFound := false, text := "Out of memory" }

theorem failsCleanly_second_part_repeats :
    FailsCleanly (.mset [([97], [49]), ([98], [50])])
      ({ failingServer [] with
        store := withFaults (AList.insert [97] ([49], none) (∅ : MapStore.Entries))
          [none, some outOfMemory] } :
        World (insertFaulty mapStore) idlePlatform) := by
  apply (failsCleanly_iff_partsUnseen MapStore.valueStore (.mset _) _).mpr
  intro i hfault
  obtain rfl : 1 = i := Option.some.inj hfault
  intro key value hlookup
  change List.lookup key [(([97] : Bytes), ([49] : Bytes))] = some value at hlookup
  rw [List.lookup_cons] at hlookup
  split at hlookup
  · rename_i hkey
    rw [eq_of_beq hkey]
    exact hlookup
  · cases hlookup

/-- The first of two pairs stays when the second is refused. -/
theorem not_failsCleanly_second_part :
    MultiPart (.mset [([97], [49]), ([98], [50])]) ∧
      ¬ FailsCleanly (.mset [([97], [49]), ([98], [50])])
        (failingServer [none, some outOfMemory]) := by
  refine ⟨.mset _, fun h => ?_⟩
  have hunseen := (mset_failsCleanly_iff MapStore.valueStore _ _).mp h 1 rfl
  have hthere := hunseen [97] [49] rfl
  cases hthere

end FeoxServer
