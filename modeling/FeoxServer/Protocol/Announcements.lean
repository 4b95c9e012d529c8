import FeoxServer.Protocol.ExecutorCalls
import FeoxServer.Protocol.HashFootprints
import FeoxServer.Store.SteadfastStore

/-!
# Changes and the versions of keys

A connection that watches a key relies on its version: when a command changes
what `GET`, `LRANGE` or `HGETALL` shows of the key, the version has to grow.
This module says which commands always see to that.
-/

namespace FeoxServer

open Foundation Prog

/-- The commands that show what is stored under a key. -/
inductive Shows (key : Bytes) : Command -> Prop where
  | get : Shows key (.get key)
  | lrange (start stop : Int64) : Shows key (.lrange key start stop)
  | hgetall : Shows key (.hgetall key)

/-- How often a command notifies at most. -/
def Command.notices : Command -> Nat
  | .del names => names.length
  | .mset pairs => pairs.length
  | _ => 1

/-- On every store that keeps its promises, and as long as the counter of the
versions does not run over, a key whose contents the program changes has a greater
version afterwards. -/
def Covered {α : Type} (patched : Bytes -> Bytes -> Option Bytes) (notices : Nat)
    (p : ServerProg α) : Prop :=
  forall (S : FeoxStore) (P : Platform) (view : S.State -> Bytes -> Option Bytes)
    (w w' : World S P) (a : α),
    SteadfastStore patched S view -> w.watch.Ahead notices ->
      p.run (server S P) w = some (a, w') ->
        forall (key : Bytes) (read : Command) (fuel : Nat) (x : CommandExecutor),
          Shows key read ->
            replyOf (x.respond fuel read) w' ≠ replyOf (x.respond fuel read) w ->
              w.watch.getKeyVersion key < w'.watch.getKeyVersion key

/-- The keys of the store that `LRANGE` and `HGETALL` read for a key. -/
def shownKeys (key : Bytes) : Set Bytes :=
  ListOperations.keysOf key ∪
    { k | HashOperations.fieldPrefix key <= k ∧ k <= HashOperations.endKey key }

/-- No list and no hash is read from the name. -/
def Solitary (name : Bytes) : Prop :=
  forall key, name ∉ shownKeys key

def NamedBefore : List Bytes -> List (Bytes × Bytes) -> Prop
  | _, [] => True
  | named, (name, _) :: pairs =>
      (forall key, name ∈ shownKeys key -> key ∈ named) ∧
        NamedBefore (name :: named) pairs

/-- The commands that announce all their changes. -/
def Command.Announces (patched : Bytes -> Bytes -> Option Bytes) : Command -> Prop
  | .set key _ _ _ => Solitary key
  | .incr key | .decr key => Solitary key
  | .incrBy key _ | .decrBy key _ => Solitary key
  | .del names => forall name, name ∈ names -> Solitary name
  | .mset pairs => NamedBefore [] pairs
  | .cas _ expected newValue => newValue = expected
  | .jsonPatch _ patch => forall doc doc', patched doc patch = some doc' -> doc' = doc
  | .lpush _ values | .rpush _ values => values = []
  | .lpop _ count | .rpop _ count => count = some 0
  | .hset _ fields => fields = []
  | .hdel _ fields => fields = []
  | .hincrBy _ _ _ => False
  | .hlen _ => False
  | _ => True

/-!
# What is shown
-/

section Shown

variable {patched : Bytes -> Bytes -> Option Bytes} {S : FeoxStore} {P : Platform}
  {view : S.State -> Bytes -> Option Bytes}

/-- The call reads values of keys in `K`. -/
def Call.Looks (K : Set Bytes) : Call -> Prop
  | .store (.getBytes key) => key ∈ K
  | .store (.rangeQuery start stop _) => { key | start <= key ∧ key <= stop } ⊆ K
  | _ => False

theorem Shows.looks {key : Bytes} {read : Command} (h : Shows key read) (fuel : Nat)
    (x : CommandExecutor) :
    Only (Call.Looks (insert key (shownKeys key))) (x.respond fuel read) := by
  have hlist : ListOperations.keysOf key ⊆ insert key (shownKeys key) :=
    Set.subset_union_left.trans (Set.subset_insert _ _)
  cases h with
  | get =>
      refine only_call_bind_iff.mpr ⟨Set.mem_insert _ _, fun r => ?_⟩
      cases r <;> exact Only.done _
  | lrange start stop =>
      refine only_bind (only_hoist (ListOperations.only_lrange
        (Q := fun c => Call.Looks (insert key (shownKeys key)) (.store c))
        (hlist (ListOperations.metaKey_mem key))
        (fun pos => hlist (ListOperations.valueKey_mem key pos)) start stop)
        fun _ hc => hc) fun _ => Only.done _
  | hgetall =>
      refine only_bind ?_ fun _ => Only.done _
      unfold HashOperations.hgetall HashOperations.collect
      refine only_call_bind_iff.mpr ⟨?_, fun r => ?_⟩
      · exact Set.subset_union_right.trans (Set.subset_insert _ _)
      · cases r <;> exact Only.done _

theorem Shows.replyOf_eq (hS : SteadfastStore patched S view) {key : Bytes}
    {read : Command} (h : Shows key read) (fuel : Nat) (x : CommandExecutor)
    {w w' : World S P}
    (hview : Set.EqOn (view w'.store) (view w.store) (insert key (shownKeys key))) :
    replyOf (x.respond fuel read) w' = replyOf (x.respond fuel read) w := by
  have hstep : forall c, Call.Looks (insert key (shownKeys key)) c ->
      forall v v' : World S P,
        Set.EqOn (view v.store) (view v'.store) (insert key (shownKeys key)) ->
          (World.reply c v).1 = (World.reply c v').1 ∧
            Set.EqOn (view (World.reply c v).2.store) (view (World.reply c v').2.store)
              (insert key (shownKeys key)) := by
    intro c hc v v' hv
    have hkeeps : forall c : StoreCall, c.Keeps ->
        Set.EqOn (view (S.reply c v.store).2) (view (S.reply c v'.store).2)
          (insert key (shownKeys key)) := by
      intro c hc
      rw [hS.keeps v.store hc, hS.keeps v'.store hc]
      exact hv
    match c, hc with
    | .store (.getBytes k), hk => exact ⟨hS.getBytes (hv hk), hkeeps _ trivial⟩
    | .store (.rangeQuery start stop limit), hrange =>
        exact ⟨hS.rangeQuery limit (hv.mono hrange), hkeeps _ trivial⟩
  unfold replyOf
  rcases run_agrees (server S P) (server S P) hstep (h.looks fuel x) hview with
    ⟨hw, hw'⟩ | ⟨a, v, v', hw, hw', _⟩
  · rw [hw, hw']
  · rw [hw, hw']
    rfl

/-!
# What a run has told
-/

/-- Since the first world no version has become smaller, and each key from which a
changed value is read has a greater one. -/
structure Told (view : S.State -> Bytes -> Option Bytes) (w0 w : World S P) : Prop where
  later : forall key, w0.watch.getKeyVersion key <= w.watch.getKeyVersion key
  changed : forall {name}, view w.store name ≠ view w0.store name ->
    forall key, name ∈ insert key (shownKeys key) ->
      w0.watch.getKeyVersion key < w.watch.getKeyVersion key

theorem Told.refl (w : World S P) : Told view w w where
  later _ := UInt64.le_refl _
  changed h := absurd rfl h

theorem Told.keep {w0 w w' : World S P} (h : Told view w0 w)
    (hview : view w'.store = view w.store) (hwatch : w'.watch = w.watch) :
    Told view w0 w' where
  later key := by
    rw [hwatch]
    exact h.later key
  changed := by
    intro name hname key hkey
    rw [hview] at hname
    rw [hwatch]
    exact h.changed hname key hkey

theorem Told.write {w0 w : World S P} {n : Nat} {name : Bytes} {s' : S.State}
    (h : Told view w0 w) (hahead : w.watch.Ahead n)
    (hothers : forall k, k ≠ name -> view s' k = view w.store k)
    (hshown : forall key, name ∈ shownKeys key ->
      w0.watch.getKeyVersion key < w.watch.getKeyVersion key) :
    Told view w0
      { w with store := s', watch := w.watch.notifyKeyModified name } where
  later key := UInt64.le_trans (h.later key) (hahead.le_notify name key)
  changed := by
    intro name' hname key hkey
    by_cases hsame : name' = name
    · subst hsame
      rcases Set.mem_insert_iff.mp hkey with rfl | hkey
      · exact UInt64.lt_of_le_of_lt (h.later name') (hahead.lt_notify name')
      · exact UInt64.lt_of_lt_of_le (hshown key hkey) (hahead.le_notify name' key)
    · have hbefore : view w.store name' ≠ view w0.store name' := by
        rw [← hothers name' hsame]
        exact hname
      exact UInt64.lt_of_lt_of_le (h.changed hbefore key hkey)
        (hahead.le_notify name key)

theorem Told.lt_of_shown (hS : SteadfastStore patched S view) {w w' : World S P}
    (h : Told view w w') {key : Bytes} {read : Command} (hread : Shows key read)
    {fuel : Nat} {x : CommandExecutor}
    (hreply : replyOf (x.respond fuel read) w' ≠ replyOf (x.respond fuel read) w) :
    w.watch.getKeyVersion key < w'.watch.getKeyVersion key := by
  by_contra hversion
  refine hreply (hread.replyOf_eq hS fuel x fun name hname => ?_)
  by_contra hchanged
  exact hversion (h.changed hchanged key hname)

@[simp] def Call.Keeps : Call -> Prop
  | .store c => c.Keeps
  | .platform _ | .notifyKeyModified _ | .getKeyVersion _ | .addUpdate _ _
  | .shouldFlush | .takeUpdates | .getAllClients | .getClient _ => True

theorem view_run_keeps (hS : SteadfastStore patched S view) {α : Type}
    {p : ServerProg α} (hp : Only Call.Keeps p) {w w' : World S P} {a : α}
    (hrun : p.run (server S P) w = some (a, w')) :
    view w'.store = view w.store := by
  refine run_observe_eq (server S P) (fun w => view w.store) (P := Call.Keeps)
    (fun c hc w => ?_) hp hrun
  cases c with
  | store c => exact hS.keeps w.store hc
  | _ => rfl

end Shown

section Covered

variable {patched : Bytes -> Bytes -> Option Bytes} {α : Type} {p : ServerProg α}

theorem covered_of_view {notices : Nat}
    (h : forall {S : FeoxStore} {P : Platform} {view : S.State -> Bytes -> Option Bytes}
      {w w' : World S P} {a : α}, SteadfastStore patched S view ->
        p.run (server S P) w = some (a, w') -> view w'.store = view w.store) :
    Covered patched notices p := by
  intro S P view w w' a hS _ hrun key read fuel x hread hreply
  have hview := h hS hrun
  exact absurd (hread.replyOf_eq hS fuel x fun name _ => congrFun hview name) hreply

theorem covered_of_keeps {notices : Nat} (hp : Only Call.Keeps p) :
    Covered patched notices p :=
  covered_of_view fun hS hrun => view_run_keeps hS hp hrun

theorem covered_of_told {notices : Nat}
    (h : forall {S : FeoxStore} {P : Platform} {view : S.State -> Bytes -> Option Bytes}
      {w w' : World S P} {a : α}, SteadfastStore patched S view ->
        w.watch.Ahead notices -> p.run (server S P) w = some (a, w') ->
          Told view w w') :
    Covered patched notices p := by
  intro S P view w w' a hS hahead hrun key read fuel x hread hreply
  exact (h hS hahead hrun).lt_of_shown hS hread hreply

end Covered

/-!
# Strings
-/

namespace CommandExecutor

variable {patched : Bytes -> Bytes -> Option Bytes} {S : FeoxStore} {P : Platform}
  {view : S.State -> Bytes -> Option Bytes}

theorem told_call (hS : SteadfastStore patched S view) {c : StoreCall} {name : Bytes}
    (hkey : c.key? = some name) {w0 w : World S P} {n : Nat} (h : Told view w0 w)
    (hahead : w.watch.Ahead n) (hname : Solitary name) :
    Told view w0 { w with
      store := (S.reply c w.store).2
      watch := w.watch.notifyKeyModified name } :=
  h.write hahead (fun _ hk => hS.others w.store hkey hk)
    fun key hmem => absurd hmem (hname key)

theorem told_failed (hS : SteadfastStore patched S view) {c : StoreCall}
    {w0 w : World S P} (h : Told view w0 w)
    (hfailed : c.failed (S.reply c w.store).1 = true) :
    Told view w0 { w with store := (S.reply c w.store).2 } :=
  h.keep (hS.failed hfailed) rfl

theorem told_del (hS : SteadfastStore patched S view) {names : List Bytes}
    (hnames : forall name, name ∈ names -> Solitary name) (count : Int64)
    {w0 w w' : World S P} {r : RespValue} (h : Told view w0 w)
    (hahead : w.watch.Ahead names.length)
    (hrun : (del names count).run (server S P) w = some (r, w')) : Told view w0 w' := by
  induction names generalizing count w with
  | nil =>
      cases hrun
      exact h
  | cons name names ih =>
      have hrest := fun k hk => hnames k (List.mem_cons_of_mem name hk)
      unfold del at hrun
      rw [run_call_bind] at hrun
      cases hreply : (S.reply (.delete name) w.store).1 with
      | ok _ =>
          simp only [World.reply, hreply] at hrun
          refine ih hrest _ (told_call hS rfl h hahead (hnames name List.mem_cons_self))
            (hahead.notify name) hrun
      | error e =>
          simp only [World.reply, hreply] at hrun
          refine ih hrest _ (told_failed hS h ?_) (hahead.less (Nat.le_succ _)) hrun
          rw [hreply]
          rfl

theorem told_mset (hS : SteadfastStore patched S view) {named : List Bytes}
    {pairs : List (Bytes × Bytes)} (hnamed : NamedBefore named pairs)
    {w0 w w' : World S P} {r : RespValue} (h : Told view w0 w)
    (hahead : w.watch.Ahead pairs.length)
    (hbefore : forall key, key ∈ named ->
      w0.watch.getKeyVersion key < w.watch.getKeyVersion key)
    (hrun : (mset pairs).run (server S P) w = some (r, w')) : Told view w0 w' := by
  induction pairs generalizing named w with
  | nil =>
      cases hrun
      exact h
  | cons pair pairs ih =>
      rcases pair with ⟨name, value⟩
      unfold mset at hrun
      rw [run_call_bind] at hrun
      cases hreply : (S.reply (.insertWithTimestamp name value) w.store).1 with
      | ok _ =>
          simp only [World.reply, hreply] at hrun
          have hwrite := h.write hahead
            (fun k hk => hS.others (c := .insertWithTimestamp name value) w.store rfl hk)
            fun key hkey => hbefore key (hnamed.1 key hkey)
          refine ih hnamed.2 hwrite (hahead.notify name) ?_ hrun
          intro key hkey
          rcases List.mem_cons.mp hkey with rfl | hkey
          · exact UInt64.lt_of_le_of_lt (h.later key) (hahead.lt_notify key)
          · exact UInt64.lt_of_lt_of_le (hbefore key hkey) (hahead.le_notify name key)
      | error e =>
          simp only [World.reply, hreply] at hrun
          cases hrun
          refine told_failed hS h ?_
          rw [hreply]
          rfl

theorem setCall_run (key value : Bytes) (ex px : Option UInt64) (w : World S P) :
    exists (answer : Except FeoxError Unit) (c : StoreCall), c.key? = some key ∧
      (setCall key value ex px).run (server S P) w =
        some (answer, { w with store := (S.reply c w.store).2 }) ∧
      forall e, answer = .error e -> c.failed (S.reply c w.store).1 = true := by
  have hinsert : forall e, (S.reply (.insertBytesWithTimestamp key value) w.store).1 =
      .error e -> StoreCall.failed (.insertBytesWithTimestamp key value)
        (S.reply (.insertBytesWithTimestamp key value) w.store).1 = true := by
    intro e he
    rw [he]
    rfl
  have htimed : forall ttl e,
      (S.reply (.insertBytesWithTtlAndTimestamp key value ttl) w.store).1 = .error e ->
        StoreCall.failed (.insertBytesWithTtlAndTimestamp key value ttl)
          (S.reply (.insertBytesWithTtlAndTimestamp key value ttl) w.store).1 = true := by
    intro ttl e he
    rw [he]
    rfl
  cases ex with
  | some seconds => exact ⟨_, _, rfl, rfl, htimed seconds⟩
  | none =>
      cases px with
      | some millis => exact ⟨_, _, rfl, rfl, htimed (millis / 1000)⟩
      | none => exact ⟨_, _, rfl, rfl, hinsert⟩

theorem told_set (hS : SteadfastStore patched S view) {key : Bytes}
    (hkey : Solitary key) (value : Bytes) (ex px : Option UInt64) {w w' : World S P}
    {r : RespValue} (hahead : w.watch.Ahead 1)
    (hrun : (set key value ex px).run (server S P) w = some (r, w')) :
    Told view w w' := by
  rcases setCall_run (S := S) (P := P) key value ex px w with ⟨answer, c, hc, hcall, hfailed⟩
  unfold set at hrun
  rw [run_bind_of_some _ _ hcall] at hrun
  cases answer with
  | ok _ =>
      cases hrun
      exact told_call hS hc (Told.refl w) hahead hkey
  | error e =>
      cases hrun
      exact told_failed hS (Told.refl w) (hfailed e rfl)

theorem told_fastSetBytes (hS : SteadfastStore patched S view) {key : Bytes}
    (hkey : Solitary key) (value : Bytes) {w w' : World S P}
    {r : Except FeoxError Unit} (hahead : w.watch.Ahead 1)
    (hrun : (fastSetBytes key value).run (server S P) w = some (r, w')) :
    Told view w w' := by
  unfold fastSetBytes at hrun
  rw [run_call_bind] at hrun
  cases hreply : (S.reply (.insertBytesWithTimestamp key value) w.store).1 with
  | ok _ =>
      simp only [World.reply, hreply] at hrun
      cases hrun
      exact told_call hS rfl (Told.refl w) hahead hkey
  | error e =>
      simp only [World.reply, hreply] at hrun
      cases hrun
      refine told_failed hS (Told.refl w) ?_
      rw [hreply]
      rfl

theorem told_writeNumber (hS : SteadfastStore patched S view) {key : Bytes}
    (hkey : Solitary key) (n : Int64) {w0 w w' : World S P} {r : RespValue}
    (h : Told view w0 w) (hahead : w.watch.Ahead 1)
    (hrun : (writeNumber key n).run (server S P) w = some (r, w')) :
    Told view w0 w' := by
  unfold writeNumber at hrun
  rw [run_call_bind] at hrun
  cases hreply : (S.reply (.insertBytesWithTimestamp key (asBytes (decimal n)))
      w.store).1 with
  | ok _ =>
      simp only [World.reply, hreply] at hrun
      cases hrun
      exact told_call hS rfl h hahead hkey
  | error e =>
      simp only [World.reply, hreply] at hrun
      cases hrun
      refine told_failed hS h ?_
      rw [hreply]
      rfl

theorem told_stringIncr (hS : SteadfastStore patched S view) {key : Bytes}
    (hkey : Solitary key) (delta : Int64) {w w' : World S P} {r : RespValue}
    (hahead : w.watch.Ahead 1)
    (hrun : (stringIncr key delta).run (server S P) w = some (r, w')) :
    Told view w w' := by
  unfold stringIncr at hrun
  rw [run_call_bind] at hrun
  cases hreply : (S.reply (.atomicIncrement key delta) w.store).1 with
  | ok n =>
      simp only [World.reply, hreply] at hrun
      cases hrun
      exact told_call hS rfl (Told.refl w) hahead hkey
  | error e =>
      simp only [World.reply, hreply] at hrun
      have hcounted : Told view w
          { w with store := (S.reply (.atomicIncrement key delta) w.store).2 } := by
        refine told_failed hS (Told.refl w) ?_
        rw [hreply]
        rfl
      rw [run_call_bind] at hrun
      have hread : Told view w ((server S P).reply (.store (.getBytes key))
          { w with store := (S.reply (.atomicIncrement key delta) w.store).2 }).2 :=
        hcounted.keep (hS.keeps (c := .getBytes key) _ trivial) rfl
      split at hrun
      · split at hrun
        · exact told_writeNumber hS hkey _ hread hahead hrun
        · cases hrun
          exact hread
      · split at hrun
        · exact told_writeNumber hS hkey _ hread hahead hrun
        · cases hrun
          exact hread

/-!
# Commands on lists and hashes
-/

theorem keeps_push_nil (pushMeta : ListOperations.ListMeta -> ListOperations.ListMeta × Int64)
    (fuel : Nat) (key : Bytes) :
    Only Call.Keeps (push key (ListOperations.push pushMeta fuel key [])) := by
  have hpush : Only StoreCall.Keeps (ListOperations.push pushMeta fuel key []) := by
    refine only_call_bind_iff.mpr ⟨trivial, fun r => ?_⟩
    cases r <;> exact Only.done _
  refine only_bind (only_hoist hpush fun _ hc => hc) fun r => ?_
  cases r with
  | error e => exact Only.done _
  | ok n => exact only_call_bind_iff.mpr ⟨trivial, fun _ => Only.done _⟩

theorem covered_cas {key expected newValue : Bytes} (h : newValue = expected) :
    Covered patched 1 (cas key expected newValue) := by
  refine covered_of_view fun {S P view w w' a} hS hrun => ?_
  have hcall : view (S.reply (.compareAndSwap key expected newValue) w.store).2 =
      view w.store := by
    rcases hS.compareAndSwap w.store key expected newValue with hsame | ⟨hvalue, hswapped⟩
    · exact hsame
    · rw [hswapped, h, ← hvalue]
      exact Function.update_eq_self key (view w.store)
  unfold cas at hrun
  rw [run_call_bind] at hrun
  cases hreply : (S.reply (.compareAndSwap key expected newValue) w.store).1 with
  | ok swapped =>
      simp only [World.reply, hreply] at hrun
      cases hrun
      exact hcall
  | error e =>
      simp only [World.reply, hreply] at hrun
      cases hrun
      exact hcall

theorem covered_jsonPatch {key patch : Bytes}
    (h : forall doc doc', patched doc patch = some doc' -> doc' = doc) :
    Covered patched 1 (jsonPatch key patch) := by
  refine covered_of_view fun {S P view w w' a} hS hrun => ?_
  have hcall : view (S.reply (.jsonPatch key patch) w.store).2 = view w.store := by
    rcases hS.jsonPatch w.store key patch with hsame | ⟨doc, doc', hvalue, hpatched, hview⟩
    · exact hsame
    · rw [hview, h doc doc' hpatched, ← hvalue]
      exact Function.update_eq_self key (view w.store)
  unfold jsonPatch at hrun
  rw [run_call_bind] at hrun
  cases hreply : (S.reply (.jsonPatch key patch) w.store).1 with
  | ok _ =>
      simp only [World.reply, hreply] at hrun
      cases hrun
      exact hcall
  | error e =>
      simp only [World.reply, hreply] at hrun
      cases hrun
      exact hcall

theorem covered_respond {cmd : Command} (h : cmd.Announces patched) (fuel : Nat)
    (x : CommandExecutor) : Covered patched cmd.notices (x.respond fuel cmd) := by
  have hkeeps : forall {cmd : Command}, cmd.leavesValues = true ->
      Covered patched cmd.notices (x.respond fuel cmd) := fun hcmd =>
    covered_of_keeps (only_mono (observing_respond hcmd fuel x) fun c hc => by
      cases c <;> first | exact hc | exact hc.elim)
  cases cmd with
  | set key value ex px =>
      refine covered_of_told ?_
      intro S P view w w' a hS hahead hrun
      exact told_set hS h value ex px hahead hrun
  | del keys =>
      refine covered_of_told ?_
      intro S P view w w' a hS hahead hrun
      exact told_del hS h 0 (Told.refl w) hahead hrun
  | incr key | decr key | incrBy key delta | decrBy key delta =>
      refine covered_of_told ?_
      intro S P view w w' a hS hahead hrun
      exact told_stringIncr hS h _ hahead hrun
  | mset pairs =>
      refine covered_of_told ?_
      intro S P view w w' a hS hahead hrun
      exact told_mset hS h (Told.refl w) hahead
        (fun _ hmem => absurd hmem List.not_mem_nil) hrun
  | cas key expected newValue => exact covered_cas h
  | jsonPatch key patch => exact covered_jsonPatch h
  | lpush key values | rpush key values =>
      obtain rfl : values = [] := h
      exact covered_of_keeps (keeps_push_nil _ fuel key)
  | lpop key count | rpop key count =>
      obtain rfl : count = some 0 := h
      exact covered_of_keeps (Only.done _)
  | hset key fields =>
      obtain rfl : fields = [] := h
      exact covered_of_keeps (only_call_bind_iff.mpr ⟨trivial, fun _ => Only.done _⟩)
  | hdel key fields =>
      obtain rfl : fields = [] := h
      exact covered_of_keeps (Only.done _)
  | hincrBy key field delta => cases h
  | hlen key => cases h
  | client subcommand args =>
      exact covered_of_keeps (ClientOperations.only_execute trivial (fun _ => trivial)
        (fun _ => trivial) x.clientOps subcommand args x.connectionId)
  | _ => exact hkeeps rfl

theorem covered_execute {cmd : Command} (h : cmd.Announces patched) (fuel : Nat)
    (x : CommandExecutor) : Covered patched cmd.notices (x.execute fuel cmd) := by
  intro S P view w w' a hS hahead hrun
  unfold execute at hrun
  rcases (run_bind_eq_some _).mp hrun with ⟨r, w1, hrespond, hdone⟩
  cases hdone
  exact covered_respond h fuel _ S P view w w' r hS hahead hrespond

theorem covered_fastSetBytes {key : Bytes} (h : Solitary key) (value : Bytes) :
    Covered patched 1 (fastSetBytes key value) := by
  refine covered_of_told ?_
  intro S P view w w' a hS hahead hrun
  exact told_fastSetBytes hS h value hahead hrun

end CommandExecutor

end FeoxServer
