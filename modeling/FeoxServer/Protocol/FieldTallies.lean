import FeoxServer.Protocol.HashIsolation
import FeoxServer.Protocol.Increments

/-!
# Counting the fields side by side

A command on a hash owes the field count what it has found out about new and
deleted fields and not yet collected.  The count, the changes collected and
what the commands owe add up to the number of fields.
-/

namespace FeoxServer

open Foundation Prog

namespace HashOperations

def foundBefore (key : Bytes) : List (Exchange Call Answer) -> Option Bool
  | [] => none
  | ⟨.store (.containsKey k), found⟩ :: log =>
      if k = key then some found else foundBefore key log
  | _ :: log => foundBefore key log

/-- What is left of a command on the hash when it owes `owed` to the count and
may still move the count by `room` in all.  At its end it is such that `Q`. -/
inductive Tally {α : Type} (key : Bytes)
    (Q : Int -> Nat -> List (Exchange Call Answer) -> α -> Prop) :
    Int -> Nat -> List (Exchange Call Answer) -> ServerProg α -> Prop where
  | done {owed : Int} {room : Nat} {log : List (Exchange Call Answer)} {a : α} :
      Q owed room log a -> Tally key Q owed room log (.done a)
  | insertField {owed : Int} {room : Nat} {log : List (Exchange Call Answer)}
      (field value : Bytes) {next : Except FeoxError Bool -> ServerProg α} :
      (forall log', Tally key Q (owed + 1) room log' (next (.ok true))) ->
        (forall log', Tally key Q owed room log' (next (.ok false))) ->
          Tally key Q owed room log
            (.ask (.store (.insertBytes (fieldKey key field) value)) next)
  | deleteField {owed : Int} {room : Nat} {log : List (Exchange Call Answer)}
      (field : Bytes) {next : Except FeoxError Unit -> ServerProg α} :
      (forall log', Tally key Q (owed - 1) room log' (next (.ok ()))) ->
        (forall e log', Tally key Q owed room log' (next (.error e))) ->
          Tally key Q owed room log
            (.ask (.store (.delete (fieldKey key field))) next)
  | containsField {owed : Int} {room : Nat} {log : List (Exchange Call Answer)}
      (field : Bytes) {next : Bool -> ServerProg α} :
      (forall found log', foundBefore (fieldKey key field) log' = some found ->
        Tally key Q owed room log' (next found)) ->
          Tally key Q owed room log
            (.ask (.store (.containsKey (fieldKey key field))) next)
  | getField {owed : Int} {room : Nat} {log : List (Exchange Call Answer)}
      (field : Bytes) {next : Except FeoxError Bytes -> ServerProg α} :
      (forall r log', foundBefore (fieldKey key field) log' =
        foundBefore (fieldKey key field) log -> Tally key Q owed room log' (next r)) ->
          Tally key Q owed room log
            (.ask (.store (.getBytes (fieldKey key field))) next)
  | putField {owed : Int} {room : Nat} {log : List (Exchange Call Answer)}
      (field value : Bytes) (found : Bool)
      {next : Except FeoxError Unit -> ServerProg α} :
      foundBefore (fieldKey key field) log = some found ->
        (forall log', Tally key Q (owed + if found then 0 else 1) room log'
          (next (.ok ()))) ->
            Tally key Q owed room log
              (.ask (.store (.insert (fieldKey key field) value)) next)
  | collect {owed : Int} {room : Nat} {log : List (Exchange Call Answer)}
      (delta : Int64) {next : Unit -> ServerProg α} :
      (forall log', (forall k, foundBefore k log' = foundBefore k log) ->
        Tally key Q (owed - delta.toInt) room log' (next ())) ->
          Tally key Q owed (room + delta.toInt.natAbs) log
            (.ask (.addUpdate (metaKey key) delta) next)
  | shouldFlush {owed : Int} {room : Nat} {log : List (Exchange Call Answer)}
      {next : Bool -> ServerProg α} :
      (forall due log', (forall k, foundBefore k log' = foundBefore k log) ->
        Tally key Q owed room log' (next due)) ->
          Tally key Q owed room log (.ask .shouldFlush next)
  | take {owed : Int} {room : Nat} {log : List (Exchange Call Answer)}
      {next : List (Bytes × Int64) -> ServerProg α} :
      (forall log', (forall k, foundBefore k log' = foundBefore k log) ->
        Tally key Q owed room log' (next [])) ->
          (forall (delta : Int64) log',
            (forall k, foundBefore k log' = foundBefore k log) ->
              Tally key Q (owed + delta.toInt) (room + delta.toInt.natAbs) log'
                (next [(metaKey key, delta)])) ->
                  Tally key Q owed room log (.ask .takeUpdates next)
  | apply {owed : Int} {room : Nat} {log : List (Exchange Call Answer)}
      (delta : Int64) {next : Except FeoxError Int64 -> ServerProg α} :
      (forall r log', (forall k, foundBefore k log' = foundBefore k log) ->
        Tally key Q (owed - delta.toInt) room log' (next r)) ->
          Tally key Q owed (room + delta.toInt.natAbs) log
            (.ask (.store (.atomicIncrement (metaKey key) delta)) next)
  | notify {owed : Int} {room : Nat} {log : List (Exchange Call Answer)}
      (k : Bytes) {next : Unit -> ServerProg α} :
      (forall log', Tally key Q owed room log' (next ())) ->
        Tally key Q owed room log (.ask (.notifyKeyModified k) next)

variable {α β : Type} {key : Bytes}
  {Q : Int -> Nat -> List (Exchange Call Answer) -> α -> Prop}

theorem Tally.bind {Q' : Int -> Nat -> List (Exchange Call Answer) -> β -> Prop}
    {owed : Int} {room : Nat} {log : List (Exchange Call Answer)} {p : ServerProg α}
    {f : α -> ServerProg β} (h : Tally key Q owed room log p)
    (hf : forall owed room log a, Q owed room log a ->
      Tally key Q' owed room log (f a)) :
    Tally key Q' owed room log (p >>= f) := by
  induction h with
  | done ha => exact hf _ _ _ _ ha
  | insertField field value _ _ hnew hold =>
      exact .insertField field value (fun log' => hnew log') fun log' => hold log'
  | deleteField field _ _ hok herror =>
      exact .deleteField field (fun log' => hok log') fun e log' => herror e log'
  | containsField field _ ih => exact .containsField field fun b log' hb => ih b log' hb
  | getField field _ ih => exact .getField field fun r log' hr => ih r log' hr
  | putField field value found hfound _ ih =>
      exact .putField field value found hfound fun log' => ih log'
  | collect delta _ ih => exact .collect delta fun log' hlog => ih log' hlog
  | shouldFlush _ ih => exact .shouldFlush fun due log' hlog => ih due log' hlog
  | take _ _ hnone hsome =>
      exact .take (fun log' hlog => hnone log' hlog) fun delta log' hlog =>
        hsome delta log' hlog
  | apply delta _ ih => exact .apply delta fun r log' hlog => ih r log' hlog
  | notify k _ ih => exact .notify k fun log' => ih log'

/-!
# The commands
-/

def Owes (owed : Int) (room : Nat) (log : List (Exchange Call Answer)) :
    Int -> Nat -> List (Exchange Call Answer) -> Unit -> Prop :=
  fun owed' room' log' _ => owed' = owed ∧ room' = room ∧
    forall k, foundBefore k log' = foundBefore k log

theorem tally_applyUpdate (key : Bytes) (delta : Int64) (owed : Int) (room : Nat)
    (log : List (Exchange Call Answer)) :
    Tally key (Owes owed room log) (owed + delta.toInt) (room + delta.toInt.natAbs)
      log (applyUpdates [(metaKey key, delta)]) := by
  unfold applyUpdates
  by_cases hdelta : delta = 0
  · subst hdelta
    rw [if_neg (not_not_intro rfl)]
    exact .done ⟨add_zero owed, add_zero room, fun _ => rfl⟩
  · rw [if_pos hdelta]
    refine .apply delta fun r log' hlog => .done ⟨?_, rfl, hlog⟩
    exact add_sub_cancel_right owed delta.toInt

theorem tally_flushMetadata (key : Bytes) (owed : Int) (room : Nat)
    (log : List (Exchange Call Answer)) :
    Tally key (Owes owed room log) owed room log flushMetadata := by
  refine .take (fun log' hlog => .done ⟨rfl, rfl, hlog⟩) fun delta log' hlog => ?_
  have h := tally_applyUpdate key delta owed room log'
  unfold Owes at h ⊢
  simp only [hlog] at h
  exact h

theorem tally_updateCount (key : Bytes) (delta : Int64) (owed : Int) (room : Nat)
    (log : List (Exchange Call Answer)) :
    Tally key (Owes (owed - delta.toInt) room log) owed
      (room + delta.toInt.natAbs) log (updateCount key delta) := by
  refine .collect delta fun log1 hlog1 => .shouldFlush fun due log2 hlog2 => ?_
  have hlog : forall k, foundBefore k log2 = foundBefore k log :=
    fun k => (hlog2 k).trans (hlog1 k)
  cases due with
  | false => exact .done ⟨rfl, rfl, hlog⟩
  | true =>
      have h := tally_flushMetadata key (owed - delta.toInt) room log2
      unfold Owes at h ⊢
      simp only [hlog] at h
      exact h

theorem tally_hsetLoop {fields : List (Bytes × Bytes)} (count : Int64) {room top : Nat}
    {log : List (Exchange Call Answer)} (hpos : 0 <= count.toInt)
    (hcount : count.toInt + fields.length <= top) (htop : top < 2 ^ 63) :
    Tally key (fun owed room' _ r => exists n : Int64, r = .ok n ∧ owed = n.toInt ∧
        room' = room ∧ 0 <= n.toInt ∧ n.toInt <= top)
      count.toInt room log (hsetLoop key fields count) := by
  induction fields generalizing count log with
  | nil =>
      rw [List.length_nil, Nat.cast_zero, add_zero] at hcount
      exact .done ⟨count, rfl, rfl, rfl, hpos, hcount⟩
  | cons pair fields ih =>
      rw [List.length_cons, Nat.cast_succ] at hcount
      refine .insertField pair.1 pair.2 (fun log' => ?_) fun log' => ?_
      · have hsucc : (count + 1).toInt = count.toInt + 1 := toInt_add_one (by omega)
        rw [← hsucc]
        exact ih _ (by omega) (by omega)
      · exact ih _ hpos (by omega)

theorem tally_settle {Q : Int -> Nat -> List (Exchange Call Answer) -> α -> Prop}
    (delta : Int64) {room : Nat} {log : List (Exchange Call Answer)}
    {p : ServerProg α} (hroom : delta.toInt.natAbs <= room)
    (hp : forall room log, Tally key Q 0 room log p) :
    Tally key Q delta.toInt room log (updateCount key delta >>= fun _ => p) := by
  have h := tally_updateCount key delta delta.toInt
    (room - delta.toInt.natAbs) log
  rw [Nat.sub_add_cancel hroom, sub_self] at h
  refine h.bind ?_
  rintro owed room' log' _ ⟨rfl, _, _⟩
  exact hp room' log'

theorem tally_modifying {modified : Int64 -> Bool}
    {reply : Int64 -> RespValue} {owed : Int} {room : Nat}
    {log : List (Exchange Call Answer)} {p : ServerProg (Except Error Int64)}
    (h : Tally key (fun owed _ _ _ => owed = 0) owed room log p) (k : Bytes) :
    Tally key (fun owed _ _ _ => owed = 0) owed room log
      (CommandExecutor.modifying k modified reply p) := by
  refine h.bind ?_
  rintro owed' room' log' r rfl
  cases r with
  | error e => exact .done rfl
  | ok n =>
      change Tally key _ 0 room' log' (if modified n then _ else _)
      split
      · exact .notify k fun _ => .done rfl
      · exact .done rfl

theorem tally_hset {fields : List (Bytes × Bytes)}
    {log : List (Exchange Call Answer)} (hlength : fields.length < 2 ^ 63) :
    Tally key (fun owed _ _ _ => owed = 0) 0 fields.length log (hset key fields) := by
  refine (tally_hsetLoop 0 (le_refl _)
    (le_of_eq (zero_add _)) hlength).bind ?_
  rintro owed room log' r ⟨n, rfl, rfl, rfl, hpos, hle⟩
  change Tally key _ n.toInt fields.length log' (if n > 0 then _ else _)
  split
  · exact tally_settle n (by omega) fun _ _ => .done rfl
  · rename_i hn
    have hzero : n.toInt <= (0 : Int64).toInt :=
      Int64.le_iff_toInt_le.mp (Int64.not_lt.mp hn)
    exact .done (le_antisymm hzero hpos)

theorem tally_hdelLoop {fields : List Bytes} (count : Int64) {room top : Nat}
    {log : List (Exchange Call Answer)} (hpos : 0 <= count.toInt)
    (hcount : count.toInt + fields.length <= top) (htop : top < 2 ^ 63) :
    Tally key (fun owed room' _ (n : Int64) => owed = -n.toInt ∧ room' = room ∧
        0 <= n.toInt ∧ n.toInt <= top)
      (-count.toInt) room log (hdelLoop key fields count) := by
  induction fields generalizing count log with
  | nil =>
      rw [List.length_nil, Nat.cast_zero, add_zero] at hcount
      exact .done ⟨rfl, rfl, hpos, hcount⟩
  | cons field fields ih =>
      rw [List.length_cons, Nat.cast_succ] at hcount
      refine .deleteField field (fun log' => ?_) fun e log' => ?_
      · have hsucc : (count + 1).toInt = count.toInt + 1 := toInt_add_one (by omega)
        have hnext := @ih (count + 1) log' (by omega) (by omega)
        rw [hsucc, neg_add'] at hnext
        exact hnext
      · exact ih count hpos (by omega)

theorem tally_hdel {fields : List Bytes} {log : List (Exchange Call Answer)}
    (hlength : fields.length < 2 ^ 63) :
    Tally key (fun owed _ _ _ => owed = 0) 0 fields.length log (hdel key fields) := by
  refine (tally_hdelLoop 0 (le_refl _)
    (le_of_eq (zero_add _)) hlength).bind ?_
  rintro owed room log' n ⟨rfl, rfl, hpos, hle⟩
  have hneg : (-n).toInt = -n.toInt := by
    have hlt := n.toInt_lt
    rw [Int64.toInt_neg, bmod_of_inRange ⟨by omega, by omega⟩]
  split
  · rw [← hneg]
    exact tally_settle (-n) (by omega) fun _ _ => .done rfl
  · rename_i hn
    have hzero : n.toInt <= (0 : Int64).toInt :=
      Int64.le_iff_toInt_le.mp (Int64.not_lt.mp hn)
    exact .done (neg_eq_zero.mpr (le_antisymm hzero hpos))

/-- Before `HINCRBY` writes, it owes a field exactly when it has found none. -/
def Prepared (key field : Bytes) (owed : Int)
    (log : List (Exchange Call Answer)) : Except Error Int64 -> Prop
  | .error _ => owed = 0
  | .ok _ => exists found, foundBefore (fieldKey key field) log = some found ∧
      owed + (if found then 0 else 1) = 0

theorem tally_added {field : Bytes} {delta : Int64}
    {log : List (Exchange Call Answer)}
    (hlog : foundBefore (fieldKey key field) log = some true)
    (number : Option Int64) :
    Tally key (fun owed _ log => Prepared key field owed log) 0 1 log
      (match number with
        | some current => pure (Except.ok (saturatingAdd current delta))
        | none => pure (Except.error (Error.protocol "hash value is not an integer"))) := by
  cases number with
  | none => exact .done rfl
  | some current => exact .done ⟨true, hlog, rfl⟩

theorem tally_incremented (field : Bytes) (delta : Int64)
    (log : List (Exchange Call Answer)) :
    Tally key (fun owed _ log => Prepared key field owed log) 0 1 log
      (incremented key field delta) := by
  refine .containsField field fun found log1 hfound => ?_
  cases found with
  | true =>
      refine .getField field fun r log2 hlog2 => ?_
      rw [hfound] at hlog2
      cases r with
      | error e => exact .done ⟨true, hlog2, rfl⟩
      | ok data => exact tally_added hlog2 (fieldNumber data)
  | false =>
      -- The field is counted before it is written.
      refine (tally_updateCount key 1 0 0 log1).bind ?_
      rintro owed room log2 _ ⟨rfl, rfl, hlog2⟩
      exact .done ⟨false, (hlog2 _).trans hfound, rfl⟩

theorem tally_hincrby (field : Bytes) (delta : Int64)
    (log : List (Exchange Call Answer)) :
    Tally key (fun owed _ _ _ => owed = 0) 0 1 log (hincrby key field delta) := by
  refine (tally_incremented field delta log).bind ?_
  intro owed room log' r hr
  cases r with
  | error e => exact .done hr
  | ok n =>
      rcases hr with ⟨found, hfound, howed⟩
      exact .putField field _ found hfound fun _ => .done howed

/-- The commands that change the hash, with the number of fields they name. -/
inductive FieldCommand (key : Bytes) : Nat -> Command -> Prop where
  | hset (fields : List (Bytes × Bytes)) :
      FieldCommand key fields.length (.hset key fields)
  | hdel (fields : List Bytes) : FieldCommand key fields.length (.hdel key fields)
  | hincrBy (field : Bytes) (delta : Int64) :
      FieldCommand key 1 (.hincrBy key field delta)

theorem FieldCommand.tally {room : Nat} {cmd : Command}
    (h : FieldCommand key room cmd) (hroom : room < 2 ^ 63) (fuel : Nat)
    (x : CommandExecutor) :
    Tally key (fun owed _ _ _ => owed = 0) 0 room [] (x.respond fuel cmd) := by
  cases h with
  | hset fields => exact tally_modifying (tally_hset hroom) key
  | hdel fields => exact tally_modifying (tally_hdel hroom) key
  | hincrBy field delta => exact tally_modifying (tally_hincrby field delta []) key

/-!
# The ledger
-/

section Ledger

variable {S : FeoxStore} {P : Platform}
  {view : S.State -> Bytes -> Option Bytes} {n : Nat}

/-- The count in the store, the changes collected and what is owed add up to the
number of fields, and together they stay in range. -/
structure Ledger (view : S.State -> Bytes -> Option Bytes) (key : Bytes)
    (owed : Int) (room : Nat) (w : World S P) : Prop where
  only : forall k, k ∈ w.tracker -> k = metaKey key
  sum : exists (m : FieldMap) (counter : Int64), Stored (view w.store) key m ∧
    Counter (view w.store) key counter ∧
      counter.toInt + (pending key w).toInt + owed = m.size ∧
        counter.toInt.natAbs + (pending key w).toInt.natAbs + room < 2 ^ 63

variable {key : Bytes} {owed : Int} {room : Nat} {w : World S P}

theorem Ledger.congr (h : Ledger view key owed room w) {w' : World S P}
    (hview : view w'.store = view w.store) (htracker : w'.tracker = w.tracker) :
    Ledger view key owed room w' := by
  refine ⟨by rw [htracker]; exact h.only, ?_⟩
  unfold pending
  rw [hview, htracker]
  exact h.sum

theorem isSome_stored {v : Bytes -> Option Bytes} {m : FieldMap}
    (h : Stored v key m) (field : Bytes) :
    (v (fieldKey key field)).isSome = decide (field ∈ m) := by
  rw [h field, Bool.eq_iff_iff, decide_eq_true_iff, AList.lookup_isSome]

theorem Ledger.put (h : Ledger view key owed room w) {w' : World S P}
    {field value : Bytes} (hview : view w'.store =
      Function.update (view w.store) (fieldKey key field) (some value))
    (htracker : w'.tracker = w.tracker) :
    Ledger view key
      (owed + if (view w.store (fieldKey key field)).isSome then 0 else 1) room w' := by
  refine ⟨by rw [htracker]; exact h.only, ?_⟩
  rcases h.sum with ⟨m, counter, hstored, hcounter, hsum, hroom⟩
  have hsize := FiniteMap.size_insert m field value
  refine ⟨m.insert field value, counter, ?_, ?_, ?_, ?_⟩
  · rw [hview]
    exact hstored.update field value
  · unfold Counter
    rw [hview, Function.update_of_ne (fieldKey_ne_metaKey key field).symm]
    exact hcounter
  · unfold pending at hsum ⊢
    rw [htracker, isSome_stored hstored, hsize]
    by_cases hmem : field ∈ m
    · simp only [hmem, decide_true, if_true]
      omega
    · simp only [hmem, decide_false, Bool.false_eq_true, if_false]
      omega
  · unfold pending at hroom ⊢
    rw [htracker]
    exact hroom

theorem Ledger.remove (h : Ledger view key owed room w) {w' : World S P}
    {field : Bytes} (hpresent : (view w.store (fieldKey key field)).isSome = true)
    (hview : view w'.store =
      Function.update (view w.store) (fieldKey key field) none)
    (htracker : w'.tracker = w.tracker) : Ledger view key (owed - 1) room w' := by
  refine ⟨by rw [htracker]; exact h.only, ?_⟩
  rcases h.sum with ⟨m, counter, hstored, hcounter, hsum, hroom⟩
  have hsize := FiniteMap.size_erase m field
  have hmem : field ∈ m := of_decide_eq_true ((isSome_stored hstored field).symm.trans
    hpresent)
  rw [if_pos hmem] at hsize
  refine ⟨m.erase field, counter, ?_, ?_, ?_, ?_⟩
  · rw [hview]
    exact hstored.erase field
  · unfold Counter
    rw [hview, Function.update_of_ne (fieldKey_ne_metaKey key field).symm]
    exact hcounter
  · unfold pending at hsum ⊢
    rw [htracker]
    omega
  · unfold pending at hroom ⊢
    rw [htracker]
    exact hroom

theorem Ledger.collect {delta : Int64}
    (h : Ledger view key owed (room + delta.toInt.natAbs) w) :
    Ledger view key (owed - delta.toInt) room
      ({ w with tracker := w.tracker.addUpdate (metaKey key) delta } : World S P) := by
  constructor
  · intro k hk
    rcases (AList.mem_insert _).mp hk with rfl | hk
    · rfl
    · exact h.only k hk
  · rcases h.sum with ⟨m, counter, hstored, hcounter, hsum, hroom⟩
    have hpending : pending key
        ({ w with tracker := w.tracker.addUpdate (metaKey key) delta } :
          World S P) = pending key w + delta := by
      unfold pending MetadataTracker.addUpdate
      simp only [AList.lookup_insert, Option.getD_some]
    have hadd : (pending key w + delta).toInt = (pending key w).toInt + delta.toInt :=
      toInt_add_of_inRange ⟨by omega, by omega⟩
    refine ⟨m, counter, hstored, hcounter, ?_, ?_⟩
    · rw [hpending, hadd]
      omega
    · rw [hpending, hadd]
      omega

theorem entries_of_only {tracker : MetadataTracker} {key : Bytes}
    (h : forall k, k ∈ tracker -> k = key) :
    (tracker.entries = [] ∧ tracker.lookup key = none) ∨
      exists delta, tracker.entries = [⟨key, delta⟩] ∧
        tracker.lookup key = some delta := by
  rcases tracker with ⟨entries, hnodup⟩
  cases entries with
  | nil => exact Or.inl ⟨rfl, rfl⟩
  | cons entry entries =>
      rcases entry with ⟨k, delta⟩
      obtain rfl : k = key := h k List.mem_cons_self
      have hnone : entries = [] := by
        cases entries with
        | nil => rfl
        | cons entry' entries =>
            have heq : entry'.1 = k :=
              h entry'.1 (List.mem_cons_of_mem _ List.mem_cons_self)
            have hnotin := (List.nodup_cons.mp hnodup).1
            exact absurd (heq ▸ List.mem_cons_self) hnotin
      subst hnone
      exact Or.inr ⟨delta, rfl, by simp [AList.lookup]⟩

theorem Ledger.take (h : Ledger view key owed room w) (w' : World S P)
    (hstore : w'.store = w.store) (htracker : w'.tracker = ∅) :
    (w.tracker.entries = [] ∧ Ledger view key owed room w') ∨
      exists delta : Int64, w.tracker.entries = [⟨metaKey key, delta⟩] ∧
        Ledger view key (owed + delta.toInt) (room + delta.toInt.natAbs) w' := by
  have honly : forall k, k ∈ w'.tracker -> k = metaKey key := by
    rw [htracker]
    exact fun k hk => absurd hk (AList.notMem_empty k)
  have hnothing : pending key w' = 0 := by
    unfold pending
    rw [htracker]
    rfl
  rcases h.sum with ⟨m, counter, hstored, hcounter, hsum, hroom⟩
  rcases entries_of_only h.only with ⟨hentries, hnone⟩ | ⟨delta, hentries, hsome⟩
  · refine Or.inl ⟨hentries, honly, m, counter, by rw [hstore]; exact hstored,
      by rw [hstore]; exact hcounter, ?_, ?_⟩
    · unfold pending at hsum
      rw [hnone] at hsum
      rw [hnothing]
      exact hsum
    · unfold pending at hroom
      rw [hnone] at hroom
      rw [hnothing]
      exact hroom
  · have hpending : pending key w = delta := by
      unfold pending
      rw [hsome]
      rfl
    rw [hpending] at hsum hroom
    have hzero : (0 : Int64).toInt = 0 := rfl
    refine Or.inr ⟨delta, hentries, honly, m, counter, by rw [hstore]; exact hstored,
      by rw [hstore]; exact hcounter, ?_, ?_⟩
    · rw [hnothing, hzero]
      omega
    · rw [hnothing, hzero]
      omega

theorem Ledger.apply (hS : CountsAsMap S view) {delta : Int64}
    (h : Ledger view key owed (room + delta.toInt.natAbs) w) :
    exists r s', S.reply (.atomicIncrement (metaKey key) delta) w.store = (r, s') ∧
      Ledger view key (owed - delta.toInt) room ({ w with store := s' } : World S P) ∧
        forall k, k ≠ metaKey key -> view s' k = view w.store k := by
  rcases h.sum with ⟨m, counter, hstored, hcounter, hsum, hroom⟩
  have hrange : InRange (counter.toInt + delta.toInt) := ⟨by omega, by omega⟩
  rcases increment_run hS delta hcounter hrange with
    ⟨r, s', hreply, hcounter', hrest⟩
  refine ⟨r, s', hreply, ⟨h.only, m, counter + delta, hstored.congr hrest, hcounter',
    ?_, ?_⟩, hrest⟩
  · rw [toInt_add_of_inRange hrange]
    change _ + (pending key w).toInt + _ = _
    omega
  · rw [toInt_add_of_inRange hrange]
    change _ + (pending key w).toInt.natAbs + _ < _
    omega

/-!
# Turns
-/

/-- `HINCRBY` writes while its field is there or not, as it has found before. -/
def unhurried (view : S.State -> Bytes -> Option Bytes)
    (pool : Pool (server S P) (Fin n) RespValue) (i : Fin n) : Bool :=
  match pool.thread i with
  | .ask (.store (.insert k _)) _ =>
      foundBefore k (pool.log i) = some (view pool.state.store k).isSome
  | _ => true

def Totals (view : S.State -> Bytes -> Option Bytes) (key : Bytes) (w : World S P)
    (mark : Fin n -> Int × Nat) : Prop :=
  Ledger view key (∑ i, (mark i).1) (∑ i, (mark i).2) w

theorem Totals.change {mark : Fin n -> Int × Nat} {i : Fin n} {w' : World S P}
    {r r' : Nat} {o o' : Int} (hmark : mark i = (o, r))
    (h : forall room, room + r = (∑ i, (mark i).2) + r' ->
      Ledger view key ((∑ i, (mark i).1) - o + o') room w') :
    Totals view key w' (Function.update mark i (o', r')) := by
  have howed := sum_update_add (fun _ (g : Int × Nat) => g.1) mark i (o', r')
  have hroom := sum_update_add (fun _ (g : Int × Nat) => g.2) mark i (o', r')
  rw [hmark] at howed hroom
  have hledger := h _ hroom
  have heq : (∑ j, (Function.update mark i (o', r') j).1) =
      (∑ i, (mark i).1) - o + o' := by
    simp only at howed
    omega
  unfold Totals
  rw [heq]
  exact hledger

variable {mark : Fin n -> Int × Nat} {i : Fin n} {delta : Int64}

theorem owed_change (mark : Fin n -> Int × Nat) (owed d : Int) :
    (∑ i, (mark i).1) - owed + (owed + d) = (∑ i, (mark i).1) + d := by
  omega

theorem Totals.same (h : Totals view key w mark) (hmark : mark i = (owed, room))
    {w' : World S P} (hview : view w'.store = view w.store)
    (htracker : w'.tracker = w.tracker) :
    Totals view key w' (Function.update mark i (owed, room)) := by
  refine Totals.change hmark fun room' hroom => ?_
  rw [sub_add_cancel, Nat.add_right_cancel hroom]
  exact h.congr hview htracker

theorem Totals.put (h : Totals view key w mark) (hmark : mark i = (owed, room))
    (w' : World S P) {field value : Bytes}
    (hview : view w'.store =
      Function.update (view w.store) (fieldKey key field) (some value))
    (htracker : w'.tracker = w.tracker) :
    Totals view key w' (Function.update mark i
      (owed + if (view w.store (fieldKey key field)).isSome then 0 else 1, room)) := by
  refine Totals.change hmark fun room' hroom => ?_
  rw [owed_change, Nat.add_right_cancel hroom]
  exact Ledger.put h hview htracker

theorem Totals.remove (h : Totals view key w mark) (hmark : mark i = (owed, room))
    {w' : World S P} {field : Bytes}
    (hpresent : (view w.store (fieldKey key field)).isSome = true)
    (hview : view w'.store =
      Function.update (view w.store) (fieldKey key field) none)
    (htracker : w'.tracker = w.tracker) :
    Totals view key w' (Function.update mark i (owed - 1, room)) := by
  refine Totals.change hmark fun room' hroom => ?_
  rw [show owed - 1 = owed + -1 from rfl, owed_change, Nat.add_right_cancel hroom]
  exact Ledger.remove h hpresent hview htracker

theorem Totals.collect (h : Totals view key w mark)
    (hmark : mark i = (owed, room + delta.toInt.natAbs)) :
    Totals view key
      ({ w with tracker := w.tracker.addUpdate (metaKey key) delta } : World S P)
      (Function.update mark i (owed - delta.toInt, room)) := by
  refine Totals.change hmark fun room' hroom => ?_
  have hroom' : (∑ i, (mark i).2) = room' + delta.toInt.natAbs := by omega
  unfold Totals at h
  rw [hroom'] at h
  rw [show owed - delta.toInt = owed + -delta.toInt from rfl, owed_change]
  exact h.collect

theorem Totals.take (h : Totals view key w mark) (hmark : mark i = (owed, room))
    (w' : World S P) (hstore : w'.store = w.store) (htracker : w'.tracker = ∅) :
    (w.tracker.entries = [] ∧
        Totals view key w' (Function.update mark i (owed, room))) ∨
      exists delta : Int64, w.tracker.entries = [⟨metaKey key, delta⟩] ∧
        Totals view key w' (Function.update mark i
          (owed + delta.toInt, room + delta.toInt.natAbs)) := by
  rcases Ledger.take h w' hstore htracker with
    ⟨hentries, hledger⟩ | ⟨delta, hentries, hledger⟩
  · refine Or.inl ⟨hentries, Totals.change hmark fun room' hroom => ?_⟩
    rw [sub_add_cancel, Nat.add_right_cancel hroom]
    exact hledger
  · refine Or.inr ⟨delta, hentries, Totals.change hmark fun room' hroom => ?_⟩
    have hroom' : room' = (∑ i, (mark i).2) + delta.toInt.natAbs := by omega
    rw [owed_change, hroom']
    exact hledger

theorem Totals.apply (hS : CountsAsMap S view) (h : Totals view key w mark)
    (hmark : mark i = (owed, room + delta.toInt.natAbs)) :
    exists r s', S.reply (.atomicIncrement (metaKey key) delta) w.store = (r, s') ∧
      Totals view key ({ w with store := s' } : World S P)
        (Function.update mark i (owed - delta.toInt, room)) := by
  have hle : delta.toInt.natAbs <= ∑ i, (mark i).2 := by
    have hi := Finset.single_le_sum (f := fun i => (mark i).2)
      (fun j _ => Nat.zero_le _) (Finset.mem_univ i)
    rw [hmark] at hi
    exact (Nat.le_add_left _ room).trans hi
  unfold Totals at h
  rw [← Nat.sub_add_cancel hle] at h
  rcases Ledger.apply hS h with ⟨r, s', hreply, hledger, _⟩
  refine ⟨r, s', hreply, Totals.change hmark fun room' hroom => ?_⟩
  have hroom' : room' = (∑ i, (mark i).2) - delta.toInt.natAbs := by omega
  rw [show owed - delta.toInt = owed + -delta.toInt from rfl, owed_change, hroom']
  exact hledger

theorem totals_run (hS : CountsAsMap S view)
    {pool : Pool (server S P) (Fin n) RespValue} {turns : List (Fin n)}
    (h : pool.Marked (fun _ mark log p =>
      Tally key (fun owed _ _ _ => owed = 0) mark.1 mark.2 log p) (Totals view key))
    (hturns : pool.Meets (fun pool i => unhurried view pool i = true) turns) :
    (pool.run turns).Marked (fun _ mark log p =>
      Tally key (fun owed _ _ _ => owed = 0) mark.1 mark.2 log p)
        (Totals view key) := by
  refine Pool.run_marked ?_ h hturns
  intro pool i c next mark hthread hlocal hglobal hgood
  have hi := hlocal i
  unfold unhurried at hgood
  rw [hthread] at hi hgood
  rcases hmark : mark i with ⟨owed, room⟩
  rw [hmark] at hi
  generalize hlog : pool.log i = log at hi hgood
  cases hi with
  | insertField field value hnew hold =>
      rcases hS.insertBytes pool.state.store (fieldKey key field) value with
        ⟨s', hreply, hview⟩
      rw [reply_store hreply]
      have hput := hglobal.put hmark { pool.state with store := s' } hview rfl
      cases hfound : view pool.state.store (fieldKey key field) with
      | some old =>
          rw [hfound] at hput
          exact ⟨(owed, room), hold _, add_zero owed ▸ hput⟩
      | none =>
          rw [hfound] at hput
          exact ⟨(owed + 1, room), hnew _, hput⟩
  | deleteField field hok herror =>
      cases hpresent : view pool.state.store (fieldKey key field) with
      | some value =>
          rcases hS.delete_present hpresent with ⟨s', hreply, hview⟩
          rw [reply_store hreply]
          exact ⟨(owed - 1, room), hok _,
            hglobal.remove hmark (by rw [hpresent]; rfl) hview rfl⟩
      | none =>
          rcases hS.delete_absent hpresent with ⟨e, s', hreply, hview⟩
          rw [reply_store hreply]
          exact ⟨(owed, room), herror e _, hglobal.same hmark hview rfl⟩
  | containsField field hnext =>
      rcases hS.containsKey pool.state.store (fieldKey key field) with
        ⟨s', hreply, hview⟩
      rw [reply_store hreply]
      exact ⟨(owed, room), hnext _ _ (if_pos rfl), hglobal.same hmark hview rfl⟩
  | getField field hnext =>
      cases hpresent : view pool.state.store (fieldKey key field) with
      | some value =>
          rcases hS.getBytes_present hpresent with ⟨s', hreply, hview⟩
          rw [reply_store hreply]
          exact ⟨(owed, room), hnext _ _ rfl, hglobal.same hmark hview rfl⟩
      | none =>
          rcases hS.getBytes_absent hpresent with ⟨e, s', hreply, hview⟩
          rw [reply_store hreply]
          exact ⟨(owed, room), hnext _ _ rfl, hglobal.same hmark hview rfl⟩
  | putField field value found hfound hnext =>
      rcases hS.insert pool.state.store (fieldKey key field) value with
        ⟨s', hreply, hview⟩
      rw [reply_store hreply]
      have hagree := of_decide_eq_true hgood
      rw [hfound] at hagree
      obtain rfl := Option.some.inj hagree
      exact ⟨(_, room), hnext _, hglobal.put hmark _ hview rfl⟩
  | collect delta hnext =>
      rename_i room next
      exact ⟨(owed - delta.toInt, room), hnext _ fun _ => rfl, hglobal.collect hmark⟩
  | shouldFlush hnext =>
      exact ⟨(owed, room), hnext _ _ fun _ => rfl, hglobal.same hmark rfl rfl⟩
  | take hnone hsome =>
      rename_i next
      rcases hglobal.take hmark ((server S P).reply .takeUpdates pool.state).2
        rfl rfl with ⟨hentries, htotals⟩ | ⟨delta, hentries, htotals⟩
      · refine ⟨(owed, room), ?_, htotals⟩
        change Tally key _ owed room _ (next (List.map _ pool.state.tracker.entries))
        rw [hentries]
        exact hnone _ fun _ => rfl
      · refine ⟨(owed + delta.toInt, room + delta.toInt.natAbs), ?_, htotals⟩
        change Tally key _ _ _ _ (next (List.map _ pool.state.tracker.entries))
        rw [hentries]
        exact hsome delta _ fun _ => rfl
  | apply delta hnext =>
      rename_i room next
      rcases hglobal.apply hS hmark with ⟨r, s', hreply, htotals⟩
      rw [reply_store hreply]
      exact ⟨(owed - delta.toInt, room), hnext _ _ fun _ => rfl, htotals⟩
  | notify k hnext => exact ⟨(owed, room), hnext _, hglobal.same hmark rfl rfl⟩

/-!
# The field count
-/

theorem Absent.ledger (h : Absent view key w) (hroom : room < 2 ^ 63) :
    Ledger view key 0 room w := by
  rcases h.represents.counts with ⟨honly, _⟩
  have hpending : pending key w = 0 := by
    unfold pending
    rw [h.tracker]
    rfl
  refine ⟨honly, ∅, 0, h.fields, Or.inr ⟨h.counter, rfl⟩, ?_, ?_⟩
  · rw [hpending]
    rfl
  · rw [hpending]
    change 0 + 0 + room < 2 ^ 63
    omega

theorem flush_ledger (hS : CountsAsMap S view) (h : Ledger view key 0 room w) :
    exists w', flushMetadata.run (server S P) w = some ((), w') ∧
      w'.tracker = ∅ ∧ Ledger view key 0 room w' ∧
        forall k, k ≠ metaKey key -> view w'.store k = view w.store k := by
  let w1 := ((server S P).reply .takeUpdates w).2
  have hstart : flushMetadata.run (server S P) w =
      (applyUpdates (w.tracker.entries.map fun e => (e.1, e.2))).run (server S P) w1 :=
    rfl
  rw [hstart]
  rcases h.take w1 rfl rfl with ⟨hentries, hledger⟩ | ⟨delta, hentries, hledger⟩
  · rw [hentries]
    exact ⟨w1, rfl, rfl, hledger, fun _ _ => rfl⟩
  · rw [hentries, List.map_singleton, applyUpdates]
    by_cases hdelta : delta = 0
    · subst hdelta
      rw [if_neg (not_not_intro rfl)]
      exact ⟨w1, rfl, rfl, hledger, fun _ _ => rfl⟩
    · rcases hledger.apply hS with ⟨r, s', hreply, happlied, hrest⟩
      rw [if_pos hdelta, run_callStore hreply]
      rw [add_sub_cancel_right] at happlied
      exact ⟨_, rfl, rfl, happlied, hrest⟩

/-- `HLEN` tells how many fields `HGET` finds. -/
def CountsFields (key : Bytes) (w : World S P) : Prop :=
  forall fuel (x : CommandExecutor), exists fields : Finset Bytes,
    (forall field, field ∈ fields <-> exists value,
      replyOf (x.respond fuel (.hget key field)) w =
        some (.bulkString (some value))) ∧
      replyOf (x.respond fuel (.hlen key)) w =
        some (.integer (Int64.ofNat fields.card))

theorem Counter.read (hS : CountsAsMap S view) {counter : Int64}
    (h : Counter (view w.store) key counter) :
    exists w', run (server S P) (do
        match <- callStore (.getBytes (metaKey key)) with
        | .ok metaBytes => pure (parseMetadata metaBytes)
        | .error _ => pure 0) w = some (counter, w') := by
  rcases h with hsome | ⟨hnone, rfl⟩
  · rcases hS.getBytes_present hsome with ⟨s', hget, _⟩
    have hparse : parseMetadata (i64ToLeBytes counter) = counter := by
      unfold parseMetadata
      rw [length_i64ToLeBytes, if_neg (Nat.lt_irrefl 8),
        List.take_of_length_le (by rw [length_i64ToLeBytes]),
        i64FromLeBytes_toLeBytes]
    refine ⟨{ w with store := s' }, ?_⟩
    rw [run_callStore hget]
    simp only [hparse]
    rfl
  · rcases hS.getBytes_absent hnone with ⟨e, s', hget, _⟩
    refine ⟨{ w with store := s' }, ?_⟩
    rw [run_callStore hget]
    rfl

theorem Ledger.countsFields (hS : CountsAsMap S view)
    (h : Ledger view key 0 room w) : CountsFields key w := by
  intro fuel x
  rcases flush_ledger hS h with ⟨w1, hflush, htracker, h1, hrest⟩
  rcases h1.sum with ⟨m, counter, hstored, hcounter, hsum, hroom⟩
  have hpending : pending key w1 = 0 := by
    unfold pending
    rw [htracker]
    rfl
  have hcount : counter = Int64.ofNat m.size := by
    apply eq_ofNat_of_toInt
    rw [hpending, add_zero] at hsum
    exact (add_zero counter.toInt).symm.trans hsum
  refine ⟨m.keys.toFinset, fun field => ?_, ?_⟩
  · have hfield := hstored field
    rw [hrest _ (fieldKey_ne_metaKey key field)] at hfield
    rw [List.mem_toFinset, replyOf_hget hS.toBehavesAsMap, hfield, ← AList.mem_keys,
      ← AList.lookup_isSome, Option.isSome_iff_exists]
    refine exists_congr fun value => ?_
    simp
  · rcases hcounter.read hS with ⟨w2, hread⟩
    have hlen : (hlen key).run (server S P) w = some (counter, w2) := by
      unfold hlen
      rw [run_bind_of_some _ _ hflush]
      exact hread
    rw [List.toFinset_card_of_nodup (AList.keys_nodup m)]
    unfold replyOf CommandExecutor.respond CommandExecutor.hlen
    rw [run_bind_of_some _ _ hlen, hcount]
    rfl

/-- The field count is right when all commands have returned, in every run in
which every `HINCRBY` writes while its field is as it has found it. -/
theorem no_miscounted_field (hS : CountsAsMap S view) {cmd : Fin n -> Command}
    {parts : Fin n -> Nat} (hcmd : forall i, FieldCommand key (parts i) (cmd i))
    (fuel : Nat) (x : Fin n -> CommandExecutor)
    (hstart : Ledger view key 0 (∑ i, parts i) w) {turns : List (Fin n)}
    {pool : Pool (server S P) (Fin n) RespValue}
    (hpool : pool = .start w fun i => (x i).respond fuel (cmd i))
    (hturns : pool.Meets (fun pool i => unhurried view pool i = true) turns)
    {replies : Fin n -> RespValue} (hfinished : (pool.run turns).Finished replies) :
    CountsFields key (pool.run turns).state := by
  have hmarked : pool.Marked (fun _ mark log p =>
      Tally key (fun owed _ _ _ => owed = 0) mark.1 mark.2 log p)
        (Totals view key) := by
    subst hpool
    refine ⟨fun i => (0, parts i), fun i => ?_, ?_⟩
    · have hle := Finset.single_le_sum (f := parts) (fun j _ => Nat.zero_le _)
        (Finset.mem_univ i)
      rcases hstart.sum with ⟨_, _, _, _, _, hroom⟩
      exact (hcmd i).tally (by omega) fuel (x i)
    · unfold Totals
      simp only [Finset.sum_const_zero]
      exact hstart
  rcases totals_run hS hmarked hturns with ⟨mark, hlocal, htotals⟩
  have howed : forall i, (mark i).1 = 0 := by
    intro i
    have hi := hlocal i
    rw [hfinished i] at hi
    generalize (mark i).1 = owed at hi ⊢
    generalize (mark i).2 = room' at hi
    generalize (pool.run turns).log i = log at hi
    cases hi with
    | done h => exact h
  unfold Totals at htotals
  rw [Finset.sum_eq_zero fun i _ => howed i] at htotals
  exact htotals.countsFields hS

end Ledger

/-- Two clients that count up the same new field. -/
abbrev counting : Pool (server mapStore idlePlatform) (Fin 2) RespValue :=
  .start (serverWith idlePlatform () (∅ : MapStore.Entries) ∅) fun _ =>
    CommandExecutor.respond 0 (.new { requirepass := none }) (.hincrBy [104] [102] 1)

theorem counted_in_turn :
    CountsFields [104] (counting.run [0, 0, 0, 0, 0, 1, 1, 1, 1]).state := by
  have hfinished : (counting.run [0, 0, 0, 0, 0, 1, 1, 1, 1]).Finished fun i =>
      .integer (if i = 0 then 1 else 2) := by
    intro i
    fin_cases i
    · rfl
    · rfl
  exact no_miscounted_field MapStore.countsAsMap (fun _ => .hincrBy [102] 1) 0
    (fun _ => .new { requirepass := none })
    (Absent.ledger ⟨fun _ => rfl, rfl, rfl⟩ (by decide)) rfl (by decide +kernel)
    hfinished

/-- Both clients find no field, and both count it. -/
theorem field_miscounted :
    (counting.run [0, 1, 0, 0, 0, 0, 1, 1, 1, 1]).Finished (fun _ => .integer 1) ∧
      ¬ CountsFields [104] (counting.run [0, 1, 0, 0, 0, 0, 1, 1, 1, 1]).state := by
  constructor
  · intro i
    fin_cases i
    · rfl
    · rfl
  · intro h
    rcases h 0 (.new { requirepass := none }) with ⟨fields, hfields, hlen⟩
    have hkeys : (counting.run [0, 1, 0, 0, 0, 0, 1, 1, 1, 1]).state.store.keys =
        [fieldKey [104] [102]] := by decide +kernel
    have hone : fields ⊆ {[102]} := by
      intro field hfield
      rcases (hfields field).mp hfield with ⟨value, hvalue⟩
      rw [replyOf_hget MapStore.behavesAsMap] at hvalue
      have hmem : fieldKey [104] field ∈
          (counting.run [0, 1, 0, 0, 0, 0, 1, 1, 1, 1]).state.store.keys := by
        have hview := RespValue.bulkString.inj (Option.some.inj hvalue)
        rcases MapStore.lookup_of_view hview with ⟨ttl, hlookup⟩
        exact AList.mem_keys.mp (AList.lookup_isSome.mp (by rw [hlookup]; rfl))
      rw [hkeys, List.mem_singleton] at hmem
      exact Finset.mem_singleton.mpr (fieldKey_injective [104] hmem)
    have hcard := Finset.card_le_card hone
    rw [Finset.card_singleton] at hcard
    have htwo : replyOf (CommandExecutor.respond 0 (.new { requirepass := none })
        (.hlen [104])) (counting.run [0, 1, 0, 0, 0, 0, 1, 1, 1, 1]).state =
          some (.integer 2) := rfl
    rw [htwo] at hlen
    have heq : 2 = Int64.ofNat fields.card :=
      RespValue.integer.inj (Option.some.inj hlen)
    generalize fields.card = n at hcard heq
    interval_cases n
    · exact absurd heq (by decide)
    · exact absurd heq (by decide)

end HashOperations

end FeoxServer
