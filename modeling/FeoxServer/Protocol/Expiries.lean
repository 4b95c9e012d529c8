import FeoxServer.Protocol.FlatKeyspace
import FeoxServer.Protocol.SetGrammar

/-!
# Expiries

Milliseconds are divided down to the seconds that the store keeps and multiplied
up again when a client asks for them.
-/

namespace FeoxServer

open Foundation Prog

/-- The store keeps the seconds of an expiry, and none, or none that is left, when
there are no seconds. -/
def KeepsSeconds (S : FeoxStore) (s : S.State) (key : Bytes) (t : UInt64) : Prop :=
  (0 < t -> (S.reply (.getTtl key) s).1 = .ok (some t)) ∧
  (t = 0 -> forall u, (S.reply (.getTtl key) s).1 = .ok (some u) -> u = 0)

/-- The calls with a time to live record it. -/
structure ExpiringStore (S : FeoxStore) (view : S.State -> Bytes -> Option Bytes) :
    Prop where
  insert : forall s key value t,
    exists s', S.reply (.insertBytesWithTtlAndTimestamp key value t) s = (.ok (), s') ∧
      KeepsSeconds S s' key t
  update : forall {s key} t, (view s key).isSome = true ->
    exists s', S.reply (.updateTtl key t) s = (.ok (), s') ∧ KeepsSeconds S s' key t

/-- The units in which a client gives a time to live and asks for it. -/
inductive TimeUnit where
  | seconds
  | milliseconds
  deriving DecidableEq

namespace TimeUnit

/-- As many of them as make a second. -/
def scale : TimeUnit -> UInt64
  | seconds => 1
  | milliseconds => 1000

def query : TimeUnit -> Bytes -> Command
  | seconds => .ttl
  | milliseconds => .pttl

def toSeconds (unit : TimeUnit) (n : UInt64) : UInt64 :=
  n / unit.scale

end TimeUnit

section Expiries

variable {S : FeoxStore} {P : Platform}
  {view : S.State -> Bytes -> Option Bytes}

/-- The commands that set a time to live of `n`: on a key that is there, or
together with its value. -/
inductive SetsExpiry (view : S.State -> Bytes -> Option Bytes) (w : World S P)
    (key : Bytes) (n : Int64) : TimeUnit -> Command -> Prop
  | ex (value : Bytes) :
      SetsExpiry view w key n .seconds (.set key value (some n.toUInt64) none)
  | px (value : Bytes) :
      SetsExpiry view w key n .milliseconds (.set key value none (some n.toUInt64))
  | expire : (view w.store key).isSome = true ->
      SetsExpiry view w key n .seconds (.expire key n.toUInt64)
  | pexpire : (view w.store key).isSome = true ->
      SetsExpiry view w key n .milliseconds (.pexpire key n.toUInt64)

/-- The key is left with an expiry, and asking for it at once gives a positive
number of the unit that is less than a second from `n`, without overflow. -/
def ExpiryKept (fuel : Nat) (x : CommandExecutor) (key : Bytes) (n : Int64)
    (unit : TimeUnit) (cmd : Command) (w : World S P) : Prop :=
  exists r w1 t q w2,
    (x.respond fuel cmd).run (server S P) w = some (r, w1) ∧
    (S.reply (.getTtl key) w1.store).1 = .ok (some t) ∧
    t.toNat * unit.scale.toNat < 2 ^ 63 ∧
    (x.respond fuel (unit.query key)).run (server S P) w1 = some (.integer q, w2) ∧
    0 < q.toInt ∧ |q.toInt - n.toInt| < unit.scale.toNat

theorem SetsExpiry.run (hS : ExpiringStore S view) {w : World S P} {key : Bytes}
    {n : Int64} {unit : TimeUnit} {cmd : Command}
    (h : SetsExpiry view w key n unit cmd) (fuel : Nat) (x : CommandExecutor) :
    exists r w', (x.respond fuel cmd).run (server S P) w = some (r, w') ∧
      KeepsSeconds S w'.store key (unit.toSeconds n.toUInt64) := by
  have hone : forall m : UInt64, TimeUnit.seconds.toSeconds m = m := by
    intro m
    exact UInt64.div_one
  cases h with
  | ex value =>
      rcases hS.insert w.store key value n.toUInt64 with ⟨s', hinsert, hkeeps⟩
      rw [hone]
      exact ⟨_, { w with store := s', watch := w.watch.notifyKeyModified key },
        HashOperations.run_callStore hinsert _, hkeeps⟩
  | px value =>
      rcases hS.insert w.store key value (n.toUInt64 / 1000) with ⟨s', hinsert, hkeeps⟩
      exact ⟨_, { w with store := s', watch := w.watch.notifyKeyModified key },
        HashOperations.run_callStore hinsert _, hkeeps⟩
  | expire hkey =>
      rcases hS.update n.toUInt64 hkey with ⟨s', hupdate, hkeeps⟩
      rw [hone]
      exact ⟨_, { w with store := s' }, HashOperations.run_callStore hupdate _, hkeeps⟩
  | pexpire hkey =>
      rcases hS.update (n.toUInt64 / 1000) hkey with ⟨s', hupdate, hkeeps⟩
      exact ⟨_, { w with store := s' }, HashOperations.run_callStore hupdate _, hkeeps⟩

theorem query_run {w : World S P} {key : Bytes} {t : UInt64}
    (h : (S.reply (.getTtl key) w.store).1 = .ok (some t)) (unit : TimeUnit)
    (fuel : Nat) (x : CommandExecutor) :
    exists w', (x.respond fuel (unit.query key)).run (server S P) w =
      some (.integer (t * unit.scale).toInt64, w') := by
  have hreply : S.reply (.getTtl key) w.store =
      (.ok (some t), (S.reply (.getTtl key) w.store).2) :=
    Prod.ext h rfl
  cases unit <;>
    exact ⟨{ w with store := (S.reply (.getTtl key) w.store).2 },
      HashOperations.run_callStore hreply _⟩

/-- An expiry is kept if and only if it is at least a second. -/
theorem expiry_kept_iff (hS : ExpiringStore S view) (fuel : Nat)
    (x : CommandExecutor) (w : World S P) {key : Bytes} {n : Int64}
    (hpos : 1 <= n.toInt) {unit : TimeUnit} {cmd : Command}
    (hcmd : SetsExpiry view w key n unit cmd) :
    ExpiryKept fuel x key n unit cmd w <-> (unit.scale.toNat : Int) <= n.toInt := by
  rcases hcmd.run hS fuel x with ⟨r, w1, hrun, hsome, hzero⟩
  have hn : (n.toUInt64.toNat : Int) = n.toInt :=
    (toNat_toUInt64_iff n).mpr (Int.le_trans (by decide) hpos)
  have hmax := n.toInt_lt
  have hscale : 0 < unit.scale.toNat := by cases unit <;> decide
  have hseconds : (unit.toSeconds n.toUInt64).toNat =
      n.toUInt64.toNat / unit.scale.toNat :=
    UInt64.toNat_div _ _
  constructor
  · intro h
    rcases h with ⟨r', w1', t, q, w2, hrun', hget, _, hquery, hq, _⟩
    rw [hrun] at hrun'
    injection hrun' with hrun'
    injection hrun' with _ hw
    subst hw
    rcases query_run hget unit fuel x with ⟨w2', hquery'⟩
    rw [hquery] at hquery'
    injection hquery' with hquery'
    injection hquery' with hq' _
    injection hq' with hq'
    by_contra hless
    -- Less than a second comes to no seconds, and none are left.
    have hnone : unit.toSeconds n.toUInt64 = 0 := by
      apply UInt64.toNat_inj.mp
      rw [hseconds]
      exact Nat.div_eq_of_lt (by omega)
    rw [hzero hnone t hget, UInt64.zero_mul] at hq'
    rw [hq'] at hq
    exact absurd hq (by decide)
  · intro h
    have hmod := Nat.div_add_mod n.toUInt64.toNat unit.scale.toNat
    have hlt := Nat.mod_lt n.toUInt64.toNat hscale
    have hsome' : 0 < unit.toSeconds n.toUInt64 := by
      apply UInt64.lt_iff_toNat_lt.mpr
      rw [hseconds]
      exact Nat.div_pos (by omega) hscale
    have hget := hsome hsome'
    have hbound : (unit.toSeconds n.toUInt64).toNat * unit.scale.toNat < 2 ^ 63 := by
      rw [hseconds, Nat.mul_comm]
      omega
    rcases query_run hget unit fuel x with ⟨w2, hquery⟩
    have hproduct : (unit.toSeconds n.toUInt64 * unit.scale).toNat =
        unit.scale.toNat * (n.toUInt64.toNat / unit.scale.toNat) := by
      rw [UInt64.toNat_mul, Nat.mod_eq_of_lt (Nat.lt_trans hbound (by decide)), hseconds,
        Nat.mul_comm]
    have hq : (unit.toSeconds n.toUInt64 * unit.scale).toInt64.toInt =
        (unit.scale.toNat * (n.toUInt64.toNat / unit.scale.toNat) : Nat) := by
      rw [toInt_toInt64_of_lt (by omega), hproduct]
    have hdiv : 0 < n.toUInt64.toNat / unit.scale.toNat := Nat.div_pos (by omega) hscale
    have hpositive := Nat.mul_pos hscale hdiv
    refine ⟨r, w1, _, _, w2, hrun, hget, hbound, hquery, ?_, ?_⟩
    · rw [hq]
      omega
    · rw [hq, abs_lt]
      constructor <;> omega

end Expiries

namespace MapStore

theorem keepsSeconds_insert (entries : Entries) (key value : Bytes) (t : UInt64) :
    KeepsSeconds mapStore (entries.insert key (value, some t)) key t := by
  have hget : (mapStore.reply (.getTtl key)
      (entries.insert key (value, some t))).1 = .ok (some t) := by
    change (reply (.getTtl key) (entries.insert key (value, some t))).1 = _
    simp only [reply, AList.lookup_insert]
  constructor
  · intro _
    exact hget
  · intro ht u hu
    have hsame := hget.symm.trans hu
    injection hsame with hsame
    injection hsame with hsame
    rw [← hsame, ht]

theorem expiringStore : ExpiringStore mapStore view where
  insert s key value t := ⟨_, rfl, keepsSeconds_insert s key value t⟩
  update := by
    intro s key t h
    rcases Option.isSome_iff_exists.mp h with ⟨value, hvalue⟩
    rcases lookup_of_view hvalue with ⟨ttl, hlookup⟩
    refine ⟨_, ?_, keepsSeconds_insert s key value t⟩
    simp [mapStore, reply, modify, hlookup]

end MapStore

theorem expiry_kept_px :
    ExpiryKept 0 (.new { requirepass := none }) [107] 1500 .milliseconds
        (.set [107] [118] none (some (Int64.toUInt64 1500)))
        ListOperations.emptyServer <->
      (TimeUnit.milliseconds.scale.toNat : Int) <= (1500 : Int64).toInt :=
  expiry_kept_iff MapStore.expiringStore 0 _ _ (by decide) (.px [118])

/-- A key that is set for half a second has no time to live. -/
theorem half_second_lost :
    ¬ ExpiryKept 0 (.new { requirepass := none }) [107] 500 .milliseconds
      (.set [107] [118] none (some (Int64.toUInt64 500)))
      ListOperations.emptyServer := by
  intro h
  rcases h with ⟨r, w1, t, q, w2, hrun, hget, _, hquery, hq, _⟩
  have hset : exists w', (CommandExecutor.respond 0 (.new { requirepass := none })
      (.set [107] [118] none (some (Int64.toUInt64 500)))).run
        (server mapStore idlePlatform) ListOperations.emptyServer =
          some (CommandExecutor.okReply, w') ∧
      (mapStore.reply (.getTtl [107]) w'.store).1 = .ok (some 0) :=
    ⟨_, rfl, rfl⟩
  rcases hset with ⟨w', hrun', hget'⟩
  rw [hrun] at hrun'
  injection hrun' with hrun'
  injection hrun' with _ hw
  subst hw
  rw [hget] at hget'
  injection hget' with ht
  injection ht with ht
  rcases query_run hget .milliseconds 0 (.new { requirepass := none }) with
    ⟨w2', hquery'⟩
  rw [hquery] at hquery'
  injection hquery' with hquery'
  injection hquery' with hq' _
  injection hq' with hq'
  rw [hq', ht] at hq
  exact absurd hq (by decide)

end FeoxServer
