import FeoxServer.Protocol.HashCounters

/-!
# Runs of hash commands

Every command on a hash, run on a store that is a map, answers as the finite
map does, whenever the machine finds that the pending changes are to be flushed.
A hash stands beside others, whose counters a command may write; a hash on its
own is the case of a single counter.
-/

namespace FeoxServer

open Foundation Prog

/-!
# Whole commands
-/

/-- A command as a client sends it. -/
def HashCommand.command (key : Bytes) : HashCommand -> Command
  | hset fields => .hset key fields
  | hdel fields => .hdel key fields
  | hincrby field delta => .hincrBy key field delta
  | hget field => .hget key field
  | hmget fields => .hmget key fields
  | hexists field => .hexists key field
  | hlen => .hlen key

/-- A reply as a client receives it. -/
def HashReply.toResp : HashReply -> RespValue
  | count n => .integer (Int64.ofNat n)
  | number n => .integer (Int64.ofInt n)
  | value v => .bulkString v
  | values vs => .array (some (vs.map .bulkString))
  | found b => .integer (if b then 1 else 0)

namespace HashOperations

variable {S : FeoxStore} {P : Platform} {view : S.State -> Bytes -> Option Bytes}
  {H : Set Bytes} {sizes : Bytes -> Nat} {key : Bytes} {m : FieldMap}

/-- The hash under `key` is `m`, beside the sizes of the others. -/
structure Member (view : S.State -> Bytes -> Option Bytes) (H : Set Bytes)
    (sizes : Bytes -> Nat) (key : Bytes) (m : FieldMap) (w : World S P) : Prop where
  stored : Stored (view w.store) key m
  tallies : Tallies view H (Function.update sizes key m.size) w

theorem Member.congr {w : World S P}
    (h : Member view H sizes key m w) (w' : World S P)
    (hview : view w'.store = view w.store) (htracker : w'.tracker = w.tracker) :
    Member view H sizes key m w' where
  stored := by
    rw [hview]
    exact h.stored
  tallies := h.tallies.congr w' (fun _ _ => by rw [hview]) htracker

/-!
# Writing fields
-/

theorem ne_fieldKey {key k : Bytes} (h : k ∉ fieldKeys key) (field : Bytes) :
    k ≠ fieldKey key field := by
  intro heq
  exact h ⟨field, heq.symm⟩

theorem zero_of_not_pos {n : Nat} (h : (Int64.ofNat n).toInt = n)
    (hpos : ¬ Int64.ofNat n > 0) : n = 0 := by
  have hzero : (0 : Int64).toInt = 0 := rfl
  have hle : ¬ (0 : Int64).toInt < (Int64.ofNat n).toInt := fun hlt =>
    hpos (Int64.lt_iff_toInt_lt.mpr hlt)
  omega

theorem hsetLoop_run (hS : CountsAsMap S view) {key : Bytes} {m : FieldMap}
    (fields : List (Bytes × Bytes)) (count : Int64) {w : World S P}
    (h : Stored (view w.store) key m)
    (hcount : count.toInt + m.newKeys (fields.map Prod.fst) < 2 ^ 63) :
    exists count' s', (hsetLoop key fields count).run (server S P) w =
        some (.ok count', { w with store := s' }) ∧
      count'.toInt = count.toInt + m.newKeys (fields.map Prod.fst) ∧
      Stored (view s') key (m.insertAll fields) ∧
      forall k, k ∉ fieldKeys key -> view s' k = view w.store k := by
  induction fields generalizing m count w with
  | nil =>
      refine ⟨count, w.store, rfl, ?_, h, fun _ _ => rfl⟩
      simp [FiniteMap.newKeys]
  | cons entry fields ih =>
      rcases entry with ⟨field, value⟩
      rw [List.map_cons, FiniteMap.newKeys_cons m field value] at hcount ⊢
      rcases hS.insertBytes w.store (fieldKey key field) value with
        ⟨s1, hreply, hview⟩
      have hnew : (view w.store (fieldKey key field)).isNone =
          decide (field ∉ m) := by
        rw [h field, Bool.eq_iff_iff, Option.isNone_iff_eq_none,
          AList.lookup_eq_none, decide_eq_true_iff]
      have hadded : (if (view w.store (fieldKey key field)).isNone then count + 1
          else count).toInt =
            count.toInt + ((if field ∈ m then 0 else 1 : Nat) : Int) := by
        have hlt := count.le_toInt
        rw [hnew]
        by_cases hmem : field ∈ m
        · simp [hmem]
        · rw [if_neg hmem] at hcount ⊢
          simp only [hmem, not_false_eq_true, decide_true, if_true]
          rw [toInt_add_of_inRange]
          · rfl
          · change InRange (count.toInt + 1)
            constructor <;> omega
      have hstored : Stored (view s1) key (m.insert field value) := by
        rw [hview]
        exact h.update field value
      rcases ih _ (w := { w with store := s1 }) hstored (by rw [hadded]; omega) with
        ⟨count', s', hrun, hcount', hstored', hothers⟩
      refine ⟨count', s', ?_, ?_, hstored', ?_⟩
      · rw [hsetLoop, run_callStore hreply]
        exact hrun
      · rw [hcount', hadded]
        omega
      · intro k hk
        rw [hothers k hk, hview, Function.update_of_ne (ne_fieldKey hk field)]

theorem hset_member (hS : CountsAsMap S view) (hkey : key ∈ H)
    (hfields : FieldsApart H key) (hsizes : forall k, k ∈ H -> sizes k < 2 ^ 63)
    (fields : List (Bytes × Bytes)) {w : World S P} (h : Member view H sizes key m w)
    (hsize : (m.insertAll fields).size < 2 ^ 63) :
    exists w', (hset key fields).run (server S P) w =
        some (.ok (Int64.ofNat (m.newKeys (fields.map Prod.fst))), w') ∧
      Member view H sizes key (m.insertAll fields) w' := by
  have hgrown := FiniteMap.size_insertAll m fields
  have hzero : (0 : Int64).toInt = 0 := rfl
  rcases hsetLoop_run hS fields 0 h.stored (by rw [hzero]; omega) with
    ⟨count, s1, hloop, hcount, hstored, hothers⟩
  rw [hzero, zero_add] at hcount
  obtain rfl := eq_ofNat_of_toInt hcount
  have htallies := h.tallies.fields hfields hothers
  unfold hset
  rw [run_bind_of_some _ _ hloop]
  by_cases hpos : Int64.ofNat (m.newKeys (fields.map Prod.fst)) > 0
  · rcases updateCount_fields hS hkey hfields hsizes hstored htallies
      (m.insertAll fields).size _ (by rw [hcount, hgrown]; push_cast; rfl) hsize with
      ⟨w', hupdate, hstored', htallies'⟩
    refine ⟨w', ?_, hstored', htallies'⟩
    simp only [if_pos hpos]
    rw [run_bind_of_some _ _ hupdate]
    rfl
  · have hnone : m.newKeys (fields.map Prod.fst) = 0 := zero_of_not_pos hcount hpos
    refine ⟨{ w with store := s1 }, ?_, hstored, ?_⟩
    · simp only [if_neg hpos]
      rfl
    · rw [hgrown, hnone]
      exact htallies

theorem hdelLoop_run (hS : CountsAsMap S view) {key : Bytes} {m : FieldMap}
    (fields : List Bytes) (count : Int64) {w : World S P}
    (h : Stored (view w.store) key m)
    (hcount : count.toInt + m.knownKeys fields < 2 ^ 63) :
    exists count' s', (hdelLoop key fields count).run (server S P) w =
        some (count', { w with store := s' }) ∧
      count'.toInt = count.toInt + m.knownKeys fields ∧
      Stored (view s') key (m.eraseAll fields) ∧
      forall k, k ∉ fieldKeys key -> view s' k = view w.store k := by
  induction fields generalizing m count w with
  | nil =>
      refine ⟨count, w.store, rfl, ?_, h, fun _ _ => rfl⟩
      simp [FiniteMap.knownKeys]
  | cons field fields ih =>
      rw [FiniteMap.knownKeys_cons] at hcount ⊢
      have hstart := h field
      cases hlookup : m.lookup field with
      | some value =>
          have hmem : field ∈ m :=
            AList.lookup_isSome.mp (by rw [hlookup]; rfl)
          rw [hlookup] at hstart
          rw [if_pos hmem] at hcount ⊢
          rcases hS.delete_present hstart with ⟨s1, hreply, hview⟩
          have hlow := count.le_toInt
          have hadded : (count + 1).toInt = count.toInt + 1 := by
            rw [toInt_add_of_inRange]
            · rfl
            · change InRange (count.toInt + 1)
              constructor <;> omega
          have hstored : Stored (view s1) key (m.erase field) := by
            rw [hview]
            exact h.erase field
          rcases ih (count + 1) (w := { w with store := s1 }) hstored
            (by rw [hadded]; omega) with
            ⟨count', s', hrun, hcount', hstored', hothers⟩
          refine ⟨count', s', ?_, ?_, hstored', ?_⟩
          · rw [hdelLoop, run_callStore hreply]
            exact hrun
          · rw [hcount', hadded]
            omega
          · intro k hk
            rw [hothers k hk, hview, Function.update_of_ne (ne_fieldKey hk field)]
      | none =>
          have hmem : field ∉ m := AList.lookup_eq_none.mp hlookup
          rw [hlookup] at hstart
          rw [if_neg hmem, Nat.zero_add] at hcount ⊢
          rcases hS.delete_absent hstart with ⟨e, s1, hreply, hview⟩
          have hstored : Stored (view s1) key (m.erase field) := by
            have herased := h.erase field
            rwa [← hstart, Function.update_eq_self, ← hview] at herased
          rcases ih count (w := { w with store := s1 }) hstored hcount with
            ⟨count', s', hrun, hcount', hstored', hothers⟩
          refine ⟨count', s', ?_, hcount', hstored', ?_⟩
          · rw [hdelLoop, run_callStore hreply]
            exact hrun
          · intro k hk
            rw [hothers k hk, hview]

theorem hdel_member (hS : CountsAsMap S view) (hkey : key ∈ H)
    (hfields : FieldsApart H key) (hsizes : forall k, k ∈ H -> sizes k < 2 ^ 63)
    (fields : List Bytes) {w : World S P} (h : Member view H sizes key m w)
    (hsize : m.size < 2 ^ 63) :
    exists w', (hdel key fields).run (server S P) w =
        some (.ok (Int64.ofNat (m.knownKeys fields)), w') ∧
      Member view H sizes key (m.eraseAll fields) w' := by
  have hshrunk := FiniteMap.size_eraseAll m fields
  have hzero : (0 : Int64).toInt = 0 := rfl
  rcases hdelLoop_run hS fields 0 h.stored (by rw [hzero]; omega) with
    ⟨count, s1, hloop, hcount, hstored, hothers⟩
  rw [hzero, zero_add] at hcount
  obtain rfl := eq_ofNat_of_toInt hcount
  have htallies := h.tallies.fields hfields hothers
  unfold hdel
  rw [run_bind_of_some _ _ hloop]
  by_cases hpos : Int64.ofNat (m.knownKeys fields) > 0
  · have hneg : (-Int64.ofNat (m.knownKeys fields)).toInt =
        -(m.knownKeys fields : Int) := by
      rw [Int64.toInt_neg, hcount, bmod_of_inRange]
      constructor <;> omega
    rcases updateCount_fields hS hkey hfields hsizes hstored htallies
      (m.eraseAll fields).size _ (by rw [hneg]; omega) (by omega) with
      ⟨w', hupdate, hstored', htallies'⟩
    refine ⟨w', ?_, hstored', htallies'⟩
    simp only [if_pos hpos]
    rw [run_bind_of_some _ _ hupdate]
    rfl
  · have hnone : m.knownKeys fields = 0 := zero_of_not_pos hcount hpos
    refine ⟨{ w with store := s1 }, ?_, hstored, ?_⟩
    · simp only [if_neg hpos]
      rfl
    · rw [hnone, Nat.add_zero] at hshrunk
      rw [hshrunk]
      exact htallies

/-- The value of a field after an increment; a new field is counted before it is in
the store. -/
theorem incremented_member (hS : CountsAsMap S view) (hkey : key ∈ H)
    (hfields : FieldsApart H key) (hsizes : forall k, k ∈ H -> sizes k < 2 ^ 63)
    {field : Bytes} {delta number : Int64} {w : World S P}
    (h : Member view H sizes key m w) (hnumber : m.number field = some number)
    (hsum : InRange (number.toInt + delta.toInt))
    (hsize : m.size + (if field ∈ m then 0 else 1) < 2 ^ 63) :
    exists w', (incremented key field delta).run (server S P) w =
        some (.ok (number + delta), w') ∧
      Stored (view w'.store) key m ∧
      Tallies view H
        (Function.update sizes key (m.size + if field ∈ m then 0 else 1)) w' := by
  have hstart := h.stored field
  rcases hS.containsKey w.store (fieldKey key field) with ⟨s1, hcontains, hview⟩
  rw [hstart] at hcontains
  unfold incremented
  rw [run_callStore hcontains]
  unfold FieldMap.number at hnumber
  have h1 := h.congr { w with store := s1 } hview rfl
  cases hlookup : m.lookup field with
  | none =>
      have hmem : field ∉ m := AList.lookup_eq_none.mp hlookup
      rw [hlookup] at hnumber
      cases hnumber
      rw [if_neg hmem] at hsize ⊢
      rcases updateCount_fields hS hkey hfields hsizes h1.stored h1.tallies
        (m.size + 1) 1 (by rw [Int64.toInt_one]; push_cast; rfl) hsize with
        ⟨w', hupdate, hstored, htallies⟩
      refine ⟨w', ?_, hstored, htallies⟩
      simp only [Option.isSome_none, Bool.false_eq_true, if_false]
      rw [run_bind_of_some _ _ hupdate, Int64.zero_add]
      rfl
  | some text =>
      have hmem : field ∈ m := AList.lookup_isSome.mp (by rw [hlookup]; rfl)
      rw [hlookup] at hnumber hstart
      rw [if_pos hmem, Nat.add_zero]
      rw [← hview] at hstart
      rcases hS.getBytes_present hstart with ⟨s2, hget, hview2⟩
      have hfield : fieldNumber text = some number := by
        rcases Option.bind_eq_some_iff.mp hnumber with ⟨t, htext, hparse⟩
        rw [fieldNumber, htext]
        exact hparse
      have hadd : saturatingAdd number delta = number + delta :=
        saturatingAdd_of_inRange hsum
      have h2 := h1.congr { w with store := s2 } hview2 rfl
      refine ⟨{ w with store := s2 }, ?_, h2.stored, h2.tallies⟩
      simp only [Option.isSome_some, if_true]
      rw [run_callStore (w := { w with store := s1 }) hget]
      simp only [hfield, hadd]
      rfl

theorem hincrby_member (hS : CountsAsMap S view) (hkey : key ∈ H)
    (hfields : FieldsApart H key) (hsizes : forall k, k ∈ H -> sizes k < 2 ^ 63)
    {field : Bytes} {delta number : Int64} {w : World S P}
    (h : Member view H sizes key m w) (hnumber : m.number field = some number)
    (hsum : InRange (number.toInt + delta.toInt))
    (hsize : FiniteMap.size (m.insert field (asBytes (decimal (number + delta)))) <
      2 ^ 63) :
    exists w', (hincrby key field delta).run (server S P) w =
        some (.ok (number + delta), w') ∧
      Member view H sizes key (m.insert field (asBytes (decimal (number + delta))))
        w' := by
  rw [FiniteMap.size_insert] at hsize
  rcases incremented_member hS hkey hfields hsizes h hnumber hsum hsize with
    ⟨w1, hrun, hstored, htallies⟩
  rcases hS.insert w1.store (fieldKey key field)
    (asBytes (decimal (number + delta))) with ⟨s2, hinsert, hview⟩
  refine ⟨{ w1 with store := s2 }, ?_, ?_, ?_⟩
  · unfold hincrby
    rw [run_bind_of_some _ _ hrun]
    change (callStore (.insert (fieldKey key field) _) >>= _).run (server S P) w1 = _
    rw [run_callStore hinsert]
    rfl
  · change Stored (view s2) key _
    rw [hview]
    exact hstored.update field _
  · rw [FiniteMap.size_insert]
    refine htallies.fields hfields fun k hk => ?_
    rw [hview, Function.update_of_ne (ne_fieldKey hk field)]

/-!
# Reading fields
-/

theorem hget_member (hS : CountsAsMap S view) (field : Bytes) {w : World S P}
    (h : Member view H sizes key m w) :
    exists w', (hget key field).run (server S P) w = some (m.lookup field, w') ∧
      Member view H sizes key m w' := by
  have hstart := h.stored field
  unfold hget
  cases hlookup : m.lookup field with
  | some value =>
      rw [hlookup] at hstart
      rcases hS.getBytes_present hstart with ⟨s1, hget, hview⟩
      refine ⟨{ w with store := s1 }, ?_, h.congr _ hview rfl⟩
      rw [run_callStore hget]
      rfl
  | none =>
      rw [hlookup] at hstart
      rcases hS.getBytes_absent hstart with ⟨e, s1, hget, hview⟩
      refine ⟨{ w with store := s1 }, ?_, h.congr _ hview rfl⟩
      rw [run_callStore hget]
      rfl

theorem hmget_member (hS : CountsAsMap S view) (fields : List Bytes) {w : World S P}
    (h : Member view H sizes key m w) :
    exists w', (hmget key fields).run (server S P) w =
        some (fields.map fun field => m.lookup field, w') ∧
      Member view H sizes key m w' := by
  induction fields generalizing w with
  | nil => exact ⟨w, rfl, h⟩
  | cons field fields ih =>
      rcases hget_member hS field h with ⟨w1, hfirst, h1⟩
      rcases ih h1 with ⟨w2, hrest, h2⟩
      refine ⟨w2, ?_, h2⟩
      unfold hmget
      rw [run_bind_of_some _ _ hfirst, run_bind_of_some _ _ hrest]
      rfl

theorem hexists_member (hS : CountsAsMap S view) (field : Bytes) {w : World S P}
    (h : Member view H sizes key m w) :
    exists w', (hexists key field).run (server S P) w =
        some ((m.lookup field).isSome, w') ∧
      Member view H sizes key m w' := by
  rcases hS.containsKey w.store (fieldKey key field) with ⟨s1, hcontains, hview⟩
  rw [h.stored field] at hcontains
  refine ⟨{ w with store := s1 }, ?_, h.congr _ hview rfl⟩
  change some ((S.reply (.containsKey (fieldKey key field)) w.store).1,
    ({ w with store := (S.reply (.containsKey (fieldKey key field)) w.store).2 } :
      World S P)) = _
  rw [hcontains]

theorem hlen_member (hS : CountsAsMap S view) (hkey : key ∈ H)
    (hfields : FieldsApart H key) (hsizes : forall k, k ∈ H -> sizes k < 2 ^ 63)
    {w : World S P} (h : Member view H sizes key m w) (hsize : m.size < 2 ^ 63) :
    exists w', (hlen key).run (server S P) w = some (Int64.ofNat m.size, w') ∧
      Member view H sizes key m w' := by
  rcases flushMetadata_tallies hS h.tallies (update_lt hsizes hsize) with
    ⟨w1, hflush, htallies, htracker, hothers⟩
  have h1 : Member view H sizes key m w1 := by
    refine ⟨fun field => ?_, htallies⟩
    refine (hothers _ fun k hk heq => ?_).trans (h.stored field)
    exact hfields k hk ⟨field, heq⟩
  rcases htallies.sum key hkey with ⟨counter, hcounter, _, hsum⟩
  have hpending : pending key w1 = 0 := by
    unfold pending
    rw [htracker]
    rfl
  rw [hpending, Function.update_self] at hsum
  obtain rfl := eq_ofNat_of_toInt ((add_zero counter.toInt).symm.trans hsum)
  unfold hlen
  rw [run_bind_of_some _ _ hflush]
  rcases hcounter with hsome | ⟨hnone, hzero⟩
  · rcases hS.getBytes_present hsome with ⟨s2, hget, hview⟩
    refine ⟨{ w1 with store := s2 }, ?_, h1.congr _ hview rfl⟩
    rw [run_callStore hget]
    simp only [parseMetadata_octets]
    rfl
  · rcases hS.getBytes_absent hnone with ⟨e, s2, hget, hview⟩
    refine ⟨{ w1 with store := s2 }, ?_, h1.congr _ hview rfl⟩
    rw [run_callStore hget, hzero]
    rfl

/-!
# Replies
-/

theorem modifying_member {α : Type} (modified : α -> Bool) (reply : α -> RespValue)
    {p : ServerProg (Except Error α)} {a : α} {w : World S P}
    (h : exists w1, p.run (server S P) w = some (.ok a, w1) ∧
      Member view H sizes key m w1) :
    exists w', (CommandExecutor.modifying key modified reply p).run (server S P) w =
        some (reply a, w') ∧
      Member view H sizes key m w' := by
  rcases h with ⟨w1, hrun, hmember⟩
  refine ⟨_, CommandExecutor.modifying_run key modified reply hrun, ?_⟩
  split
  · exact hmember.congr _ rfl rfl
  · exact hmember

theorem answering_member {α : Type} (reply : α -> RespValue) {p : ServerProg α} {a : α}
    {w : World S P}
    (h : exists w1, p.run (server S P) w = some (a, w1) ∧
      Member view H sizes key m w1) :
    exists w', (p >>= fun a => pure (reply a)).run (server S P) w = some (reply a, w') ∧
      Member view H sizes key m w' := by
  rcases h with ⟨w1, hrun, hmember⟩
  refine ⟨w1, ?_, hmember⟩
  rw [run_bind_of_some _ _ hrun]
  rfl

theorem respond_member (hS : CountsAsMap S view) (hkey : key ∈ H)
    (hfields : FieldsApart H key) (hsizes : forall k, k ∈ H -> sizes k < 2 ^ 63)
    (command : HashCommand) (fuel : Nat) (x : CommandExecutor) {w : World S P}
    (h : Member view H sizes key m w) (happlicable : m.Applicable command)
    (hbefore : m.size < 2 ^ 63) (hafter : (m.next command).size < 2 ^ 63) :
    exists w', (CommandExecutor.respond fuel x (command.command key)).run
          (server S P) w =
        some ((m.reply command).toResp, w') ∧
      Member view H sizes key (m.next command) w' := by
  cases command with
  | hset fields =>
      exact modifying_member (fun _ => true) .integer
        (hset_member hS hkey hfields hsizes fields h hafter)
  | hdel fields =>
      exact modifying_member (fun count => decide (count > 0)) .integer
        (hdel_member hS hkey hfields hsizes fields h hbefore)
  | hincrby field delta =>
      rcases happlicable with ⟨hsome, hsum⟩
      rcases Option.isSome_iff_exists.mp hsome with ⟨number, hnumber⟩
      have hint : m.incremented field delta = number.toInt + delta.toInt := by
        rw [FieldMap.incremented, hnumber]
        rfl
      rw [hint] at hsum
      have htext : decimalInt (m.incremented field delta) = decimal (number + delta) := by
        rw [hint, ← toInt_add_of_inRange hsum]
        rfl
      have hreply : (m.reply (.hincrby field delta)).toResp =
          .integer (number + delta) := by
        rw [FieldMap.reply, HashReply.toResp, hint, ← toInt_add_of_inRange hsum,
          Int64.ofInt_toInt]
      rw [FieldMap.next, htext] at hafter ⊢
      rw [hreply]
      exact modifying_member (fun _ => true) .integer
        (hincrby_member hS hkey hfields hsizes h hnumber hsum hafter)
  | hget field =>
      exact answering_member .bulkString (hget_member hS field h)
  | hmget fields =>
      exact answering_member (fun values => .array (some (values.map .bulkString)))
        (hmget_member hS fields h)
  | hexists field =>
      exact answering_member (fun found => .integer (if found then 1 else 0))
        (hexists_member hS field h)
  | hlen =>
      exact answering_member .integer
        (hlen_member hS hkey hfields hsizes h hbefore)

/-!
# A hash on its own
-/

theorem counts_iff_tallies {n : Nat} {w : World S P} :
    Counts view key n w <-> Tallies view {key} (Function.update sizes key n) w := by
  constructor
  · intro h
    constructor
    · intro k hk
      exact ⟨key, rfl, h.only k hk⟩
    · intro k hk
      rw [Set.mem_singleton_iff.mp hk, Function.update_self]
      exact h.sum
  · intro h
    constructor
    · intro k hk
      rcases h.only k hk with ⟨own, hown, heq⟩
      rw [heq, Set.mem_singleton_iff.mp hown]
    · have hsum := h.sum key rfl
      rw [Function.update_self] at hsum
      exact hsum

theorem represents_iff_member {w : World S P} :
    Represents view key m w <-> Member view {key} sizes key m w := by
  constructor
  · intro h
    exact ⟨h.stored, counts_iff_tallies.mp h.counts⟩
  · intro h
    exact ⟨h.stored, counts_iff_tallies.mpr h.tallies⟩

theorem fieldsApart_singleton (key : Bytes) : FieldsApart {key} key := by
  intro k hk hmem
  rcases hmem with ⟨field, heq⟩
  rw [Set.mem_singleton_iff.mp hk] at heq
  exact fieldKey_ne_metaKey key field heq

theorem respond_run (hS : CountsAsMap S view) {key : Bytes} {m : FieldMap}
    (command : HashCommand) (fuel : Nat) (x : CommandExecutor) {w : World S P}
    (h : Represents view key m w) (happlicable : m.Applicable command)
    (hbefore : m.size < 2 ^ 63) (hafter : (m.next command).size < 2 ^ 63) :
    exists w', (CommandExecutor.respond fuel x (command.command key)).run
          (server S P) w =
        some ((m.reply command).toResp, w') ∧
      Represents view key (m.next command) w' := by
  have hsizes : forall k, k ∈ ({key} : Set Bytes) -> (fun _ : Bytes => 0) k < 2 ^ 63 := by
    intro k hk
    exact Nat.two_pow_pos 63
  have hmember : Member view {key} (fun _ => 0) key m w := represents_iff_member.mp h
  rcases respond_member hS (Set.mem_singleton key) (fieldsApart_singleton key) hsizes
    command fuel x hmember happlicable hbefore hafter with ⟨w', hrun, hkept⟩
  exact ⟨w', hrun, represents_iff_member.mpr hkept⟩

/-!
# Sequences of commands
-/

/-- Execute the commands in order and collect the replies. -/
def performAll (fuel : Nat) (key : Bytes) :
    CommandExecutor -> List HashCommand -> ServerProg (List RespValue)
  | _, [] => pure []
  | x, command :: commands => do
      let (r, x) <- x.execute fuel (command.command key)
      let rs <- performAll fuel key x commands
      pure (r :: rs)

theorem performAll_run (hS : CountsAsMap S view) {key : Bytes}
    (commands : List HashCommand) (fuel : Nat) (x : CommandExecutor)
    {m : FieldMap} {w : World S P} (h : Represents view key m w)
    (hfits : m.Fits commands) (hsize : m.size < 2 ^ 63) :
    exists w', (performAll fuel key x commands).run (server S P) w =
        some ((m.replies commands).map HashReply.toResp, w') ∧
      Represents view key (m.after commands) w' := by
  induction commands generalizing m w x with
  | nil => exact ⟨w, rfl, h⟩
  | cons command commands ih =>
      rcases hfits with ⟨happlicable, hnext, hlater⟩
      rcases respond_run hS command fuel
        { x with commandsProcessed := x.commandsProcessed + 1 } h happlicable hsize
        hnext with ⟨w1, hfirst, h1⟩
      rcases ih { x with commandsProcessed := x.commandsProcessed + 1 } h1 hlater
        hnext with ⟨w2, hrest, h2⟩
      refine ⟨w2, ?_, h2⟩
      have hexecute : (x.execute fuel (command.command key)).run (server S P) w =
          some (((m.reply command).toResp,
            { x with commandsProcessed := x.commandsProcessed + 1 }), w1) := by
        unfold CommandExecutor.execute
        rw [run_bind_of_some _ _ hfirst]
        rfl
      rw [performAll, run_bind_of_some _ _ hexecute, run_bind_of_some _ _ hrest]
      rfl

/-- Hashes refine finite maps.  Starting from an absent hash, every sequence of
commands is answered as the map answers it, and the counter in the store and the
pending change add up to the number of fields, whenever the machine decides to
flush. -/
theorem performAll_refines_map (hS : CountsAsMap S view) (key : Bytes)
    (commands : List HashCommand) (fuel : Nat) (x : CommandExecutor)
    (w : World S P) (habsent : Absent view key w)
    (hfits : FieldMap.Fits ∅ commands) :
    exists w', (performAll fuel key x commands).run (server S P) w =
        some ((FieldMap.replies ∅ commands).map HashReply.toResp, w') ∧
      Represents view key (FieldMap.after ∅ commands) w' :=
  performAll_run hS commands fuel x habsent.represents hfits (by decide)

/-- Repeated fields in one command, an increment of a new field and of a number,
and deletions of known and unknown fields. -/
theorem performAll_refines_map_repeated :
    let key := asBytes "k"
    let commands : List HashCommand :=
      [.hset [([1], asBytes "10"), ([2], [118]), ([1], asBytes "5")],
        .hincrby [1] (-7), .hincrby [3] 4, .hlen, .hdel [[2], [9], [2]],
        .hmget [[1], [2]], .hexists [3], .hlen]
    let w : World mapStore idlePlatform :=
      ⟨(∅ : MapStore.Entries), (), .new, ∅, ∅⟩
    exists w', (performAll 0 key (.new { requirepass := none }) commands).run
          (server mapStore idlePlatform) w =
        some ((FieldMap.replies ∅ commands).map HashReply.toResp, w') ∧
      Represents MapStore.view key (FieldMap.after ∅ commands) w' := by
  apply performAll_refines_map MapStore.countsAsMap
  · exact ⟨fun _ => rfl, rfl, rfl⟩
  · decide +kernel

example :
    FieldMap.replies ∅ [.hset [([1], asBytes "10"), ([2], [118]), ([1], asBytes "5")],
      .hincrby [1] (-7), .hdel [[2], [9], [2]], .hlen] =
      [.count 2, .number (-2), .count 1, .count 1] := by
  decide +kernel

end HashOperations

end FeoxServer
