import FeoxServer.Foundation.Glob
import FeoxServer.Protocol.FlatKeyspace

/-!
# Patterns of keys

What `glob_match` accepts, and which keys `KEYS` lists.
-/

namespace FeoxServer

open Foundation Prog

def globPart (p : UInt8) : Glob.Part UInt8 :=
  if p = 42 then .star
  else if p = 63 then .one fun _ => True
  else .one fun t => p = t

/-- The text can be split so that every octet of the pattern gets its piece. -/
def GlobTakes (pattern text : Bytes) : Prop :=
  Glob.Takes (pattern.map globPart) text

/-- What `glob_match` does when it meets `p` and `t`. -/
def globMove (p t : UInt8) : Glob.Move :=
  if p == 42 then .branch
  else if p == 63 || p == t then .advance
  else .fail

def isStar (p : UInt8) : Bool :=
  p == 42

theorem globPart_of_ne {p : UInt8} (h : p ≠ 42) :
    globPart p = .one fun t => p = 63 ∨ p = t := by
  unfold globPart
  rw [if_neg h]
  by_cases hany : p = 63
  · simp [hany]
  · simp [hany]

theorem globTakes_cons {p : UInt8} (h : p ≠ 42) {pattern text : Bytes} :
    GlobTakes (p :: pattern) text <->
      exists t rest, text = t :: rest ∧ (p = 63 ∨ p = t) ∧
        GlobTakes pattern rest := by
  unfold GlobTakes
  rw [List.map_cons, globPart_of_ne h, Glob.takes_one]

theorem globTakes_star {pattern text : Bytes} :
    GlobTakes (42 :: pattern) text <->
      exists rest, rest <:+ text ∧ GlobTakes pattern rest :=
  Glob.takes_star

theorem globTakes_nil_text {pattern : Bytes} :
    GlobTakes pattern [] <-> pattern.all isStar = true := by
  induction pattern with
  | nil => simp [GlobTakes, Glob.takes_nil]
  | cons p pattern ih =>
      rw [List.all_cons, Bool.and_eq_true, ← ih]
      by_cases hp : p = 42
      · subst hp
        rw [globTakes_star]
        simp [isStar]
      · rw [globTakes_cons hp]
        simp [isStar, hp]

theorem globMove_star (t : UInt8) : globMove 42 t = .branch :=
  rfl

theorem globMove_of_ne {p : UInt8} (h : p ≠ 42) (t : UInt8) :
    globMove p t = if p = 63 ∨ p = t then .advance else .fail := by
  simp [globMove, h]

theorem accepts_globMove (pattern text : Bytes) :
    Glob.Accepts globMove isStar pattern text <-> GlobTakes pattern text := by
  induction pattern generalizing text with
  | nil =>
      cases text with
      | nil => exact ⟨fun _ => ⟨[], rfl, .nil⟩, fun _ => .finish rfl⟩
      | cons t text => exact ⟨nofun, fun h => absurd (Glob.takes_nil.mp h) nofun⟩
  | cons p pattern ih =>
      cases text with
      | nil =>
          rw [globTakes_nil_text]
          constructor
          · intro h
            cases h with
            | finish hall => exact hall
          · exact .finish
      | cons t text =>
          by_cases hp : p = 42
          · subst hp
            rw [Glob.accepts_branch (globMove_star t), globTakes_star]
            exact exists_congr fun rest => and_congr_right fun _ => ih rest
          · rw [globTakes_cons hp]
            by_cases hpt : p = 63 ∨ p = t
            · have hmove : globMove p t = .advance := by
                rw [globMove_of_ne hp, if_pos hpt]
              rw [Glob.accepts_advance hmove, ih]
              constructor
              · intro h
                exact ⟨t, text, rfl, hpt, h⟩
              · rintro ⟨t', rest, heq, _, h⟩
                cases heq
                exact h
            · have hmove : globMove p t = .fail := by
                rw [globMove_of_ne hp, if_neg hpt]
              refine iff_of_false (Glob.not_accepts_fail hmove) ?_
              rintro ⟨t', rest, heq, hpt', _⟩
              cases heq
              exact hpt hpt'

theorem globLoop_follows : Glob.Follows globMove isStar globLoop where
  out _ _ _ := by rw [globLoop]
  finish _ pattern _ := by
    cases pattern <;> rfl
  back _ _ _ star := by
    rcases star with _ | ⟨behind, _ | ⟨a, rest⟩⟩ <;> rfl
  step _ _ _ _ _ star := by
    unfold globMove
    rcases star with _ | ⟨behind, _ | ⟨a, rest⟩⟩ <;>
      simp only [globLoop] <;> split_ifs <;> rfl

theorem rounds_suffice (pattern text : Bytes) :
    pattern.length + text.length * (pattern.length + 1) <
      (pattern.length + 1) * (text.length + 1) + text.length + 1 := by
  rw [Nat.succ_mul, Nat.mul_succ]
  linarith [Nat.mul_comm text.length pattern.length]

theorem globMatch_walk (pattern text : Bytes) :
    exists rounds, Glob.walk globMove isStar pattern text rounds .start =
      some (globMatch pattern text) :=
  ⟨_, (globLoop_follows.spec pattern text (rounds_suffice pattern text)).1⟩

theorem globMatch_iff {pattern text : Bytes} :
    globMatch pattern text = true <-> GlobTakes pattern text :=
  (globLoop_follows.spec pattern text (rounds_suffice pattern text)).2.trans
    (accepts_globMove pattern text)

/-- The loop of `glob_match` ends, and it finds out whether the text can be
split as the pattern says. -/
theorem globMatch_correct (pattern text : Bytes) :
    (exists rounds, Glob.walk globMove isStar pattern text rounds .start =
      some (globMatch pattern text)) ∧
    (globMatch pattern text = true <-> GlobTakes pattern text) :=
  ⟨globMatch_walk pattern text, globMatch_iff⟩

theorem globTakes_self (pattern : Bytes) : GlobTakes pattern pattern := by
  induction pattern with
  | nil => exact ⟨[], rfl, .nil⟩
  | cons p pattern ih =>
      by_cases hp : p = 42
      · subst hp
        exact globTakes_star.mpr ⟨pattern, List.suffix_cons _ _, ih⟩
      · exact (globTakes_cons hp).mpr ⟨p, pattern, rfl, Or.inr rfl, ih⟩

theorem matchPattern_self (pattern : String) :
    matchPattern (asBytes pattern) pattern = true := by
  rw [matchPattern, fromUtf8Lossy_asBytes]
  exact globMatch_iff.mpr (globTakes_self _)

/-!
# Ranges of keys
-/

theorem between_append (front stop word : Bytes) :
    (front <= word ∧ word <= front ++ stop) <->
      exists rest, word = front ++ rest ∧ rest <= stop := by
  induction front generalizing word with
  | nil => simp [List.nil_le]
  | cons a front ih =>
      cases word with
      | nil => simp
      | cons b word =>
          rw [List.cons_append, List.cons_le_cons_iff, List.cons_le_cons_iff]
          constructor
          · rintro ⟨hab | ⟨rfl, hfront⟩, hba | ⟨heq, hstop⟩⟩
            · exact absurd hab (UInt8.lt_asymm hba)
            · exact absurd hab (heq ▸ UInt8.lt_irrefl b)
            · exact absurd hba (UInt8.lt_irrefl a)
            · rcases (ih word).mp ⟨hfront, hstop⟩ with ⟨rest, rfl, hrest⟩
              exact ⟨rest, rfl, hrest⟩
          · rintro ⟨rest, heq, hrest⟩
            cases heq
            rcases (ih _).mpr ⟨rest, rfl, hrest⟩ with ⟨hfront, hstop⟩
            exact ⟨Or.inr ⟨rfl, hfront⟩, Or.inr ⟨rfl, hstop⟩⟩

theorem le_replicate {key : Bytes} {n : Nat} (h : key.length <= n) :
    key <= List.replicate n 255 := by
  induction key generalizing n with
  | nil => exact List.nil_le _
  | cons b key ih =>
      cases n with
      | zero => exact absurd h (Nat.not_succ_le_zero _)
      | succ n =>
          rw [List.replicate_succ, List.cons_le_cons_iff]
          have htop : b <= 255 := UInt8.le_iff_toNat_le.mpr (UInt8.toNat_lt_size b).le_pred
          rcases UInt8.lt_or_eq_of_le htop with hlt | heq
          · exact Or.inl hlt
          · exact Or.inr ⟨heq, ih (Nat.le_of_succ_le_succ h)⟩

/-- What may stand behind the prefix of a pattern in a key that `KEYS` looks
at: nothing, a tilde alone, or something that begins below the tilde. -/
def BelowTilde (rest : Bytes) : Prop :=
  rest = [] ∨ rest = asBytes "~" ∨ exists b more, rest = b :: more ∧ b < 126

theorem le_tilde_iff (rest : Bytes) : rest <= asBytes "~" <-> BelowTilde rest := by
  have htilde : asBytes "~" = [126] := by decide +kernel
  rw [BelowTilde, htilde]
  cases rest with
  | nil => simp
  | cons b more =>
      rw [List.cons_le_cons_iff, List.le_nil]
      constructor
      · rintro (hlt | ⟨rfl, rfl⟩)
        · exact Or.inr (Or.inr ⟨b, more, rfl, hlt⟩)
        · exact Or.inr (Or.inl rfl)
      · rintro (hnil | htilde | ⟨b', more', heq, hlt⟩)
        · cases hnil
        · cases htilde
          exact Or.inr ⟨rfl, rfl⟩
        · cases heq
          exact Or.inl hlt

/-- The keys that `KEYS` looks at. -/
def LooksAt (pattern : String) (key : Bytes) : Prop :=
  let front := extractPrefix pattern
  front = "" ∨
    (pattern = front ∧ key = asBytes front) ∨
    (pattern ≠ front ∧ exists rest, key = asBytes front ++ rest ∧ BelowTilde rest)

theorem looksAt_literal {pattern : String} {key : Bytes}
    (hempty : extractPrefix pattern ≠ "")
    (hliteral : pattern = extractPrefix pattern) :
    LooksAt pattern key <-> key = asBytes pattern := by
  constructor
  · rintro (hfront | ⟨_, hkey⟩ | ⟨hwildcard, _⟩)
    · exact absurd hfront hempty
    · rw [hkey, ← hliteral]
    · exact absurd hliteral hwildcard
  · intro hkey
    exact Or.inr (Or.inl ⟨hliteral, by rw [hkey, ← hliteral]⟩)

theorem looksAt_wildcard {pattern : String} {key : Bytes}
    (hempty : extractPrefix pattern ≠ "")
    (hwildcard : pattern ≠ extractPrefix pattern) :
    LooksAt pattern key <->
      exists rest, key = asBytes (extractPrefix pattern) ++ rest ∧
        BelowTilde rest := by
  constructor
  · rintro (hfront | ⟨hliteral, _⟩ | ⟨_, hkey⟩)
    · exact absurd hfront hempty
    · exact absurd hliteral hwildcard
    · exact hkey
  · exact fun hkey => Or.inr (Or.inr ⟨hwildcard, hkey⟩)

/-- The reply lists exactly the stored keys that match, each of them once. -/
def KeysExact (view : Bytes -> Option Bytes) (pattern : String)
    (reply : Option RespValue) : Prop :=
  exists keys, reply = some (CommandExecutor.bulkArray keys) ∧
    keys.Pairwise (· < ·) ∧
    forall key, key ∈ keys <->
      (view key).isSome = true ∧ matchPattern key pattern = true

section Keys

variable {S : FeoxStore} {P : Platform}
  {view : S.State -> Bytes -> Option Bytes}

theorem CommandExecutor.bulkArray_injective :
    Function.Injective CommandExecutor.bulkArray := by
  intro keys keys' h
  unfold CommandExecutor.bulkArray CommandExecutor.bulk at h
  injection h with h
  injection h with h
  refine List.map_injective_iff.mpr ?_ h
  intro key key' hkey
  injection hkey with hkey
  injection hkey

/-- A list in order whose members are those keys that match and are looked at
is what is to be listed unless a stored key that matches is not looked at. -/
theorem keysExact_iff_looksAt {looked : Bytes -> Prop} {pattern : String}
    {view : Bytes -> Option Bytes} {keys : List Bytes}
    (hsorted : keys.Pairwise (· < ·))
    (hmem : forall key, key ∈ keys <->
      (view key).isSome = true ∧ matchPattern key pattern = true ∧ looked key) :
    KeysExact view pattern (some (CommandExecutor.bulkArray keys)) <->
      forall key, (view key).isSome = true -> matchPattern key pattern = true ->
        looked key := by
  constructor
  · rintro ⟨keys', hreply, _, hexact⟩ key hstored hmatch
    have hkeys := CommandExecutor.bulkArray_injective (Option.some.inj hreply)
    have hkey : key ∈ keys := hkeys ▸ (hexact key).mpr ⟨hstored, hmatch⟩
    exact ((hmem key).mp hkey).2.2
  · intro h
    refine ⟨keys, rfl, hsorted, fun key => (hmem key).trans ?_⟩
    constructor
    · rintro ⟨hstored, hmatch, _⟩
      exact ⟨hstored, hmatch⟩
    · rintro ⟨hstored, hmatch⟩
      exact ⟨hstored, hmatch, h key hstored hmatch⟩

theorem keysInRange_exact_iff (hS : FlatStore S view) (pattern : String)
    (start stop : Bytes) (w : World S P) {stored : Finset Bytes}
    (hstored : forall key, key ∈ stored <-> (view w.store key).isSome = true)
    (hcard : stored.card <= 100000) :
    KeysExact (view w.store) pattern
        (replyOf (CommandExecutor.keysInRange pattern start stop) w) <->
      forall key, (view w.store key).isSome = true ->
        matchPattern key pattern = true -> start <= key ∧ key <= stop := by
  rcases hS.rangeQuery w.store start stop 100000 with
    ⟨pairs, s', hquery, hsorted, hpairs⟩
  have hkeys : (pairs.map Prod.fst).Pairwise (· < ·) := List.pairwise_map.mpr hsorted
  have hmem : forall key, key ∈ pairs.map Prod.fst <->
      (start <= key ∧ key <= stop) ∧ (view w.store key).isSome = true := by
    intro key
    rw [List.mem_map, Option.isSome_iff_exists]
    constructor
    · rintro ⟨⟨k, value⟩, hpair, rfl⟩
      have hentry := (hpairs k value).mp hpair
      exact ⟨hentry.1, value, hentry.2⟩
    · rintro ⟨hrange, value, hvalue⟩
      exact ⟨(key, value), (hpairs key value).mpr ⟨hrange, hvalue⟩, rfl⟩
  -- The limit cuts nothing off.
  have hlength : pairs.length <= 100000 := by
    have hnodup : (pairs.map Prod.fst).Nodup := by
      refine hkeys.imp ?_
      rintro key key' hlt rfl
      exact List.lt_irrefl _ hlt
    rw [← List.length_map (f := Prod.fst), ← List.toFinset_card_of_nodup hnodup]
    refine (Finset.card_le_card fun key hkey => ?_).trans hcard
    exact (hstored key).mpr ((hmem key).mp (List.mem_toFinset.mp hkey)).2
  have htake : pairs.take (100000 : UInt64).toNat = pairs :=
    List.take_of_length_le hlength
  rw [htake] at hquery
  have hreply : replyOf (CommandExecutor.keysInRange pattern start stop) w =
      some (CommandExecutor.bulkArray
        ((pairs.map Prod.fst).filter fun key => matchPattern key pattern)) := by
    unfold replyOf
    rw [CommandExecutor.keysInRange, HashOperations.run_callStore hquery]
    rfl
  rw [hreply]
  refine keysExact_iff_looksAt (hkeys.filter _) fun key => ?_
  rw [List.mem_filter, hmem]
  tauto

/-- What `KEYS` does with a pattern that is its own prefix. -/
def lookUp (front : String) : ServerProg RespValue := do
  match <- callStore (.getBytes (asBytes front)) with
  | .ok _ => pure (CommandExecutor.bulkArray [asBytes front])
  | .error _ => pure (CommandExecutor.bulkArray [])

theorem keys_literal_exact_iff (hS : FlatStore S view) {pattern : String}
    (hempty : extractPrefix pattern ≠ "")
    (hliteral : pattern = extractPrefix pattern) (w : World S P) :
    KeysExact (view w.store) pattern (replyOf (CommandExecutor.keys pattern) w) <->
      forall key, (view w.store key).isSome = true ->
        matchPattern key pattern = true -> key = asBytes pattern := by
  have hkeys : CommandExecutor.keys pattern = lookUp pattern :=
    ((if_neg hempty).trans (if_pos hliteral)).trans
      (congrArg lookUp hliteral.symm)
  unfold replyOf
  rw [hkeys, lookUp]
  cases hview : view w.store (asBytes pattern) with
  | some value =>
      rcases hS.getBytes_present hview with ⟨s', hget, _⟩
      rw [HashOperations.run_callStore hget]
      refine keysExact_iff_looksAt (List.pairwise_singleton _ _) fun key => ?_
      rw [List.mem_singleton]
      constructor
      · rintro rfl
        exact ⟨by rw [hview]; rfl, matchPattern_self pattern, rfl⟩
      · rintro ⟨_, _, hkey⟩
        exact hkey
  | none =>
      rcases hS.getBytes_absent hview with ⟨e, s', hget, _⟩
      rw [HashOperations.run_callStore hget]
      refine keysExact_iff_looksAt List.Pairwise.nil fun key => ?_
      constructor
      · nofun
      · rintro ⟨hstored, _, rfl⟩
        rw [hview] at hstored
        cases hstored

/-- `KEYS` is exact if and only if it looks at every stored key that
matches. -/
theorem keys_exact_iff (hS : FlatStore S view) (pattern : String) (fuel : Nat)
    (x : CommandExecutor) (w : World S P) (stored : Finset Bytes)
    (hstored : forall key, key ∈ stored <-> (view w.store key).isSome = true)
    (hcard : stored.card <= 100000)
    (hlength : forall key, key ∈ stored -> key.length <= 200) :
    KeysExact (view w.store) pattern
        (replyOf (x.respond fuel (.keys pattern)) w) <->
      forall key, key ∈ stored -> matchPattern key pattern = true ->
        LooksAt pattern key := by
  change KeysExact _ _ (replyOf (CommandExecutor.keys pattern) w) <-> _
  simp only [hstored]
  by_cases hempty : extractPrefix pattern = ""
  · have hkeys : CommandExecutor.keys pattern =
        CommandExecutor.keysInRange pattern [] CommandExecutor.lastKey := by
      simp only [CommandExecutor.keys, if_pos hempty]
    rw [hkeys, keysInRange_exact_iff hS pattern _ _ w hstored hcard]
    refine forall_congr' fun key => forall_congr' fun hkey => ?_
    have hlast := (hlength key ((hstored key).mpr hkey)).trans
      (show 200 <= 255 by decide)
    exact imp_congr_right fun _ => iff_of_true
      ⟨List.nil_le _, le_replicate hlast⟩ (Or.inl hempty)
  · by_cases hliteral : pattern = extractPrefix pattern
    · rw [keys_literal_exact_iff hS hempty hliteral w]
      simp only [looksAt_literal hempty hliteral]
    · have hkeys : CommandExecutor.keys pattern =
          CommandExecutor.keysInRange pattern (asBytes (extractPrefix pattern))
            (asBytes (extractPrefix pattern) ++ asBytes "~") := by
        simp only [CommandExecutor.keys, if_neg hempty, if_neg hliteral]
      rw [hkeys, keysInRange_exact_iff hS pattern _ _ w hstored hcard]
      simp only [looksAt_wildcard hempty hliteral, between_append, le_tilde_iff]

end Keys

/-- A store with these keys. -/
def holding (keys : List Bytes) : World mapStore idlePlatform :=
  { ListOperations.emptyServer with
    store := keys.foldr (fun key entries => AList.insert key ([49], none) entries)
      (∅ : MapStore.Entries) }

theorem mem_holding (keys : List Bytes) (k : Bytes) :
    k ∈ keys.toFinset <-> (MapStore.view (holding keys).store k).isSome = true := by
  rw [List.mem_toFinset]
  induction keys with
  | nil => exact iff_of_false List.not_mem_nil nofun
  | cons key keys ih =>
      have hview : MapStore.view (holding (key :: keys)).store =
          Function.update (MapStore.view (holding keys).store) key (some [49]) :=
        MapStore.view_insert ..
      rw [hview, List.mem_cons]
      by_cases hk : k = key
      · simp [hk]
      · rw [Function.update_of_ne hk, or_iff_right hk]
        exact ih

/-- The keys that match end with the prefix, go on with a letter or are the end of the
range; another key does not match. -/
theorem keys_exact_held :
    let keys : List Bytes := [[97], [97, 98], [97, 126], [98]]
    KeysExact (MapStore.view (holding keys).store) "a*"
      (replyOf (CommandExecutor.respond 0 (.new { requirepass := none }) (.keys "a*"))
        (holding keys)) := by
  intro keys
  have hlooks : forall rest, BelowTilde rest -> LooksAt "a*" (97 :: rest) := by
    intro rest hrest
    have hfront : extractPrefix "a*" = "a" := by decide +kernel
    unfold LooksAt
    rw [hfront]
    exact Or.inr (Or.inr ⟨by decide, rest, rfl, hrest⟩)
  apply (keys_exact_iff MapStore.flatStore "a*" 0 _ _ keys.toFinset (mem_holding keys)
    (by decide +kernel) (by decide +kernel)).mpr
  intro key hkey hmatch
  simp only [keys, List.mem_toFinset, List.mem_cons, List.not_mem_nil, or_false] at hkey
  rcases hkey with rfl | rfl | rfl | rfl
  · exact hlooks [] (Or.inl rfl)
  · exact hlooks [98] (Or.inr (Or.inr ⟨98, [], rfl, by decide⟩))
  · exact hlooks [126] (Or.inr (Or.inl rfl))
  · exact absurd hmatch (by decide +kernel)

/-- A key that goes on above the tilde is not listed. -/
theorem keys_not_exact :
    ¬ KeysExact (MapStore.view (holding [asBytes "aé"]).store) "a*"
      (replyOf (CommandExecutor.respond 0 (.new { requirepass := none })
        (.keys "a*")) (holding [asBytes "aé"])) := by
  have hfront : extractPrefix "a*" = "a" := by decide +kernel
  have hkeys : CommandExecutor.respond 0 (.new { requirepass := none })
      (.keys "a*") =
        CommandExecutor.keysInRange "a*" (asBytes "a") (asBytes "a" ++ asBytes "~") := by
    change CommandExecutor.keys "a*" = _
    simp only [CommandExecutor.keys, hfront]
    rfl
  rw [hkeys, keysInRange_exact_iff MapStore.flatStore "a*" _ _ _ (mem_holding _)
    (by decide)]
  intro h
  have hrange := h (asBytes "aé") (by decide +kernel) (by decide +kernel)
  exact absurd hrange.2 (by decide +kernel)

end FeoxServer
