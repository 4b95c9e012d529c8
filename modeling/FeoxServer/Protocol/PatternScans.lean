import FeoxServer.Protocol.Scanning

/-!
# Scanning with a pattern

A whole `SCAN` with a pattern compared with `KEYS`.
-/

namespace FeoxServer

open Foundation Prog

/-- The keys that `KEYS` lists among the stored ones. -/
def listedKeys (pattern : String) (start stop : Bytes) (stored : List Bytes) :
    List Bytes :=
  (stored.filter fun key => decide (start <= key ∧ key <= stop)).filter fun key =>
    matchPattern key pattern

/-- The keys that a scan with the pattern looks at: behind a prefix that is
followed by a star the same as `KEYS`, and otherwise all. -/
def ScanLooksAt (pattern : String) (key : Bytes) : Prop :=
  extractPrefix pattern = "" ∨ '*' ∉ pattern.toList ∨
    exists rest, key = asBytes (extractPrefix pattern) ++ rest ∧ BelowTilde rest

/-- The pages get through these keys.  Counted from the beginning or from behind a
full page, the next `count` keys that match are among the next `2 * count + 1`;
and if yet another one matches, they are among the next `2 * count`, and the key
behind the last of them is not the end marker. -/
abbrev ScanDense (count : UInt64) (pattern : String) (keys : List Bytes) : Prop :=
  Pages.Dense (fun key => matchPattern key pattern) (· = scanEnds) count.toNat
    (2 * count.toNat + 1) keys

/-- `KEYS` looks at the same keys as a scan. -/
def SameKeys (pattern : String) : Prop :=
  extractPrefix pattern = "" ∨ '*' ∈ pattern.toList

/-- The keys that match up to some point are those that `KEYS` looks at, the pages
get through the keys up to there, and to no key that matches behind. -/
def ScanStopsRight (count : UInt64) (pattern : String) (scanned : List Bytes) :
    Prop :=
  exists front rest, scanned = front ++ rest ∧
    (forall key, key ∈ front -> matchPattern key pattern = true ->
      LooksAt pattern key) ∧
    (forall key, key ∈ rest -> matchPattern key pattern = true ->
      ¬ LooksAt pattern key) ∧
    ScanDense count pattern front ∧
    forall gap key more, rest = gap ++ key :: more ->
      matchPattern key pattern = true ->
        ¬ ScanDense count pattern (front ++ gap ++ [key])

theorem extractPrefix_prefix (pattern : String) :
    (asBytes (extractPrefix pattern)).isPrefixOf (asBytes pattern) = true := by
  rw [List.isPrefixOf_iff_prefix]
  have hsplit : pattern = extractPrefix pattern ++
      String.ofList (pattern.toList.dropWhile fun c =>
        !(c == '*' || c == '?' || c == '[')) := by
    rw [extractPrefix, ← String.ofList_append, List.takeWhile_append_dropWhile,
      String.ofList_toList]
  nth_rewrite 2 [hsplit]
  rw [asBytes_append]
  exact List.prefix_append _ _

theorem star_notMem_extractPrefix (pattern : String) :
    '*' ∉ (extractPrefix pattern).toList := by
  intro hmem
  rw [extractPrefix, String.toList_ofList] at hmem
  have hstar := List.mem_takeWhile_imp hmem
  simp at hstar

theorem looksAt_iff_scanLooksAt {pattern : String} (h : SameKeys pattern)
    (key : Bytes) : LooksAt pattern key <-> ScanLooksAt pattern key := by
  by_cases hempty : extractPrefix pattern = ""
  · exact iff_of_true (Or.inl hempty) (Or.inl hempty)
  · have hstar := h.resolve_left hempty
    have hwildcard : pattern ≠ extractPrefix pattern := by
      intro heq
      rw [heq] at hstar
      exact star_notMem_extractPrefix pattern hstar
    rw [looksAt_wildcard hempty hwildcard]
    constructor
    · exact fun hkey => Or.inr (Or.inr hkey)
    · rintro (hnil | hnone | hkey)
      · exact absurd hnil hempty
      · exact absurd hstar hnone
      · exact hkey

theorem scanLooksAt_of_looksAt {pattern : String} {key : Bytes}
    (h : LooksAt pattern key) : ScanLooksAt pattern key := by
  by_cases hsame : SameKeys pattern
  · exact (looksAt_iff_scanLooksAt hsame key).mp h
  · exact Or.inr (Or.inl fun hstar => hsame (Or.inr hstar))

theorem inScanRange_iff {pattern : String} {key : Bytes} (hlength : key.length <= 200) :
    inScanRange scanEnds (some pattern) key = true <-> ScanLooksAt pattern key := by
  have hall : [] <= key ∧ key <= CommandExecutor.lastKey :=
    ⟨List.nil_le key, le_replicate (Nat.le_trans hlength (by decide))⟩
  have hbegin : CommandExecutor.scanRange scanEnds (some pattern) =
      if asBytes (extractPrefix pattern) ≠ [] ∧ '*' ∈ pattern.toList then
        (asBytes (extractPrefix pattern),
          asBytes (extractPrefix pattern) ++ asBytes "~")
      else ([], CommandExecutor.lastKey) := by
    simp [CommandExecutor.scanRange, scanEnds, extractPrefix_prefix]
  have hnil : asBytes (extractPrefix pattern) = [] <-> extractPrefix pattern = "" :=
    asBytes_injective.eq_iff (b := "")
  unfold inScanRange
  rw [decide_eq_true_iff, hbegin]
  by_cases hrange : asBytes (extractPrefix pattern) ≠ [] ∧ '*' ∈ pattern.toList
  · rw [if_pos hrange]
    dsimp only
    rw [between_append]
    simp only [le_tilde_iff]
    constructor
    · exact fun hkey => Or.inr (Or.inr hkey)
    · rintro (hempty | hnone | hkey)
      · exact absurd (hnil.mpr hempty) hrange.1
      · exact absurd hrange.2 hnone
      · exact hkey
  · rw [if_neg hrange]
    refine iff_of_true hall ?_
    by_cases hempty : extractPrefix pattern = ""
    · exact Or.inl hempty
    · exact Or.inr (Or.inl fun hstar => hrange ⟨mt hnil.mp hempty, hstar⟩)

theorem mem_filter_inScanRange {pattern : String} {stored : List Bytes}
    (hlength : forall key, key ∈ stored -> key.length <= 200) (key : Bytes) :
    key ∈ stored.filter (inScanRange scanEnds (some pattern)) <->
      key ∈ stored ∧ ScanLooksAt pattern key := by
  rw [List.mem_filter]
  exact and_congr_right fun hkey => inScanRange_iff (hlength key hkey)

section PatternScans

variable {S : FeoxStore} {P : Platform}
  {view : S.State -> Bytes -> Option Bytes}

/-- A whole scan shows the keys that `KEYS` lists. -/
def ScanAgrees (fuel : Nat) (x : CommandExecutor) (count : UInt64)
    (pattern : String) (w : World S P) : Prop :=
  exists keys,
    replyOf (x.respond fuel (.keys pattern)) w =
      some (CommandExecutor.bulkArray keys) ∧
    Iterates fuel x count (some pattern) w scanEnds keys

theorem keysInRange_reply (hS : FlatStore S view) (pattern : String)
    (start stop : Bytes) (w : World S P) {stored : List Bytes}
    (hstored : KeysInOrder (view w.store) stored)
    (hcard : stored.length <= 100000) :
    replyOf (CommandExecutor.keysInRange pattern start stop) w =
      some (CommandExecutor.bulkArray (listedKeys pattern start stop stored)) := by
  rcases rangeQuery_keys hS w.store start stop 100000 hstored with
    ⟨pairs, s', hquery, hkeys⟩
  have hlength : (stored.filter fun key =>
      decide (start <= key ∧ key <= stop)).length <= (100000 : UInt64).toNat :=
    Nat.le_trans (List.length_filter_le _ _) hcard
  rw [List.take_of_length_le hlength] at hkeys
  unfold replyOf
  rw [CommandExecutor.keysInRange, HashOperations.run_callStore hquery]
  dsimp only
  rw [hkeys]
  rfl

theorem keys_listed (hS : FlatStore S view) (pattern : String) (fuel : Nat)
    (x : CommandExecutor) (w : World S P) {stored : List Bytes}
    (hstored : KeysInOrder (view w.store) stored)
    (hcard : stored.length <= 100000)
    (hlength : forall key, key ∈ stored -> key.length <= 200) :
    exists keys,
      replyOf (x.respond fuel (.keys pattern)) w =
        some (CommandExecutor.bulkArray keys) ∧
      keys.Pairwise (· < ·) ∧
      forall key, key ∈ keys <->
        key ∈ stored ∧ matchPattern key pattern = true ∧ LooksAt pattern key := by
  have hrange : forall start stop,
      (forall key, key ∈ stored ->
        (start <= key ∧ key <= stop <-> LooksAt pattern key)) ->
      CommandExecutor.keys pattern =
        CommandExecutor.keysInRange pattern start stop ->
      exists keys,
        replyOf (CommandExecutor.keys pattern) w =
          some (CommandExecutor.bulkArray keys) ∧
        keys.Pairwise (· < ·) ∧
        forall key, key ∈ keys <->
          key ∈ stored ∧ matchPattern key pattern = true ∧
            LooksAt pattern key := by
    intro start stop hlooks hkeys
    refine ⟨listedKeys pattern start stop stored, ?_,
      (hstored.sorted.filter _).filter _, fun key => ?_⟩
    · rw [hkeys]
      exact keysInRange_reply hS pattern start stop w hstored hcard
    · unfold listedKeys
      rw [List.mem_filter, List.mem_filter, decide_eq_true_iff, and_assoc]
      apply and_congr_right
      intro hkey
      rw [hlooks key hkey, and_comm]
  change exists keys, replyOf (CommandExecutor.keys pattern) w = _ ∧ _
  by_cases hempty : extractPrefix pattern = ""
  · apply hrange [] CommandExecutor.lastKey
    · intro key hkey
      have hlast : key.length <= 255 := Nat.le_trans (hlength key hkey) (by decide)
      exact iff_of_true ⟨List.nil_le key, le_replicate hlast⟩ (Or.inl hempty)
    · simp only [CommandExecutor.keys, if_pos hempty]
  · by_cases hliteral : pattern = extractPrefix pattern
    · have hkeys : CommandExecutor.keys pattern = lookUp pattern :=
        ((if_neg hempty).trans (if_pos hliteral)).trans
          (congrArg lookUp hliteral.symm)
      unfold replyOf
      rw [hkeys, lookUp]
      cases hview : view w.store (asBytes pattern) with
      | some value =>
          rcases hS.getBytes_present hview with ⟨s', hget, _⟩
          rw [HashOperations.run_callStore hget]
          refine ⟨[asBytes pattern], rfl, List.pairwise_singleton _ _, fun key => ?_⟩
          rw [List.mem_singleton, looksAt_literal hempty hliteral]
          constructor
          · intro hkey
            subst hkey
            exact ⟨(hstored.mem _).mpr (by rw [hview]; rfl),
              matchPattern_self pattern, rfl⟩
          · intro h
            exact h.2.2
      | none =>
          rcases hS.getBytes_absent hview with ⟨e, s', hget, _⟩
          rw [HashOperations.run_callStore hget]
          refine ⟨[], rfl, List.Pairwise.nil, fun key => ?_⟩
          rw [looksAt_literal hempty hliteral]
          apply iff_of_false List.not_mem_nil
          intro h
          rcases h with ⟨hkey, _, heq⟩
          rw [heq, hstored.mem, hview] at hkey
          cases hkey
    · apply hrange (asBytes (extractPrefix pattern))
        (asBytes (extractPrefix pattern) ++ asBytes "~")
      · intro key _
        rw [looksAt_wildcard hempty hliteral, between_append]
        simp only [le_tilde_iff]
      · simp only [CommandExecutor.keys, if_neg hempty, if_neg hliteral]

theorem toNat_scanFetch_some {count : UInt64} (pattern : String)
    (h : count.toNat < 2 ^ 63) :
    (scanFetch count (some pattern)).toNat = 2 * count.toNat + 1 := by
  change (count * 2 + 1).toNat = _
  rw [UInt64.toNat_add, UInt64.toNat_mul]
  have hone : (1 : UInt64).toNat = 1 := rfl
  have htwo : (2 : UInt64).toNat = 2 := rfl
  rw [hone, htwo]
  omega

/-- The keys that `KEYS` lists, among those that a scan looks at. -/
structure ListedOf (pattern : String) (scanned listed : List Bytes) : Prop where
  sorted : listed.Pairwise (· < ·)
  mem : forall key, key ∈ listed <->
    key ∈ scanned ∧ matchPattern key pattern = true ∧ LooksAt pattern key

/-- Where both look at the same keys, the pages show what is listed if they get through
all of these. -/
theorem found_eq_listed_iff_dense {pattern : String} {count : UInt64}
    {scanned listed found : List Bytes} (hsame : SameKeys pattern)
    (hpos : 1 <= count.toNat) (horder : scanned.Pairwise (· < ·))
    (hscanned : forall key, key ∈ scanned -> ScanLooksAt pattern key)
    (hlisted : ListedOf pattern scanned listed)
    (hfound : Pages.Reads (fun key => matchPattern key pattern) (· = scanEnds)
      count.toNat (2 * count.toNat + 1) scanned found) :
    found = listed <-> ScanDense count pattern scanned := by
  have hall : listed = scanned.filter fun key => matchPattern key pattern := by
    apply List.Pairwise.eq_of_mem_iff hlisted.sorted (horder.filter _)
    intro key
    rw [hlisted.mem, List.mem_filter]
    apply and_congr_right
    intro hkey
    exact and_iff_left ((looksAt_iff_scanLooksAt hsame key).mpr (hscanned key hkey))
  rw [hall, hfound.eq_filter_all_iff hpos]

/-- Elsewhere the pages show what is listed if they stop right behind it. -/
theorem found_eq_listed_iff_stops {pattern : String} {count : UInt64}
    {scanned listed found : List Bytes} (hpos : 1 <= count.toNat)
    (horder : scanned.Pairwise (· < ·)) (hlisted : ListedOf pattern scanned listed)
    (hfound : Pages.Reads (fun key => matchPattern key pattern) (· = scanEnds)
      count.toNat (2 * count.toNat + 1) scanned found) :
    found = listed <-> ScanStopsRight count pattern scanned := by
  constructor
  · intro heq
    rcases hfound.isPrefix with ⟨others, hothers⟩
    rcases List.filter_eq_append_iff.mp hothers.symm with
      ⟨front, rest, hsplit, hfront, _⟩
    have hapart := hsplit ▸ horder
    rw [hsplit] at hfound
    rcases (hfound.eq_filter_iff hpos).mp hfront.symm with ⟨hdense, hbeyond⟩
    have hshown : forall key, key ∈ listed <->
        key ∈ front ∧ matchPattern key pattern = true := by
      intro key
      rw [← heq, ← hfront, List.mem_filter]
    refine ⟨front, rest, hsplit, ?_, ?_, hdense, hbeyond⟩
    · intro key hkey hmatch
      exact ((hlisted.mem key).mp ((hshown key).mpr ⟨hkey, hmatch⟩)).2.2
    · intro key hkey hmatch hlooks
      have hmem : key ∈ listed := by
        rw [hlisted.mem, hsplit]
        exact ⟨List.mem_append_right _ hkey, hmatch, hlooks⟩
      -- It would have to stand in the front, which ends before it.
      have hlt := (List.pairwise_append.mp hapart).2.2 key ((hshown key).mp hmem).1 key hkey
      exact List.lt_irrefl key hlt
  · intro h
    rcases h with ⟨front, rest, hsplit, hlooks, hnone, hdense, hbeyond⟩
    rw [hsplit] at hfound horder
    rw [(hfound.eq_filter_iff hpos).mpr ⟨hdense, hbeyond⟩]
    apply List.Pairwise.eq_of_mem_iff ((List.pairwise_append.mp horder).1.filter _)
      hlisted.sorted
    intro key
    rw [List.mem_filter, hlisted.mem, hsplit, List.mem_append]
    constructor
    · intro hkey
      exact ⟨Or.inl hkey.1, hkey.2, hlooks key hkey.1 hkey.2⟩
    · intro hkey
      rcases hkey with ⟨hfront | hrest, hmatch, hlooked⟩
      · exact ⟨hfront, hmatch⟩
      · exact absurd hlooked (hnone key hrest hmatch)

/-- A whole scan with a pattern agrees with `KEYS` if and only if its pages get
through the keys that it looks at; where `KEYS` looks at fewer keys, if and only if
its pages stop right behind those. -/
theorem scan_agrees_iff (hS : SteadyStore S view) (pattern : String)
    (count : UInt64) (fuel : Nat) (x : CommandExecutor) (w : World S P)
    (stored scanned : List Bytes) (hstored : KeysInOrder (view w.store) stored)
    (hcard : stored.length <= 100000)
    (hlength : forall key, key ∈ stored -> key.length <= 200)
    (hscanned : scanned.Sublist stored)
    (hmem : forall key, key ∈ scanned <-> key ∈ stored ∧ ScanLooksAt pattern key)
    (hpos : 1 <= count.toNat) (hmax : count.toNat < 2 ^ 63) :
    (SameKeys pattern ->
      (ScanAgrees fuel x count pattern w <-> ScanDense count pattern scanned)) ∧
    (¬ SameKeys pattern ->
      (ScanAgrees fuel x count pattern w <->
        ScanStopsRight count pattern scanned)) := by
  rcases keys_listed hS.toFlatStore pattern fuel x w hstored hcard hlength with
    ⟨listed, hreplied, hsorted, hlists⟩
  have horder : scanned.Pairwise (· < ·) := hstored.sorted.sublist hscanned
  have hfilter : stored.filter (inScanRange scanEnds (some pattern)) = scanned := by
    apply List.Pairwise.eq_of_mem_iff (hstored.sorted.filter _) horder
    intro key
    rw [mem_filter_inScanRange hlength, hmem]
  have hlisted : ListedOf pattern scanned listed := by
    constructor
    · exact hsorted
    · intro key
      rw [hlists, hmem]
      constructor
      · intro h
        exact ⟨⟨h.1, scanLooksAt_of_looksAt h.2.2⟩, h.2⟩
      · intro h
        exact ⟨h.1.1, h.2⟩
  rcases @Pages.reads_exists Bytes (scanPasses (some pattern)) (· = scanEnds) _
    count.toNat hpos (scanFetch count (some pattern)).toNat scanned with
    ⟨found, hfound⟩
  have hscan := iterates_iff_reads hS fuel x count (some pattern) hstored scanEnds
  rw [hfilter] at hscan
  have hagrees : ScanAgrees fuel x count pattern w <-> found = listed := by
    constructor
    · intro h
      rcases h with ⟨keys, hreply, hiterates⟩
      rw [hreplied] at hreply
      have hkeys := CommandExecutor.bulkArray_injective (Option.some.inj hreply)
      rw [hkeys]
      exact hfound.unique ((hscan keys).mp hiterates)
    · intro heq
      rw [heq] at hfound
      exact ⟨listed, hreplied, (hscan listed).mpr hfound⟩
  rw [toNat_scanFetch_some pattern hmax] at hfound
  rw [hagrees]
  constructor
  · intro hsame
    exact found_eq_listed_iff_dense hsame hpos horder (fun key hkey => ((hmem key).mp hkey).2)
      hlisted hfound
  · intro _
    exact found_eq_listed_iff_stops hpos horder hlisted hfound

end PatternScans

theorem scan_agrees_prefix :
    ScanAgrees 0 (.new { requirepass := none }) 2 "a*c"
        (storing [[97], [97, 98], [97, 99], [98]]) <->
      ScanDense 2 "a*c" [[97], [97, 98], [97, 99]] := by
  have hsame : SameKeys "a*c" := Or.inr (by decide +kernel)
  have hlength : forall key, key ∈ ([[97], [97, 98], [97, 99], [98]] : List Bytes) ->
      key.length <= 200 := by decide
  have hscanned : ([[97], [97, 98], [97, 99], [98]] : List Bytes).filter
      (inScanRange scanEnds (some "a*c")) = [[97], [97, 98], [97, 99]] := by
    decide +kernel
  refine (scan_agrees_iff MapStore.steadyStore "a*c" 2 0 _ _
    [[97], [97, 98], [97, 99], [98]] _ (keysInOrder_storing (by decide)) (by decide)
    hlength (by decide) (fun key => ?_) (by decide) (by decide)).1 hsame
  rw [← hscanned]
  exact mem_filter_inScanRange hlength key

/-- The keys `a1`, `a2`, `a3` and `b`. -/
def sparseKeys : List Bytes :=
  [[97, 49], [97, 50], [97, 51], [98]]

/-- A key behind three others that do not match is not found with a count of
one. -/
theorem scan_misses_sparse :
    ¬ ScanAgrees 0 (.new { requirepass := none }) 1 "*b" (storing sparseKeys) := by
  have hstored : KeysInOrder (MapStore.view (storing sparseKeys).store) sparseKeys :=
    keysInOrder_storing (by decide)
  intro h
  rcases h with ⟨keys, hreply, hiterates⟩
  have hreads := (iterates_iff_reads MapStore.steadyStore 0 _ 1 (some "*b") hstored
    scanEnds keys).mp hiterates
  have hpage : scanPage 1 (some "*b")
      (sparseKeys.filter (inScanRange scanEnds (some "*b"))) = ([], []) := by
    decide +kernel
  have hnone : keys = [] := hreads.unique (Pages.Reads.of_page hpage)
  have hfront : extractPrefix "*b" = "" := by decide +kernel
  have hkeys : CommandExecutor.respond 0 (.new { requirepass := none })
      (.keys "*b") = CommandExecutor.keysInRange "*b" [] CommandExecutor.lastKey := by
    change CommandExecutor.keys "*b" = _
    simp only [CommandExecutor.keys, if_pos hfront]
  have hlisted : listedKeys "*b" [] CommandExecutor.lastKey sparseKeys = [[98]] := by
    decide +kernel
  rw [hkeys, keysInRange_reply MapStore.flatStore "*b" _ _ _ hstored (by decide),
    hlisted, hnone] at hreply
  have hsame := CommandExecutor.bulkArray_injective (Option.some.inj hreply)
  cases hsame

end FeoxServer
