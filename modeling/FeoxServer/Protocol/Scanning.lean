import FeoxServer.Foundation.Pages
import FeoxServer.Protocol.KeyPatterns

/-!
# Scanning the keys

A client that feeds each cursor of `SCAN` back reads the keys of the store page
by page.
-/

namespace FeoxServer

open Foundation Prog

/-- Whether `SCAN` shows a key that it has fetched. -/
def scanPasses : Option String -> Bytes -> Bool
  | some pattern, key => matchPattern key pattern
  | none, _ => true

/-- The number of keys that `SCAN` fetches. -/
def scanFetch (count : UInt64) (pattern : Option String) : UInt64 :=
  (if pattern.isSome then count * 2 else count) + 1

/-- What one `SCAN` shows of the keys of its range, and the keys to go on
with. -/
abbrev scanPage (count : UInt64) (pattern : Option String) (items : List Bytes) :
    List Bytes × List Bytes :=
  Pages.page (scanPasses pattern) count.toNat (scanFetch count pattern).toNat items

/-- A key of the range that `SCAN` reads. -/
def inScanRange (cursor : Bytes) (pattern : Option String) (key : Bytes) : Bool :=
  decide ((CommandExecutor.scanRange cursor pattern).1 <= key ∧
    key <= (CommandExecutor.scanRange cursor pattern).2)

/-- The cursor at which a scan begins, and which says that it is over. -/
def scanEnds : Bytes :=
  asBytes "0"

abbrev ScanReads (count : UInt64) (pattern : Option String) :
    List Bytes -> List Bytes -> Prop :=
  Pages.Reads (scanPasses pattern) (· = scanEnds) count.toNat
    (scanFetch count pattern).toNat

def scanReply (cursor : Bytes) (keys : List Bytes) : RespValue :=
  .array (some [CommandExecutor.bulk cursor, CommandExecutor.bulkArray keys])

/-- The stored keys in their order. -/
structure KeysInOrder (view : Bytes -> Option Bytes) (stored : List Bytes) :
    Prop where
  sorted : stored.Pairwise (· < ·)
  mem : forall key, key ∈ stored <-> (view key).isSome = true

theorem scanReply_injective {cursor cursor' : Bytes} {keys keys' : List Bytes}
    (h : scanReply cursor keys = scanReply cursor' keys') :
    cursor = cursor' ∧ keys = keys' := by
  unfold scanReply at h
  injection h with h
  injection h with h
  injection h with hcursor h
  injection h with hkeys _
  injection hcursor with hcursor
  injection hcursor with hcursor
  exact ⟨hcursor, CommandExecutor.bulkArray_injective hkeys⟩

theorem scanLoop_cons (count : UInt64) (pattern : Option String) (key : Bytes)
    (keys found : List Bytes) :
    CommandExecutor.scanLoop count pattern (key :: keys) found =
      if count.toNat <= found.length then (found, some key)
      else if scanPasses pattern key then
        CommandExecutor.scanLoop count pattern keys (found ++ [key])
      else CommandExecutor.scanLoop count pattern keys found := by
  cases pattern <;> rfl

theorem scanLoop_page (count : UInt64) (pattern : Option String)
    (keys : List Bytes) (window : Nat) {found : List Bytes} {left : Nat}
    (h : found.length + left = count.toNat) :
    CommandExecutor.scanLoop count pattern (keys.take window) found =
      (found ++ (Pages.page (scanPasses pattern) left window keys).1,
        (Pages.page (scanPasses pattern) left window keys).2.head?) := by
  induction keys generalizing window found left with
  | nil =>
      rw [List.take_nil, Pages.page_nil, List.append_nil]
      rfl
  | cons key keys ih =>
      cases window with
      | zero =>
          have hpage : Pages.page (scanPasses pattern) left 0 (key :: keys) =
              ([], []) := by
            cases left <;> rfl
          rw [hpage, List.append_nil]
          rfl
      | succ window =>
          rw [List.take_succ_cons, scanLoop_cons]
          cases left with
          | zero =>
              have henough : count.toNat <= found.length := Nat.le_of_eq h.symm
              rw [if_pos henough, Pages.page_zero, List.append_nil]
              rfl
          | succ left =>
              have hroom : ¬ count.toNat <= found.length := by omega
              rw [if_neg hroom]
              cases hp : scanPasses pattern key with
              | true =>
                  have hmore : (found ++ [key]).length + left = count.toNat := by
                    rw [List.length_append, List.length_singleton, ← h]
                    omega
                  rw [Pages.page_pass hp, if_pos rfl, ih window hmore,
                    List.append_assoc]
                  rfl
              | false =>
                  rw [Pages.page_skip hp, if_neg Bool.false_ne_true]
                  exact ih window h

section Scan

variable {S : FeoxStore} {P : Platform}
  {view : S.State -> Bytes -> Option Bytes}

theorem rangeQuery_keys (hS : FlatStore S view) (s : S.State)
    (start stop : Bytes) (limit : UInt64) {stored : List Bytes}
    (hstored : KeysInOrder (view s) stored) :
    exists pairs s', S.reply (.rangeQuery start stop limit) s = (.ok pairs, s') ∧
      pairs.map Prod.fst =
        (stored.filter fun key => decide (start <= key ∧ key <= stop)).take
          limit.toNat := by
  rcases hS.rangeQuery s start stop limit with ⟨pairs, s', hquery, hsorted, hmem⟩
  refine ⟨pairs.take limit.toNat, s', hquery, ?_⟩
  rw [List.map_take]
  congr 1
  refine List.Pairwise.eq_of_mem_iff (List.pairwise_map.mpr hsorted)
    (hstored.sorted.filter _) fun key => ?_
  rw [List.mem_map, List.mem_filter, hstored.mem, decide_eq_true_iff,
    Option.isSome_iff_exists]
  constructor
  · intro h
    rcases h with ⟨⟨k, value⟩, hpair, hk⟩
    subst hk
    have hentry := (hmem k value).mp hpair
    exact ⟨⟨value, hentry.2⟩, hentry.1⟩
  · intro h
    rcases h with ⟨⟨value, hvalue⟩, hrange⟩
    exact ⟨(key, value), (hmem key value).mpr ⟨hrange, hvalue⟩, rfl⟩

theorem scan_run (hS : SteadyStore S view) (fuel : Nat) (x : CommandExecutor)
    (cursor : Bytes) (count : UInt64) (pattern : Option String) (w : World S P)
    {stored : List Bytes} (hstored : KeysInOrder (view w.store) stored)
    {items : List Bytes}
    (hitems : stored.filter (inScanRange cursor pattern) = items) :
    exists w', (x.respond fuel (.scan cursor count pattern)).run (server S P) w =
        some (scanReply ((scanPage count pattern items).2.head?.getD scanEnds)
          (scanPage count pattern items).1, w') ∧
      view w'.store = view w.store := by
  rcases hrange : CommandExecutor.scanRange cursor pattern with ⟨start, stop⟩
  have hfilter : inScanRange cursor pattern =
      fun key => decide (start <= key ∧ key <= stop) := by
    funext key
    unfold inScanRange
    rw [hrange]
  rcases rangeQuery_keys hS.toFlatStore w.store start stop
    (scanFetch count pattern) hstored with ⟨pairs, s', hquery, hkeys⟩
  rw [← hfilter, hitems] at hkeys
  have hloop := @scanLoop_page count pattern items
    (scanFetch count pattern).toNat [] count.toNat (Nat.zero_add _)
  rw [← hkeys, List.nil_append] at hloop
  have hview := hS.rangeQuery_view w.store start stop (scanFetch count pattern)
  rw [hquery] at hview
  refine ⟨{ w with store := s' }, ?_, hview⟩
  change (CommandExecutor.scan cursor count pattern).run (server S P) w = _
  unfold scanFetch at hquery
  rw [CommandExecutor.scan, hrange]
  dsimp only
  rw [HashOperations.run_callStore hquery]
  dsimp only
  rw [hloop]
  rfl

theorem scan_answer (hS : SteadyStore S view) (fuel : Nat) (x : CommandExecutor)
    {cursor more : Bytes} {count : UInt64} {pattern : Option String}
    {w w' : World S P} {stored items keys : List Bytes}
    (hstored : KeysInOrder (view w.store) stored)
    (hitems : stored.filter (inScanRange cursor pattern) = items)
    (hrun : (x.respond fuel (.scan cursor count pattern)).run (server S P) w =
      some (scanReply more keys, w')) :
    more = (scanPage count pattern items).2.head?.getD scanEnds ∧
      keys = (scanPage count pattern items).1 ∧ view w'.store = view w.store := by
  rcases scan_run hS fuel x cursor count pattern w hstored hitems with
    ⟨w'', hrun', hview⟩
  rw [hrun] at hrun'
  injection hrun' with hrun'
  injection hrun' with hreply hworld
  subst hworld
  rcases scanReply_injective hreply with ⟨hmore, hkeys⟩
  exact ⟨hmore, hkeys, hview⟩

/-!
# Whole scans
-/

/-- A client scans from a cursor on until it is told that the scan is over;
these are the keys that it is shown. -/
inductive Iterates (fuel : Nat) (x : CommandExecutor) (count : UInt64)
    (pattern : Option String) : World S P -> Bytes -> List Bytes -> Prop
  | last {w w' : World S P} {cursor : Bytes} {keys : List Bytes} :
      (x.respond fuel (.scan cursor count pattern)).run (server S P) w =
          some (scanReply scanEnds keys, w') ->
        Iterates fuel x count pattern w cursor keys
  | next {w w' : World S P} {cursor more : Bytes} {keys rest : List Bytes} :
      (x.respond fuel (.scan cursor count pattern)).run (server S P) w =
          some (scanReply more keys, w') ->
        more ≠ scanEnds -> Iterates fuel x count pattern w' more rest ->
          Iterates fuel x count pattern w cursor (keys ++ rest)

/-- A cursor other than the two that stand for the beginning is the key to go
on from. -/
theorem scanRange_eq (cursor : Bytes) (pattern : Option String) :
    CommandExecutor.scanRange cursor pattern =
      (if cursor = [] ∨ cursor = scanEnds then
        (CommandExecutor.scanRange [] pattern).1 else cursor,
        (CommandExecutor.scanRange [] pattern).2) := by
  unfold CommandExecutor.scanRange scanEnds
  cases pattern with
  | none => simp
  | some pattern =>
      dsimp only
      by_cases hbegin : cursor = [] ∨ cursor = asBytes "0"
      · simp [hbegin]
      · have hcursor : cursor ≠ [] := fun hnil => hbegin (Or.inl hnil)
        split_ifs <;> simp_all

theorem filter_from {before rest : List Bytes} {key : Bytes}
    (h : (before ++ key :: rest).Pairwise (· < ·)) :
    ((before ++ key :: rest).filter fun k => decide (key <= k)) = key :: rest := by
  rw [List.pairwise_append, List.pairwise_cons] at h
  rcases h with ⟨_, ⟨hrest, _⟩, hbefore⟩
  rw [List.filter_append]
  have hnone : before.filter (fun k => decide (key <= k)) = [] := by
    apply List.filter_eq_nil_iff.mpr
    intro k hk hle
    have hlt := hbefore k hk key List.mem_cons_self
    exact absurd hlt (List.not_lt.mpr (decide_eq_true_iff.mp hle))
  have hall : (key :: rest).filter (fun k => decide (key <= k)) = key :: rest := by
    apply List.filter_eq_self.mpr
    intro k hk
    apply decide_eq_true
    rcases List.mem_cons.mp hk with heq | hmem
    · exact heq ▸ List.le_refl _
    · exact List.le_of_lt (hrest k hmem)
  rw [hnone, hall, List.nil_append]

theorem filter_inScanRange {pattern : Option String} {cursor key : Bytes}
    {stored before rest : List Bytes} (hsorted : stored.Pairwise (· < ·))
    (hitems : stored.filter (inScanRange cursor pattern) = before ++ key :: rest)
    (hends : key ≠ scanEnds) :
    stored.filter (inScanRange key pattern) = key :: rest := by
  have hmem : forall k, k ∈ before ++ key :: rest ->
      (CommandExecutor.scanRange cursor pattern).1 <= k ∧
        k <= (CommandExecutor.scanRange cursor pattern).2 := by
    intro k hk
    rw [← hitems, List.mem_filter] at hk
    exact decide_eq_true_iff.mp hk.2
  have horder : (before ++ key :: rest).Pairwise (· < ·) := hitems ▸ hsorted.filter _
  have hkey := hmem key (List.mem_append_right _ List.mem_cons_self)
  have hstop : (CommandExecutor.scanRange cursor pattern).2 =
      (CommandExecutor.scanRange [] pattern).2 := by
    rw [scanRange_eq]
  -- The range from the key on is the part of the range that is not below it.
  have hstart : (CommandExecutor.scanRange key pattern).1 = key := by
    rw [scanRange_eq]
    dsimp only
    by_cases hnil : key = []
    · subst hnil
      have hfirst := List.le_nil.mp hkey.1
      rw [if_pos (Or.inl rfl)]
      rw [scanRange_eq] at hfirst
      dsimp only at hfirst
      by_cases hbegin : cursor = [] ∨ cursor = scanEnds
      · rw [if_pos hbegin] at hfirst
        exact hfirst
      · rw [if_neg hbegin] at hfirst
        exact absurd (Or.inl hfirst) hbegin
    · rw [if_neg (not_or.mpr ⟨hnil, hends⟩)]
  have hrange : forall k, inScanRange key pattern k =
      (inScanRange cursor pattern k && decide (key <= k)) := by
    intro k
    unfold inScanRange
    rw [hstart, hstop, scanRange_eq key, ← Bool.decide_and]
    apply decide_eq_decide.mpr
    constructor
    · intro h
      exact ⟨⟨List.le_trans hkey.1 h.1, h.2⟩, h.1⟩
    · intro h
      exact ⟨h.2, h.1.2⟩
  rw [show inScanRange key pattern = _ from funext hrange, ← List.filter_filter,
    List.filter_comm, hitems]
  exact filter_from horder

theorem iterates_iff_reads (hS : SteadyStore S view) (fuel : Nat)
    (x : CommandExecutor) (count : UInt64) (pattern : Option String)
    {w : World S P} {stored : List Bytes}
    (hstored : KeysInOrder (view w.store) stored) (cursor : Bytes)
    (keys : List Bytes) :
    Iterates fuel x count pattern w cursor keys <->
      ScanReads count pattern (stored.filter (inScanRange cursor pattern)) keys := by
  constructor
  · intro h
    induction h with
    | last hrun =>
        rcases scan_answer hS fuel x hstored rfl hrun with ⟨hends, hkeys, _⟩
        subst hkeys
        apply Pages.Reads.stop
        intro a rest hrest
        unfold scanPage at hends
        rw [hrest] at hends
        exact hends.symm
    | @next w w' cursor more keys found hrun hmore _ ih =>
        rcases scan_answer hS fuel x hstored rfl hrun with ⟨hcursor, hkeys, hview⟩
        subst hkeys
        cases hrest : (scanPage count pattern
            (stored.filter (inScanRange cursor pattern))).2 with
        | nil =>
            rw [hrest] at hcursor
            exact absurd hcursor hmore
        | cons a rest =>
            rw [hrest] at hcursor
            have ha : more = a := hcursor
            subst ha
            rcases Pages.page_rest_iff.mp hrest with ⟨before, hitems, _⟩
            have hlater := ih (hview ▸ hstored)
            rw [filter_inScanRange hstored.sorted hitems hmore] at hlater
            exact Pages.Reads.next hrest hmore hlater
  · intro h
    generalize hitems : stored.filter (inScanRange cursor pattern) = items at h
    induction h generalizing w cursor with
    | @stop items hstop =>
        rcases scan_run hS fuel x cursor count pattern w hstored hitems with
          ⟨w', hrun, _⟩
        have hends : (scanPage count pattern items).2.head?.getD scanEnds =
            scanEnds := by
          cases hrest : (scanPage count pattern items).2 with
          | nil => rfl
          | cons a rest => exact hstop a rest hrest
        rw [hends] at hrun
        exact Iterates.last hrun
    | @next items a rest found hrest hends _ ih =>
        rcases scan_run hS fuel x cursor count pattern w hstored hitems with
          ⟨w', hrun, hview⟩
        have hmore : (scanPage count pattern items).2.head?.getD scanEnds = a := by
          unfold scanPage
          rw [hrest]
          rfl
        rw [hmore] at hrun
        rcases Pages.page_rest_iff.mp hrest with ⟨before, hsplit, _⟩
        apply Iterates.next hrun hends
        apply ih (hview.symm ▸ hstored) a
        exact filter_inScanRange hstored.sorted (hitems.trans hsplit) hends

/-!
# Scans of all keys
-/

/-- A scan from the beginning comes to an end, and the client has been shown
every stored key once. -/
def ScansAll (fuel : Nat) (x : CommandExecutor) (count : UInt64) (w : World S P)
    (stored : List Bytes) : Prop :=
  exists keys, Iterates fuel x count none w scanEnds keys ∧ keys.Perm stored

/-- The number of stored keys that come before the end marker. -/
def keysBelowEnd (stored : List Bytes) : Nat :=
  stored.countP fun key => decide (key < scanEnds)

theorem getElem?_sorted_iff {keys : List Bytes} (h : keys.Pairwise (· < ·))
    {i : Nat} {key : Bytes} :
    keys[i]? = some key <->
      key ∈ keys ∧ keys.countP (fun k => decide (k < key)) = i := by
  induction keys generalizing i with
  | nil =>
      apply iff_of_false
      · intro hsome
        cases hsome
      · intro hmem
        cases hmem.1
  | cons k keys ih =>
      rcases List.pairwise_cons.mp h with ⟨hk, hkeys⟩
      rw [List.mem_cons]
      by_cases heq : key = k
      · subst heq
        have hnone : (key :: keys).countP (fun k => decide (k < key)) = 0 := by
          apply List.countP_eq_zero.mpr
          intro k hmem hlt
          have hlt := decide_eq_true_iff.mp hlt
          rcases List.mem_cons.mp hmem with hself | htail
          · exact List.lt_irrefl key (hself ▸ hlt)
          · exact List.lt_irrefl key (List.lt_trans (hk k htail) hlt)
        rw [hnone]
        cases i with
        | zero => exact iff_of_true rfl ⟨Or.inl rfl, rfl⟩
        | succ i =>
            apply iff_of_false
            · intro hsome
              rw [List.getElem?_cons_succ] at hsome
              exact List.lt_irrefl key (hk key (List.mem_of_getElem? hsome))
            · intro hcount
              cases hcount.2
      · cases i with
        | zero =>
            apply iff_of_false
            · intro hsome
              injection hsome with hkey
              exact heq hkey.symm
            · intro hcount
              rcases hcount with ⟨hself | hmem, hzero⟩
              · exact heq hself
              · have hneg := List.countP_eq_zero.mp hzero k List.mem_cons_self
                exact hneg (decide_eq_true (hk key hmem))
        | succ i =>
            rw [List.getElem?_cons_succ, ih hkeys, or_iff_right heq]
            apply and_congr_right
            intro hmem
            have hlt : decide (k < key) = true := decide_eq_true (hk key hmem)
            rw [List.countP_cons_of_pos (by exact hlt), Nat.add_right_cancel_iff]

/-- The range of a scan without a pattern holds all keys that are not too
long. -/
theorem filter_inScanRange_none {stored : List Bytes}
    (hlength : forall key, key ∈ stored -> key.length <= 200) :
    stored.filter (inScanRange scanEnds none) = stored := by
  apply List.filter_eq_self.mpr
  intro key hkey
  have hrange : CommandExecutor.scanRange scanEnds none =
      ([], CommandExecutor.lastKey) := by
    rw [scanRange_eq, if_pos (Or.inr rfl)]
    rfl
  unfold inScanRange
  rw [hrange]
  apply decide_eq_true
  have hlast : key.length <= 255 := Nat.le_trans (hlength key hkey) (by decide)
  exact ⟨List.nil_le key, le_replicate hlast⟩

theorem scansAll_iff_reads (hS : SteadyStore S view) (fuel : Nat)
    (x : CommandExecutor) (count : UInt64) {w : World S P} {stored : List Bytes}
    (hstored : KeysInOrder (view w.store) stored)
    (hlength : forall key, key ∈ stored -> key.length <= 200) :
    ScansAll fuel x count w stored <-> ScanReads count none stored stored := by
  unfold ScansAll
  simp only [iterates_iff_reads hS fuel x count none hstored,
    filter_inScanRange_none hlength]
  constructor
  · intro h
    rcases h with ⟨keys, hreads, hperm⟩
    have hsame : keys = stored := hreads.sublist.eq_of_length hperm.length_eq
    rw [hsame] at hreads
    exact hreads
  · intro h
    exact ⟨stored, h, List.Perm.refl stored⟩

theorem toNat_scanFetch_none {count : UInt64} (h : count + 1 ≠ 0) :
    (scanFetch count none).toNat = count.toNat + 1 := by
  have hbound := count.toNat_lt
  have hne : (count + 1).toNat ≠ 0 := by
    intro hzero
    exact h (UInt64.toNat_inj.mp hzero)
  change (count + 1).toNat = _
  rw [UInt64.toNat_add] at hne ⊢
  have hone : (1 : UInt64).toNat = 1 := rfl
  omega

/-- A scan of all keys is complete if and only if the store is empty, or the
size of a page is not zero, nor is the number of keys fetched for it, and no
page but the first begins with the key that is the end marker. -/
theorem scan_complete_iff (hS : SteadyStore S view) (fuel : Nat)
    (x : CommandExecutor) (count : UInt64) (w : World S P) (stored : List Bytes)
    (hstored : KeysInOrder (view w.store) stored)
    (hlength : forall key, key ∈ stored -> key.length <= 200) :
    ScansAll fuel x count w stored <->
      stored = [] ∨ (count ≠ 0 ∧ count + 1 ≠ 0 ∧
        ¬ (scanEnds ∈ stored ∧ 0 < keysBelowEnd stored ∧
          count.toNat ∣ keysBelowEnd stored)) := by
  rw [scansAll_iff_reads hS fuel x count hstored hlength]
  by_cases hempty : stored = []
  · subst hempty
    exact iff_of_true (Pages.reads_nil _ _) (Or.inl rfl)
  · rw [or_iff_right hempty]
    by_cases hfetch : count + 1 = 0
    · have hzero : (scanFetch count none).toNat = 0 := congrArg UInt64.toNat hfetch
      apply iff_of_false
      · intro hreads
        unfold ScanReads at hreads
        rw [hzero] at hreads
        exact hempty hreads.of_window_zero
      · intro h
        exact h.2.1 hfetch
    · unfold ScanReads
      rw [toNat_scanFetch_none hfetch]
      by_cases hcount : count = 0
      · subst hcount
        apply iff_of_false
        · intro hreads
          exact hreads.of_zero hempty rfl
        · intro h
          exact h.1 rfl
      · have hpos : 0 < count.toNat := by
          apply Nat.pos_of_ne_zero
          intro hzero
          exact hcount (UInt64.toNat_inj.mp hzero)
        have hall := @Pages.reads_all_iff Bytes (· = scanEnds) _ count.toNat hpos stored
        refine hall.trans ?_
        simp only [getElem?_sorted_iff hstored.sorted]
        constructor
        · intro h
          refine ⟨hcount, hfetch, fun hmark => ?_⟩
          rcases hmark with ⟨hmem, hbelow, i, hi⟩
          have hi' : keysBelowEnd stored = i * count.toNat := hi.trans (Nat.mul_comm _ _)
          have hipos : 0 < i := by
            apply Nat.pos_of_ne_zero
            intro hzero
            rw [hi', hzero, Nat.zero_mul] at hbelow
            exact absurd hbelow (Nat.lt_irrefl 0)
          exact h i scanEnds hipos ⟨hmem, hi'⟩ rfl
        · intro h i key hi hkey hends
          subst hends
          apply h.2.2
          have hbelow : keysBelowEnd stored = i * count.toNat := hkey.2
          refine ⟨hkey.1, ?_, ?_⟩
          · rw [hbelow]
            exact Nat.mul_pos hi hpos
          · rw [hbelow]
            exact Nat.dvd_mul_left _ _

end Scan

def entriesOf : List Bytes -> MapStore.Entries
  | [] => ∅
  | key :: keys => (entriesOf keys).insert key ([49], none)

/-- A store with given keys. -/
def storing (keys : List Bytes) : World mapStore idlePlatform :=
  { ListOperations.emptyServer with store := entriesOf keys }

theorem view_entriesOf (keys : List Bytes) (key : Bytes) :
    (MapStore.view (entriesOf keys) key).isSome = true <-> key ∈ keys := by
  induction keys with
  | nil => exact iff_of_false nofun List.not_mem_nil
  | cons k keys ih =>
      rw [entriesOf, MapStore.view_insert, List.mem_cons]
      by_cases hk : key = k
      · subst hk
        rw [Function.update_self]
        exact iff_of_true rfl (Or.inl rfl)
      · rw [Function.update_of_ne hk, ih, or_iff_right hk]

theorem keysInOrder_storing {keys : List Bytes} (h : keys.Pairwise (· < ·)) :
    KeysInOrder (MapStore.view (storing keys).store) keys where
  sorted := h
  mem key := (view_entriesOf keys key).symm

theorem scan_complete_abc :
    ScansAll 0 (.new { requirepass := none }) 2 (storing [[97], [98], [99]])
        [[97], [98], [99]] <->
      ([[97], [98], [99]] : List Bytes) = [] ∨ ((2 : UInt64) ≠ 0 ∧
        (2 : UInt64) + 1 ≠ 0 ∧ ¬ (scanEnds ∈ ([[97], [98], [99]] : List Bytes) ∧
          0 < keysBelowEnd [[97], [98], [99]] ∧
          (2 : UInt64).toNat ∣ keysBelowEnd [[97], [98], [99]])) :=
  scan_complete_iff MapStore.steadyStore 0 _ 2 _ [[97], [98], [99]]
    (keysInOrder_storing (by decide)) (by decide)

/-- The key that is the end marker ends a scan with pages of one key. -/
theorem scan_misses_end :
    ¬ ScansAll 0 (.new { requirepass := none }) 1 (storing [[33], [48]])
      [[33], [48]] := by
  have hstored : KeysInOrder (MapStore.view (storing [[33], [48]]).store)
      [[33], [48]] :=
    keysInOrder_storing (by decide)
  rw [scansAll_iff_reads MapStore.steadyStore 0 _ 1 hstored (by decide)]
  intro hreads
  have hnever := (@Pages.reads_all_iff Bytes (· = scanEnds) _ 1 Nat.one_pos
    [[33], [48]]).mp hreads
  exact hnever 1 [48] Nat.one_pos rfl (by decide +kernel)

end FeoxServer
