import FeoxServer.Protocol.CommandParser

/-!
# The options of `SET`

What the option loop of `SET` accepts, compared with pairs of an option and a
number.
-/

namespace FeoxServer

open Foundation

/-- A command as a client sends it. -/
def commandOf (name : Bytes) (args : List RespValue) : RespValue :=
  .array (some (.bulkString (some name) :: args))

/-- The name in whatever letter case. -/
abbrev IsNamed (name : Bytes) (word : String) : Prop :=
  toAsciiUppercase name = asBytes word

/-- What the option loop makes of one argument or two. -/
inductive SetItem where
  | ex (n : Int64)
  | px (n : Int64)
  | stray

namespace SetItem

def exNumber : SetItem -> Option Int64
  | ex n => some n
  | _ => none

def pxNumber : SetItem -> Option Int64
  | px n => some n
  | _ => none

def carry (r : Option UInt64 × Option UInt64) :
    SetItem -> Option UInt64 × Option UInt64
  | ex n => (some n.toUInt64, r.2)
  | px n => (r.1, some n.toUInt64)
  | stray => r

end SetItem

/-- The last number given for an option. -/
def lastNumber (number : SetItem -> Option Int64) (items : List SetItem) :
    Option Int64 :=
  (items.filterMap number).getLast?

/-- The options of `SET`: pairs of an option and a number. -/
inductive SetPairs : List RespValue -> List SetItem -> Prop
  | nil : SetPairs [] []
  | ex {option value : RespValue} {rest : List RespValue} {items : List SetItem}
      {opt : Bytes} {n : Int64} :
      CommandParser.extractBytes option = .ok opt -> IsNamed opt "EX" ->
        CommandParser.extractInteger value = .ok n -> SetPairs rest items ->
          SetPairs (option :: value :: rest) (.ex n :: items)
  | px {option value : RespValue} {rest : List RespValue} {items : List SetItem}
      {opt : Bytes} {n : Int64} :
      CommandParser.extractBytes option = .ok opt -> IsNamed opt "PX" ->
        CommandParser.extractInteger value = .ok n -> SetPairs rest items ->
          SetPairs (option :: value :: rest) (.px n :: items)

/-- The arguments as the loop goes through them: besides the pairs there may be
words that name no option, and a last word of any kind. -/
inductive SetItems : List RespValue -> List SetItem -> Prop
  | nil : SetItems [] []
  | last {word : RespValue} {opt : Bytes} :
      CommandParser.extractBytes word = .ok opt -> SetItems [word] [.stray]
  | ex {option value : RespValue} {rest : List RespValue} {items : List SetItem}
      {opt : Bytes} {n : Int64} :
      CommandParser.extractBytes option = .ok opt -> IsNamed opt "EX" ->
        CommandParser.extractInteger value = .ok n -> SetItems rest items ->
          SetItems (option :: value :: rest) (.ex n :: items)
  | px {option value : RespValue} {rest : List RespValue} {items : List SetItem}
      {opt : Bytes} {n : Int64} :
      CommandParser.extractBytes option = .ok opt -> IsNamed opt "PX" ->
        CommandParser.extractInteger value = .ok n -> SetItems rest items ->
          SetItems (option :: value :: rest) (.px n :: items)
  | stray {option value : RespValue} {rest : List RespValue} {items : List SetItem}
      {opt : Bytes} :
      CommandParser.extractBytes option = .ok opt -> ¬ IsNamed opt "EX" ->
        ¬ IsNamed opt "PX" -> SetItems (value :: rest) items ->
          SetItems (option :: value :: rest) (.stray :: items)

theorem SetPairs.items {tail : List RespValue} {items : List SetItem}
    (h : SetPairs tail items) : SetItems tail items := by
  induction h with
  | nil => exact .nil
  | ex hopt hname hn _ ih => exact .ex hopt hname hn ih
  | px hopt hname hn _ ih => exact .px hopt hname hn ih

theorem SetItems.pairs {tail : List RespValue} {items : List SetItem}
    (h : SetItems tail items) (hstray : SetItem.stray ∉ items) :
    SetPairs tail items := by
  induction h with
  | nil => exact .nil
  | last _ => exact absurd List.mem_cons_self hstray
  | ex hopt hname hn _ ih =>
      exact .ex hopt hname hn (ih fun hmem => hstray (List.mem_cons_of_mem _ hmem))
  | px hopt hname hn _ ih =>
      exact .px hopt hname hn (ih fun hmem => hstray (List.mem_cons_of_mem _ hmem))
  | stray _ _ _ _ _ => exact absurd List.mem_cons_self hstray

theorem SetPairs.not_stray {tail : List RespValue} {items : List SetItem}
    (h : SetPairs tail items) : SetItem.stray ∉ items := by
  induction h with
  | nil => exact List.not_mem_nil
  | ex _ _ _ _ ih | px _ _ _ _ ih =>
      intro hmem
      rcases List.mem_cons.mp hmem with heq | htail
      · cases heq
      · exact ih htail

theorem ex_ne_px : ¬ (asBytes "EX" = asBytes "PX") := by
  decide +kernel

theorem SetItems.unique {tail : List RespValue} {items items' : List SetItem}
    (h : SetItems tail items) (h' : SetItems tail items') : items = items' := by
  induction h generalizing items' with
  | nil =>
      cases h'
      rfl
  | last _ =>
      cases h'
      rfl
  | ex hopt hname hn _ ih =>
      cases h' with
      | ex hopt' hname' hn' hrest =>
          rw [hn] at hn'
          injection hn' with hn'
          rw [hn', ih hrest]
      | px hopt' hname' _ _ =>
          rw [hopt] at hopt'
          injection hopt' with hopt'
          subst hopt'
          exact absurd (hname.symm.trans hname') ex_ne_px
      | stray hopt' hname' _ _ =>
          rw [hopt] at hopt'
          injection hopt' with hopt'
          subst hopt'
          exact absurd hname hname'
  | px hopt hname hn _ ih =>
      cases h' with
      | ex hopt' hname' _ _ =>
          rw [hopt] at hopt'
          injection hopt' with hopt'
          subst hopt'
          exact absurd (hname'.symm.trans hname) ex_ne_px
      | px hopt' hname' hn' hrest =>
          rw [hn] at hn'
          injection hn' with hn'
          rw [hn', ih hrest]
      | stray hopt' _ hname' _ =>
          rw [hopt] at hopt'
          injection hopt' with hopt'
          subst hopt'
          exact absurd hname hname'
  | stray hopt hex hpx _ ih =>
      cases h' with
      | ex hopt' hname' _ _ =>
          rw [hopt] at hopt'
          injection hopt' with hopt'
          subst hopt'
          exact absurd hname' hex
      | px hopt' hname' _ _ =>
          rw [hopt] at hopt'
          injection hopt' with hopt'
          subst hopt'
          exact absurd hname' hpx
      | stray _ _ _ hrest => rw [ih hrest]

namespace CommandParser

theorem ok_bind_iff {α β : Type} {p : Except String α} {f : α -> Except String β}
    {b : β} : (p >>= f) = .ok b <-> exists a, p = .ok a ∧ f a = .ok b := by
  cases p with
  | error e =>
      apply iff_of_false
      · intro h
        cases h
      · intro h
        rcases h with ⟨_, ha, _⟩
        cases ha
  | ok a =>
      constructor
      · intro h
        exact ⟨a, rfl, h⟩
      · intro h
        rcases h with ⟨a', ha, hf⟩
        injection ha with ha
        subst ha
        exact hf

theorem setOptions_ok_iff {tail : List RespValue}
    {ex px : Option UInt64} {r : Option UInt64 × Option UInt64} :
    setOptions tail ex px = .ok r <->
      exists items, SetItems tail items ∧ r = items.foldl SetItem.carry (ex, px) := by
  induction htail : tail.length using Nat.strongRecOn generalizing tail ex px with
  | ind length ih =>
      match tail with
      | [] =>
          rw [setOptions]
          constructor
          · intro h
            injection h with h
            exact ⟨[], .nil, h.symm⟩
          · intro h
            rcases h with ⟨items, hitems, hr⟩
            cases hitems
            rw [hr]
            rfl
      | [last] =>
          rw [setOptions, ok_bind_iff]
          constructor
          · intro h
            rcases h with ⟨opt, hopt, h⟩
            injection h with h
            exact ⟨[.stray], .last hopt, h.symm⟩
          · intro h
            rcases h with ⟨items, hitems, hr⟩
            cases hitems with
            | last hopt => exact ⟨_, hopt, by rw [hr]; rfl⟩
      | option :: value :: rest =>
          subst htail
          rw [setOptions, ok_bind_iff]
          constructor
          · intro h
            rcases h with ⟨opt, hopt, h⟩
            split_ifs at h with hex hpx
            · rcases ok_bind_iff.mp h with ⟨n, hn, h⟩
              rcases (ih rest.length (by simp) rfl).mp h with ⟨items, hitems, hr⟩
              exact ⟨.ex n :: items, .ex hopt hex hn hitems, hr⟩
            · rcases ok_bind_iff.mp h with ⟨n, hn, h⟩
              rcases (ih rest.length (by simp) rfl).mp h with ⟨items, hitems, hr⟩
              exact ⟨.px n :: items, .px hopt hpx hn hitems, hr⟩
            · rcases (ih (value :: rest).length (by simp) rfl).mp h with
                ⟨items, hitems, hr⟩
              exact ⟨.stray :: items, .stray hopt hex hpx hitems, hr⟩
          · intro h
            rcases h with ⟨items, hitems, hr⟩
            cases hitems with
            | @ex _ _ _ items opt n hopt hname hn hrest =>
                refine ⟨opt, hopt, ?_⟩
                rw [if_pos hname, ok_bind_iff]
                exact ⟨n, hn, (ih rest.length (by simp) rfl).mpr ⟨items, hrest, hr⟩⟩
            | @px _ _ _ items opt n hopt hname hn hrest =>
                refine ⟨opt, hopt, ?_⟩
                have hex : ¬ toAsciiUppercase opt = asBytes "EX" :=
                  fun hex => ex_ne_px (hex.symm.trans hname)
                rw [if_neg hex, if_pos hname, ok_bind_iff]
                exact ⟨n, hn, (ih rest.length (by simp) rfl).mpr ⟨items, hrest, hr⟩⟩
            | @stray _ _ _ items opt hopt hex hpx hrest =>
                refine ⟨opt, hopt, ?_⟩
                rw [if_neg hex, if_neg hpx]
                exact (ih (value :: rest).length (by simp) rfl).mpr ⟨items, hrest, hr⟩

theorem fromResp_commandOf {name : Bytes} {word : String}
    {parser : List RespValue -> Parsed} (hname : IsNamed name word)
    (hparser : parserOf word = some parser) (args : List RespValue) :
    Command.fromResp (commandOf name args) = parser args := by
  have hfind : (fromUtf8 (toAsciiUppercase name)).bind parserOf = some parser := by
    rw [hname, fromUtf8_asBytes]
    exact hparser
  simp only [Command.fromResp, commandOf, parseCommand, hfind]

end CommandParser

/-!
# Numbers in unsigned fields
-/

def Carries (field : Option UInt64) (n : Option Int64) : Prop :=
  field.map (fun u => (u.toNat : Int)) = n.map Int64.toInt

theorem toNat_toUInt64_iff (n : Int64) :
    (n.toUInt64.toNat : Int) = n.toInt <-> 0 <= n.toInt := by
  have hint : n.toInt = if 2 * n.toUInt64.toNat < 2 ^ 64 then
      (n.toUInt64.toNat : Int) else (n.toUInt64.toNat : Int) - (2 ^ 64 : Nat) :=
    BitVec.toInt_eq_toNat_cond n.toBitVec
  have hbound := n.toUInt64.toNat_lt
  rw [hint]
  split_ifs <;> omega

theorem carries_toUInt64_iff (n : Option Int64) :
    Carries (n.map Int64.toUInt64) n <->
      forall m, n = some m -> 0 <= m.toInt := by
  unfold Carries
  cases n with
  | none => exact iff_of_true rfl nofun
  | some n =>
      rw [Option.map_some, Option.map_some, Option.map_some, Option.some_inj,
        toNat_toUInt64_iff]
      constructor
      · intro h m hm
        injection hm with hm
        exact hm ▸ h
      · intro h
        exact h n rfl

theorem foldl_carry (items : List SetItem) (ex px : Option UInt64) :
    items.foldl SetItem.carry (ex, px) =
      (((lastNumber SetItem.exNumber items).map Int64.toUInt64).or ex,
        ((lastNumber SetItem.pxNumber items).map Int64.toUInt64).or px) := by
  have hcons : forall (n : Int64) (numbers : List Int64) (start : Option UInt64),
      (((n :: numbers).getLast?).map Int64.toUInt64).or start =
        ((numbers.getLast?).map Int64.toUInt64).or (some n.toUInt64) := by
    intro n numbers start
    rw [List.getLast?_cons]
    cases numbers.getLast? <;> rfl
  induction items generalizing ex px with
  | nil => rfl
  | cons item items ih =>
      rw [List.foldl_cons]
      unfold lastNumber at ih ⊢
      cases item with
      | ex n =>
          rw [SetItem.carry, ih]
          exact Prod.ext (hcons n _ ex).symm rfl
      | px n =>
          rw [SetItem.carry, ih]
          exact Prod.ext rfl (hcons n _ px).symm
      | stray =>
          rw [SetItem.carry, ih]
          rfl

/-!
# Whole commands
-/

/-- A key, a value, and options that are gone through in some way. -/
def SplitsSet (goes : List RespValue -> List SetItem -> Prop)
    (args : List RespValue) (key value : Bytes) (items : List SetItem) : Prop :=
  exists k v tail, args = k :: v :: tail ∧
    CommandParser.extractBytes k = .ok key ∧
    CommandParser.extractBytes v = .ok value ∧ goes tail items

/-- What `SET` is with these options. -/
def setOf (key value : Bytes) (items : List SetItem) : Command :=
  .set key value ((lastNumber SetItem.exNumber items).map Int64.toUInt64)
    ((lastNumber SetItem.pxNumber items).map Int64.toUInt64)

theorem parseSet_ok_iff {args : List RespValue} {cmd : Command} :
    CommandParser.parseSet args = .ok cmd <->
      exists key value items, SplitsSet SetItems args key value items ∧
        cmd = setOf key value items := by
  unfold SplitsSet
  match args with
  | [] | [_] =>
      apply iff_of_false
      · intro h
        cases h
      · intro h
        rcases h with ⟨_, _, _, ⟨_, _, _, hargs, _⟩, _⟩
        cases hargs
  | k :: v :: tail =>
      rw [CommandParser.parseSet, CommandParser.ok_bind_iff]
      constructor
      · intro h
        rcases h with ⟨key, hkey, h⟩
        rcases CommandParser.ok_bind_iff.mp h with ⟨value, hvalue, h⟩
        rcases CommandParser.ok_bind_iff.mp h with ⟨r, hr, h⟩
        rcases CommandParser.setOptions_ok_iff.mp hr with ⟨items, hitems, hr⟩
        rw [foldl_carry, Option.or_none, Option.or_none] at hr
        injection h with h
        subst hr
        exact ⟨key, value, items, ⟨k, v, tail, rfl, hkey, hvalue, hitems⟩, h.symm⟩
      · intro h
        rcases h with ⟨key, value, items, ⟨k', v', tail', hargs, hkey, hvalue, hitems⟩,
          hcmd⟩
        injection hargs with hk hargs
        injection hargs with hv htail
        subst hk hv htail hcmd
        refine ⟨key, hkey, CommandParser.ok_bind_iff.mpr ⟨value, hvalue, ?_⟩⟩
        apply CommandParser.ok_bind_iff.mpr
        refine ⟨_, CommandParser.setOptions_ok_iff.mpr ⟨items, hitems, rfl⟩, ?_⟩
        rw [foldl_carry, Option.or_none, Option.or_none]
        rfl

/-- `SET` is accepted with a key, a value and pairs of an option and a number,
and with nothing else, and carries the numbers. -/
structure AcceptsGrammar (name : Bytes) (args : List RespValue) : Prop where
  accepted : forall cmd, Command.fromResp (commandOf name args) = .ok cmd ->
    exists key value items ex px, SplitsSet SetPairs args key value items ∧
      cmd = .set key value ex px ∧
      Carries ex (lastNumber SetItem.exNumber items) ∧
      Carries px (lastNumber SetItem.pxNumber items)
  complete : forall key value items, SplitsSet SetPairs args key value items ->
    exists ex px,
      Command.fromResp (commandOf name args) = .ok (.set key value ex px)

/-- `SET` accepts its grammar if and only if the option loop finds no stray word
in the arguments, or does not get through them, and the last number of each
option is not negative. -/
theorem set_grammar_iff {name : Bytes} (hname : IsNamed name "SET")
    (args : List RespValue) :
    AcceptsGrammar name args <->
      forall key value items, SplitsSet SetItems args key value items ->
        SetItem.stray ∉ items ∧
        (forall n, lastNumber SetItem.exNumber items = some n -> 0 <= n.toInt) ∧
        (forall n, lastNumber SetItem.pxNumber items = some n -> 0 <= n.toInt) := by
  have hparse : Command.fromResp (commandOf name args) = CommandParser.parseSet args :=
    CommandParser.fromResp_commandOf hname rfl args
  constructor
  · intro h key value items hsplits
    have hok := parseSet_ok_iff.mpr ⟨key, value, items, hsplits, rfl⟩
    rcases h.accepted _ (hparse.trans hok) with
      ⟨key', value', items', ex, px, hpairs, hcmd, hex, hpx⟩
    rcases hsplits with ⟨k, v, tail, hargs, _, _, hitems⟩
    rcases hpairs with ⟨k', v', tail', hargs', _, _, hpairs⟩
    rw [hargs] at hargs'
    injection hargs' with _ hargs'
    injection hargs' with _ htail
    subst htail
    have hsame := hitems.unique hpairs.items
    subst hsame
    injection hcmd with _ _ hex' hpx'
    rw [← hex', carries_toUInt64_iff] at hex
    rw [← hpx', carries_toUInt64_iff] at hpx
    exact ⟨hpairs.not_stray, hex, hpx⟩
  · intro h
    constructor
    · intro cmd hcmd
      rw [hparse] at hcmd
      rcases parseSet_ok_iff.mp hcmd with ⟨key, value, items, hsplits, hset⟩
      rcases h key value items hsplits with ⟨hstray, hex, hpx⟩
      rcases hsplits with ⟨k, v, tail, hargs, hkey, hvalue, hitems⟩
      exact ⟨key, value, items, _, _,
        ⟨k, v, tail, hargs, hkey, hvalue, hitems.pairs hstray⟩, hset,
        (carries_toUInt64_iff _).mpr hex, (carries_toUInt64_iff _).mpr hpx⟩
    · intro key value items hsplits
      rcases hsplits with ⟨k, v, tail, hargs, hkey, hvalue, hpairs⟩
      have hok := parseSet_ok_iff.mpr ⟨key, value, items,
        ⟨k, v, tail, hargs, hkey, hvalue, hpairs.items⟩, rfl⟩
      exact ⟨_, _, hparse.trans hok⟩

/-- An argument in octets. -/
def word (text : String) : RespValue :=
  .bulkString (some (asBytes text))

theorem set_grammar_ex :
    AcceptsGrammar (asBytes "set") [word "k", word "v", word "eX", word "10"] <->
      forall key value items,
        SplitsSet SetItems [word "k", word "v", word "eX", word "10"] key value
          items ->
        SetItem.stray ∉ items ∧
        (forall n, lastNumber SetItem.exNumber items = some n -> 0 <= n.toInt) ∧
        (forall n, lastNumber SetItem.pxNumber items = some n -> 0 <= n.toInt) :=
  set_grammar_iff (by decide +kernel) _

/-- `SET k v NX` is accepted as an unconditional `SET`. -/
theorem set_takes_nx :
    ¬ AcceptsGrammar (asBytes "SET") [word "k", word "v", word "NX"] := by
  intro h
  rcases h.accepted (.set (asBytes "k") (asBytes "v") none none) (by decide +kernel)
    with ⟨key, value, items, _, _, ⟨k, v, tail, hargs, _, _, hpairs⟩, _⟩
  injection hargs with _ hargs
  injection hargs with _ htail
  subst htail
  cases hpairs

end FeoxServer
