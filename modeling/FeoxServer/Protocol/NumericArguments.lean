import FeoxServer.Protocol.AcceptedCommands
import FeoxServer.Protocol.SetGrammar

/-!
# Numbers as arguments

Which numbers a request gives for the unsigned fields of commands, and what the
fields become.
-/

namespace FeoxServer

open Foundation

/-- The unsigned fields of commands. -/
inductive NumberField where
  | ex
  | px
  | seconds
  | milliseconds
  | scanCount
  | popCount
  deriving DecidableEq

namespace Command

def number : Command -> NumberField -> Option UInt64
  | set _ _ ex _, .ex => ex
  | set _ _ _ px, .px => px
  | expire _ seconds, .seconds => some seconds
  | pexpire _ milliseconds, .milliseconds => some milliseconds
  | scan _ count _, .scanCount => some count
  | lpop _ count, .popCount => count
  | rpop _ count, .popCount => count
  | _, _ => none

end Command

/-!
# The options of `SCAN`
-/

inductive ScanItem where
  | pattern (text : String)
  | count (n : Int64)

namespace ScanItem

def countNumber : ScanItem -> Option Int64
  | count n => some n
  | pattern _ => none

def carry (r : UInt64 × Option String) : ScanItem -> UInt64 × Option String
  | pattern text => (r.1, some text)
  | count n => (n.toUInt64, r.2)

end ScanItem

inductive ScanItems : List RespValue -> List ScanItem -> Prop
  | nil : ScanItems [] []
  | pattern {option value : RespValue} {rest : List RespValue}
      {items : List ScanItem} {opt : Bytes} {text : String} :
      CommandParser.extractBytes option = .ok opt -> IsNamed opt "MATCH" ->
        CommandParser.extractText value = .ok text -> ScanItems rest items ->
          ScanItems (option :: value :: rest) (.pattern text :: items)
  | count {option value : RespValue} {rest : List RespValue}
      {items : List ScanItem} {opt : Bytes} {n : Int64} :
      CommandParser.extractBytes option = .ok opt -> IsNamed opt "COUNT" ->
        CommandParser.extractInteger value = .ok n -> ScanItems rest items ->
          ScanItems (option :: value :: rest) (.count n :: items)

theorem match_ne_count : ¬ (asBytes "MATCH" = asBytes "COUNT") := by
  decide +kernel

namespace CommandParser

theorem scanOptions_ok_iff {tail : List RespValue} {count : UInt64}
    {pattern : Option String} {r : UInt64 × Option String} :
    scanOptions tail count pattern = .ok r <->
      exists items, ScanItems tail items ∧
        r = items.foldl ScanItem.carry (count, pattern) := by
  induction htail : tail.length using Nat.strongRecOn
    generalizing tail count pattern with
  | ind length ih =>
      match tail with
      | [] =>
          rw [scanOptions]
          constructor
          · intro h
            injection h with h
            exact ⟨[], .nil, h.symm⟩
          · intro h
            rcases h with ⟨items, hitems, hr⟩
            cases hitems
            rw [hr]
            rfl
      | [last] =>
          rw [scanOptions, ok_bind_iff]
          apply iff_of_false
          · intro h
            rcases h with ⟨opt, _, h⟩
            cases h
          · intro h
            rcases h with ⟨items, hitems, _⟩
            cases hitems
      | option :: value :: rest =>
          subst htail
          rw [scanOptions, ok_bind_iff]
          constructor
          · intro h
            rcases h with ⟨opt, hopt, h⟩
            split_ifs at h with hmatch hcount
            · rcases ok_bind_iff.mp h with ⟨text, htext, h⟩
              rcases (ih rest.length (by simp) rfl).mp h with ⟨items, hitems, hr⟩
              exact ⟨.pattern text :: items, .pattern hopt hmatch htext hitems, hr⟩
            · rcases ok_bind_iff.mp h with ⟨n, hn, h⟩
              rcases (ih rest.length (by simp) rfl).mp h with ⟨items, hitems, hr⟩
              exact ⟨.count n :: items, .count hopt hcount hn hitems, hr⟩
          · intro h
            rcases h with ⟨items, hitems, hr⟩
            cases hitems with
            | @pattern _ _ _ items opt text hopt hname htext hrest =>
                refine ⟨opt, hopt, ?_⟩
                rw [if_pos hname, ok_bind_iff]
                exact ⟨text, htext, (ih rest.length (by simp) rfl).mpr
                  ⟨items, hrest, hr⟩⟩
            | @count _ _ _ items opt n hopt hname hn hrest =>
                refine ⟨opt, hopt, ?_⟩
                have hmatch : ¬ toAsciiUppercase opt = asBytes "MATCH" :=
                  fun hmatch => match_ne_count (hmatch.symm.trans hname)
                rw [if_neg hmatch, if_pos hname, ok_bind_iff]
                exact ⟨n, hn, (ih rest.length (by simp) rfl).mpr ⟨items, hrest, hr⟩⟩

end CommandParser

theorem foldl_scanCarry (items : List ScanItem) (r : UInt64 × Option String) :
    (items.foldl ScanItem.carry r).1 =
      (((items.filterMap ScanItem.countNumber).getLast?).map Int64.toUInt64).getD
        r.1 := by
  induction items generalizing r with
  | nil => rfl
  | cons item items ih =>
      rw [List.foldl_cons, ih]
      cases item with
      | pattern text => rfl
      | count n =>
          have hcons : (ScanItem.count n :: items).filterMap ScanItem.countNumber =
              n :: items.filterMap ScanItem.countNumber := rfl
          rw [hcons, List.getLast?_cons]
          cases (items.filterMap ScanItem.countNumber).getLast? <;> rfl

/-!
# Numbers in requests
-/

def keyAndNumber : List (String × NumberField) :=
  [("EXPIRE", .seconds), ("PEXPIRE", .milliseconds), ("LPOP", .popCount),
    ("RPOP", .popCount)]

/-- The numbers that a request gives for a field, in their order, when it can be
gone through to its end. -/
inductive Gives : RespValue -> NumberField -> List Int64 -> Prop
  | second {name key : Bytes} {text : String} {field : NumberField}
      {k v : RespValue} {n : Int64} :
      (text, field) ∈ keyAndNumber -> IsNamed name text ->
        CommandParser.extractBytes k = .ok key ->
          CommandParser.extractInteger v = .ok n ->
            Gives (commandOf name [k, v]) field [n]
  | ex {name key value : Bytes} {args : List RespValue} {items : List SetItem} :
      IsNamed name "SET" -> SplitsSet SetItems args key value items ->
        Gives (commandOf name args) .ex (items.filterMap SetItem.exNumber)
  | px {name key value : Bytes} {args : List RespValue} {items : List SetItem} :
      IsNamed name "SET" -> SplitsSet SetItems args key value items ->
        Gives (commandOf name args) .px (items.filterMap SetItem.pxNumber)
  | count {name cursor : Bytes} {first : RespValue} {tail : List RespValue}
      {items : List ScanItem} :
      IsNamed name "SCAN" -> CommandParser.extractBytes first = .ok cursor ->
        ScanItems tail items ->
          Gives (commandOf name (first :: tail)) .scanCount
            (items.filterMap ScanItem.countNumber)

/-- A request that gives numbers is accepted, and the field becomes the last of
them, as an unsigned number. -/
theorem Gives.accepted {r : RespValue} {field : NumberField} {numbers : List Int64}
    (h : Gives r field numbers) :
    exists cmd, Command.fromResp r = .ok cmd ∧
      forall n, numbers.getLast? = some n -> cmd.number field = some n.toUInt64 := by
  cases h with
  | @second name key text field k v n hfield hname hkey hn =>
      have hlast : forall m, [n].getLast? = some m -> m = n := by
        intro m hm
        injection hm with hm
        exact hm.symm
      have hargs : forall {c : Bytes -> Int64 -> Command} {w : String},
          CommandParser.keyAndInteger w c [k, v] = .ok (c key n) := by
        intro c w
        rw [CommandParser.keyAndInteger, hkey, hn]
        rfl
      have hcount : forall {c : Bytes -> Option UInt64 -> Command} {w : String},
          CommandParser.keyAndCount w c [k, v] = .ok (c key (some n.toUInt64)) := by
        intro c w
        rw [CommandParser.keyAndCount, hkey, hn]
        rfl
      simp only [keyAndNumber, List.mem_cons, List.not_mem_nil, or_false,
        Prod.mk.injEq] at hfield
      rcases hfield with ⟨htext, hf⟩ | ⟨htext, hf⟩ | ⟨htext, hf⟩ | ⟨htext, hf⟩
      · subst htext hf
        refine ⟨_, (CommandParser.fromResp_commandOf hname rfl _).trans hargs, ?_⟩
        intro m hm
        rw [hlast m hm]
        rfl
      · subst htext hf
        refine ⟨_, (CommandParser.fromResp_commandOf hname rfl _).trans hargs, ?_⟩
        intro m hm
        rw [hlast m hm]
        rfl
      · subst htext hf
        refine ⟨_, (CommandParser.fromResp_commandOf hname rfl _).trans hcount, ?_⟩
        intro m hm
        rw [hlast m hm]
        rfl
      · subst htext hf
        refine ⟨_, (CommandParser.fromResp_commandOf hname rfl _).trans hcount, ?_⟩
        intro m hm
        rw [hlast m hm]
        rfl
  | @ex name key value args items hname hsplits =>
      have hok := parseSet_ok_iff.mpr ⟨key, value, items, hsplits, rfl⟩
      refine ⟨_, (CommandParser.fromResp_commandOf hname rfl args).trans hok, ?_⟩
      intro n hn
      change (lastNumber SetItem.exNumber items).map Int64.toUInt64 = _
      unfold lastNumber
      rw [hn]
      rfl
  | @px name key value args items hname hsplits =>
      have hok := parseSet_ok_iff.mpr ⟨key, value, items, hsplits, rfl⟩
      refine ⟨_, (CommandParser.fromResp_commandOf hname rfl args).trans hok, ?_⟩
      intro n hn
      change (lastNumber SetItem.pxNumber items).map Int64.toUInt64 = _
      unfold lastNumber
      rw [hn]
      rfl
  | @count name cursor first tail items hname hcursor hitems =>
      have hoptions := CommandParser.scanOptions_ok_iff.mpr
        ⟨items, hitems, (rfl : _ = items.foldl ScanItem.carry (10, none))⟩
      have hok : CommandParser.parseScan (first :: tail) =
          .ok (.scan cursor (items.foldl ScanItem.carry (10, none)).1
            (items.foldl ScanItem.carry (10, none)).2) := by
        rw [CommandParser.parseScan, hcursor]
        change (CommandParser.scanOptions tail 10 none >>= _) = _
        rw [hoptions]
        rfl
      refine ⟨_, (CommandParser.fromResp_commandOf hname rfl _).trans hok, ?_⟩
      intro n hn
      change some (items.foldl ScanItem.carry (10, none)).1 = _
      rw [foldl_scanCarry, hn]
      rfl

/-!
# Nothing else is a number
-/

namespace CommandParser

theorem keyAndInteger_ok {w : String} {c : Bytes -> Int64 -> Command}
    {args : List RespValue} {cmd : Command} (h : keyAndInteger w c args = .ok cmd) :
    exists k v key n, args = [k, v] ∧ extractBytes k = .ok key ∧
      extractInteger v = .ok n ∧ cmd = c key n := by
  unfold keyAndInteger at h
  split at h
  · rename_i k v
    rcases ok_bind_iff.mp h with ⟨key, hkey, h⟩
    rcases ok_bind_iff.mp h with ⟨n, hn, h⟩
    injection h with h
    exact ⟨k, v, key, n, rfl, hkey, hn, h.symm⟩
  · cases h

theorem keyAndCount_ok {w : String} {c : Bytes -> Option UInt64 -> Command}
    {args : List RespValue} {cmd : Command} (h : keyAndCount w c args = .ok cmd) :
    (exists key, cmd = c key none) ∨
    exists k v key n, args = [k, v] ∧ extractBytes k = .ok key ∧
      extractInteger v = .ok n ∧ cmd = c key (some n.toUInt64) := by
  unfold keyAndCount at h
  split at h
  · rcases ok_bind_iff.mp h with ⟨key, _, h⟩
    injection h with h
    exact Or.inl ⟨key, h.symm⟩
  · rename_i k v
    rcases ok_bind_iff.mp h with ⟨key, hkey, h⟩
    rcases ok_bind_iff.mp h with ⟨n, hn, h⟩
    injection h with h
    exact Or.inr ⟨k, v, key, n, rfl, hkey, hn, h.symm⟩
  · cases h

theorem parseScan_ok {args : List RespValue} {cmd : Command}
    (h : parseScan args = .ok cmd) :
    exists first tail cursor items, args = first :: tail ∧
      extractBytes first = .ok cursor ∧ ScanItems tail items ∧
      cmd = .scan cursor (items.foldl ScanItem.carry (10, none)).1
        (items.foldl ScanItem.carry (10, none)).2 := by
  cases args with
  | nil => cases h
  | cons first tail =>
      rcases ok_bind_iff.mp h with ⟨cursor, hcursor, h⟩
      rcases ok_bind_iff.mp h with ⟨r, hr, h⟩
      rcases scanOptions_ok_iff.mp hr with ⟨items, hitems, hr⟩
      injection h with h
      subst hr
      exact ⟨first, tail, cursor, items, rfl, hcursor, hitems, h.symm⟩

theorem yields_noNumber {name : String} {parser : List RespValue -> Parsed}
    (h : parserOf name = some parser)
    (hname : name ∉ ["SET", "SCAN", "EXPIRE", "PEXPIRE", "LPOP", "RPOP"]) :
    Yields (fun c => forall field, c.number field = none) parser := by
  apply yields_of_takes
  unfold parserOf at h
  split at h <;> cases h
  all_goals first
    | exact absurd (by decide) hname
    | exact takes_one fun _ _ _ _ => rfl
    | exact takes_oneOrMore fun _ _ _ _ _ => rfl
    | exact takes_keyAndInteger fun _ _ _ _ _ _ => rfl
    | exact takes_keyAndMore fun _ _ _ _ _ _ _ _ => rfl
    | exact takes_two fun _ _ _ _ _ _ => rfl
    | exact takes_noArguments fun _ => rfl
    | exact takes_subcommandAndMore fun _ _ _ _ _ => rfl
    | exact takes_namesOrAll (fun _ => rfl) fun _ _ _ _ _ => rfl
    | exact takes_parseMset fun _ _ _ _ _ _ => rfl
    | exact takes_parseHset fun _ _ _ _ _ _ _ _ _ => rfl
    | exact takes_parsePing fun _ _ _ => rfl
    | exact takes_parseInfo fun _ _ _ => rfl
    | exact takes_parseCommandCommand fun _ _ _ _ => rfl
    | exact takes_parseCas fun _ _ _ _ _ _ _ _ => rfl
    | exact takes_parseLrange fun _ _ _ _ _ _ _ _ => rfl
    | exact takes_parseHincrby fun _ _ _ _ _ _ _ _ => rfl
    | exact fun _ => ends_ok fun _ => rfl

end CommandParser

section Keyed

variable {name : Bytes} {args : List RespValue} {text : String} {own field : NumberField}
  {cmd : Command} {u : UInt64}

/-- Of the fields of the command only `own` may be a number, and it is `n`. -/
def Owns (own : NumberField) (cmd : Command) (n : Option UInt64) : Prop :=
  forall field, cmd.number field = if field = own then n else none

theorem Owns.number_eq {n : Option UInt64} (h : Owns own cmd n)
    (hu : cmd.number field = some u) : field = own ∧ n = some u := by
  rw [h field] at hu
  split at hu
  · rename_i hfield
    exact ⟨hfield, hu⟩
  · cases hu

theorem gives_of_keyAndInteger {c : Bytes -> Int64 -> Command}
    (hfield : (text, own) ∈ keyAndNumber) (hname : IsNamed name text)
    (howns : forall key n, Owns own (c key n) (some n.toUInt64))
    (h : CommandParser.keyAndInteger text c args = .ok cmd)
    (hu : cmd.number field = some u) :
    exists n, Gives (commandOf name args) field [n] ∧ u = n.toUInt64 := by
  rcases CommandParser.keyAndInteger_ok h with ⟨k, v, key, n, rfl, hkey, hn, rfl⟩
  rcases (howns key n).number_eq hu with ⟨rfl, hnumber⟩
  exact ⟨n, .second hfield hname hkey hn, (Option.some.inj hnumber).symm⟩

theorem gives_of_keyAndCount {c : Bytes -> Option UInt64 -> Command}
    (hfield : (text, own) ∈ keyAndNumber) (hname : IsNamed name text)
    (howns : forall key count, Owns own (c key count) count)
    (h : CommandParser.keyAndCount text c args = .ok cmd)
    (hu : cmd.number field = some u) :
    exists n, Gives (commandOf name args) field [n] ∧ u = n.toUInt64 := by
  rcases CommandParser.keyAndCount_ok h with ⟨key, rfl⟩ |
    ⟨k, v, key, n, rfl, hkey, hn, rfl⟩
  · rcases (howns key none).number_eq hu with ⟨_, hnumber⟩
    cases hnumber
  · rcases (howns key (some n.toUInt64)).number_eq hu with ⟨rfl, hnumber⟩
    exact ⟨n, .second hfield hname hkey hn, (Option.some.inj hnumber).symm⟩

end Keyed

/-- An unsigned field is the last number that the request gives for it, or the
count of a `SCAN` that gives none. -/
theorem gives_of_number {r : RespValue} {cmd : Command}
    (h : Command.fromResp r = .ok cmd) {field : NumberField} {u : UInt64}
    (hu : cmd.number field = some u) :
    exists numbers, Gives r field numbers ∧
      ((exists n, numbers.getLast? = some n ∧ u = n.toUInt64) ∨
        numbers = [] ∧ field = .scanCount ∧ u = 10) := by
  rcases parser_of_fromResp h with ⟨name, args, text, parser, rfl, hname, hfind, h⟩
  change exists numbers, Gives (commandOf name args) field numbers ∧ _
  by_cases hlisted : text ∈ ["SET", "SCAN", "EXPIRE", "PEXPIRE", "LPOP", "RPOP"]
  · simp only [List.mem_cons, List.not_mem_nil, or_false] at hlisted
    rcases hlisted with heq | heq | heq | heq | heq | heq
    · subst heq
      cases hfind
      rcases parseSet_ok_iff.mp h with ⟨key, value, items, hsplits, hcmd⟩
      subst hcmd
      cases field with
      | ex =>
          rcases Option.map_eq_some_iff.mp hu with ⟨n, hn, hu⟩
          exact ⟨_, .ex hname hsplits, Or.inl ⟨n, hn, hu.symm⟩⟩
      | px =>
          rcases Option.map_eq_some_iff.mp hu with ⟨n, hn, hu⟩
          exact ⟨_, .px hname hsplits, Or.inl ⟨n, hn, hu.symm⟩⟩
      | _ => cases hu
    · subst heq
      cases hfind
      rcases CommandParser.parseScan_ok h with
        ⟨first, tail, cursor, items, hargs, hcursor, hitems, hcmd⟩
      subst hargs hcmd
      cases field with
      | scanCount =>
          refine ⟨_, .count hname hcursor hitems, ?_⟩
          injection hu with hu
          rw [foldl_scanCarry] at hu
          cases hlast : (items.filterMap ScanItem.countNumber).getLast? with
          | none =>
              rw [hlast] at hu
              exact Or.inr ⟨List.getLast?_eq_none_iff.mp hlast, rfl, hu.symm⟩
          | some n =>
              rw [hlast] at hu
              exact Or.inl ⟨n, rfl, hu.symm⟩
      | _ => cases hu
    · subst heq
      cases hfind
      have hown : ("EXPIRE", NumberField.seconds) ∈ keyAndNumber := by decide
      rcases gives_of_keyAndInteger hown hname
        (fun _ _ field => by cases field <;> rfl) h hu with ⟨n, hgives, hn⟩
      exact ⟨[n], hgives, Or.inl ⟨n, rfl, hn⟩⟩
    · subst heq
      cases hfind
      have hown : ("PEXPIRE", NumberField.milliseconds) ∈ keyAndNumber := by decide
      rcases gives_of_keyAndInteger hown hname
        (fun _ _ field => by cases field <;> rfl) h hu with ⟨n, hgives, hn⟩
      exact ⟨[n], hgives, Or.inl ⟨n, rfl, hn⟩⟩
    · subst heq
      cases hfind
      have hown : ("LPOP", NumberField.popCount) ∈ keyAndNumber := by decide
      rcases gives_of_keyAndCount hown hname
        (fun _ _ field => by cases field <;> rfl) h hu with ⟨n, hgives, hn⟩
      exact ⟨[n], hgives, Or.inl ⟨n, rfl, hn⟩⟩
    · subst heq
      cases hfind
      have hown : ("RPOP", NumberField.popCount) ∈ keyAndNumber := by decide
      rcases gives_of_keyAndCount hown hname
        (fun _ _ field => by cases field <;> rfl) h hu with ⟨n, hgives, hn⟩
      exact ⟨[n], hgives, Or.inl ⟨n, rfl, hn⟩⟩
  · have hnone := CommandParser.yields_noNumber hfind hlisted args cmd h field
    rw [hnone] at hu
    cases hu

/-- Numbers keep their values: when a request is accepted, no number in it is
negative, and the unsigned field is the last number that is given for it. -/
def KeepsNumbers (r : RespValue) : Prop :=
  forall cmd, Command.fromResp r = .ok cmd ->
    forall field numbers, Gives r field numbers ->
      (forall n, n ∈ numbers -> 0 <= n.toInt) ∧
      forall n, numbers.getLast? = some n ->
        exists u, cmd.number field = some u ∧ (u.toNat : Int) = n.toInt

/-- Numbers keep their values if and only if none of them is negative. -/
theorem keeps_numbers_iff (r : RespValue) :
    KeepsNumbers r <->
      forall field numbers, Gives r field numbers ->
        forall n, n ∈ numbers -> 0 <= n.toInt := by
  constructor
  · intro h field numbers hgives
    rcases hgives.accepted with ⟨cmd, hcmd, _⟩
    exact (h cmd hcmd field numbers hgives).1
  · intro h cmd hcmd field numbers hgives
    have hpos := h field numbers hgives
    refine ⟨hpos, fun n hn => ?_⟩
    rcases hgives.accepted with ⟨cmd', hcmd', hfield⟩
    rw [hcmd] at hcmd'
    injection hcmd' with hsame
    subst hsame
    exact ⟨n.toUInt64, hfield n hn,
      (toNat_toUInt64_iff n).mpr (hpos n (List.mem_of_getLast? hn))⟩

/-- `LPOP k -1` is accepted. -/
theorem negative_count_accepted :
    ¬ KeepsNumbers (commandOf (asBytes "LPOP") [word "k", word "-1"]) := by
  intro h
  have hgives : Gives (commandOf (asBytes "LPOP") [word "k", word "-1"]) .popCount
      [-1] :=
    @Gives.second (asBytes "LPOP") (asBytes "k") "LPOP" .popCount _ _ (-1) (by decide)
      (by decide +kernel) rfl (by decide +kernel)
  have hpos := (h (.lpop (asBytes "k") (some (Int64.toUInt64 (-1)))) (by decide +kernel)
    .popCount [-1] hgives).1 (-1) List.mem_cons_self
  exact absurd hpos (by decide)

end FeoxServer
