import FeoxServer.Protocol.CommandParser

/-!
# What the parser accepts

A command that takes one name or more is never accepted without a name.
-/

namespace FeoxServer

open Foundation

namespace Command

def WellFormed : Command -> Prop
  | del names | exists_ names | mget names | watch names | subscribe names
  | psubscribe names | unsubscribe (some names) | punsubscribe (some names) =>
      names ≠ []
  | lpush _ items | rpush _ items | hmget _ items | hdel _ items => items ≠ []
  | mset pairs | hset _ pairs => pairs ≠ []
  | _ => True

def Consecutive (args : List RespValue) (pairs : List (Bytes × Bytes)) : Prop :=
  args.map CommandParser.extractBytes =
    pairs.flatMap fun pair => [.ok pair.1, .ok pair.2]

/-- The pairs of a command are its arguments, behind the key if there is one. -/
def PairedFrom (args : List RespValue) : Command -> Prop
  | mset pairs => Consecutive args pairs
  | hset key fields => exists first rest, args = first :: rest ∧
      CommandParser.extractBytes first = .ok key ∧ Consecutive rest fields
  | _ => True

end Command

namespace CommandParser

/-!
# Results of a parser
-/

/-- Whatever is accepted has a property. -/
def Ends {α : Type} (Q : α -> Prop) (p : Except String α) : Prop :=
  forall a, p = .ok a -> Q a

theorem ends_ok {α : Type} {Q : α -> Prop} {a : α} (h : Q a) :
    Ends Q (.ok a : Except String α) := by
  intro b hb
  cases hb
  exact h

theorem ends_error {α : Type} {Q : α -> Prop} (e : String) :
    Ends Q (.error e : Except String α) :=
  nofun

theorem ends_bind {α β : Type} {Q : β -> Prop} {p : Except String α}
    {f : α -> Except String β} (hf : forall a, p = .ok a -> Ends Q (f a)) :
    Ends Q (p >>= f) := by
  intro b hb
  cases p with
  | error e => cases hb
  | ok a => exact hf a rfl b hb

theorem ends_map {α β : Type} {Q : β -> Prop} {p : Except String α} {f : α -> β}
    (hf : forall a, p = .ok a -> Q (f a)) : Ends Q (p.map f) := by
  intro b hb
  cases p with
  | error e => cases hb
  | ok a =>
      cases hb
      exact hf a rfl

def octets (v : RespValue) : Option Bytes :=
  (extractBytes v).toOption

theorem octets_of_ok {v : RespValue} {b : Bytes} (h : extractBytes v = .ok b) :
    octets v = some b := by
  rw [octets, h]
  rfl

theorem extractAll_octets (args : List RespValue) :
    Ends (fun names => args.map octets = names.map some) (extractAll args) := by
  induction args with
  | nil => exact ends_ok rfl
  | cons arg args ih =>
      rw [extractAll, List.mapM_cons]
      refine ends_bind fun name hname => ?_
      refine ends_bind fun names hnames => ends_ok ?_
      rw [List.map_cons, List.map_cons, octets_of_ok hname, ih names hnames]

theorem extractAll_length (args : List RespValue) :
    Ends (fun names => names.length = args.length) (extractAll args) := by
  intro names hnames
  have hlength := congrArg List.length (extractAll_octets args names hnames)
  rw [List.length_map, List.length_map] at hlength
  exact hlength.symm

theorem extractPairs_consecutive {args : List RespValue} (heven : args.length % 2 = 0) :
    Ends (Command.Consecutive args) (extractPairs args) := by
  induction args using extractPairs.induct with
  | case1 field value args ih =>
      rw [extractPairs]
      refine ends_bind fun f hf => ?_
      refine ends_bind fun v hv => ?_
      refine ends_bind fun pairs hpairs => ends_ok ?_
      have hrest : args.length % 2 = 0 := by
        rw [List.length_cons, List.length_cons] at heven
        omega
      have htail : args.map extractBytes = _ := ih hrest pairs hpairs
      rw [Command.Consecutive, List.map_cons, List.map_cons, hf, hv, htail]
      rfl
  | case2 args hshort =>
      match args, hshort with
      | [], _ => exact ends_ok rfl
      | [_], _ => cases heven
      | field :: value :: rest, hshort => exact absurd rfl (hshort field value rest)

theorem extractPairs_octets {args : List RespValue} (heven : args.length % 2 = 0) :
    Ends (fun pairs => args.map octets =
      pairs.flatMap fun pair => [some pair.1, some pair.2]) (extractPairs args) := by
  intro pairs hpairs
  have hall := congrArg (List.map Except.toOption)
    (extractPairs_consecutive heven pairs hpairs)
  rw [List.map_map, List.map_flatMap] at hall
  exact hall

theorem extractAll_ne_nil {args : List RespValue} (h : args ≠ []) :
    Ends (fun names => names ≠ []) (extractAll args) := by
  intro names hnames hnil
  have hlength := extractAll_length args names hnames
  rw [hnil] at hlength
  exact h (List.eq_nil_of_length_eq_zero hlength.symm)

theorem extractPairs_ne_nil {args : List RespValue} (h : 2 <= args.length) :
    Ends (fun pairs => pairs ≠ []) (extractPairs args) := by
  match args with
  | [] | [_] => simp at h
  | field :: value :: args =>
      rw [extractPairs]
      refine ends_bind fun f _ => ?_
      refine ends_bind fun v _ => ?_
      exact ends_bind fun pairs _ => ends_ok (List.cons_ne_nil _ _)

/-!
# Ways to take arguments
-/

def Yields (Q : Command -> Prop) (parser : List RespValue -> Parsed) : Prop :=
  forall args, Ends Q (parser args)

/-- All commands that a parser accepts have a property together with their
arguments. -/
def Takes (Q : List RespValue -> Command -> Prop) (parser : List RespValue -> Parsed) :
    Prop :=
  forall args, Ends (Q args) (parser args)

theorem yields_of_takes {Q : Command -> Prop} {parser : List RespValue -> Parsed}
    (h : Takes (fun _ => Q) parser) : Yields Q parser :=
  h

variable {Q : List RespValue -> Command -> Prop} {name : String}

theorem takes_noArguments {c : Command} (h : Q [] c) :
    Takes Q (noArguments name c) := by
  intro args
  cases args with
  | nil => exact ends_ok h
  | cons first rest => exact ends_error _

theorem takes_one {c : Bytes -> Command}
    (h : forall first key, extractBytes first = .ok key -> Q [first] (c key)) :
    Takes Q (one name c) := by
  intro args
  unfold one
  split
  · exact ends_map (h _)
  · exact ends_error _

theorem takes_two {c : Bytes -> Bytes -> Command}
    (h : forall first second key b, extractBytes first = .ok key ->
      Q [first, second] (c key b)) :
    Takes Q (two name c) := by
  intro args
  unfold two
  split
  · refine ends_bind fun key hkey => ?_
    exact ends_bind fun b _ => ends_ok (h _ _ key b hkey)
  · exact ends_error _

theorem takes_keyAndInteger {c : Bytes -> Int64 -> Command}
    (h : forall first second key n, extractBytes first = .ok key ->
      Q [first, second] (c key n)) :
    Takes Q (keyAndInteger name c) := by
  intro args
  unfold keyAndInteger
  split
  · refine ends_bind fun key hkey => ?_
    exact ends_bind fun n _ => ends_ok (h _ _ key n hkey)
  · exact ends_error _

theorem takes_oneOrMore {c : List Bytes -> Command}
    (h : forall args names, args ≠ [] -> extractAll args = .ok names ->
      Q args (c names)) :
    Takes Q (oneOrMore name c) := by
  intro args
  cases args with
  | nil => exact ends_error _
  | cons first rest => exact ends_map fun names => h _ names (List.cons_ne_nil _ _)

theorem takes_keyAndMore {c : Bytes -> List Bytes -> Command}
    (h : forall first rest key items, rest ≠ [] -> extractBytes first = .ok key ->
      extractAll rest = .ok items -> Q (first :: rest) (c key items)) :
    Takes Q (keyAndMore name c) := by
  intro args
  unfold keyAndMore
  split
  · refine ends_bind fun key hkey => ?_
    exact ends_bind fun items hitems =>
      ends_ok (h _ _ key items (List.cons_ne_nil _ _) hkey hitems)
  · exact ends_error _

theorem takes_keyAndCount {c : Bytes -> Option UInt64 -> Command}
    (h : forall first rest key count, rest.length <= 1 ->
      extractBytes first = .ok key -> Q (first :: rest) (c key count)) :
    Takes Q (keyAndCount name c) := by
  intro args
  unfold keyAndCount
  split
  · exact ends_bind fun key hkey => ends_ok (h _ [] key none (Nat.zero_le 1) hkey)
  · refine ends_bind fun key hkey => ?_
    exact ends_bind fun count _ => ends_ok (h _ [_] key _ (Nat.le_refl 1) hkey)
  · exact ends_error _

theorem takes_subcommandAndMore {c : String -> List Bytes -> Command}
    (h : forall first rest subcommand args, Q (first :: rest) (c subcommand args)) :
    Takes Q (subcommandAndMore name c) := by
  intro args
  unfold subcommandAndMore
  split
  · exact ends_error _
  · refine ends_bind fun subcommand _ => ?_
    exact ends_bind fun args _ => ends_ok (h _ _ subcommand args)

theorem takes_namesOrAll {c : Option (List Bytes) -> Command} (hall : Q [] (c none))
    (h : forall args names, args ≠ [] -> extractAll args = .ok names ->
      Q args (c (some names))) :
    Takes Q (namesOrAll c) := by
  intro args
  cases args with
  | nil => exact ends_ok hall
  | cons first rest => exact ends_map fun names => h _ names (List.cons_ne_nil _ _)

/-!
# Commands with options of their own
-/

theorem takes_parseSet
    (h : forall first second options key value ex px, extractBytes first = .ok key ->
      Q (first :: second :: options) (.set key value ex px)) :
    Takes Q parseSet := by
  intro args
  unfold parseSet
  split
  · refine ends_bind fun key hkey => ?_
    refine ends_bind fun value _ => ?_
    exact ends_bind fun options _ => ends_ok (h _ _ _ _ _ _ _ hkey)
  · exact ends_error _

theorem takes_parseMset
    (h : forall args pairs, 2 <= args.length -> args.length % 2 = 0 ->
      extractPairs args = .ok pairs -> Q args (.mset pairs)) :
    Takes Q parseMset := by
  intro args
  unfold parseMset
  split
  · exact ends_error _
  · rename_i hshape
    rw [not_or, not_not] at hshape
    have hpos := List.length_pos_iff.mpr hshape.1
    exact ends_map fun pairs => h args pairs (by omega) hshape.2

theorem takes_parseHset
    (h : forall first rest key fields, 2 <= rest.length -> rest.length % 2 = 0 ->
      extractBytes first = .ok key -> extractPairs rest = .ok fields ->
      Q (first :: rest) (.hset key fields)) :
    Takes Q parseHset := by
  intro args
  unfold parseHset
  split
  · split
    · exact ends_error _
    · rename_i hshape
      rw [not_or, Nat.not_lt, not_not] at hshape
      refine ends_bind fun key hkey => ?_
      exact ends_bind fun fields hfields =>
        ends_ok (h _ _ key fields hshape.1 hshape.2 hkey hfields)
  · exact ends_error _

theorem takes_parsePing (h : forall args msg, Q args (.ping msg)) :
    Takes Q parsePing := by
  intro args
  cases args with
  | nil => exact ends_ok (h [] none)
  | cons msg rest => exact ends_map fun m _ => h _ (some m)

theorem takes_parseInfo (h : forall args name, Q args (.info name)) :
    Takes Q parseInfo := by
  intro args
  cases args with
  | nil => exact ends_ok (h [] none)
  | cons first rest => exact ends_map fun name _ => h _ (some name)

theorem takes_parseCommandCommand
    (h : forall args name names, Q args (.command name names)) :
    Takes Q parseCommandCommand := by
  intro args
  cases args with
  | nil => exact ends_ok (h [] none [])
  | cons first rest =>
      refine ends_bind fun subcommand _ => ?_
      exact ends_bind fun args _ => ends_ok (h _ _ _)

theorem takes_parseScan
    (h : forall first options cursor count pattern,
      Q (first :: options) (.scan cursor count pattern)) :
    Takes Q parseScan := by
  intro args
  cases args with
  | nil => exact ends_error _
  | cons first options =>
      refine ends_bind fun cursor _ => ?_
      exact ends_bind fun r _ => ends_ok (h _ _ _ _ _)

theorem takes_parseCas
    (h : forall first second third key expected newValue,
      extractBytes first = .ok key ->
      Q [first, second, third] (.cas key expected newValue)) :
    Takes Q parseCas := by
  intro args
  unfold parseCas
  split
  · refine ends_bind fun key hkey => ?_
    refine ends_bind fun expected _ => ?_
    exact ends_bind fun newValue _ => ends_ok (h _ _ _ _ _ _ hkey)
  · exact ends_error _

theorem takes_parseLrange
    (h : forall first second third key start stop, extractBytes first = .ok key ->
      Q [first, second, third] (.lrange key start stop)) :
    Takes Q parseLrange := by
  intro args
  unfold parseLrange
  split
  · refine ends_bind fun key hkey => ?_
    refine ends_bind fun start _ => ?_
    exact ends_bind fun stop _ => ends_ok (h _ _ _ _ _ _ hkey)
  · exact ends_error _

theorem takes_parseHincrby
    (h : forall first second third key field delta, extractBytes first = .ok key ->
      Q [first, second, third] (.hincrBy key field delta)) :
    Takes Q parseHincrby := by
  intro args
  unfold parseHincrby
  split
  · refine ends_bind fun key hkey => ?_
    refine ends_bind fun field _ => ?_
    exact ends_bind fun delta _ => ends_ok (h _ _ _ _ _ _ hkey)
  · exact ends_error _

/-!
# All commands
-/

theorem takes_parserOf {name : String} {parser : List RespValue -> Parsed}
    (h : parserOf name = some parser) :
    Takes (fun args cmd => cmd.WellFormed ∧ cmd.PairedFrom args) parser := by
  unfold parserOf at h
  split at h <;> cases h
  all_goals first
    | exact takes_one fun _ _ _ => ⟨trivial, trivial⟩
    | exact takes_oneOrMore fun _ names hne hnames =>
        ⟨extractAll_ne_nil hne names hnames, trivial⟩
    | exact takes_keyAndInteger fun _ _ _ _ _ => ⟨trivial, trivial⟩
    | exact takes_keyAndMore fun _ _ _ items hne _ hitems =>
        ⟨extractAll_ne_nil hne items hitems, trivial⟩
    | exact takes_keyAndCount fun _ _ _ _ _ _ => ⟨trivial, trivial⟩
    | exact takes_two fun _ _ _ _ _ => ⟨trivial, trivial⟩
    | exact takes_noArguments ⟨trivial, trivial⟩
    | exact takes_subcommandAndMore fun _ _ _ _ => ⟨trivial, trivial⟩
    | exact takes_namesOrAll ⟨trivial, trivial⟩ fun _ names hne hnames =>
        ⟨extractAll_ne_nil hne names hnames, trivial⟩
    | exact takes_parseSet fun _ _ _ _ _ _ _ _ => ⟨trivial, trivial⟩
    | exact takes_parseMset fun _ pairs hlength heven hpairs =>
        ⟨extractPairs_ne_nil hlength pairs hpairs,
          extractPairs_consecutive heven pairs hpairs⟩
    | exact takes_parseHset fun first rest _ fields hlength heven hkey hfields =>
        ⟨extractPairs_ne_nil hlength fields hfields, first, rest, rfl, hkey,
          extractPairs_consecutive heven fields hfields⟩
    | exact takes_parsePing fun _ _ => ⟨trivial, trivial⟩
    | exact takes_parseInfo fun _ _ => ⟨trivial, trivial⟩
    | exact takes_parseCommandCommand fun _ _ _ => ⟨trivial, trivial⟩
    | exact takes_parseScan fun _ _ _ _ _ => ⟨trivial, trivial⟩
    | exact takes_parseCas fun _ _ _ _ _ _ _ => ⟨trivial, trivial⟩
    | exact takes_parseLrange fun _ _ _ _ _ _ _ => ⟨trivial, trivial⟩
    | exact takes_parseHincrby fun _ _ _ _ _ _ _ => ⟨trivial, trivial⟩
    | exact fun _ => ends_ok ⟨trivial, trivial⟩

end CommandParser

theorem parser_of_fromResp {v : RespValue} {cmd : Command}
    (h : Command.fromResp v = .ok cmd) :
    exists name args word parser,
      v = .array (some (.bulkString (some name) :: args)) ∧
        toAsciiUppercase name = asBytes word ∧
        CommandParser.parserOf word = some parser ∧ parser args = .ok cmd := by
  unfold Command.fromResp CommandParser.parseCommand at h
  split at h
  · rename_i name args
    split at h
    · rename_i parser hparser
      rcases Option.bind_eq_some_iff.mp hparser with ⟨word, hword, hname⟩
      exact ⟨name, args, word, parser, rfl, (asBytes_of_fromUtf8 hword).symm, hname, h⟩
    · cases h
  · cases h
  · cases h

theorem wellFormed_of_fromResp {v : RespValue} {cmd : Command}
    (h : Command.fromResp v = .ok cmd) : cmd.WellFormed := by
  rcases parser_of_fromResp h with ⟨name, args, word, parser, _, _, hparser, hcmd⟩
  exact (CommandParser.takes_parserOf hparser args cmd hcmd).1

end FeoxServer
