import FeoxServer.Protocol.AcceptedCommands
import FeoxServer.Protocol.CommandTable
import FeoxServer.Protocol.SetGrammar

/-!
# The table of commands and the parser

The table tells how many elements a request has and where its keys stand.  The parser
decides both by itself.
-/

namespace FeoxServer

open Foundation CommandParser

namespace Command

def keyList : Command -> List Bytes
  | get key | set key _ _ _ | incr key | incrBy key _ | decr key | decrBy key _
  | expire key _ | pexpire key _ | ttl key | pttl key | persist key
  | jsonPatch key _ | cas key _ _ | lpush key _ | rpush key _ | lpop key _
  | rpop key _ | llen key | lrange key _ _ | lindex key _ | hset key _ | hget key _
  | hmget key _ | hdel key _ | hexists key _ | hgetall key | hlen key | hkeys key
  | hvals key | hincrBy key _ _ => [key]
  | del keyNames | exists_ keyNames | mget keyNames | watch keyNames => keyNames
  | mset pairs => pairs.map Prod.fst
  | _ => []

end Command

/-- What an entry of the table tells about the elements of a request. -/
structure KeySpec where
  arity : Int
  firstKey : Int
  lastKey : Int
  step : Int
  deriving DecidableEq

def CommandDef.spec (d : CommandDef) : KeySpec where
  arity := d.arity.toInt
  firstKey := d.firstKey.toInt
  lastKey := d.lastKey.toInt
  step := d.step.toInt

namespace KeySpec

def Admits (k : KeySpec) (length : Nat) : Prop :=
  if 0 < k.arity then (length : Int) = k.arity else -k.arity <= length

/-- The positions from the first key in steps up to the last one, which counts from
the end when it is negative. -/
def positions (k : KeySpec) (length : Nat) : List Nat :=
  let last := if k.lastKey < 0 then length + k.lastKey else k.lastKey
  if last < k.firstKey then []
  else
    List.range' k.firstKey.toNat ((last - k.firstKey) / k.step + 1).toNat k.step.toNat

def keysOf (k : KeySpec) (request : List RespValue) : List (Option Bytes) :=
  (k.positions request.length).map fun i =>
    request[i]?.bind octets

/-- The request has as many elements as the table says, and the command has the keys
that stand where the table says. -/
structure Fits (k : KeySpec) (request : List RespValue) (cmd : Command) : Prop where
  arity : k.Admits request.length
  keys : 0 < k.firstKey -> k.keysOf request = cmd.keyList.map some

end KeySpec

/-- The table has an entry for the first element, and the entry fits. -/
def TableAgrees (request : List RespValue) (cmd : Command) : Prop :=
  exists name args word d, request = .bulkString (some name) :: args ∧
    fromUtf8 name = some word ∧ CommandDef.find word = some d ∧
      d.spec.Fits request cmd

/-- Two commands have no entry, and the entry of `QUIT` leaves no room for
arguments. -/
def Unlisted (request : List RespValue) : Prop :=
  exists name args, request = .bulkString (some name) :: args ∧
    (IsNamed name "JSONPATCH" ∨ IsNamed name "CAS" ∨ IsNamed name "QUIT" ∧ args ≠ [])

/-!
# Positions of keys
-/

namespace KeySpec

theorem keysOf_eq (k : KeySpec) (request : List RespValue) :
    k.keysOf request =
      (k.positions request.length).map fun i => ((request.map octets)[i]?).join := by
  apply List.map_congr_left
  intro i _
  rw [List.getElem?_map]
  cases request[i]? <;> rfl

theorem map_range'_pieces {α β : Type} {n : Nat} (p : α -> List (Option β)) (g : α -> β)
    (hfirst : forall a, (p a).head? = some (some (g a)))
    (hlength : forall a, (p a).length = n) (before : List (Option β))
    (items : List α) :
    (List.range' before.length items.length n).map
        (fun i => ((before ++ items.flatMap p)[i]?).join) =
      (items.map g).map some := by
  induction items generalizing before with
  | nil => rfl
  | cons a items ih =>
      have hrest := ih (before ++ p a)
      rw [List.length_append, hlength, List.append_assoc] at hrest
      have hhead : (before ++ (p a ++ items.flatMap p))[before.length]? =
          some (some (g a)) := by
        rw [List.getElem?_append_right (Nat.le_refl _), Nat.sub_self,
          ← List.head?_eq_getElem?, List.head?_append, hfirst]
        rfl
      rw [List.length_cons, List.range'_succ, List.map_cons, List.flatMap_cons, hhead,
        hrest]
      rfl

theorem keysOf_first (arity : Int) (head : RespValue) {first : RespValue}
    {rest : List RespValue} {key : Bytes} (h : extractBytes first = .ok key) :
    keysOf ⟨arity, 1, 1, 1⟩ (head :: first :: rest) = [some key] := by
  change [octets first] = [some key]
  rw [octets_of_ok h]

theorem keysOf_all (arity : Int) (head : RespValue) {args : List RespValue}
    {names : List Bytes} (hne : args ≠ []) (h : extractAll args = .ok names) :
    keysOf ⟨arity, 1, -1, 1⟩ (head :: args) = names.map some := by
  have hlength := extractAll_length args names h
  have hpos := List.length_pos_iff.mpr hne
  have hpositions : positions ⟨arity, 1, -1, 1⟩ (head :: args).length =
      List.range' 1 names.length 1 := by
    unfold positions
    rw [if_pos (by decide : (-1 : Int) < 0), List.length_cons]
    simp only
    rw [if_neg (by omega)]
    congr 1
    omega
  have hpieces := map_range'_pieces (fun name : Bytes => [some name]) id
    (n := 1) (fun _ => rfl) (fun _ => rfl) [octets head] names
  have hsingles : names.flatMap (fun name => [some name]) = names.map some :=
    List.flatMap_pure_eq_map some names
  rw [List.map_id, hsingles] at hpieces
  rw [keysOf_eq, hpositions, List.map_cons, extractAll_octets args names h]
  exact hpieces

theorem keysOf_pairs (arity : Int) (head : RespValue) {args : List RespValue}
    {pairs : List (Bytes × Bytes)} (hlong : 2 <= args.length)
    (heven : args.length % 2 = 0) (h : extractPairs args = .ok pairs) :
    keysOf ⟨arity, 1, -1, 2⟩ (head :: args) = (pairs.map Prod.fst).map some := by
  have hoctets := extractPairs_octets heven pairs h
  have hlength : args.length = 2 * pairs.length := by
    have hsame := congrArg List.length hoctets
    rw [List.length_map, List.length_flatMap] at hsame
    rw [hsame]
    simp [Nat.mul_comm]
  have hpositions : positions ⟨arity, 1, -1, 2⟩ (head :: args).length =
      List.range' 1 pairs.length 2 := by
    unfold positions
    rw [if_pos (by decide : (-1 : Int) < 0), List.length_cons]
    simp only
    rw [if_neg (by omega)]
    congr 1
    omega
  rw [keysOf_eq, hpositions, List.map_cons, hoctets]
  exact map_range'_pieces (fun pair : Bytes × Bytes => [some pair.1, some pair.2])
    Prod.fst (n := 2) (fun _ => rfl) (fun _ => rfl) [octets head] pairs

/-!
# Fitting entries
-/

theorem admits_exactly {k : KeySpec} {length : Nat} (hpos : 0 < k.arity)
    (h : (length : Int) = k.arity) : k.Admits length := by
  unfold Admits
  rw [if_pos hpos]
  exact h

theorem admits_from {k : KeySpec} {length : Nat} (n : Nat) (hk : k.arity = -n)
    (h : n <= length) : k.Admits length := by
  unfold Admits
  rw [if_neg (by omega), hk]
  omega

theorem fits_keyless {arity : Int} {request : List RespValue} {cmd : Command}
    (h : Admits ⟨arity, 0, 0, 0⟩ request.length) :
    Fits ⟨arity, 0, 0, 0⟩ request cmd where
  arity := h
  keys := fun hpos => absurd hpos (lt_irrefl 0)

theorem fits_first {arity : Int} {head first : RespValue} {rest : List RespValue}
    {cmd : Command} {key : Bytes}
    (h : Admits ⟨arity, 1, 1, 1⟩ (head :: first :: rest).length)
    (hkey : extractBytes first = .ok key) (hcmd : cmd.keyList = [key]) :
    Fits ⟨arity, 1, 1, 1⟩ (head :: first :: rest) cmd where
  arity := h
  keys := fun _ => by rw [keysOf_first arity head hkey, hcmd]; rfl

theorem fits_all {head : RespValue} {args : List RespValue} {cmd : Command}
    {names : List Bytes} (hne : args ≠ []) (hnames : extractAll args = .ok names)
    (hcmd : cmd.keyList = names) : Fits ⟨-2, 1, -1, 1⟩ (head :: args) cmd where
  arity := admits_from 2 rfl (Nat.succ_le_succ (List.length_pos_iff.mpr hne))
  keys := fun _ => by rw [keysOf_all (-2) head hne hnames, hcmd]

theorem fits_pairs {head : RespValue} {args : List RespValue} {cmd : Command}
    {pairs : List (Bytes × Bytes)} (hlong : 2 <= args.length)
    (heven : args.length % 2 = 0) (hpairs : extractPairs args = .ok pairs)
    (hcmd : cmd.keyList = pairs.map Prod.fst) :
    Fits ⟨-3, 1, -1, 2⟩ (head :: args) cmd where
  arity := admits_from 3 rfl (Nat.succ_le_succ hlong)
  keys := fun _ => by rw [keysOf_pairs (-3) head hlong heven hpairs, hcmd]

end KeySpec

/-!
# The entry of each command
-/

def entryOf (word : String) : Option KeySpec :=
  (commandTable.find? fun d =>
    toAsciiUppercase (asBytes d.name) == asBytes word).map CommandDef.spec

def families : List (KeySpec × List String) :=
  [(⟨1, 0, 0, 0⟩, ["MULTI", "EXEC", "DISCARD", "UNWATCH", "QUIT"]),
    (⟨2, 0, 0, 0⟩, ["ECHO", "KEYS", "AUTH"]),
    (⟨3, 0, 0, 0⟩, ["PUBLISH"]),
    (⟨-1, 0, 0, 0⟩,
      ["PING", "INFO", "COMMAND", "FLUSHDB", "UNSUBSCRIBE", "PUNSUBSCRIBE"]),
    (⟨-2, 0, 0, 0⟩,
      ["CONFIG", "SCAN", "SUBSCRIBE", "PSUBSCRIBE", "PUBSUB", "CLIENT"]),
    (⟨2, 1, 1, 1⟩,
      ["GET", "INCR", "DECR", "TTL", "PTTL", "PERSIST", "LLEN", "HGETALL", "HLEN",
        "HKEYS", "HVALS"]),
    (⟨3, 1, 1, 1⟩,
      ["INCRBY", "DECRBY", "EXPIRE", "PEXPIRE", "LINDEX", "HGET", "HEXISTS"]),
    (⟨4, 1, 1, 1⟩, ["LRANGE", "HINCRBY"]),
    (⟨-2, 1, 1, 1⟩, ["LPOP", "RPOP"]),
    (⟨-3, 1, 1, 1⟩, ["SET", "LPUSH", "RPUSH", "HMGET", "HDEL"]),
    (⟨-4, 1, 1, 1⟩, ["HSET"]),
    (⟨-2, 1, -1, 1⟩, ["DEL", "EXISTS", "MGET", "WATCH"]),
    (⟨-3, 1, -1, 2⟩, ["MSET"])]

def InFamily (word : String) (k : KeySpec) : Prop :=
  ∃ family ∈ families, family.1 = k ∧ word ∈ family.2

instance (word : String) (k : KeySpec) : Decidable (InFamily word k) :=
  inferInstanceAs (Decidable (∃ family ∈ families, _))

theorem entryOf_families : forall family, family ∈ families -> forall word,
    word ∈ family.2 -> entryOf word = some family.1 ∧
      forall u, u ∈ asBytes word -> u < 128 := by
  decide +kernel

def Described (word : String) (parser : List RespValue -> Parsed) : Prop :=
  exists k, InFamily word k ∧
    Takes (fun args cmd => forall head, k.Fits (head :: args) cmd) parser

open KeySpec in
theorem described_parserOf {word : String} {parser : List RespValue -> Parsed}
    (h : parserOf word = some parser)
    (hlisted : word ∉ ["JSONPATCH", "CAS", "QUIT"]) : Described word parser := by
  unfold parserOf at h
  split at h <;> cases h
  all_goals first
    | exact absurd (by decide) hlisted
    | exact ⟨⟨2, 1, 1, 1⟩, by decide +kernel, takes_one fun _ _ hkey _ =>
        fits_first (admits_exactly (by decide) rfl) hkey rfl⟩
    | exact ⟨⟨2, 0, 0, 0⟩, by decide +kernel, takes_one fun _ _ _ _ =>
        fits_keyless (admits_exactly (by decide) rfl)⟩
    | exact ⟨⟨3, 1, 1, 1⟩, by decide +kernel, takes_keyAndInteger fun _ _ _ _ hkey _ =>
        fits_first (admits_exactly (by decide) rfl) hkey rfl⟩
    | exact ⟨⟨3, 1, 1, 1⟩, by decide +kernel, takes_two fun _ _ _ _ hkey _ =>
        fits_first (admits_exactly (by decide) rfl) hkey rfl⟩
    | exact ⟨⟨3, 0, 0, 0⟩, by decide +kernel, takes_two fun _ _ _ _ _ _ =>
        fits_keyless (admits_exactly (by decide) rfl)⟩
    | exact ⟨⟨-2, 1, -1, 1⟩, by decide +kernel, takes_oneOrMore fun _ _ hne hnames _ =>
        fits_all hne hnames rfl⟩
    | exact ⟨⟨-2, 0, 0, 0⟩, by decide +kernel, takes_oneOrMore fun _ _ hne _ _ =>
        fits_keyless (admits_from 2 rfl
          (Nat.succ_le_succ (List.length_pos_iff.mpr hne)))⟩
    | exact ⟨⟨-3, 1, 1, 1⟩, by decide +kernel,
        takes_keyAndMore fun _ rest _ _ hne hkey _ _ =>
          fits_first (admits_from 3 rfl (Nat.succ_le_succ (Nat.succ_le_succ
            (List.length_pos_iff.mpr hne)))) hkey rfl⟩
    | exact ⟨⟨-2, 1, 1, 1⟩, by decide +kernel,
        takes_keyAndCount fun _ rest _ _ _ hkey _ =>
          fits_first (admits_from 2 rfl (Nat.le_add_left 2 rest.length)) hkey rfl⟩
    | exact ⟨⟨-2, 0, 0, 0⟩, by decide +kernel,
        takes_subcommandAndMore fun _ rest _ _ _ =>
          fits_keyless (admits_from 2 rfl (Nat.le_add_left 2 rest.length))⟩
    | exact ⟨⟨1, 0, 0, 0⟩, by decide +kernel, takes_noArguments fun _ =>
        fits_keyless (admits_exactly (by decide) rfl)⟩
    | exact ⟨⟨-1, 0, 0, 0⟩, by decide +kernel, takes_namesOrAll
        (fun _ => fits_keyless (admits_from 1 rfl (Nat.le_refl 1)))
        fun args _ _ _ _ => fits_keyless (admits_from 1 rfl (Nat.le_add_left 1 args.length))⟩
    | exact ⟨⟨-3, 1, 1, 1⟩, by decide +kernel, takes_parseSet
        fun _ _ options _ _ _ _ hkey _ =>
          fits_first (admits_from 3 rfl (Nat.le_add_left 3 options.length)) hkey rfl⟩
    | exact ⟨⟨-3, 1, -1, 2⟩, by decide +kernel, takes_parseMset
        fun _ _ hlong heven hpairs _ => fits_pairs hlong heven hpairs rfl⟩
    | exact ⟨⟨-4, 1, 1, 1⟩, by decide +kernel, takes_parseHset
        fun _ _ _ _ hlong _ hkey _ _ =>
          fits_first (admits_from 4 rfl (Nat.succ_le_succ (Nat.succ_le_succ hlong)))
            hkey rfl⟩
    | exact ⟨⟨-1, 0, 0, 0⟩, by decide +kernel, takes_parsePing fun args _ _ =>
        fits_keyless (admits_from 1 rfl (Nat.le_add_left 1 args.length))⟩
    | exact ⟨⟨-1, 0, 0, 0⟩, by decide +kernel, takes_parseInfo fun args _ _ =>
        fits_keyless (admits_from 1 rfl (Nat.le_add_left 1 args.length))⟩
    | exact ⟨⟨-1, 0, 0, 0⟩, by decide +kernel, takes_parseCommandCommand
        fun args _ _ _ =>
          fits_keyless (admits_from 1 rfl (Nat.le_add_left 1 args.length))⟩
    | exact ⟨⟨-2, 0, 0, 0⟩, by decide +kernel, takes_parseScan fun _ options _ _ _ _ =>
        fits_keyless (admits_from 2 rfl (Nat.le_add_left 2 options.length))⟩
    | exact ⟨⟨4, 1, 1, 1⟩, by decide +kernel, takes_parseLrange
        fun _ _ _ _ _ _ hkey _ => fits_first (admits_exactly (by decide) rfl) hkey rfl⟩
    | exact ⟨⟨4, 1, 1, 1⟩, by decide +kernel, takes_parseHincrby
        fun _ _ _ _ _ _ hkey _ => fits_first (admits_exactly (by decide) rfl) hkey rfl⟩
    | exact ⟨⟨-1, 0, 0, 0⟩, by decide +kernel, fun args => ends_ok fun _ =>
        fits_keyless (admits_from 1 rfl (Nat.le_add_left 1 args.length))⟩

theorem find_of_isNamed {name : Bytes} {word text : String} (hname : IsNamed name word)
    (htext : fromUtf8 name = some text) :
    (CommandDef.find text).map CommandDef.spec = entryOf word := by
  unfold CommandDef.find entryOf eqIgnoreAsciiCase
  rw [asBytes_of_fromUtf8 htext, hname]

theorem exists_entry {name : Bytes} {word : String} {k : KeySpec}
    (hname : IsNamed name word) (h : InFamily word k) :
    exists text d, fromUtf8 name = some text ∧ CommandDef.find text = some d ∧
      d.spec = k := by
  rcases h with ⟨family, hfamily, rfl, hword⟩
  rcases entryOf_families family hfamily word hword with ⟨hentry, hascii⟩
  rcases exists_asBytes_of_upper (b := name) (by rw [hname]; exact hascii) with
    ⟨text, htext⟩
  have htext : fromUtf8 name = some text := by rw [← htext, fromUtf8_asBytes]
  rw [← find_of_isNamed hname htext] at hentry
  rcases Option.map_eq_some_iff.mp hentry with ⟨d, hd, hspec⟩
  exact ⟨text, d, htext, hd, hspec⟩

theorem tableAgrees_of_fits {name : Bytes} {word : String} {k : KeySpec}
    {args : List RespValue} {cmd : Command} (hname : IsNamed name word)
    (hword : InFamily word k) (h : k.Fits (.bulkString (some name) :: args) cmd) :
    TableAgrees (.bulkString (some name) :: args) cmd := by
  rcases exists_entry hname hword with ⟨text, d, htext, hd, hspec⟩
  exact ⟨name, args, text, d, rfl, htext, hd, hspec.symm ▸ h⟩

theorem fits_of_tableAgrees {name : Bytes} {word : String} {args : List RespValue}
    {cmd : Command} (hname : IsNamed name word)
    (h : TableAgrees (.bulkString (some name) :: args) cmd) :
    exists k, entryOf word = some k ∧ k.Fits (.bulkString (some name) :: args) cmd := by
  rcases h with ⟨name', args', text, d, heq, htext, hd, hfits⟩
  cases heq
  refine ⟨d.spec, ?_, hfits⟩
  rw [← find_of_isNamed hname htext, hd]
  rfl

/-- An accepted request agrees with the table unless the table leaves it out. -/
theorem table_agrees_iff {request : List RespValue} {cmd : Command}
    (h : Command.fromResp (.array (some request)) = .ok cmd) :
    TableAgrees request cmd ↔ ¬ Unlisted request := by
  rcases parser_of_fromResp h with ⟨name, args, word, parser, hrequest, hname, hparser, hcmd⟩
  cases hrequest
  constructor
  · rintro hagrees ⟨name', args', heq, hunlisted⟩
    cases heq
    rcases hunlisted with hpatch | hcas | ⟨hquit, hargs⟩
    · rcases fits_of_tableAgrees hpatch hagrees with ⟨k, hentry, _⟩
      have hnone : entryOf "JSONPATCH" = none := by decide +kernel
      rw [hnone] at hentry
      cases hentry
    · rcases fits_of_tableAgrees hcas hagrees with ⟨k, hentry, _⟩
      have hnone : entryOf "CAS" = none := by decide +kernel
      rw [hnone] at hentry
      cases hentry
    · rcases fits_of_tableAgrees hquit hagrees with ⟨k, hentry, hfits⟩
      have hsome : entryOf "QUIT" = some ⟨1, 0, 0, 0⟩ := by decide +kernel
      rw [hsome] at hentry
      cases hentry
      have harity : ((args.length + 1 : Nat) : Int) = 1 := hfits.arity
      exact hargs (List.eq_nil_of_length_eq_zero (by omega))
  · intro hlisted
    by_cases hword : word ∈ ["JSONPATCH", "CAS", "QUIT"]
    · have hother : forall w, word = w -> IsNamed name w := fun w hw => hw ▸ hname
      rw [List.mem_cons, List.mem_cons, List.mem_singleton] at hword
      rcases hword with hpatch | hcas | hquit
      · exact absurd ⟨name, args, rfl, .inl (hother _ hpatch)⟩ hlisted
      · exact absurd ⟨name, args, rfl, .inr (.inl (hother _ hcas))⟩ hlisted
      · by_cases hargs : args = []
        · refine tableAgrees_of_fits (hother _ hquit)
            (by decide +kernel : InFamily "QUIT" ⟨1, 0, 0, 0⟩) ?_
          rw [hargs]
          exact KeySpec.fits_keyless (KeySpec.admits_exactly (by decide) rfl)
        · exact absurd ⟨name, args, rfl, .inr (.inr ⟨hother _ hquit, hargs⟩)⟩ hlisted
    · rcases described_parserOf hparser hword with ⟨k, hk, htakes⟩
      exact tableAgrees_of_fits hname hk (htakes args cmd hcmd _)

def getRequest : List RespValue := ["get", "k"].map CommandDef.bulkText

theorem table_agrees_get :
    Command.fromResp (.array (some getRequest)) = .ok (.get (asBytes "k")) ∧
      (TableAgrees getRequest (.get (asBytes "k")) ↔ ¬ Unlisted getRequest) :=
  have h : Command.fromResp (.array (some getRequest)) = .ok (.get (asBytes "k")) := by
    decide +kernel
  ⟨h, table_agrees_iff h⟩

def casRequest : List RespValue := ["CAS", "k", "1", "2"].map CommandDef.bulkText

/-- The table has no entry for a command that is accepted. -/
theorem cas_unlisted :
    Command.fromResp (.array (some casRequest)) =
        .ok (.cas (asBytes "k") (asBytes "1") (asBytes "2")) ∧
      CommandDef.find "CAS" = none ∧
      ¬ TableAgrees casRequest (.cas (asBytes "k") (asBytes "1") (asBytes "2")) := by
  have hnone : CommandDef.find "CAS" = none := by
    unfold CommandDef.find
    rw [List.find?_eq_none]
    decide +kernel
  refine ⟨by decide +kernel, hnone, ?_⟩
  rintro ⟨name, args, text, d, heq, htext, hd, _⟩
  have hname : fromUtf8 (asBytes "CAS") = some text := by
    rw [← htext]
    congr 1
    have hhead := (List.cons.inj heq).1
    exact Option.some.inj (RespValue.bulkString.inj hhead)
  rw [fromUtf8_asBytes] at hname
  cases hname
  rw [hnone] at hd
  cases hd

end FeoxServer
