import FeoxServer.Protocol.AcceptedCommands
import FeoxServer.Protocol.RespParser
import FeoxServer.Protocol.RespRoundTrip

/-!
# Requests

Every command that the parser can give has a request of bulk strings alone, from which
the parser gives it back.
-/

namespace FeoxServer

open Foundation

namespace Command

/-!
# Writing a command
-/

def argument (b : Bytes) : RespValue :=
  .bulkString (some b)

def text (s : String) : RespValue :=
  argument (asBytes s)

def numeral (n : Int64) : RespValue :=
  text (decimal n)

def words (names : List Bytes) : List RespValue :=
  names.map argument

def pairWords (pairs : List (Bytes × Bytes)) : List RespValue :=
  pairs.flatMap fun pair => [argument pair.1, argument pair.2]

def option (name : String) : Option UInt64 -> List RespValue
  | none => []
  | some n => [text name, numeral n.toInt64]

def name : Command -> String
  | get _ => "GET"
  | set _ _ _ _ => "SET"
  | del _ => "DEL"
  | exists_ _ => "EXISTS"
  | incr _ => "INCR"
  | incrBy _ _ => "INCRBY"
  | decr _ => "DECR"
  | decrBy _ _ => "DECRBY"
  | expire _ _ => "EXPIRE"
  | pexpire _ _ => "PEXPIRE"
  | ttl _ => "TTL"
  | pttl _ => "PTTL"
  | persist _ => "PERSIST"
  | mget _ => "MGET"
  | mset _ => "MSET"
  | ping _ => "PING"
  | echo _ => "ECHO"
  | info _ => "INFO"
  | config _ _ => "CONFIG"
  | command _ _ => "COMMAND"
  | quit => "QUIT"
  | flushDb => "FLUSHDB"
  | keys _ => "KEYS"
  | scan _ _ _ => "SCAN"
  | jsonPatch _ _ => "JSONPATCH"
  | cas _ _ _ => "CAS"
  | auth _ => "AUTH"
  | lpush _ _ => "LPUSH"
  | rpush _ _ => "RPUSH"
  | lpop _ _ => "LPOP"
  | rpop _ _ => "RPOP"
  | llen _ => "LLEN"
  | lrange _ _ _ => "LRANGE"
  | lindex _ _ => "LINDEX"
  | subscribe _ => "SUBSCRIBE"
  | unsubscribe _ => "UNSUBSCRIBE"
  | psubscribe _ => "PSUBSCRIBE"
  | punsubscribe _ => "PUNSUBSCRIBE"
  | publish _ _ => "PUBLISH"
  | pubSub _ _ => "PUBSUB"
  | client _ _ => "CLIENT"
  | multi => "MULTI"
  | exec => "EXEC"
  | discard => "DISCARD"
  | watch _ => "WATCH"
  | unwatch => "UNWATCH"
  | hset _ _ => "HSET"
  | hget _ _ => "HGET"
  | hmget _ _ => "HMGET"
  | hdel _ _ => "HDEL"
  | hexists _ _ => "HEXISTS"
  | hgetall _ => "HGETALL"
  | hlen _ => "HLEN"
  | hkeys _ => "HKEYS"
  | hvals _ => "HVALS"
  | hincrBy _ _ _ => "HINCRBY"

def arguments : Command -> List RespValue
  | get key | incr key | decr key | ttl key | pttl key | persist key | llen key
  | hgetall key | hlen key | hkeys key | hvals key => [argument key]
  | set key value ex px => [argument key, argument value] ++ option "EX" ex ++ option "PX" px
  | del names | exists_ names | mget names | watch names | subscribe names
  | psubscribe names => words names
  | incrBy key delta | decrBy key delta | lindex key delta => [argument key, numeral delta]
  | expire key n | pexpire key n => [argument key, numeral n.toInt64]
  | mset pairs => pairWords pairs
  | ping msg => words msg.toList
  | echo msg => [argument msg]
  | info sectionName => sectionName.toList.map text
  | config action args => text action :: words args
  | command subcommand args => subcommand.toList.map text ++ words args
  | quit | flushDb | multi | exec | discard | unwatch => []
  | keys pattern => [text pattern]
  | scan cursor count pattern =>
      [argument cursor, text "COUNT", numeral count.toInt64] ++
        pattern.toList.flatMap fun p => [text "MATCH", text p]
  | jsonPatch key patch => [argument key, argument patch]
  | cas key expected newValue => [argument key, argument expected, argument newValue]
  | auth password => [argument password]
  | lpush key items | rpush key items | hmget key items | hdel key items =>
      argument key :: words items
  | lpop key count | rpop key count =>
      argument key :: count.toList.map fun n => numeral n.toInt64
  | lrange key start stop => [argument key, numeral start, numeral stop]
  | unsubscribe names | punsubscribe names => words (names.getD [])
  | publish channel message => [argument channel, argument message]
  | pubSub subcommand args | client subcommand args => text subcommand :: words args
  | hset key fields => argument key :: pairWords fields
  | hget key field | hexists key field => [argument key, argument field]
  | hincrBy key field delta => [argument key, argument field, numeral delta]

def request (cmd : Command) : RespValue :=
  .array (some (text cmd.name :: cmd.arguments))

def Sendable (cmd : Command) : Prop :=
  cmd.WellFormed ∧ forall args, cmd = .command none args -> args = []

end Command

namespace CommandParser

open Command (argument text numeral words pairWords)

/-!
# Reading it back
-/

@[simp] theorem extractInteger_numeral (n : Int64) : extractInteger (numeral n) = .ok n := by
  simp only [numeral, text, argument, extractInteger, fromUtf8_asBytes, parseI64_decimal]

@[simp] theorem extractText_text (s : String) : extractText (text s) = .ok s := by
  unfold extractText text argument extractBytes
  exact congrArg Except.ok (fromUtf8Lossy_asBytes s)

@[simp] theorem extractAll_words (names : List Bytes) :
    extractAll (words names) = .ok names := by
  induction names with
  | nil => rfl
  | cons name names ih =>
      unfold extractAll words at ih ⊢
      rw [List.map_cons, List.mapM_cons, ih]
      rfl

@[simp] theorem extractPairs_pairWords (pairs : List (Bytes × Bytes)) :
    extractPairs (pairWords pairs) = .ok pairs := by
  induction pairs with
  | nil => rfl
  | cons pair pairs ih =>
      unfold pairWords at ih ⊢
      change extractPairs (argument pair.1 :: argument pair.2 :: List.flatMap _ pairs) = _
      rw [extractPairs, ih]
      rfl

theorem length_pairWords (pairs : List (Bytes × Bytes)) :
    (pairWords pairs).length = 2 * pairs.length := by
  induction pairs with
  | nil => rfl
  | cons pair pairs ih =>
      unfold pairWords at ih ⊢
      rw [List.flatMap_cons, List.length_append, ih, List.length_cons]
      simp only [List.length_cons, List.length_nil]
      omega

theorem oneOrMore_words {name : String} {c : List Bytes -> Command} {names : List Bytes}
    (h : names ≠ []) : oneOrMore name c (words names) = .ok (c names) := by
  cases names with
  | nil => exact absurd rfl h
  | cons first rest =>
      change (extractAll (words (first :: rest))).map c = _
      rw [extractAll_words]
      rfl

theorem keyAndMore_words {name : String} {c : Bytes -> List Bytes -> Command} (key : Bytes)
    {items : List Bytes} (h : items ≠ []) :
    keyAndMore name c (argument key :: words items) = .ok (c key items) := by
  cases items with
  | nil => exact absurd rfl h
  | cons first rest =>
      change (do
        let key <- extractBytes (argument key)
        let values <- extractAll (words (first :: rest))
        pure (c key values)) = _
      rw [extractAll_words]
      rfl

theorem keyAndInteger_numeral (name : String) (c : Bytes -> Int64 -> Command) (key : Bytes)
    (n : Int64) : keyAndInteger name c [argument key, numeral n] = .ok (c key n) := by
  rw [keyAndInteger, extractInteger_numeral]
  rfl

theorem keyAndCount_numeral (name : String) (c : Bytes -> Option UInt64 -> Command)
    (key : Bytes) (count : Option UInt64) :
    keyAndCount name c (argument key :: count.toList.map fun n => numeral n.toInt64) =
      .ok (c key count) := by
  cases count with
  | none => rfl
  | some n =>
      change (do
        let key <- extractBytes (argument key)
        let count <- extractInteger (numeral n.toInt64)
        pure (c key (some count.toUInt64))) = _
      rw [extractInteger_numeral]
      exact congrArg (fun n => Except.ok (c key (some n))) (UInt64.toUInt64_toInt64 n)

theorem subcommandAndMore_words (name : String) (c : String -> List Bytes -> Command)
    (s : String) (args : List Bytes) :
    subcommandAndMore name c (text s :: words args) = .ok (c s args) := by
  rw [subcommandAndMore, extractText_text, extractAll_words]
  rfl

theorem namesOrAll_words {c : Option (List Bytes) -> Command} {names : Option (List Bytes)}
    (h : forall l, names = some l -> l ≠ []) :
    namesOrAll c (words (names.getD [])) = .ok (c names) := by
  rcases names with _ | ⟨_ | ⟨first, rest⟩⟩
  · rfl
  · exact absurd rfl (h [] rfl)
  · change (extractAll (words (first :: rest))).map _ = _
    rw [extractAll_words]
    rfl

theorem setOptions_option (ex px : Option UInt64) :
    setOptions (Command.option "EX" ex ++ Command.option "PX" px) none none =
      .ok (ex, px) := by
  have hpx : forall ex, setOptions (Command.option "PX" px) ex none = .ok (ex, px) := by
    intro ex
    cases px with
    | none => rfl
    | some n =>
        have hne : toAsciiUppercase (asBytes "PX") ≠ asBytes "EX" := by decide
        have heq : toAsciiUppercase (asBytes "PX") = asBytes "PX" := by decide
        simp only [Command.option, setOptions, text, argument, extractBytes, bind, Except.bind,
          if_neg hne, if_pos heq, extractInteger_numeral, UInt64.toUInt64_toInt64]
        rfl
  cases ex with
  | none => exact hpx none
  | some n =>
      have heq : toAsciiUppercase (asBytes "EX") = asBytes "EX" := by decide
      change setOptions (text "EX" :: numeral n.toInt64 :: Command.option "PX" px) none none =
        _
      simp only [setOptions, text, argument, extractBytes, bind, Except.bind, if_pos heq,
        extractInteger_numeral, UInt64.toUInt64_toInt64]
      exact hpx (some n)

theorem scanOptions_words (count : UInt64) (pattern : Option String) :
    scanOptions ([text "COUNT", numeral count.toInt64] ++
      pattern.toList.flatMap fun p => [text "MATCH", text p]) 10 none =
        .ok (count, pattern) := by
  have hmatch : forall count, scanOptions
      (pattern.toList.flatMap fun p => [text "MATCH", text p]) count none =
        .ok (count, pattern) := by
    intro count
    cases pattern with
    | none => rfl
    | some p =>
        have heq : toAsciiUppercase (asBytes "MATCH") = asBytes "MATCH" := by decide
        change scanOptions [argument (asBytes "MATCH"), text p] count none = _
        simp only [scanOptions, argument, extractBytes, bind, Except.bind, if_pos heq,
          extractText_text]
        rfl
  have hne : toAsciiUppercase (asBytes "COUNT") ≠ asBytes "MATCH" := by decide
  have heq : toAsciiUppercase (asBytes "COUNT") = asBytes "COUNT" := by decide
  change scanOptions (argument (asBytes "COUNT") :: numeral count.toInt64 :: _) 10 none = _
  simp only [scanOptions, argument, extractBytes, bind, Except.bind, if_neg hne, if_pos heq,
    extractInteger_numeral, UInt64.toUInt64_toInt64]
  exact hmatch count

theorem parseCommand_text {name : String} {parser : List RespValue -> Parsed}
    (args : List RespValue) (hupper : toAsciiUppercase (asBytes name) = asBytes name)
    (h : parserOf name = some parser) :
    parseCommand (.array (some (text name :: args))) = parser args := by
  rw [text, argument, parseCommand, hupper, fromUtf8_asBytes, Option.bind_some, h]

theorem takes_subcommand {name : String} {parser : List RespValue -> Parsed}
    (h : parserOf name = some parser) :
    Takes (fun _ cmd => forall args, cmd = .command none args -> args = []) parser := by
  unfold parserOf at h
  split at h <;> cases h
  all_goals first
    | exact takes_one fun _ _ _ _ => by rintro ⟨⟩
    | exact takes_oneOrMore fun _ _ _ _ _ => by rintro ⟨⟩
    | exact takes_keyAndInteger fun _ _ _ _ _ _ => by rintro ⟨⟩
    | exact takes_keyAndMore fun _ _ _ _ _ _ _ _ => by rintro ⟨⟩
    | exact takes_keyAndCount fun _ _ _ _ _ _ _ => by rintro ⟨⟩
    | exact takes_two fun _ _ _ _ _ _ => by rintro ⟨⟩
    | exact takes_noArguments fun _ => by rintro ⟨⟩
    | exact takes_subcommandAndMore fun _ _ _ _ _ => by rintro ⟨⟩
    | exact takes_namesOrAll (fun _ => by rintro ⟨⟩) fun _ _ _ _ _ => by rintro ⟨⟩
    | exact takes_parseSet fun _ _ _ _ _ _ _ _ _ => by rintro ⟨⟩
    | exact takes_parseMset fun _ _ _ _ _ _ => by rintro ⟨⟩
    | exact takes_parseHset fun _ _ _ _ _ _ _ _ _ => by rintro ⟨⟩
    | exact takes_parsePing fun _ _ _ => by rintro ⟨⟩
    | exact takes_parseInfo fun _ _ _ => by rintro ⟨⟩
    | exact takes_parseScan fun _ _ _ _ _ _ => by rintro ⟨⟩
    | exact takes_parseCas fun _ _ _ _ _ _ _ _ => by rintro ⟨⟩
    | exact takes_parseLrange fun _ _ _ _ _ _ _ _ => by rintro ⟨⟩
    | exact takes_parseHincrby fun _ _ _ _ _ _ _ _ => by rintro ⟨⟩
    | exact fun _ => ends_ok fun _ => by rintro ⟨⟩
    | skip
  -- Only `COMMAND` is left.
  intro args
  cases args with
  | nil => exact ends_ok fun _ h => (Command.command.inj h).2.symm
  | cons first rest =>
      refine ends_bind fun subcommand _ => ends_bind fun args _ => ends_ok fun _ => ?_
      rintro ⟨⟩

end CommandParser

open CommandParser

theorem fromResp_request {cmd : Command} (h : cmd.Sendable) :
    Command.fromResp cmd.request = .ok cmd := by
  rcases h with ⟨hformed, hargs⟩
  have hupper : toAsciiUppercase (asBytes cmd.name) = asBytes cmd.name := by
    cases cmd <;> simp only [Command.name] <;> decide
  have hparse : forall parser, parserOf cmd.name = some parser ->
      Command.fromResp cmd.request = parser cmd.arguments := fun parser hparser =>
    parseCommand_text cmd.arguments hupper hparser
  cases cmd with
  | get key | incr key | decr key | ttl key | pttl key | persist key | llen key
  | hgetall key | hlen key | hkeys key | hvals key | echo msg | jsonPatch key patch
  | cas key expected newValue | auth password | quit | flushDb | multi | exec | discard
  | unwatch | publish channel message | hget key field | hexists key field =>
      exact hparse _ rfl
  | set key value ex px =>
      refine (hparse _ rfl).trans ?_
      change parseSet (Command.argument key :: Command.argument value ::
        (Command.option "EX" ex ++ Command.option "PX" px)) = _
      rw [parseSet, setOptions_option]
      rfl
  | del names | exists_ names | mget names | watch names | subscribe names
  | psubscribe names => exact (hparse _ rfl).trans (oneOrMore_words hformed)
  | incrBy key delta | decrBy key delta | lindex key delta =>
      exact (hparse _ rfl).trans (keyAndInteger_numeral _ _ key delta)
  | expire key n | pexpire key n =>
      refine (hparse _ rfl).trans ((keyAndInteger_numeral _ _ key n.toInt64).trans ?_)
      rw [UInt64.toUInt64_toInt64]
  | mset pairs =>
      refine (hparse _ rfl).trans ?_
      have hlength := length_pairWords pairs
      have hpairs : ¬ (Command.pairWords pairs = [] ∨
          (Command.pairWords pairs).length % 2 ≠ 0) := by
        rintro (hnil | hodd)
        · rw [hnil, List.length_nil] at hlength
          exact hformed (List.length_eq_zero_iff.mp (by omega))
        · omega
      change parseMset (Command.pairWords pairs) = _
      rw [parseMset, if_neg hpairs, extractPairs_pairWords]
      rfl
  | ping msg => cases msg <;> exact hparse _ rfl
  | info sectionName =>
      refine (hparse _ rfl).trans ?_
      cases sectionName with
      | none => rfl
      | some s =>
          change (extractText (Command.text s)).map (fun name => Command.info (some name)) = _
          rw [extractText_text]
          rfl
  | config action args =>
      exact (hparse _ rfl).trans (subcommandAndMore_words _ _ action args)
  | pubSub subcommand args | client subcommand args =>
      exact (hparse _ rfl).trans (subcommandAndMore_words _ _ subcommand args)
  | command subcommand args =>
      refine (hparse _ rfl).trans ?_
      cases subcommand with
      | none =>
          rw [hargs args rfl]
          rfl
      | some s =>
          change (do
            let subcommand <- extractText (Command.text s)
            let args <- extractAll (Command.words args)
            pure (Command.command (some subcommand) args)) = _
          rw [extractText_text, extractAll_words]
          rfl
  | keys pattern =>
      refine (hparse _ rfl).trans ?_
      exact congrArg (fun p => Except.ok (Command.keys p)) (fromUtf8Lossy_asBytes pattern)
  | scan cursor count pattern =>
      refine (hparse _ rfl).trans ?_
      change parseScan (Command.argument cursor :: (_ ++ _)) = _
      rw [parseScan, scanOptions_words]
      rfl
  | lpush key items | rpush key items | hmget key items | hdel key items =>
      exact (hparse _ rfl).trans (keyAndMore_words key hformed)
  | lpop key count | rpop key count =>
      exact (hparse _ rfl).trans (keyAndCount_numeral _ _ key count)
  | lrange key start stop =>
      refine (hparse _ rfl).trans ?_
      change (do
        let key <- extractBytes (Command.argument key)
        let start <- extractInteger (Command.numeral start)
        let stop <- extractInteger (Command.numeral stop)
        pure (Command.lrange key start stop)) = _
      rw [extractInteger_numeral, extractInteger_numeral]
      rfl
  | unsubscribe names | punsubscribe names =>
      refine (hparse _ rfl).trans (namesOrAll_words fun l hl => ?_)
      subst hl
      exact hformed
  | hset key fields =>
      refine (hparse _ rfl).trans ?_
      have hlength := length_pairWords fields
      have hpos := List.length_pos_iff.mpr hformed
      have hfields : ¬ ((Command.pairWords fields).length < 2 ∨
          (Command.pairWords fields).length % 2 ≠ 0) := by
        omega
      change parseHset (Command.argument key :: Command.pairWords fields) = _
      rw [parseHset, if_neg hfields, extractPairs_pairWords]
      rfl
  | hincrBy key field delta =>
      refine (hparse _ rfl).trans ?_
      change (do
        let key <- extractBytes (Command.argument key)
        let field <- extractBytes (Command.argument field)
        let delta <- extractInteger (Command.numeral delta)
        pure (Command.hincrBy key field delta)) = _
      rw [extractInteger_numeral]
      rfl

theorem sendable_of_fromResp {v : RespValue} {cmd : Command}
    (h : Command.fromResp v = .ok cmd) : cmd.Sendable := by
  rcases parser_of_fromResp h with ⟨name, args, w, parser, _, _, hparser, hcmd⟩
  exact ⟨wellFormed_of_fromResp h, takes_subcommand hparser args cmd hcmd⟩

theorem fromResp_iff_sendable (cmd : Command) :
    (exists v, Command.fromResp v = .ok cmd) <-> cmd.Sendable :=
  ⟨fun ⟨_, h⟩ => sendable_of_fromResp h, fun h => ⟨cmd.request, fromResp_request h⟩⟩

/-!
# Streams of requests
-/

namespace Command

def Bulk (vs : List RespValue) : Prop :=
  forall v, v ∈ vs -> exists b, v = argument b

@[simp] theorem bulk_nil : Bulk [] := fun _ h => absurd h List.not_mem_nil

@[simp] theorem bulk_cons (b : Bytes) {vs : List RespValue} :
    Bulk (argument b :: vs) <-> Bulk vs := by
  refine ⟨fun h v hv => h v (List.mem_cons_of_mem _ hv), fun h v hv => ?_⟩
  rcases List.mem_cons.mp hv with rfl | hv
  · exact ⟨b, rfl⟩
  · exact h v hv

@[simp] theorem bulk_append {vs ws : List RespValue} :
    Bulk (vs ++ ws) <-> Bulk vs ∧ Bulk ws := by
  unfold Bulk
  simp only [List.mem_append, or_imp, forall_and]

@[simp] theorem bulk_words (names : List Bytes) : Bulk (words names) := by
  intro v hv
  rcases List.mem_map.mp hv with ⟨name, _, rfl⟩
  exact ⟨name, rfl⟩

@[simp] theorem bulk_pairWords (pairs : List (Bytes × Bytes)) : Bulk (pairWords pairs) := by
  induction pairs with
  | nil => exact bulk_nil
  | cons pair pairs ih => exact (bulk_cons _).mpr ((bulk_cons _).mpr ih)

@[simp] theorem bulk_option (name : String) (n : Option UInt64) : Bulk (option name n) := by
  cases n with
  | none => exact bulk_nil
  | some n => exact (bulk_cons _).mpr ((bulk_cons _).mpr bulk_nil)

theorem bulk_arguments (cmd : Command) : Bulk cmd.arguments := by
  cases cmd with
  | info name => cases name <;> simp [arguments, text]
  | command name _ => cases name <;> simp [arguments, text]
  | scan _ _ pattern => cases pattern <;> simp [arguments, text, numeral]
  | lpop _ count | rpop _ count => cases count <;> simp [arguments, text, numeral]
  | _ => simp [arguments, text, numeral]

theorem lineSafe_request (cmd : Command) : LineSafe cmd.request := by
  refine LineSafe.array fun v hv => ?_
  rcases List.mem_cons.mp hv with rfl | hv
  · exact LineSafe.bulkString _
  · rcases cmd.bulk_arguments v hv with ⟨b, rfl⟩
    exact LineSafe.bulkString _

theorem fits_words (names : List Bytes) (h : names.length < 2 ^ 63)
    (hnames : forall name, name ∈ names -> name.length < 2 ^ 63) :
    Fits (.array (some (words names))) := by
  refine Fits.array ?_ fun v hv => ?_
  · exact (List.length_map argument).trans_lt h
  · rcases List.mem_map.mp hv with ⟨name, hname, rfl⟩
    exact Fits.bulkString (hnames name hname)

end Command

/-- Requests written one after the other are read back however they are cut, and
each of them gives its command. -/
theorem requests_read_back {cmds : List Command} {chunks : List Bytes}
    (hcmds : forall cmd, cmd ∈ cmds ->
      (exists v, Command.fromResp v = .ok cmd) ∧ Fits cmd.request)
    (hchunks : chunks.flatten =
      cmds.flatMap fun cmd => formatRespResponse cmd.request) :
    exists vs,
      (RespParser.feedAll (chunks.flatten.length + 1) .new chunks).map
        RespParser.report = some (vs, .waiting []) ∧
      vs.map Command.fromResp = cmds.map .ok := by
  refine ⟨cmds.map Command.request, ?_, ?_⟩
  · have hsafe : forall v, v ∈ cmds.map Command.request -> LineSafe v ∧ Fits v := by
      intro v hv
      rcases List.mem_map.mp hv with ⟨cmd, hcmd, rfl⟩
      exact ⟨cmd.lineSafe_request, (hcmds cmd hcmd).2⟩
    have hdrain := drain_formatRespResponse hsafe
    rw [List.flatMap_map, ← hchunks] at hdrain
    rw [RespParser.feedAll_eq_drainChunks (by simp), RespParser.unconsumed_new,
      parseValue_incremental.drainChunks_eq_drain chunks rfl, List.nil_append, hdrain]
  · rw [List.map_map]
    refine List.map_congr_left fun cmd hcmd => ?_
    exact fromResp_request ((fromResp_iff_sendable cmd).mp (hcmds cmd hcmd).1)

theorem requests_read_back_incrBy :
    exists vs,
      (RespParser.feedAll 46 .new
        [asBytes "*1\r\n$4\r\nQUIT\r\n*3\r",
          asBytes "\n$6\r\nINCRBY\r\n$1\r\nn\r\n$2\r\n-7\r\n"]).map
        RespParser.report = some (vs, .waiting []) ∧
      vs.map Command.fromResp = [.ok .quit, .ok (.incrBy (asBytes "n") (-7))] := by
  have hquit : Fits Command.quit.request :=
    Command.fits_words [asBytes "QUIT"] (by decide) (by decide)
  have hincrBy : Fits (Command.incrBy (asBytes "n") (-7)).request :=
    Command.fits_words [asBytes "INCRBY", asBytes "n", asBytes (decimal (-7))]
      (by decide) (by decide)
  have hsent : forall cmd, cmd ∈ [Command.quit, .incrBy (asBytes "n") (-7)] ->
      (exists v, Command.fromResp v = .ok cmd) ∧ Fits cmd.request := by
    intro cmd hcmd
    rw [fromResp_iff_sendable]
    rcases List.mem_cons.mp hcmd with rfl | hcmd
    · exact ⟨⟨trivial, fun _ h => by cases h⟩, hquit⟩
    · cases List.mem_singleton.mp hcmd
      exact ⟨⟨trivial, fun _ h => by cases h⟩, hincrBy⟩
  have hchunks : [asBytes "*1\r\n$4\r\nQUIT\r\n*3\r",
      asBytes "\n$6\r\nINCRBY\r\n$1\r\nn\r\n$2\r\n-7\r\n"].flatten =
        [Command.quit, .incrBy (asBytes "n") (-7)].flatMap fun cmd =>
          formatRespResponse cmd.request := by
    decide
  exact requests_read_back hsent hchunks

end FeoxServer
