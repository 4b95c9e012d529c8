import FeoxServer.Foundation.Checked
import FeoxServer.Protocol.AcceptedCommands

/-!
# The parser of commands with its indices

The parser once more, as it looks at its arguments: by their places.  A place out of
range panics.  The loops go on while there are arguments, so they end.
-/

namespace FeoxServer

open Foundation

namespace CommandParser

abbrev Reading (α : Type) : Type := ExceptT String Checked α

namespace Reading

def settled {α : Type} (r : Except String α) : Reading α :=
  ExceptT.mk (.ok r)

end Reading

open Reading

def bytesAt (args : List RespValue) (i : Nat) : Reading Bytes := do
  let value <- ExceptT.lift (Checked.index args i)
  settled (extractBytes value)

def integerAt (args : List RespValue) (i : Nat) : Reading Int64 := do
  let value <- ExceptT.lift (Checked.index args i)
  settled (extractInteger value)

def textAt (args : List RespValue) (i : Nat) : Reading String := do
  let value <- ExceptT.lift (Checked.index args i)
  settled (extractText value)

def allFrom (args : List RespValue) (start : Nat) : Reading (List Bytes) := do
  let rest <- ExceptT.lift (Checked.sliceFrom args start)
  settled (extractAll rest)

/-!
# Ways to take arguments
-/

def noArgumentsChecked (name : String) (c : Command) (args : List RespValue) :
    Reading Command :=
  if !args.isEmpty then settled (wrongNumber name) else pure c

def oneChecked (name : String) (c : Bytes -> Command) (args : List RespValue) :
    Reading Command :=
  if args.length ≠ 1 then settled (wrongNumber name)
  else do
    let key <- bytesAt args 0
    pure (c key)

def twoChecked (name : String) (c : Bytes -> Bytes -> Command) (args : List RespValue) :
    Reading Command :=
  if args.length ≠ 2 then settled (wrongNumber name)
  else do
    let a <- bytesAt args 0
    let b <- bytesAt args 1
    pure (c a b)

def keyAndIntegerChecked (name : String) (c : Bytes -> Int64 -> Command)
    (args : List RespValue) : Reading Command :=
  if args.length ≠ 2 then settled (wrongNumber name)
  else do
    let key <- bytesAt args 0
    let n <- integerAt args 1
    pure (c key n)

def oneOrMoreChecked (name : String) (c : List Bytes -> Command)
    (args : List RespValue) : Reading Command :=
  if args.isEmpty then settled (wrongNumber name)
  else do
    let names <- settled (extractAll args)
    pure (c names)

def keyAndMoreChecked (name : String) (c : Bytes -> List Bytes -> Command)
    (args : List RespValue) : Reading Command :=
  if args.length < 2 then settled (wrongNumber name)
  else do
    let key <- bytesAt args 0
    let values <- allFrom args 1
    pure (c key values)

def keyAndCountChecked (name : String) (c : Bytes -> Option UInt64 -> Command)
    (args : List RespValue) : Reading Command :=
  if args.isEmpty ∨ args.length > 2 then settled (wrongNumber name)
  else do
    let key <- bytesAt args 0
    if args.length = 2 then
      let count <- integerAt args 1
      pure (c key (some count.toUInt64))
    else pure (c key none)

def subcommandAndMoreChecked (name : String) (c : String -> List Bytes -> Command)
    (args : List RespValue) : Reading Command :=
  if args.isEmpty then settled (wrongNumber name)
  else do
    let subcommand <- textAt args 0
    let subargs <- settled (extractAll (args.drop 1))
    pure (c subcommand subargs)

def namesOrAllChecked (c : Option (List Bytes) -> Command) (args : List RespValue) :
    Reading Command :=
  if args.isEmpty then pure (c none)
  else do
    let names <- settled (extractAll args)
    pure (c (some names))

/-!
# Commands with options of their own
-/

def setLoopChecked (args : List RespValue) (i : Nat) (ex px : Option UInt64) :
    Reading (Option UInt64 × Option UInt64) :=
  if i < args.length then do
    let opt <- bytesAt args i
    if toAsciiUppercase opt = asBytes "EX" ∧ i + 1 < args.length then
      let n <- integerAt args (i + 1)
      setLoopChecked args (i + 2) (some n.toUInt64) px
    else if toAsciiUppercase opt = asBytes "PX" ∧ i + 1 < args.length then
      let n <- integerAt args (i + 1)
      setLoopChecked args (i + 2) ex (some n.toUInt64)
    else setLoopChecked args (i + 1) ex px
  else pure (ex, px)
termination_by args.length - i

def parseSetChecked (args : List RespValue) : Reading Command :=
  if args.length < 2 then settled (wrongNumber "SET")
  else do
    let key <- bytesAt args 0
    let value <- bytesAt args 1
    let (ex, px) <- setLoopChecked args 2 none none
    pure (.set key value ex px)

/-- The loop over fields and values in turn, from place `i` on. -/
def pairsLoopChecked (args : List RespValue) (i : Nat) (pairs : List (Bytes × Bytes)) :
    Reading (List (Bytes × Bytes)) :=
  if i < args.length then do
    let field <- bytesAt args i
    let value <- bytesAt args (i + 1)
    pairsLoopChecked args (i + 2) (pairs ++ [(field, value)])
  else pure pairs
termination_by args.length - i

def parseMsetChecked (args : List RespValue) : Reading Command :=
  if args.isEmpty ∨ args.length % 2 ≠ 0 then settled (wrongNumber "MSET")
  else do
    let pairs <- pairsLoopChecked args 0 []
    pure (.mset pairs)

def parseHsetChecked (args : List RespValue) : Reading Command :=
  if args.length < 3 then settled (wrongNumber "HSET")
  else do
    let rest <- ExceptT.lift (Checked.sub args.length 1)
    if rest % 2 ≠ 0 then settled (wrongNumber "HSET")
    else
      let key <- bytesAt args 0
      let fields <- pairsLoopChecked args 1 []
      pure (.hset key fields)

def parsePingChecked (args : List RespValue) : Reading Command :=
  if args.isEmpty then pure (.ping none)
  else do
    let msg <- bytesAt args 0
    pure (.ping (some msg))

def parseInfoChecked (args : List RespValue) : Reading Command :=
  if args.isEmpty then pure (.info none)
  else do
    let sectionName <- textAt args 0
    pure (.info (some sectionName))

def parseCommandCommandChecked (args : List RespValue) : Reading Command :=
  if args.isEmpty then pure (.command none [])
  else do
    let subcommand <- textAt args 0
    let subargs <- settled (extractAll (args.drop 1))
    pure (.command (some subcommand) subargs)

def scanLoopChecked (args : List RespValue) (i : Nat) (count : UInt64)
    (pattern : Option String) : Reading (UInt64 × Option String) :=
  if i < args.length then do
    let opt <- bytesAt args i
    if toAsciiUppercase opt = asBytes "MATCH" ∧ i + 1 < args.length then
      let text <- textAt args (i + 1)
      scanLoopChecked args (i + 2) count (some text)
    else if toAsciiUppercase opt = asBytes "COUNT" ∧ i + 1 < args.length then
      let n <- integerAt args (i + 1)
      scanLoopChecked args (i + 2) n.toUInt64 pattern
    else settled (.error "syntax error in SCAN")
  else pure (count, pattern)
termination_by args.length - i

def parseScanChecked (args : List RespValue) : Reading Command :=
  if args.isEmpty then settled (wrongNumber "SCAN")
  else do
    let cursor <- bytesAt args 0
    let (count, pattern) <- scanLoopChecked args 1 10 none
    pure (.scan cursor count pattern)

def parseCasChecked (args : List RespValue) : Reading Command :=
  if args.length ≠ 3 then settled (wrongNumber "CAS")
  else do
    let key <- bytesAt args 0
    let expected <- bytesAt args 1
    let newValue <- bytesAt args 2
    pure (.cas key expected newValue)

def parseLrangeChecked (args : List RespValue) : Reading Command :=
  if args.length ≠ 3 then settled (wrongNumber "LRANGE")
  else do
    let key <- bytesAt args 0
    let start <- integerAt args 1
    let stop <- integerAt args 2
    pure (.lrange key start stop)

def parseHincrbyChecked (args : List RespValue) : Reading Command :=
  if args.length ≠ 3 then settled (wrongNumber "HINCRBY")
  else do
    let key <- bytesAt args 0
    let field <- bytesAt args 1
    let delta <- integerAt args 2
    pure (.hincrBy key field delta)

/-!
# All places are in range
-/

section Places

variable {args : List RespValue} {i : Nat} {value : RespValue}

theorem bytesAt_eq (h : args[i]? = some value) :
    bytesAt args i = settled (extractBytes value) := by
  unfold bytesAt
  rw [Checked.index_ok h]
  rfl

theorem integerAt_eq (h : args[i]? = some value) :
    integerAt args i = settled (extractInteger value) := by
  unfold integerAt
  rw [Checked.index_ok h]
  rfl

theorem textAt_eq (h : args[i]? = some value) :
    textAt args i = settled (extractText value) := by
  unfold textAt
  rw [Checked.index_ok h]
  rfl

theorem allFrom_eq (h : i <= args.length) :
    allFrom args i = settled (extractAll (args.drop i)) := by
  unfold allFrom
  rw [Checked.sliceFrom_ok h]
  rfl

end Places

section Settled

variable {α β : Type}

theorem settled_ok_bind (a : α) (f : α -> Reading β) :
    (settled (.ok a) >>= f) = f a := rfl

theorem settled_bind {r : Except String α} {f : α -> Reading β} {g : α -> Except String β}
    (h : forall a, f a = settled (g a)) :
    (settled r >>= f) = settled (r >>= g) := by
  cases r with
  | error e => rfl
  | ok a => exact h a

theorem settled_map {r : Except String α} {c : α -> β} :
    (settled r >>= fun a => pure (c a)) = settled (r.map c) := by
  cases r <;> rfl

end Settled

variable {name : String}

theorem noArgumentsChecked_eq {c : Command} (args : List RespValue) :
    noArgumentsChecked name c args = settled (noArguments name c args) := by
  cases args <;> rfl

theorem oneChecked_eq {c : Bytes -> Command} (args : List RespValue) :
    oneChecked name c args = settled (one name c args) := by
  match args with
  | [] => rfl
  | [_] => exact settled_map
  | _ :: _ :: _ => exact if_pos (by simp)

theorem twoChecked_eq {c : Bytes -> Bytes -> Command} (args : List RespValue) :
    twoChecked name c args = settled (two name c args) := by
  match args with
  | [] | [_] => rfl
  | [_, _] => exact settled_bind fun _ => settled_bind fun _ => rfl
  | _ :: _ :: _ :: _ => exact if_pos (by simp)

theorem keyAndIntegerChecked_eq {c : Bytes -> Int64 -> Command} (args : List RespValue) :
    keyAndIntegerChecked name c args = settled (keyAndInteger name c args) := by
  match args with
  | [] | [_] => rfl
  | [_, _] => exact settled_bind fun _ => settled_bind fun _ => rfl
  | _ :: _ :: _ :: _ => exact if_pos (by simp)

theorem oneOrMoreChecked_eq {c : List Bytes -> Command} (args : List RespValue) :
    oneOrMoreChecked name c args = settled (oneOrMore name c args) := by
  cases args with
  | nil => rfl
  | cons first rest => exact settled_map

theorem keyAndMoreChecked_eq {c : Bytes -> List Bytes -> Command} (args : List RespValue) :
    keyAndMoreChecked name c args = settled (keyAndMore name c args) := by
  match args with
  | [] | [_] => rfl
  | first :: second :: rest =>
      unfold keyAndMoreChecked
      rw [if_neg (by simp)]
      exact settled_bind fun _ => by
        rw [allFrom_eq (by simp)]
        exact settled_bind fun _ => rfl

theorem keyAndCountChecked_eq {c : Bytes -> Option UInt64 -> Command}
    (args : List RespValue) :
    keyAndCountChecked name c args = settled (keyAndCount name c args) := by
  match args with
  | [] => rfl
  | [_] => exact settled_bind fun _ => rfl
  | [_, _] => exact settled_bind fun _ => settled_bind fun _ => rfl
  | _ :: _ :: _ :: _ => exact if_pos (by simp)

theorem subcommandAndMoreChecked_eq {c : String -> List Bytes -> Command}
    (args : List RespValue) :
    subcommandAndMoreChecked name c args = settled (subcommandAndMore name c args) := by
  cases args with
  | nil => rfl
  | cons first rest => exact settled_bind fun _ => settled_bind fun _ => rfl

theorem namesOrAllChecked_eq {c : Option (List Bytes) -> Command} (args : List RespValue) :
    namesOrAllChecked c args = settled (namesOrAll c args) := by
  cases args with
  | nil => rfl
  | cons first rest => exact settled_map

theorem setLoopChecked_eq {args options : List RespValue} {i : Nat}
    (hdrop : args.drop i = options) (ex px : Option UInt64) :
    setLoopChecked args i ex px = settled (setOptions options ex px) := by
  induction options, ex, px using setOptions.induct generalizing i with
  | case1 ex px =>
      have hend := List.drop_eq_nil_iff.mp hdrop
      rw [setLoopChecked, if_neg (Nat.not_lt.mpr hend)]
      rfl
  | case2 last ex px =>
      rcases Checked.of_drop_cons hdrop with ⟨hi, hget, hrest⟩
      have hlast : ¬ i + 1 < args.length :=
        Nat.not_lt.mpr (List.drop_eq_nil_iff.mp hrest)
      rw [setLoopChecked, if_pos hi, bytesAt_eq hget]
      refine settled_bind fun opt => ?_
      rw [if_neg fun h => hlast h.2, if_neg fun h => hlast h.2, setLoopChecked,
        if_neg hlast]
      rfl
  | case3 option value rest ex px ihex ihpx ihnext =>
      rcases Checked.of_drop_cons hdrop with ⟨hi, hget, hrest⟩
      rcases Checked.of_drop_cons hrest with ⟨hnext, hgetnext, hrestnext⟩
      rw [setLoopChecked, if_pos hi, bytesAt_eq hget, setOptions]
      refine settled_bind fun opt => ?_
      by_cases hex : toAsciiUppercase opt = asBytes "EX"
      · rw [if_pos ⟨hex, hnext⟩, if_pos hex, integerAt_eq hgetnext]
        exact settled_bind fun n => ihex n hrestnext
      rw [if_neg fun h => hex h.1, if_neg hex]
      by_cases hpx : toAsciiUppercase opt = asBytes "PX"
      · rw [if_pos ⟨hpx, hnext⟩, if_pos hpx, integerAt_eq hgetnext]
        exact settled_bind fun n => ihpx n hrestnext
      rw [if_neg fun h => hpx h.1, if_neg hpx]
      exact ihnext hrest

theorem parseSetChecked_eq (args : List RespValue) :
    parseSetChecked args = settled (parseSet args) := by
  match args with
  | [] | [_] => rfl
  | first :: second :: options =>
      unfold parseSetChecked
      rw [if_neg (by simp)]
      refine settled_bind fun key => ?_
      refine settled_bind fun value => ?_
      have hdrop : (first :: second :: options).drop 2 = options := rfl
      rw [setLoopChecked_eq hdrop]
      exact settled_bind fun _ => rfl

theorem pairsLoopChecked_eq {args rest : List RespValue} {i : Nat}
    (hdrop : args.drop i = rest) (heven : rest.length % 2 = 0)
    (pairs : List (Bytes × Bytes)) :
    pairsLoopChecked args i pairs = settled ((extractPairs rest).map (pairs ++ ·)) := by
  induction rest using extractPairs.induct generalizing i pairs with
  | case1 field value rest ih =>
      rcases Checked.of_drop_cons hdrop with ⟨hi, hget, hrest⟩
      rcases Checked.of_drop_cons hrest with ⟨_, hgetnext, hrestnext⟩
      rw [List.length_cons, List.length_cons] at heven
      rw [pairsLoopChecked, if_pos hi, bytesAt_eq hget, extractPairs]
      cases extractBytes field with
      | error e => rfl
      | ok f =>
          rw [settled_ok_bind, bytesAt_eq hgetnext]
          cases extractBytes value with
          | error e => rfl
          | ok v =>
              rw [settled_ok_bind, ih hrestnext (by omega)]
              change _ = settled (Except.map (pairs ++ ·)
                (extractPairs rest >>= fun ps => pure ((f, v) :: ps)))
              cases extractPairs rest with
              | error e => rfl
              | ok ps =>
                  exact congrArg (fun ps => settled (.ok ps))
                    (List.append_assoc pairs [(f, v)] ps)
  | case2 rest hshort =>
      rcases rest with _ | ⟨field, _ | ⟨value, rest⟩⟩
      · have hend := List.drop_eq_nil_iff.mp hdrop
        rw [pairsLoopChecked, if_neg (Nat.not_lt.mpr hend)]
        exact congrArg (fun ps => settled (.ok ps)) (List.append_nil pairs).symm
      · cases heven
      · exact absurd rfl (hshort field value rest)

theorem pairsLoopChecked_nil {args rest : List RespValue} {i : Nat}
    (hdrop : args.drop i = rest) (heven : rest.length % 2 = 0) :
    pairsLoopChecked args i [] = settled (extractPairs rest) := by
  rw [pairsLoopChecked_eq hdrop heven]
  cases extractPairs rest <;> rfl

theorem parseMsetChecked_eq (args : List RespValue) :
    parseMsetChecked args = settled (parseMset args) := by
  have hsame : args.isEmpty = true ∨ args.length % 2 ≠ 0 ↔
      args = [] ∨ args.length % 2 ≠ 0 :=
    or_congr_left List.isEmpty_iff
  unfold parseMsetChecked parseMset
  by_cases hshape : args = [] ∨ args.length % 2 ≠ 0
  · rw [if_pos (hsame.mpr hshape), if_pos hshape]
  · have heven : args.length % 2 = 0 := not_not.mp (not_or.mp hshape).2
    have hdrop : args.drop 0 = args := rfl
    rw [if_neg (mt hsame.mp hshape), if_neg hshape, pairsLoopChecked_nil hdrop heven,
      settled_map]

theorem parseHsetChecked_eq (args : List RespValue) :
    parseHsetChecked args = settled (parseHset args) := by
  cases args with
  | nil => rfl
  | cons first rest =>
      have hlength : (first :: rest).length = rest.length + 1 := List.length_cons
      have hsub : Checked.sub (first :: rest).length 1 = .ok rest.length :=
        Checked.sub_ok (Nat.le_add_left 1 rest.length)
      have hdrop : (first :: rest).drop 1 = rest := rfl
      unfold parseHsetChecked parseHset
      dsimp only
      by_cases hshort : rest.length < 2
      · rw [if_pos (by omega), if_pos (Or.inl hshort)]
      rw [if_neg (by omega), hsub]
      by_cases heven : rest.length % 2 = 0
      · rw [if_neg (not_or.mpr ⟨hshort, not_not.mpr heven⟩)]
        change (if rest.length % 2 ≠ 0 then settled (wrongNumber "HSET") else _) = _
        rw [if_neg (not_not.mpr heven)]
        refine settled_bind fun key => ?_
        rw [pairsLoopChecked_nil hdrop heven]
        exact settled_bind fun _ => rfl
      · rw [if_pos (Or.inr heven)]
        exact if_pos heven

theorem parsePingChecked_eq (args : List RespValue) :
    parsePingChecked args = settled (parsePing args) := by
  cases args with
  | nil => rfl
  | cons first rest => exact settled_map

theorem parseInfoChecked_eq (args : List RespValue) :
    parseInfoChecked args = settled (parseInfo args) := by
  cases args with
  | nil => rfl
  | cons first rest => exact settled_map

theorem parseCommandCommandChecked_eq (args : List RespValue) :
    parseCommandCommandChecked args = settled (parseCommandCommand args) := by
  cases args with
  | nil => rfl
  | cons first rest => exact settled_bind fun _ => settled_bind fun _ => rfl

theorem scanLoopChecked_eq {args options : List RespValue} {i : Nat}
    (hdrop : args.drop i = options) (count : UInt64) (pattern : Option String) :
    scanLoopChecked args i count pattern =
      settled (scanOptions options count pattern) := by
  induction options, count, pattern using scanOptions.induct generalizing i with
  | case1 count pattern =>
      have hend := List.drop_eq_nil_iff.mp hdrop
      rw [scanLoopChecked, if_neg (Nat.not_lt.mpr hend)]
      rfl
  | case2 last count pattern =>
      rcases Checked.of_drop_cons hdrop with ⟨hi, hget, hrest⟩
      have hlast : ¬ i + 1 < args.length :=
        Nat.not_lt.mpr (List.drop_eq_nil_iff.mp hrest)
      rw [scanLoopChecked, if_pos hi, bytesAt_eq hget]
      refine settled_bind fun opt => ?_
      rw [if_neg fun h => hlast h.2, if_neg fun h => hlast h.2]
  | case3 option value rest count pattern ihmatch ihcount =>
      rcases Checked.of_drop_cons hdrop with ⟨hi, hget, hrest⟩
      rcases Checked.of_drop_cons hrest with ⟨hnext, hgetnext, hrestnext⟩
      rw [scanLoopChecked, if_pos hi, bytesAt_eq hget, scanOptions]
      refine settled_bind fun opt => ?_
      by_cases hmatch : toAsciiUppercase opt = asBytes "MATCH"
      · rw [if_pos ⟨hmatch, hnext⟩, if_pos hmatch, textAt_eq hgetnext]
        exact settled_bind fun text => ihmatch text hrestnext
      rw [if_neg fun h => hmatch h.1, if_neg hmatch]
      by_cases hcount : toAsciiUppercase opt = asBytes "COUNT"
      · rw [if_pos ⟨hcount, hnext⟩, if_pos hcount, integerAt_eq hgetnext]
        exact settled_bind fun n => ihcount n hrestnext
      rw [if_neg fun h => hcount h.1, if_neg hcount]

theorem parseScanChecked_eq (args : List RespValue) :
    parseScanChecked args = settled (parseScan args) := by
  cases args with
  | nil => rfl
  | cons first options =>
      refine settled_bind fun cursor => ?_
      have hdrop : (first :: options).drop 1 = options := rfl
      rw [scanLoopChecked_eq hdrop]
      exact settled_bind fun _ => rfl

theorem parseCasChecked_eq (args : List RespValue) :
    parseCasChecked args = settled (parseCas args) := by
  match args with
  | [] | [_] | [_, _] => rfl
  | [_, _, _] => exact settled_bind fun _ => settled_bind fun _ => settled_bind fun _ => rfl
  | _ :: _ :: _ :: _ :: _ => exact if_pos (by simp)

theorem parseLrangeChecked_eq (args : List RespValue) :
    parseLrangeChecked args = settled (parseLrange args) := by
  match args with
  | [] | [_] | [_, _] => rfl
  | [_, _, _] => exact settled_bind fun _ => settled_bind fun _ => settled_bind fun _ => rfl
  | _ :: _ :: _ :: _ :: _ => exact if_pos (by simp)

theorem parseHincrbyChecked_eq (args : List RespValue) :
    parseHincrbyChecked args = settled (parseHincrby args) := by
  match args with
  | [] | [_] | [_, _] => rfl
  | [_, _, _] => exact settled_bind fun _ => settled_bind fun _ => settled_bind fun _ => rfl
  | _ :: _ :: _ :: _ :: _ => exact if_pos (by simp)

/-!
# The whole parser
-/

def parserOfChecked : String -> Option (List RespValue -> Reading Command)
  | "GET" => some (oneChecked "GET" .get)
  | "SET" => some parseSetChecked
  | "DEL" => some (oneOrMoreChecked "DEL" .del)
  | "EXISTS" => some (oneOrMoreChecked "EXISTS" .exists_)
  | "INCR" => some (oneChecked "INCR" .incr)
  | "INCRBY" => some (keyAndIntegerChecked "INCRBY" .incrBy)
  | "DECR" => some (oneChecked "DECR" .decr)
  | "DECRBY" => some (keyAndIntegerChecked "DECRBY" .decrBy)
  | "EXPIRE" =>
      some (keyAndIntegerChecked "EXPIRE" fun key n => .expire key n.toUInt64)
  | "PEXPIRE" =>
      some (keyAndIntegerChecked "PEXPIRE" fun key n => .pexpire key n.toUInt64)
  | "TTL" => some (oneChecked "TTL" .ttl)
  | "PTTL" => some (oneChecked "PTTL" .pttl)
  | "PERSIST" => some (oneChecked "PERSIST" .persist)
  | "MGET" => some (oneOrMoreChecked "MGET" .mget)
  | "MSET" => some parseMsetChecked
  | "PING" => some parsePingChecked
  | "ECHO" => some (oneChecked "ECHO" .echo)
  | "INFO" => some parseInfoChecked
  | "CONFIG" => some (subcommandAndMoreChecked "CONFIG" .config)
  | "COMMAND" => some parseCommandCommandChecked
  | "QUIT" => some fun _ => pure .quit
  | "FLUSHDB" => some fun _ => pure .flushDb
  | "KEYS" => some (oneChecked "KEYS" fun pattern => .keys (fromUtf8Lossy pattern))
  | "SCAN" => some parseScanChecked
  | "JSONPATCH" => some (twoChecked "JSONPATCH" .jsonPatch)
  | "CAS" => some parseCasChecked
  | "LPUSH" => some (keyAndMoreChecked "LPUSH" .lpush)
  | "RPUSH" => some (keyAndMoreChecked "RPUSH" .rpush)
  | "LPOP" => some (keyAndCountChecked "LPOP" .lpop)
  | "RPOP" => some (keyAndCountChecked "RPOP" .rpop)
  | "LLEN" => some (oneChecked "LLEN" .llen)
  | "LRANGE" => some parseLrangeChecked
  | "LINDEX" => some (keyAndIntegerChecked "LINDEX" .lindex)
  | "AUTH" => some (oneChecked "AUTH" .auth)
  | "SUBSCRIBE" => some (oneOrMoreChecked "SUBSCRIBE" .subscribe)
  | "UNSUBSCRIBE" => some (namesOrAllChecked .unsubscribe)
  | "PSUBSCRIBE" => some (oneOrMoreChecked "PSUBSCRIBE" .psubscribe)
  | "PUNSUBSCRIBE" => some (namesOrAllChecked .punsubscribe)
  | "PUBLISH" => some (twoChecked "PUBLISH" .publish)
  | "PUBSUB" => some (subcommandAndMoreChecked "PUBSUB" .pubSub)
  | "CLIENT" => some (subcommandAndMoreChecked "CLIENT" .client)
  | "HSET" => some parseHsetChecked
  | "HGET" => some (twoChecked "HGET" .hget)
  | "HMGET" => some (keyAndMoreChecked "HMGET" .hmget)
  | "HDEL" => some (keyAndMoreChecked "HDEL" .hdel)
  | "HEXISTS" => some (twoChecked "HEXISTS" .hexists)
  | "HGETALL" => some (oneChecked "HGETALL" .hgetall)
  | "HLEN" => some (oneChecked "HLEN" .hlen)
  | "HKEYS" => some (oneChecked "HKEYS" .hkeys)
  | "HVALS" => some (oneChecked "HVALS" .hvals)
  | "HINCRBY" => some parseHincrbyChecked
  | "MULTI" => some (noArgumentsChecked "MULTI" .multi)
  | "EXEC" => some (noArgumentsChecked "EXEC" .exec)
  | "DISCARD" => some (noArgumentsChecked "DISCARD" .discard)
  | "WATCH" => some (oneOrMoreChecked "WATCH" .watch)
  | "UNWATCH" => some (noArgumentsChecked "UNWATCH" .unwatch)
  | _ => none

/-- `parse_command`, with `args.remove(0)` as an access to a place. -/
def parseCommandChecked : RespValue -> Checked Parsed
  | .array (some values) =>
      if values.isEmpty then .ok (.error "Commands must be arrays")
      else do
        match <- Checked.index values 0 with
        | .bulkString (some cmdName) =>
            match (fromUtf8 (toAsciiUppercase cmdName)).bind parserOfChecked with
            | some parser => (parser (values.drop 1)).run
            | none => .ok (.error ("unknown command '" ++ fromUtf8Lossy cmdName ++ "'"))
        | _ => .ok (.error "Invalid command format")
  | _ => .ok (.error "Commands must be arrays")

theorem parserOfChecked_some {word : String} {parser : List RespValue -> Parsed}
    (h : parserOf word = some parser) :
    parserOfChecked word = some fun args => settled (parser args) := by
  unfold parserOf at h
  split at h <;> cases h
  all_goals first
    | exact congrArg some (funext oneChecked_eq)
    | exact congrArg some (funext oneOrMoreChecked_eq)
    | exact congrArg some (funext keyAndIntegerChecked_eq)
    | exact congrArg some (funext keyAndMoreChecked_eq)
    | exact congrArg some (funext keyAndCountChecked_eq)
    | exact congrArg some (funext twoChecked_eq)
    | exact congrArg some (funext noArgumentsChecked_eq)
    | exact congrArg some (funext subcommandAndMoreChecked_eq)
    | exact congrArg some (funext namesOrAllChecked_eq)
    | exact congrArg some (funext parseSetChecked_eq)
    | exact congrArg some (funext parseMsetChecked_eq)
    | exact congrArg some (funext parseHsetChecked_eq)
    | exact congrArg some (funext parsePingChecked_eq)
    | exact congrArg some (funext parseInfoChecked_eq)
    | exact congrArg some (funext parseCommandCommandChecked_eq)
    | exact congrArg some (funext parseScanChecked_eq)
    | exact congrArg some (funext parseCasChecked_eq)
    | exact congrArg some (funext parseLrangeChecked_eq)
    | exact congrArg some (funext parseHincrbyChecked_eq)
    | rfl

theorem parserOfChecked_none {word : String} (h : parserOf word = none) :
    parserOfChecked word = none := by
  unfold parserOfChecked
  split
  all_goals first
    | rfl
    | cases h

theorem parserOfChecked_eq (word : String) :
    parserOfChecked word = (parserOf word).map fun parser args => settled (parser args) := by
  cases h : parserOf word with
  | none => exact parserOfChecked_none h
  | some parser => exact parserOfChecked_some h

theorem run_settled {α : Type} (r : Except String α) : (settled r).run = .ok r := rfl

theorem parseCommandChecked_eq (value : RespValue) :
    parseCommandChecked value = .ok (parseCommand value) := by
  match value with
  | .array (some []) => rfl
  | .array (some (.bulkString (some cmdName) :: args)) =>
      have hparser : (fromUtf8 (toAsciiUppercase cmdName)).bind parserOfChecked =
          ((fromUtf8 (toAsciiUppercase cmdName)).bind parserOf).map
            fun parser args => settled (parser args) := by
        cases fromUtf8 (toAsciiUppercase cmdName) with
        | none => rfl
        | some word => exact parserOfChecked_eq word
      change (match (fromUtf8 (toAsciiUppercase cmdName)).bind parserOfChecked with
        | some parser => (parser args).run
        | none => .ok (.error ("unknown command '" ++ fromUtf8Lossy cmdName ++ "'"))) = _
      rw [hparser, parseCommand]
      cases (fromUtf8 (toAsciiUppercase cmdName)).bind parserOf with
      | none => rfl
      | some parser => exact run_settled (parser args)
  | .array (some (.bulkString none :: _)) | .array (some (.simpleString _ :: _))
  | .array (some (.error _ :: _)) | .array (some (.integer _ :: _))
  | .array (some (.array _ :: _)) => rfl
  | .array none | .bulkString _ | .simpleString _ | .error _ | .integer _ => rfl

end CommandParser

/-- No command makes the parser panic, and what it takes for pairs are all the
arguments of the command, in order, two by two. -/
theorem argument_loops_safe (value : RespValue) :
    CommandParser.parseCommandChecked value = .ok (Command.fromResp value) ∧
      forall cmd, Command.fromResp value = .ok cmd ->
        exists name args, value = .array (some (.bulkString (some name) :: args)) ∧
          cmd.PairedFrom args := by
  refine ⟨CommandParser.parseCommandChecked_eq value, fun cmd hcmd => ?_⟩
  rcases parser_of_fromResp hcmd with ⟨name, args, word, parser, hvalue, _, hparser, hargs⟩
  exact ⟨name, args, hvalue, (CommandParser.takes_parserOf hparser args cmd hargs).2⟩

end FeoxServer
