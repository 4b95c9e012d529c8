import FeoxServer.Protocol.RespGrammar

/-!
# What the parser waits with

A line without its end, a bulk string with fewer bytes than announced, or an array
with fewer values.  Whether more input can complete it is not asked.
-/

namespace FeoxServer

open Foundation

def kindOctets : Bytes :=
  [43, 45, 58, 36, 42]

/-- No value is here yet, and nothing has been refused. -/
inductive Unfinished : Bytes -> Prop
  | nil : Unfinished []
  | line {kind : UInt8} {line : Bytes} (hkind : kind ∈ kindOctets)
      (hline : OneLine line) : Unfinished (kind :: line)
  | bulkString {text : String} {n : Int64} {rest : Bytes}
      (hnumber : parseI64 text = some n) (hshort : rest.length < n.toInt + 2)
      (hlength : 0 <= n.toInt) : Unfinished (36 :: asBytes text ++ crlf ++ rest)
  | array {text : String} {n : Int64} {items : List RespValue} {parts : List Bytes}
      {rest : Bytes} (hnumber : parseI64 text = some n)
      (hshort : items.length < n.toInt) (hparts : List.Forall₂ Encodes items parts)
      (hrest : Unfinished rest) :
      Unfinished (42 :: asBytes text ++ crlf ++ (parts.flatten ++ rest))

theorem oneLine_iff {line : Bytes} : findCrlf line = none <-> OneLine line :=
  findCrlf_eq_none_iff

theorem ne_cr_of_kind {kind : UInt8} (h : kind ∈ kindOctets) : kind ≠ 13 := by
  rintro rfl
  exact absurd h (by decide)

theorem findCrlf_eq_none_of_kind {kind : UInt8} (h : kind ∈ kindOctets) {tail : Bytes} :
    findCrlf (kind :: tail) = none <-> OneLine tail :=
  oneLine_iff.trans (oneLine_cons (ne_cr_of_kind h))

theorem parseSimpleString_eq_none {buf : Bytes} (h : parseSimpleString buf = .ok none) :
    findCrlf buf = none := by
  unfold parseSimpleString at h
  cases hfind : findCrlf buf with
  | none => rfl
  | some stop =>
      rw [hfind] at h
      cases h

theorem parseError_eq_none {buf : Bytes} (h : parseError buf = .ok none) :
    findCrlf buf = none := by
  unfold parseError at h
  cases hfind : findCrlf buf with
  | none => rfl
  | some stop =>
      rw [hfind] at h
      dsimp only at h
      split at h <;> cases h

theorem parseInteger_eq_none {buf : Bytes} (h : parseInteger buf = .ok none) :
    findCrlf buf = none := by
  unfold parseInteger at h
  cases hfind : findCrlf buf with
  | none => rfl
  | some stop =>
      rw [hfind] at h
      dsimp only at h
      split at h
      · split at h <;> cases h
      · cases h

theorem parseLength_eq_none {noun : String} {buf : Bytes}
    (h : parseLength noun buf = .ok none) : findCrlf buf = none := by
  unfold parseLength at h
  cases hfind : findCrlf buf with
  | none => rfl
  | some stop =>
      rw [hfind] at h
      dsimp only at h
      split at h
      · cases h
      · split at h <;> cases h

theorem toNat_of_not_neg {n : Int64} (h : ¬ n < 0) :
    0 <= n.toInt ∧ (n.toInt.toNat : Int) = n.toInt := by
  rw [Int64.lt_iff_toInt_lt] at h
  exact ⟨Int.not_lt.mp h, Int.toNat_of_nonneg (Int.not_lt.mp h)⟩

/-!
# The parser waits with these only
-/

theorem unfinished_of_bulkString {tail : Bytes}
    (h : parseBulkString (36 :: tail) = .ok none) : Unfinished (36 :: tail) := by
  unfold parseBulkString at h
  cases hlen : parseLength "bulk string" (36 :: tail) with
  | error e =>
      rw [hlen] at h
      cases h
  | ok r =>
      cases r with
      | none =>
          have hkind : (36 : UInt8) ∈ kindOctets := by decide
          exact .line hkind ((findCrlf_eq_none_of_kind hkind).mp (parseLength_eq_none hlen))
      | some lenLine =>
          rcases lenLine with ⟨len, lenEnd⟩
          rcases parseLength_sound (by decide) hlen with
            ⟨text, rest, hbuf, hnumber, hheader⟩
          have hlength := congrArg List.length hbuf
          rw [List.length_append, hheader] at hlength
          simp only [hlen] at h
          split_ifs at h with hneg hshort hends
          · cases h
          · rcases toNat_of_not_neg hneg with ⟨hnonneg, hnat⟩
            rw [hbuf]
            exact .bulkString hnumber (by omega) hnonneg
          · cases h

theorem parseElements_eq_none {parse : Bytes -> ParseResult} {buf : Bytes} {start : Nat}
    (hsound : forall (pos : Nat) v n, start <= pos ->
      parse (buf.drop pos) = .ok (some (v, n)) -> BeginsWith (buf.drop pos) v n)
    (hwaits : forall pos : Nat, start <= pos -> parse (buf.drop pos) = .ok none ->
      Unfinished (buf.drop pos))
    {k pos : Nat} {elements : List RespValue} (hstart : start <= pos)
    (h : parseElements parse buf k pos elements = .ok none) :
    exists items parts rest, items.length < k ∧ List.Forall₂ Encodes items parts ∧
      buf.drop pos = parts.flatten ++ rest ∧ Unfinished rest := by
  induction k generalizing pos elements with
  | zero => cases h
  | succ k ih =>
      unfold parseElements at h
      cases hfirst : parse (buf.drop pos) with
      | error e =>
          rw [hfirst] at h
          cases h
      | ok r =>
          cases r with
          | none => exact ⟨[], [], _, Nat.succ_pos k, .nil, rfl, hwaits pos hstart hfirst⟩
          | some found =>
              rcases found with ⟨value, consumed⟩
              simp only [hfirst] at h
              rcases hsound pos value consumed hstart hfirst with
                ⟨enc, after, hbegins, rfl, hencodes⟩
              rcases ih (Nat.le_add_right_of_le hstart) h with
                ⟨items, parts, rest, hcount, hparts, hdrop, hrest⟩
              rw [← List.drop_drop, hbegins, List.drop_left] at hdrop
              refine ⟨value :: items, enc :: parts, rest, Nat.succ_lt_succ hcount,
                .cons hencodes hparts, ?_, hrest⟩
              rw [hbegins, hdrop, List.flatten_cons, List.append_assoc]

theorem unfinished_of_array {tail : Bytes}
    (hwaits : forall buf : Bytes, buf.length < (42 :: tail).length ->
      parseValue buf = .ok none -> Unfinished buf)
    (h : parseArray parseValue (42 :: tail) = .ok none) : Unfinished (42 :: tail) := by
  unfold parseArray at h
  cases hlen : parseLength "array" (42 :: tail) with
  | error e =>
      rw [hlen] at h
      cases h
  | ok r =>
      cases r with
      | none =>
          have hkind : (42 : UInt8) ∈ kindOctets := by decide
          exact .line hkind ((findCrlf_eq_none_of_kind hkind).mp (parseLength_eq_none hlen))
      | some lenLine =>
          rcases lenLine with ⟨len, lenEnd⟩
          rcases parseLength_sound (by decide) hlen with
            ⟨text, rest, hbuf, hnumber, hheader⟩
          simp only [hlen] at h
          split_ifs at h with hneg
          · cases h
          · rcases toNat_of_not_neg hneg with ⟨_, hnat⟩
            -- An element is shorter than the array that it is in.
            have hshorter : forall pos, lenEnd + 2 <= pos ->
                parseValue ((42 :: tail).drop pos) = .ok none ->
                  Unfinished ((42 :: tail).drop pos) := by
              intro pos hpos
              apply hwaits
              rw [List.length_drop, List.length_cons]
              omega
            rcases parseElements_eq_none (fun _ _ _ _ hvalue => parseValue_sound hvalue)
              hshorter (Nat.le_refl _) h with
              ⟨items, parts, after, hcount, hparts, hdrop, hafter⟩
            rw [← hheader, hbuf, List.drop_left] at hdrop
            rw [hbuf, hdrop]
            exact .array hnumber (by omega) hparts hafter

theorem unfinished_of_parseValue {buf : Bytes} (h : parseValue buf = .ok none) :
    Unfinished buf := by
  induction hlength : buf.length using Nat.strong_induction_on generalizing buf with
  | _ length ih =>
      cases buf with
      | nil => exact .nil
      | cons kind tail =>
          have hline : forall {kind : UInt8} {tail : Bytes}, kind ∈ kindOctets ->
              findCrlf (kind :: tail) = none -> Unfinished (kind :: tail) :=
            fun hkind hfind => .line hkind ((findCrlf_eq_none_of_kind hkind).mp hfind)
          by_cases hstar : kind = 42
          · subst hstar
            rw [parseValue_array rfl] at h
            refine unfinished_of_array (fun buf hlt hvalue => ?_) h
            exact ih buf.length (hlength ▸ hlt) hvalue rfl
          · change parseValueFuel (tail.length + 1 + 1) (kind :: tail) = _ at h
            unfold parseValueFuel at h
            simp only [if_neg hstar] at h
            split_ifs at h with hplus hminus hcolon hdollar
            · subst hplus
              exact hline (by decide) (parseSimpleString_eq_none h)
            · subst hminus
              exact hline (by decide) (parseError_eq_none h)
            · subst hcolon
              exact hline (by decide) (parseInteger_eq_none h)
            · subst hdollar
              exact unfinished_of_bulkString h

/-!
# The parser waits with all of these
-/

theorem parseValue_of_line {kind : UInt8} {line : Bytes} (hkind : kind ∈ kindOctets)
    (hline : OneLine line) : parseValue (kind :: line) = .ok none := by
  have hfind := (findCrlf_eq_none_of_kind hkind).mpr hline
  have hlength : forall noun, parseLength noun (kind :: line) = .ok none := by
    intro noun
    rw [parseLength, hfind]
  change parseValueFuel (line.length + 1 + 1) (kind :: line) = _
  unfold parseValueFuel
  dsimp only
  split_ifs with hplus hminus hcolon hdollar hstar
  · rw [parseSimpleString, hfind]
  · rw [parseError, hfind]
  · rw [parseInteger, hfind]
  · rw [parseBulkString, hlength]
  · rw [parseArray, hlength]
  · simp only [kindOctets, List.mem_cons, List.not_mem_nil, or_false] at hkind
    tauto

theorem parseElements_of_unfinished {parse : Bytes -> ParseResult}
    {items : List RespValue} {parts : List Bytes} {rest : Bytes}
    (hparts : List.Forall₂ (fun v enc => forall rest,
      parse (enc ++ rest) = .ok (some (v, enc.length))) items parts)
    (hrest : parse rest = .ok none) {k : Nat} (hk : items.length < k) (header : Bytes)
    (elements : List RespValue) :
    parseElements parse (header ++ (parts.flatten ++ rest)) k header.length elements =
      .ok none := by
  induction hparts generalizing k header elements with
  | nil =>
      rcases Nat.exists_eq_add_of_lt hk with ⟨m, rfl⟩
      rw [List.flatten_nil, List.nil_append, parseElements, List.drop_left, hrest]
  | @cons item enc items parts hfirst _ ih =>
      rcases Nat.exists_eq_add_of_lt hk with ⟨m, rfl⟩
      have hmore : items.length < (item :: items).length + m := by
        rw [List.length_cons]
        omega
      have htail := ih hmore (header ++ enc) (elements ++ [item])
      have hwhole : header ++ ((enc :: parts).flatten ++ rest) =
          header ++ enc ++ (parts.flatten ++ rest) := by
        rw [List.flatten_cons, List.append_assoc, List.append_assoc]
      rw [parseElements, hwhole, List.append_assoc header enc, List.drop_left, hfirst]
      rw [List.length_append, List.append_assoc] at htail
      exact htail

theorem parseValue_of_unfinished {buf : Bytes} (h : Unfinished buf) :
    parseValue buf = .ok none := by
  induction h with
  | nil => rfl
  | line hkind hline => exact parseValue_of_line hkind hline
  | @bulkString text n rest hnumber hshort hlength =>
      have hheader := parseLength_line "bulk string" rest
        (show (36 : UInt8) ≠ 13 by decide) (oneLine_of_parseI64 hnumber) hnumber
      have hnonneg : ¬ n < 0 := by
        rw [Int64.lt_iff_toInt_lt]
        exact Int.not_lt.mpr hlength
      rcases toNat_of_not_neg hnonneg with ⟨_, hnat⟩
      change parseBulkString (36 :: asBytes text ++ crlf ++ rest) = _
      unfold parseBulkString
      rw [hheader]
      dsimp only
      rw [if_neg hnonneg, if_pos]
      rw [List.length_append, length_line]
      omega
  | @array text n items parts rest hnumber hshort hparts _ ih =>
      have hheader := parseLength_line "array" (parts.flatten ++ rest)
        (show (42 : UInt8) ≠ 13 by decide) (oneLine_of_parseI64 hnumber) hnumber
      have hnonneg : ¬ n < 0 := by
        rw [Int64.lt_iff_toInt_lt]
        exact Int.not_lt.mpr (Int.le_trans (Int.natCast_nonneg _) (Int.le_of_lt hshort))
      rcases toNat_of_not_neg hnonneg with ⟨_, hnat⟩
      have hitems : List.Forall₂ (fun v enc => forall rest,
          parseValue (enc ++ rest) = .ok (some (v, enc.length))) items parts :=
        hparts.imp fun _ _ hencodes => parseValue_complete hencodes
      rw [parseValue_array rfl]
      unfold parseArray
      rw [hheader]
      dsimp only
      rw [if_neg hnonneg, ← length_line 42]
      exact parseElements_of_unfinished hitems ih (by omega) _ []

theorem parseValue_eq_none_iff {buf : Bytes} :
    parseValue buf = .ok none <-> Unfinished buf :=
  ⟨unfinished_of_parseValue, parseValue_of_unfinished⟩

/-- Fed with any chunks, the parser returns values and waits with some bytes left over
if and only if the input is a run of encodings of the values in front of these bytes,
and these are unfinished.  A beginning of an encoding is. -/
theorem feedAll_waiting_iff (chunks : List Bytes) (vs : List RespValue) (rest : Bytes) :
    ((RespParser.feedAll (chunks.flatten.length + 1) .new chunks).map RespParser.report =
        some (vs, .waiting rest) <->
      exists encs, List.Forall₂ Encodes vs encs ∧
        chunks.flatten = encs.flatten ++ rest ∧ Unfinished rest) ∧
    forall v more, more ≠ [] -> Encodes v (rest ++ more) -> Unfinished rest := by
  constructor
  · rw [RespParser.feedAll_eq_drainChunks (by simp), RespParser.unconsumed_new,
      parseValue_incremental.drainChunks_eq_drain chunks rfl, List.nil_append,
      Option.some.injEq]
    simp only [← parseValue_eq_none_iff]
    exact parseValue_incremental.drain_waiting_iff fun _ _ _ => parseValue_eq_some_iff
  · exact fun v more hmore hencodes =>
      parseValue_eq_none_iff.mp (parseValue_of_part hencodes hmore)

end FeoxServer
