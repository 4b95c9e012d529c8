import FeoxServer.Protocol.RespScanning

/-!
# Parsing is incremental

A value that the parser takes, and an error that it reports, stay the same
when more bytes follow.  The proofs go through one relation between a parser
on a buffer and a parser on a longer one, so that the nesting bound and the
buffer grow together.
-/

namespace FeoxServer

open Foundation

/-- `parse'` on the longer buffer keeps every settled result of `parse`. -/
def Keeps (parse parse' : Bytes -> ParseResult) (more : Bytes) : Prop :=
  forall buf r, r ≠ .ok none -> parse buf = r -> parse' (buf ++ more) = r

/-- `parse` takes at least one byte and at most what there is. -/
def Consumes (parse : Bytes -> ParseResult) : Prop :=
  forall buf v n, parse buf = .ok (some (v, n)) -> 0 < n ∧ n <= buf.length

theorem consumes_line {buf : Bytes} {stop n : Nat}
    (hfind : findCrlf buf = some stop) (hn : stop + 2 = n) :
    0 < n ∧ n <= buf.length := by
  have hlt := findCrlf_lt hfind
  omega

theorem parseSimpleString_consumes : Consumes parseSimpleString := by
  intro buf v n h
  unfold parseSimpleString at h
  cases hfind : findCrlf buf with
  | none => simp [hfind] at h
  | some stop =>
      simp only [hfind, Except.ok.injEq, Option.some.injEq, Prod.mk.injEq] at h
      exact consumes_line hfind h.2

theorem parseError_consumes : Consumes parseError := by
  intro buf v n h
  unfold parseError at h
  cases hfind : findCrlf buf with
  | none => simp [hfind] at h
  | some stop =>
      cases hutf : fromUtf8 (slice buf 1 stop) with
      | none => simp [hfind, hutf] at h
      | some msg =>
          simp only [hfind, hutf, Except.ok.injEq, Option.some.injEq,
            Prod.mk.injEq] at h
          exact consumes_line hfind h.2

theorem parseInteger_consumes : Consumes parseInteger := by
  intro buf v n h
  unfold parseInteger at h
  cases hfind : findCrlf buf with
  | none => simp [hfind] at h
  | some stop =>
      cases hutf : fromUtf8 (slice buf 1 stop) with
      | none => simp [hfind, hutf] at h
      | some numStr =>
          cases hnum : parseI64 numStr with
          | none => simp [hfind, hutf, hnum] at h
          | some num =>
              simp only [hfind, hutf, hnum, Except.ok.injEq,
                Option.some.injEq, Prod.mk.injEq] at h
              exact consumes_line hfind h.2

theorem parseLength_lt {noun : String} {buf : Bytes} {len : Int64}
    {lenEnd : Nat} (h : parseLength noun buf = .ok (some (len, lenEnd))) :
    lenEnd + 1 < buf.length := by
  unfold parseLength at h
  cases hfind : findCrlf buf with
  | none => simp [hfind] at h
  | some stop =>
      cases hutf : fromUtf8 (slice buf 1 stop) with
      | none => simp [hfind, hutf] at h
      | some lenStr =>
          cases hlen : parseI64 lenStr with
          | none => simp [hfind, hutf, hlen] at h
          | some l =>
              simp only [hfind, hutf, hlen, Except.ok.injEq,
                Option.some.injEq, Prod.mk.injEq] at h
              rw [← h.2]
              exact findCrlf_lt hfind

theorem parseBulkString_consumes : Consumes parseBulkString := by
  intro buf v n h
  unfold parseBulkString at h
  cases hlen : parseLength "bulk string" buf with
  | error e => simp [hlen] at h
  | ok r =>
      cases r with
      | none => simp [hlen] at h
      | some header =>
          rcases header with ⟨len, lenEnd⟩
          have hlt := parseLength_lt hlen
          simp only [hlen] at h
          split at h
          · simp only [Except.ok.injEq, Option.some.injEq, Prod.mk.injEq] at h
            omega
          · split at h
            · cases h
            · rename_i henough
              split at h
              · cases h
              · simp only [Except.ok.injEq, Option.some.injEq,
                  Prod.mk.injEq] at h
                omega

theorem parseElements_bounds {parse : Bytes -> ParseResult}
    (hparse : Consumes parse) {buf : Bytes} {k pos : Nat}
    {elements : List RespValue} {v : RespValue} {n : Nat}
    (hpos : pos <= buf.length)
    (h : parseElements parse buf k pos elements = .ok (some (v, n))) :
    pos <= n ∧ n <= buf.length := by
  induction k generalizing pos elements with
  | zero =>
      simp only [parseElements, Except.ok.injEq, Option.some.injEq,
        Prod.mk.injEq] at h
      omega
  | succ k ih =>
      unfold parseElements at h
      cases hvalue : parse (buf.drop pos) with
      | error e => simp [hvalue] at h
      | ok r =>
          cases r with
          | none => simp [hvalue] at h
          | some taken =>
              rcases taken with ⟨value, consumed⟩
              have hconsumed := hparse _ _ _ hvalue
              rw [List.length_drop] at hconsumed
              simp only [hvalue] at h
              have hrest := ih (by omega) h
              omega

theorem parseArray_consumes {parse : Bytes -> ParseResult}
    (hparse : Consumes parse) : Consumes (parseArray parse) := by
  intro buf v n h
  unfold parseArray at h
  cases hlen : parseLength "array" buf with
  | error e => simp [hlen] at h
  | ok r =>
      cases r with
      | none => simp [hlen] at h
      | some header =>
          rcases header with ⟨len, lenEnd⟩
          have hlt := parseLength_lt hlen
          simp only [hlen] at h
          split at h
          · simp only [Except.ok.injEq, Option.some.injEq, Prod.mk.injEq] at h
            omega
          · have hbounds := parseElements_bounds hparse (by omega) h
            omega

theorem parseValueFuel_consumes (fuel : Nat) :
    Consumes (parseValueFuel fuel) := by
  induction fuel with
  | zero =>
      intro buf v n h
      simp [parseValueFuel] at h
  | succ fuel ih =>
      intro buf v n h
      cases buf with
      | nil => simp [parseValueFuel] at h
      | cons kind rest =>
          simp only [parseValueFuel] at h
          split at h
          · exact parseSimpleString_consumes _ _ _ h
          split at h
          · exact parseError_consumes _ _ _ h
          split at h
          · exact parseInteger_consumes _ _ _ h
          split at h
          · exact parseBulkString_consumes _ _ _ h
          split at h
          · exact parseArray_consumes ih _ _ _ h
          · cases h

/-!
# Settled results on a longer buffer
-/

theorem parseSimpleString_keeps (more : Bytes) :
    Keeps parseSimpleString parseSimpleString more := by
  intro buf r hr h
  unfold parseSimpleString at h ⊢
  cases hfind : findCrlf buf with
  | none =>
      simp only [hfind] at h
      exact absurd h.symm hr
  | some stop =>
      have hlt := findCrlf_lt hfind
      rw [findCrlf_append more hfind]
      rw [hfind] at h
      simpa only [slice_append more (show stop <= buf.length by omega)] using h

theorem parseError_keeps (more : Bytes) : Keeps parseError parseError more := by
  intro buf r hr h
  unfold parseError at h ⊢
  cases hfind : findCrlf buf with
  | none =>
      simp only [hfind] at h
      exact absurd h.symm hr
  | some stop =>
      have hlt := findCrlf_lt hfind
      rw [findCrlf_append more hfind]
      rw [hfind] at h
      simpa only [slice_append more (show stop <= buf.length by omega)] using h

theorem parseInteger_keeps (more : Bytes) :
    Keeps parseInteger parseInteger more := by
  intro buf r hr h
  unfold parseInteger at h ⊢
  cases hfind : findCrlf buf with
  | none =>
      simp only [hfind] at h
      exact absurd h.symm hr
  | some stop =>
      have hlt := findCrlf_lt hfind
      rw [findCrlf_append more hfind]
      rw [hfind] at h
      simpa only [slice_append more (show stop <= buf.length by omega)] using h

theorem parseLength_append {noun : String} {buf : Bytes}
    {r : Except String (Option (Int64 × Nat))} (more : Bytes)
    (hr : r ≠ .ok none) (h : parseLength noun buf = r) :
    parseLength noun (buf ++ more) = r := by
  unfold parseLength at h ⊢
  cases hfind : findCrlf buf with
  | none =>
      simp only [hfind] at h
      exact absurd h.symm hr
  | some stop =>
      have hlt := findCrlf_lt hfind
      rw [findCrlf_append more hfind]
      rw [hfind] at h
      simpa only [slice_append more (show stop <= buf.length by omega)] using h

theorem parseBulkString_keeps (more : Bytes) :
    Keeps parseBulkString parseBulkString more := by
  intro buf r hr h
  unfold parseBulkString at h ⊢
  cases hlen : parseLength "bulk string" buf with
  | error e =>
      rw [parseLength_append more (by simp) hlen]
      simpa only [hlen] using h
  | ok header? =>
      cases header? with
      | none =>
          simp only [hlen] at h
          exact absurd h.symm hr
      | some header =>
          rcases header with ⟨len, lenEnd⟩
          rw [parseLength_append more (by simp) hlen]
          simp only [hlen] at h ⊢
          by_cases hneg : len < 0
          · rw [if_pos hneg] at h ⊢
            exact h
          · rw [if_neg hneg] at h ⊢
            by_cases hshort :
                buf.length < lenEnd + 2 + len.toInt.toNat + 2
            · rw [if_pos hshort] at h
              exact absurd h.symm hr
            · have hlong : ¬ (buf ++ more).length <
                  lenEnd + 2 + len.toInt.toNat + 2 := by
                rw [List.length_append]
                omega
              rw [if_neg hshort] at h
              rw [if_neg hlong, List.getElem?_append_left (by omega),
                List.getElem?_append_left (by omega),
                slice_append more (by omega)]
              exact h

theorem parseElements_keeps {parse parse' : Bytes -> ParseResult} {more : Bytes}
    (hconsumes : Consumes parse) (hkeeps : Keeps parse parse' more)
    {buf : Bytes} {k pos : Nat} {elements : List RespValue} {r : ParseResult}
    (hpos : pos <= buf.length) (hr : r ≠ .ok none)
    (h : parseElements parse buf k pos elements = r) :
    parseElements parse' (buf ++ more) k pos elements = r := by
  induction k generalizing pos elements with
  | zero => simpa only [parseElements] using h
  | succ k ih =>
      unfold parseElements at h ⊢
      rw [List.drop_append_of_le_length hpos]
      cases hvalue : parse (buf.drop pos) with
      | error e =>
          rw [hkeeps _ _ (by simp) hvalue]
          simpa only [hvalue] using h
      | ok taken? =>
          cases taken? with
          | none =>
              simp only [hvalue] at h
              exact absurd h.symm hr
          | some taken =>
              rcases taken with ⟨value, consumed⟩
              have hconsumed := hconsumes _ _ _ hvalue
              rw [List.length_drop] at hconsumed
              rw [hkeeps _ _ (by simp) hvalue]
              simp only [hvalue] at h ⊢
              exact ih (by omega) h

theorem parseArray_keeps {parse parse' : Bytes -> ParseResult} {more : Bytes}
    (hconsumes : Consumes parse) (hkeeps : Keeps parse parse' more) :
    Keeps (parseArray parse) (parseArray parse') more := by
  intro buf r hr h
  unfold parseArray at h ⊢
  cases hlen : parseLength "array" buf with
  | error e =>
      rw [parseLength_append more (by simp) hlen]
      simpa only [hlen] using h
  | ok header? =>
      cases header? with
      | none =>
          simp only [hlen] at h
          exact absurd h.symm hr
      | some header =>
          rcases header with ⟨len, lenEnd⟩
          have hlt := parseLength_lt hlen
          rw [parseLength_append more (by simp) hlen]
          simp only [hlen] at h ⊢
          by_cases hneg : len < 0
          · rw [if_pos hneg] at h ⊢
            exact h
          · rw [if_neg hneg] at h ⊢
            exact parseElements_keeps hconsumes hkeeps (by omega) hr h

theorem parseValueFuel_keeps {fuel fuel' : Nat} (hfuel : fuel <= fuel')
    (more : Bytes) :
    Keeps (parseValueFuel fuel) (parseValueFuel fuel') more := by
  induction fuel generalizing fuel' with
  | zero =>
      intro buf r hr h
      exact absurd h.symm hr
  | succ fuel ih =>
      intro buf r hr h
      cases fuel' with
      | zero => omega
      | succ fuel' =>
          cases buf with
          | nil => exact absurd h.symm hr
          | cons kind rest =>
              have harray := parseArray_keeps (parseValueFuel_consumes fuel)
                (@ih fuel' (by omega)) (kind :: rest) r hr
              change parseValueFuel (fuel' + 1) (kind :: (rest ++ more)) = r
              unfold parseValueFuel at h ⊢
              simp only at h ⊢
              -- The octet in front decides alike on both buffers.
              by_cases hplus : kind = 43
              · rw [if_pos hplus] at h ⊢
                exact parseSimpleString_keeps more _ r hr h
              rw [if_neg hplus] at h ⊢
              by_cases hminus : kind = 45
              · rw [if_pos hminus] at h ⊢
                exact parseError_keeps more _ r hr h
              rw [if_neg hminus] at h ⊢
              by_cases hcolon : kind = 58
              · rw [if_pos hcolon] at h ⊢
                exact parseInteger_keeps more _ r hr h
              rw [if_neg hcolon] at h ⊢
              by_cases hdollar : kind = 36
              · rw [if_pos hdollar] at h ⊢
                exact parseBulkString_keeps more _ r hr h
              rw [if_neg hdollar] at h ⊢
              by_cases hstar : kind = 42
              · rw [if_pos hstar] at h ⊢
                exact harray h
              rw [if_neg hstar] at h ⊢
              exact h

theorem parseValue_append {buf : Bytes} {r : ParseResult} (more : Bytes)
    (hr : r ≠ .ok none) (h : parseValue buf = r) :
    parseValue (buf ++ more) = r := by
  have hfuel : buf.length + 1 <= (buf ++ more).length + 1 := by
    rw [List.length_append]
    omega
  exact parseValueFuel_keeps hfuel more buf r hr h

theorem parseValue_consumes : Consumes parseValue := by
  intro buf v n h
  exact parseValueFuel_consumes _ buf v n h

theorem parseValue_incremental : Incremental parseValue where
  decode_nil := rfl
  consumes := by
    intro buf v n h
    exact parseValue_consumes buf v n h
  value_stable := by
    intro buf v n more h
    exact parseValue_append more (by simp) h
  error_stable := by
    intro buf e more h
    exact parseValue_append more (by simp) h

end FeoxServer
