import FeoxServer.Protocol.RespSafety
import FeoxServer.Protocol.RespRoundTrip

/-!
# Runs of the parser

What the panics of one value mean for a parser that receives its bytes in chunks and
is asked for values in between.
-/

namespace FeoxServer

open Foundation Checked

/-!
# Calls of the parser
-/

namespace RespParser

theorem parseNext_advance {p : RespParser} {v : RespValue} {n : Nat}
    (h : parseValue p.unconsumed = .ok (some (v, n))) :
    exists hn, p.parseNext = (.ok (some v), p.advance n hn) := by
  unfold parseNext
  split
  · rename_i hend
    rw [unconsumed, List.drop_eq_nil_of_le hend] at h
    cases h
  · split
    · rename_i value consumed hsome
      rw [unconsumed, hsome] at h
      cases h
      exact ⟨(parseValue_consumes _ _ _ hsome).2, rfl⟩
    · rename_i hnone
      rw [unconsumed, hnone] at h
      cases h
    · rename_i herror
      rw [unconsumed, herror] at h
      cases h

theorem parseNextChecked_settles (size : Nat) (p : RespParser)
    (hfits : p.buffer.length <= isizeMax) :
    (Hostile size p.unconsumed ->
        exists why, parseNextChecked size p.buffer p.position = .error why) ∧
      (¬ Hostile size p.unconsumed ->
        parseNextChecked size p.buffer p.position =
          .ok (p.parseNext.1, p.parseNext.2.buffer, p.parseNext.2.position)) := by
  have hlen := length_lt_of_le hfits
  have hle := p.position_le
  have hshort : p.unconsumed.length <= isizeMax := by
    rw [unconsumed, List.length_drop]
    omega
  have hvalue := parseValueChecked_settles size hshort
  unfold parseNextChecked
  by_cases hend : p.buffer.length <= p.position
  · rw [if_pos hend]
    have hempty : p.unconsumed = [] := List.drop_eq_nil_of_le hend
    rw [hempty]
    constructor
    · intro h
      exact absurd h (not_hostile (by simp) (by simp))
    · intro _
      unfold parseNext
      rw [if_pos hend]
      rfl
  · rw [if_neg hend, sliceFrom_ok hle, ok_bind]
    constructor
    · intro h
      rcases hvalue.1 h with ⟨why, hwhy⟩
      exact ⟨why, by rw [← unconsumed, hwhy, error_bind]⟩
    · intro h
      rw [← unconsumed, hvalue.2 h, ok_bind]
      cases hparse : parseValue p.unconsumed with
      | error e =>
          rw [parseNext_of_error hparse]
          rfl
      | ok r =>
          cases r with
          | none =>
              rw [parseNext_of_none hparse]
              rfl
          | some taken =>
              rcases taken with ⟨value, consumed⟩
              have hconsumed := (parseValue_consumes _ _ _ hparse).2
              rw [unconsumed, List.length_drop] at hconsumed
              rcases parseNext_advance hparse with ⟨hn, hnext⟩
              rw [hnext]
              dsimp only
              rw [add_ok (by omega), ok_bind]
              unfold advance
              by_cases hhalf : p.buffer.length / 2 < p.position + consumed
              · rw [if_pos hhalf, if_pos hhalf, sliceFrom_ok (by omega)]
                rfl
              · rw [if_neg hhalf, if_neg hhalf]
                rfl

end RespParser

/-!
# Runs
-/

/-- What is done with a parser: bytes are received, or a value is asked for. -/
inductive ParserCall where
  | feed (data : Bytes)
  | parseNext

/-- The calls one after the other on the buffer and the position, up to one that
panics. -/
def runChecked (size : Nat) : Bytes × Nat -> List ParserCall -> Checked (Bytes × Nat)
  | s, [] => pure s
  | s, .feed data :: calls => runChecked size (s.1 ++ data, s.2) calls
  | s, .parseNext :: calls => do
      let r <- parseNextChecked size s.1 s.2
      runChecked size r.2 calls

/-- The bytes that the calls receive. -/
def received : List ParserCall -> Bytes
  | [] => []
  | .feed data :: calls => data ++ received calls
  | .parseNext :: calls => received calls

namespace RespParser

def perform (p : RespParser) : ParserCall -> RespParser
  | .feed data => p.feed data
  | .parseNext => p.parseNext.2

/-- No buffer on the way is longer than one allocation may be. -/
def Fits (p : RespParser) : List ParserCall -> Prop
  | [] => p.buffer.length <= isizeMax
  | call :: calls => p.buffer.length <= isizeMax ∧ (p.perform call).Fits calls

/-- No value is asked for where a hostile length is reached. -/
def Peaceful (size : Nat) (p : RespParser) : List ParserCall -> Prop
  | [] => True
  | .feed data :: calls => (p.feed data).Peaceful size calls
  | .parseNext :: calls =>
      ¬ Hostile size p.unconsumed ∧ p.parseNext.2.Peaceful size calls

theorem runChecked_ok_iff (size : Nat) {calls : List ParserCall} {p : RespParser}
    (hfits : p.Fits calls) :
    (exists s, runChecked size (p.buffer, p.position) calls = .ok s) <->
      p.Peaceful size calls := by
  induction calls generalizing p with
  | nil => exact iff_of_true ⟨_, rfl⟩ trivial
  | cons call calls ih =>
      have hcall := parseNextChecked_settles size p hfits.1
      cases call with
      | feed data => exact ih hfits.2
      | parseNext =>
          rw [runChecked, Peaceful]
          by_cases hhostile : Hostile size p.unconsumed
          · rcases hcall.1 hhostile with ⟨why, hwhy⟩
            rw [hwhy, error_bind]
            apply iff_of_false
            · intro h
              rcases h with ⟨s, h⟩
              cases h
            · intro h
              exact h.1 hhostile
          · rw [hcall.2 hhostile, ok_bind]
            refine (ih hfits.2).trans ?_
            constructor
            · intro h
              exact ⟨hhostile, h⟩
            · intro h
              exact h.2

theorem length_buffer_parseNext (p : RespParser) :
    p.parseNext.2.buffer.length <= p.buffer.length := by
  cases hparse : parseValue p.unconsumed with
  | error e => rw [parseNext_of_error hparse]
  | ok r =>
      cases r with
      | none => rw [parseNext_of_none hparse]
      | some taken =>
          rcases parseNext_advance hparse with ⟨hn, hnext⟩
          rw [hnext]
          unfold advance
          split
          · exact (List.drop_sublist _ _).length_le
          · exact Nat.le_refl _

theorem fits_of_received {calls : List ParserCall} {p : RespParser}
    (h : p.buffer.length + (received calls).length <= isizeMax) : p.Fits calls := by
  induction calls generalizing p with
  | nil => exact h
  | cons call calls ih =>
      constructor
      · exact (Nat.le_add_right _ _).trans h
      · apply ih
        cases call with
        | feed data =>
            have hlength : (p.feed data).buffer.length = p.buffer.length + data.length :=
              List.length_append
            rw [received, List.length_append] at h
            change (p.feed data).buffer.length + _ <= _
            omega
        | parseNext =>
            have hlength := p.length_buffer_parseNext
            rw [received] at h
            change p.parseNext.2.buffer.length + _ <= _
            omega

end RespParser

/-- No call of `parse_next` panics, however the bytes are cut into chunks and whenever
values are asked for, if and only if none is asked for where an announced length that
is too much has been reached. -/
theorem parser_safe_iff (size : Nat) {calls : List ParserCall}
    (hfits : RespParser.new.Fits calls) :
    (exists s, runChecked size ([], 0) calls = .ok s) <->
      RespParser.new.Peaceful size calls :=
  RespParser.runChecked_ok_iff size hfits

theorem parser_safe_pieces :
    let calls : List ParserCall :=
      [.feed (asBytes "$"), .parseNext, .feed (asBytes "3\r\nab"), .parseNext,
        .feed (asBytes "c\r\n*2\r"), .parseNext, .parseNext,
        .feed (asBytes "\n$3\r\nGET\r\n$1"), .parseNext, .feed (asBytes "\r\nk\r\n"),
        .parseNext]
    runChecked 40 ([], 0) calls = .ok ([], 0) ∧ RespParser.new.Peaceful 40 calls := by
  intro calls
  have hrun : runChecked 40 ([], 0) calls = .ok ([], 0) := by decide +kernel
  have hfits : RespParser.new.Fits calls := RespParser.fits_of_received (by decide +kernel)
  exact ⟨hrun, (parser_safe_iff 40 hfits).mp ⟨_, hrun⟩⟩

/-- An array of as many elements as there can be is announced, and the thread panics
before any of them has arrived. -/
theorem array_header_panics :
    runChecked 40 ([], 0)
      [.feed (asBytes "*9223372036854775807\r\n"), .parseNext] = .error .capacity := by
  decide +kernel

/-!
# The bytes alone
-/

/-- A hostile length is reached in the values that follow each other in a stream. -/
inductive HostileStream (size : Nat) : Bytes -> Prop
  | here {stream : Bytes} : Hostile size stream -> HostileStream size stream
  | later {stream : Bytes} {v : RespValue} {n : Nat} :
      parseValue stream = .ok (some (v, n)) -> HostileStream size (stream.drop n) ->
        HostileStream size stream

theorem Hostile.append {size : Nat} {buf : Bytes} (h : Hostile size buf)
    (more : Bytes) : Hostile size (buf ++ more) := by
  have hhead : forall {buf : Bytes} {kind : UInt8}, buf[0]? = some kind ->
      (buf ++ more)[0]? = some kind := by
    intro buf kind hkind
    rw [List.getElem?_append_left (List.getElem?_eq_some_iff.mp hkind).1]
    exact hkind
  induction h with
  | bulkString hkind hheader hneg hmuch =>
      exact .bulkString (hhead hkind) (parseLength_append more (by simp) hheader)
        hneg hmuch
  | array hkind hheader hneg hmuch =>
      exact .array (hhead hkind) (parseLength_append more (by simp) hheader) hneg hmuch
  | @element buf len lenEnd k pos elements hkind hheader hneg hk hreach _ ih =>
      have hlt := parseLength_lt hheader
      have hbounds := parseElements_bounds parseValue_consumes (by omega) hreach
      have hkeeps : Keeps parseValue parseValue more := by
        intro b r hr hb
        exact parseValue_append more hr hb
      apply Hostile.element (hhead hkind) (parseLength_append more (by simp) hheader)
        hneg hk (parseElements_keeps parseValue_consumes hkeeps (by omega) (by simp)
          hreach)
      rw [List.drop_append_of_le_length hbounds.2]
      exact ih

namespace RespParser

theorem peaceful_of_stream {size : Nat} {calls : List ParserCall} {p : RespParser}
    (h : ¬ HostileStream size (p.unconsumed ++ received calls)) :
    p.Peaceful size calls := by
  induction calls generalizing p with
  | nil => trivial
  | cons call calls ih =>
      cases call with
      | feed data =>
          apply ih
          rw [unconsumed_feed, List.append_assoc]
          exact h
      | parseNext =>
          constructor
          · intro hhostile
            exact h (.here (hhostile.append _))
          · apply ih
            rcases p.parseNext_cases with
              ⟨_, hnext⟩ | ⟨e, _, hnext⟩ | ⟨v, n, p', hparse, hnext, hrest⟩
            · rw [hnext]
              exact h
            · rw [hnext]
              exact h
            · rw [hnext, hrest]
              intro hlater
              have hn := (parseValue_consumes _ _ _ hparse).2
              apply h
              apply HostileStream.later (parseValue_append _ (by simp) hparse)
              rw [received, List.drop_append_of_le_length hn]
              exact hlater

theorem not_peaceful_of_stream {size : Nat} {stream : Bytes}
    (h : HostileStream size stream) {p : RespParser} (hp : p.unconsumed = stream) :
    exists rounds, ¬ p.Peaceful size (List.replicate rounds .parseNext) := by
  induction h generalizing p with
  | here hhostile =>
      refine ⟨1, ?_⟩
      intro hpeace
      rw [← hp] at hhostile
      exact hpeace.1 hhostile
  | later hparse _ ih =>
      rw [← hp] at hparse
      rcases parseNext_of_value hparse with ⟨p', hnext, hrest⟩
      rw [hp] at hrest
      rcases ih hrest with ⟨rounds, hrounds⟩
      refine ⟨rounds + 1, ?_⟩
      intro hpeace
      apply hrounds
      have hafter := hpeace.2
      rw [hnext] at hafter
      exact hafter

end RespParser

theorem received_replicate (rounds : Nat) :
    received (List.replicate rounds .parseNext) = [] := by
  induction rounds with
  | zero => rfl
  | succ rounds ih => exact ih

theorem peaceful_iff_stream (size : Nat) (stream : Bytes) :
    (forall calls, received calls = stream -> RespParser.new.Peaceful size calls) <->
      ¬ HostileStream size stream := by
  constructor
  · intro hall hhostile
    have hfed : (RespParser.new.feed stream).unconsumed = stream := by
      rw [RespParser.unconsumed_feed]
      rfl
    rcases RespParser.not_peaceful_of_stream hhostile hfed with ⟨rounds, hrounds⟩
    apply hrounds
    apply hall (.feed stream :: List.replicate rounds .parseNext)
    rw [received, received_replicate, List.append_nil]
  · intro hsafe calls hreceived
    apply RespParser.peaceful_of_stream
    rw [hreceived]
    exact hsafe

end FeoxServer
