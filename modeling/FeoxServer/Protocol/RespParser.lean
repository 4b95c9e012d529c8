import FeoxServer.Protocol.RespStability

/-!
# The receive buffer

`RespParser` keeps the received bytes and a position up to which they have
been parsed.  Feeding appends, parsing moves the position, and now and then
the parsed part is dropped.  All of this is invisible through the bytes that
are not consumed yet, and with it the way the input was cut into chunks.
-/

namespace FeoxServer

open Foundation

/-- The receive buffer; everything before `position` has been parsed. -/
structure RespParser where
  buffer : Bytes
  position : Nat
  position_le : position <= buffer.length

namespace RespParser

def new : RespParser where
  buffer := []
  position := 0
  position_le := Nat.le_refl 0

def feed (p : RespParser) (data : Bytes) : RespParser where
  buffer := p.buffer ++ data
  position := p.position
  position_le := by
    have hle := p.position_le
    rw [List.length_append]
    omega

/-- Move the position behind a parsed value and drop the parsed part once it
is more than half of the buffer. -/
def advance (p : RespParser) (consumed : Nat)
    (h : consumed <= (p.buffer.drop p.position).length) : RespParser :=
  if p.buffer.length / 2 < p.position + consumed then
    { buffer := p.buffer.drop (p.position + consumed)
      position := 0
      position_le := Nat.zero_le _ }
  else
    { buffer := p.buffer
      position := p.position + consumed
      position_le := by
        have hle := p.position_le
        rw [List.length_drop] at h
        omega }

/-- `parse_next`: the next complete value, if the buffer holds one. -/
def parseNext (p : RespParser) :
    Except String (Option RespValue) × RespParser :=
  if p.buffer.length <= p.position then (.ok none, p)
  else
    match hparse : parseValue (p.buffer.drop p.position) with
    | .ok (some (value, consumed)) =>
        (.ok (some value),
          p.advance consumed (parseValue_consumes _ _ _ hparse).2)
    | .ok none => (.ok none, p)
    | .error e => (.error e, p)

/-- The bytes that no value has consumed yet. -/
def unconsumed (p : RespParser) : Bytes :=
  p.buffer.drop p.position

@[simp] theorem unconsumed_new : new.unconsumed = [] := rfl

@[simp] theorem unconsumed_feed (p : RespParser) (data : Bytes) :
    (p.feed data).unconsumed = p.unconsumed ++ data :=
  List.drop_append_of_le_length p.position_le

theorem unconsumed_advance (p : RespParser) (consumed : Nat)
    (h : consumed <= (p.buffer.drop p.position).length) :
    (p.advance consumed h).unconsumed = p.unconsumed.drop consumed := by
  unfold advance unconsumed
  rw [List.drop_drop]
  split <;> rfl

/-!
# One value

`parse_next` shows of the parser only what `parse_value` makes of the
unconsumed bytes.
-/

theorem parseNext_of_none {p : RespParser}
    (h : parseValue p.unconsumed = .ok none) : p.parseNext = (.ok none, p) := by
  unfold parseNext
  split
  · rfl
  · split
    · rename_i hsome
      rw [unconsumed, hsome] at h
      cases h
    · rfl
    · rename_i herror
      rw [unconsumed, herror] at h
      cases h

theorem parseNext_of_error {p : RespParser} {e : String}
    (h : parseValue p.unconsumed = .error e) :
    p.parseNext = (.error e, p) := by
  unfold parseNext
  split
  · rename_i hend
    rw [unconsumed, List.drop_eq_nil_of_le hend] at h
    cases h
  · split
    · rename_i hsome
      rw [unconsumed, hsome] at h
      cases h
    · rename_i hnone
      rw [unconsumed, hnone] at h
      cases h
    · rename_i herror
      rw [unconsumed, herror] at h
      cases h
      rfl

theorem parseNext_of_value {p : RespParser} {v : RespValue} {n : Nat}
    (h : parseValue p.unconsumed = .ok (some (v, n))) :
    exists p', p.parseNext = (.ok (some v), p') ∧
      p'.unconsumed = p.unconsumed.drop n := by
  unfold parseNext
  split
  · rename_i hend
    rw [unconsumed, List.drop_eq_nil_of_le hend] at h
    cases h
  · split
    · rename_i value consumed hsome
      rw [unconsumed, hsome] at h
      cases h
      exact ⟨_, rfl, unconsumed_advance p _ _⟩
    · rename_i hnone
      rw [unconsumed, hnone] at h
      cases h
    · rename_i herror
      rw [unconsumed, herror] at h
      cases h

/-- Whatever `parse_next` returns comes from `parse_value` on the unconsumed
bytes. -/
theorem parseNext_cases (p : RespParser) :
    (parseValue p.unconsumed = .ok none ∧ p.parseNext = (.ok none, p)) ∨
    (exists e, parseValue p.unconsumed = .error e ∧
      p.parseNext = (.error e, p)) ∨
    (exists v n p', parseValue p.unconsumed = .ok (some (v, n)) ∧
      p.parseNext = (.ok (some v), p') ∧
      p'.unconsumed = p.unconsumed.drop n) := by
  cases h : parseValue p.unconsumed with
  | error e => exact Or.inr (Or.inl ⟨e, rfl, parseNext_of_error h⟩)
  | ok r =>
      cases r with
      | none => exact Or.inl ⟨rfl, parseNext_of_none h⟩
      | some vn =>
          rcases vn with ⟨v, n⟩
          rcases parseNext_of_value h with ⟨p', hnext, hrest⟩
          exact Or.inr (Or.inr ⟨v, n, p', rfl, hnext, hrest⟩)

theorem parseNext_consumes {p p' : RespParser} {v : RespValue}
    (h : p.parseNext = (.ok (some v), p')) :
    exists n, 0 < n ∧ n <= p.unconsumed.length ∧
      p'.unconsumed = p.unconsumed.drop n := by
  rcases p.parseNext_cases with
    ⟨_, hnext⟩ | ⟨e, _, hnext⟩ | ⟨v', n, q, hparse, hnext, hrest⟩
  · rw [hnext] at h
    cases h
  · rw [hnext] at h
    cases h
  · rw [hnext] at h
    cases h
    have hbounds := parseValue_consumes _ _ _ hparse
    exact ⟨n, hbounds.1, hbounds.2, hrest⟩

/-!
# Streaming
-/

/-- Call `parse_next` until it returns no value or an error; `none` when that
takes more rounds than the fuel allows. -/
def parseAll : Nat -> RespParser ->
    Option (List RespValue × Except String RespParser)
  | 0, _ => none
  | fuel + 1, p =>
      match p.parseNext with
      | (.ok (some v), p') =>
          (parseAll fuel p').map fun r => (v :: r.1, r.2)
      | (.ok none, p') => some ([], .ok p')
      | (.error e, _) => some ([], .error e)

/-- Feed the chunks in order and parse all there is after each; an error ends
the run. -/
def feedAll (fuel : Nat) : RespParser -> List Bytes ->
    Option (List RespValue × Except String RespParser)
  | p, [] => some ([], .ok p)
  | p, chunk :: chunks =>
      match parseAll fuel (p.feed chunk) with
      | none => none
      | some (vs, .error e) => some (vs, .error e)
      | some (vs, .ok p') =>
          (feedAll fuel p' chunks).map fun r => (vs ++ r.1, r.2)

/-- What a run shows: the values, and the error or the unconsumed bytes. -/
def report (r : List RespValue × Except String RespParser) :
    List RespValue × Outcome String UInt8 :=
  match r with
  | (vs, .ok p) => (vs, .waiting p.unconsumed)
  | (vs, .error e) => (vs, .failed e)

theorem parseAll_eq_drain {fuel : Nat} {p : RespParser}
    (hfuel : p.unconsumed.length < fuel) :
    (parseAll fuel p).map report = some (drain parseValue p.unconsumed) := by
  induction fuel generalizing p with
  | zero => omega
  | succ fuel ih =>
      unfold parseAll
      rcases p.parseNext_cases with
        ⟨hparse, hnext⟩ | ⟨e, hparse, hnext⟩ | ⟨v, n, p', hparse, hnext, hrest⟩
      · rw [hnext, Incremental.drain_of_none hparse]
        rfl
      · rw [hnext, Incremental.drain_of_error hparse]
        rfl
      · have hbounds := parseValue_consumes _ _ _ hparse
        have hshorter : p'.unconsumed.length < fuel := by
          rw [hrest, List.length_drop]
          omega
        have hrun := ih hshorter
        rw [hnext, parseValue_incremental.drain_of_value hparse, ← hrest]
        rcases hall : parseAll fuel p' with _ | ⟨vs, outcome⟩
        · rw [hall] at hrun
          cases hrun
        · rw [hall] at hrun
          injection hrun with hdrain
          simp only [hall, Option.map_some, ← hdrain]
          cases outcome <;> rfl

theorem feedAll_eq_drainChunks {fuel : Nat} {chunks : List Bytes}
    {p : RespParser}
    (hfuel : p.unconsumed.length + chunks.flatten.length < fuel) :
    (feedAll fuel p chunks).map report =
      some (drainChunks parseValue p.unconsumed chunks) := by
  induction chunks generalizing p with
  | nil => rfl
  | cons chunk chunks ih =>
      rw [List.flatten_cons, List.length_append] at hfuel
      have hfed : (p.feed chunk).unconsumed.length < fuel := by
        rw [unconsumed_feed, List.length_append]
        omega
      have hdrain := parseAll_eq_drain hfed
      unfold feedAll drainChunks
      rw [unconsumed_feed] at hdrain
      rcases hall : parseAll fuel (p.feed chunk) with _ | ⟨vs, e | p'⟩
      · rw [hall] at hdrain
        cases hdrain
      · rw [hall] at hdrain
        injection hdrain with hdrain
        rw [← hdrain]
        rfl
      · rw [hall] at hdrain
        injection hdrain with hdrain
        have hsuffix :=
          (parseValue_incremental.drain_waiting hdrain.symm).2.length_le
        rw [List.length_append] at hsuffix
        have hrest := ih (p := p') (by omega)
        rw [← hdrain]
        simp only [report]
        rcases hmore : feedAll fuel p' chunks with _ | ⟨ws, outcome⟩
        · rw [hmore] at hrest
          cases hrest
        · rw [hmore] at hrest
          injection hrest with hrest
          rw [← hrest]
          cases outcome <;> rfl

/-- Cutting the input into chunks changes neither the values nor the outcome
nor the bytes left over, and the loop ends within as many rounds as there are
bytes. -/
theorem feedAll_chunks_eq_whole (chunks : List Bytes) :
    (exists r,
      (feedAll (chunks.flatten.length + 1) new chunks).map report = some r ∧
      (feedAll (chunks.flatten.length + 1) new [chunks.flatten]).map report =
        some r) ∧
    forall p v p', parseNext p = (.ok (some v), p') ->
      exists n, 0 < n ∧ n <= p.unconsumed.length ∧
        p'.unconsumed = p.unconsumed.drop n := by
  constructor
  · have hnil : parseValue [] = .ok none := rfl
    refine ⟨drain parseValue chunks.flatten, ?_, ?_⟩
    · rw [feedAll_eq_drainChunks (by simp), unconsumed_new,
        parseValue_incremental.drainChunks_eq_drain chunks hnil]
      rfl
    · rw [feedAll_eq_drainChunks (by simp), unconsumed_new,
        parseValue_incremental.drainChunks_eq_drain _ hnil]
      simp
  · intro p v p' h
    exact parseNext_consumes h

end RespParser

end FeoxServer
