import Mathlib

/-!
# Incremental decoders

A decoder looks at a buffer and either takes a value from its front, or finds
an error, or asks for more input.  When neither a value nor an error is ever
contradicted by more input, the way the input is cut into chunks is
invisible: draining chunk after chunk gives what draining the whole gives.
-/

namespace Foundation

/-- What one look at a buffer gives: a value and the number of symbols it
takes, nothing yet, or an error. -/
abbrev Decoded (ε ν : Type) : Type := Except ε (Option (ν × Nat))

/-- How a drained buffer ends: it waits with some symbols left over, or it
failed. -/
inductive Outcome (ε β : Type) where
  | waiting (rest : List β)
  | failed (e : ε)
  deriving DecidableEq

variable {β ε ν : Type}

/-- The law of an incremental decoder. -/
structure Incremental (decode : List β -> Decoded ε ν) : Prop where
  decode_nil : decode [] = .ok none
  consumes : forall {buf v n}, decode buf = .ok (some (v, n)) ->
    0 < n ∧ n <= buf.length
  value_stable : forall {buf v n} (more : List β),
    decode buf = .ok (some (v, n)) ->
      decode (buf ++ more) = .ok (some (v, n))
  error_stable : forall {buf e} (more : List β),
    decode buf = .error e -> decode (buf ++ more) = .error e

def drainFuel (decode : List β -> Decoded ε ν) :
    Nat -> List β -> List ν × Outcome ε β
  | 0, buf => ([], .waiting buf)
  | fuel + 1, buf =>
      match decode buf with
      | .ok (some (v, n)) =>
          let r := drainFuel decode fuel (buf.drop n)
          (v :: r.1, r.2)
      | .ok none => ([], .waiting buf)
      | .error e => ([], .failed e)

/-- Take values from the front until the decoder waits or fails; every value
takes a symbol, so the length of the buffer bounds the number of rounds. -/
def drain (decode : List β -> Decoded ε ν) (buf : List β) :
    List ν × Outcome ε β :=
  drainFuel decode (buf.length + 1) buf

def drainChunks (decode : List β -> Decoded ε ν) :
    List β -> List (List β) -> List ν × Outcome ε β
  | rest, [] => ([], .waiting rest)
  | rest, chunk :: chunks =>
      match drain decode (rest ++ chunk) with
      | (vs, .waiting rest') =>
          let r := drainChunks decode rest' chunks
          (vs ++ r.1, r.2)
      | (vs, .failed e) => (vs, .failed e)

namespace Incremental

variable {decode : List β -> Decoded ε ν}

theorem drainFuel_eq (h : Incremental decode) {fuel fuel' : Nat} {buf : List β}
    (hfuel : buf.length < fuel) (hfuel' : buf.length < fuel') :
    drainFuel decode fuel buf = drainFuel decode fuel' buf := by
  induction fuel generalizing fuel' buf with
  | zero => omega
  | succ fuel ih =>
      cases fuel' with
      | zero => omega
      | succ fuel' =>
          unfold drainFuel
          cases hd : decode buf with
          | error e => rfl
          | ok r =>
              cases r with
              | none => rfl
              | some vn =>
                  rcases h.consumes hd with ⟨hpos, hle⟩
                  have hlength : (buf.drop vn.2).length < buf.length := by
                    rw [List.length_drop]
                    omega
                  simp only
                  rw [@ih fuel' (buf.drop vn.2) (by omega) (by omega)]

theorem drain_of_value (h : Incremental decode) {buf : List β} {v : ν} {n : Nat}
    (hd : decode buf = .ok (some (v, n))) :
    drain decode buf =
      (v :: (drain decode (buf.drop n)).1, (drain decode (buf.drop n)).2) := by
  rcases h.consumes hd with ⟨hpos, hle⟩
  have hlength : (buf.drop n).length < buf.length := by
    rw [List.length_drop]
    omega
  unfold drain
  rw [drainFuel, hd]
  simp only
  rw [h.drainFuel_eq hlength (Nat.lt_succ_self _)]

theorem drain_of_none {buf : List β} (hd : decode buf = .ok none) :
    drain decode buf = ([], .waiting buf) := by
  unfold drain
  rw [drainFuel, hd]

theorem drain_of_error {buf : List β} {e : ε} (hd : decode buf = .error e) :
    drain decode buf = ([], .failed e) := by
  unfold drain
  rw [drainFuel, hd]

/-- A drained buffer that waits has nothing left to take, and what is left
over is an end piece of the buffer. -/
theorem drain_waiting (h : Incremental decode) {buf rest : List β} {vs : List ν}
    (hdrain : drain decode buf = (vs, .waiting rest)) :
    decode rest = .ok none ∧ rest <:+ buf := by
  induction hn : buf.length using Nat.strong_induction_on
    generalizing buf vs with
  | _ n ih =>
      cases hd : decode buf with
      | error e =>
          rw [drain_of_error hd] at hdrain
          cases hdrain
      | ok r =>
          cases r with
          | none =>
              rw [drain_of_none hd] at hdrain
              cases hdrain
              exact ⟨hd, List.suffix_rfl⟩
          | some vn =>
              rcases vn with ⟨v, k⟩
              rcases h.consumes hd with ⟨hpos, hle⟩
              have hshorter : (buf.drop k).length < n := by
                rw [List.length_drop]
                omega
              rw [h.drain_of_value hd] at hdrain
              have htail : drain decode (buf.drop k) =
                  ((drain decode (buf.drop k)).1, .waiting rest) := by
                rw [← (Prod.mk.inj hdrain).2]
              rcases ih _ hshorter htail rfl with ⟨hnone, hsuffix⟩
              exact ⟨hnone, hsuffix.trans (List.drop_suffix k buf)⟩

/-- Draining a longer buffer starts like draining the shorter one and goes on
from what that one left over. -/
theorem drain_append (h : Incremental decode) (buf more : List β) :
    drain decode (buf ++ more) =
      match drain decode buf with
      | (vs, .waiting rest) =>
          (vs ++ (drain decode (rest ++ more)).1,
            (drain decode (rest ++ more)).2)
      | (vs, .failed e) => (vs, .failed e) := by
  induction hn : buf.length using Nat.strong_induction_on generalizing buf with
  | _ n ih =>
      cases hd : decode buf with
      | error e =>
          rw [drain_of_error hd, drain_of_error (h.error_stable more hd)]
      | ok r =>
          cases r with
          | none =>
              rw [drain_of_none hd]
              rfl
          | some vn =>
              rcases vn with ⟨v, k⟩
              rcases h.consumes hd with ⟨hpos, hle⟩
              have hdrop : (buf ++ more).drop k = buf.drop k ++ more :=
                List.drop_append_of_le_length hle
              have hshorter : (buf.drop k).length < n := by
                rw [List.length_drop]
                omega
              rw [h.drain_of_value hd, h.drain_of_value (h.value_stable more hd),
                hdrop, ih _ hshorter _ rfl]
              cases hrest : drain decode (buf.drop k) with
              | mk vs outcome => cases outcome <;> rfl

theorem drainChunks_eq_drain (h : Incremental decode) (chunks : List (List β))
    {rest : List β} (hrest : decode rest = .ok none) :
    drainChunks decode rest chunks = drain decode (rest ++ chunks.flatten) := by
  induction chunks generalizing rest with
  | nil =>
      rw [List.flatten_nil, List.append_nil, drain_of_none hrest]
      rfl
  | cons chunk chunks ih =>
      rw [List.flatten_cons, ← List.append_assoc, h.drain_append, drainChunks]
      cases hdrain : drain decode (rest ++ chunk) with
      | mk vs outcome =>
          cases outcome with
          | failed e => rfl
          | waiting rest' =>
              have hwait : decode rest' = .ok none :=
                (h.drain_waiting hdrain).1
              simp only
              rw [ih hwait]

/-- Where the decoder takes the encodings of a grammar, a buffer drains to some values
if and only if it is a run of encodings of them in front of what is left over. -/
theorem drain_waiting_iff (h : Incremental decode) {Enc : ν -> List β -> Prop}
    (hdecode : forall buf v n, decode buf = .ok (some (v, n)) <->
      exists enc rest, buf = enc ++ rest ∧ enc.length = n ∧ Enc v enc)
    {buf rest : List β} {vs : List ν} :
    drain decode buf = (vs, .waiting rest) <->
      exists encs, List.Forall₂ Enc vs encs ∧ buf = encs.flatten ++ rest ∧
        decode rest = .ok none := by
  constructor
  · intro hdrain
    induction hn : buf.length using Nat.strong_induction_on generalizing buf vs with
    | _ n ih =>
        cases hd : decode buf with
        | error e =>
            rw [drain_of_error hd] at hdrain
            cases hdrain
        | ok r =>
            cases r with
            | none =>
                rw [drain_of_none hd] at hdrain
                cases hdrain
                exact ⟨[], .nil, rfl, hd⟩
            | some vn =>
                rcases vn with ⟨v, k⟩
                rcases h.consumes hd with ⟨hpos, hle⟩
                rcases (hdecode buf v k).mp hd with ⟨enc, after, rfl, rfl, henc⟩
                rw [h.drain_of_value hd, List.drop_left] at hdrain
                rcases Prod.mk.inj hdrain with ⟨hvalues, houtcome⟩
                have hshorter : after.length < n := by
                  rw [List.length_append] at hn
                  omega
                rcases ih _ hshorter (Prod.ext rfl houtcome) rfl with
                  ⟨encs, hencs, hafter, hnone⟩
                refine ⟨enc :: encs, ?_, ?_, hnone⟩
                · rw [← hvalues]
                  exact .cons henc hencs
                · rw [hafter, List.flatten_cons, List.append_assoc]
  · rintro ⟨encs, hencs, rfl, hnone⟩
    induction hencs with
    | nil => exact drain_of_none hnone
    | @cons v enc vs encs henc _ ih =>
        have hd := (hdecode (enc ++ (encs.flatten ++ rest)) v enc.length).mpr
          ⟨enc, _, rfl, rfl, henc⟩
        rw [List.flatten_cons, List.append_assoc, h.drain_of_value hd, List.drop_left, ih]

end Incremental

end Foundation
