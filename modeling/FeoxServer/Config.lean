import FeoxServer.Foundation.Text

/-!
# Configuration

Of the configuration, commands only use the password.
-/

namespace FeoxServer

open Foundation

/-- The loop of `constant_time_eq`: the differences of all octets, joined. -/
def constantTimeEq (a b : Bytes) : Bool :=
  if a.length ≠ b.length then false
  else ((a.zip b).foldl (fun result ab => result ||| (ab.1 ^^^ ab.2)) 0) == 0

theorem foldl_or_eq_zero (pairs : List (UInt8 × UInt8)) (result : UInt8) :
    pairs.foldl (fun result ab => result ||| (ab.1 ^^^ ab.2)) result = 0 <->
      result = 0 ∧ forall ab, ab ∈ pairs -> ab.1 = ab.2 := by
  induction pairs generalizing result with
  | nil => simp
  | cons ab pairs ih =>
      rw [List.foldl_cons, ih]
      simp [UInt8.or_eq_zero_iff, and_assoc]

theorem constantTimeEq_iff {a b : Bytes} :
    constantTimeEq a b = true <-> a = b := by
  unfold constantTimeEq
  by_cases hlength : a.length = b.length
  · rw [if_neg (not_not.mpr hlength), beq_iff_eq, foldl_or_eq_zero]
    simp only [true_and]
    constructor
    · intro h
      refine List.ext_getElem hlength fun i ha hb => ?_
      have hzip : i < (a.zip b).length := by
        rw [List.length_zip]
        omega
      have hpair := h _ (List.getElem_mem hzip)
      rwa [List.getElem_zip] at hpair
    · rintro rfl ab hab
      rcases List.getElem_of_mem hab with ⟨i, _, hget⟩
      rw [List.getElem_zip] at hget
      rw [← hget]
  · rw [if_pos hlength]
    constructor
    · intro h
      cases h
    · rintro rfl
      exact absurd rfl hlength

structure Config where
  requirepass : Option String

namespace Config

def authRequired (config : Config) : Bool :=
  config.requirepass.isSome

def checkPassword (config : Config) (password : String) : Bool :=
  match config.requirepass with
  | some correct => constantTimeEq (asBytes password) (asBytes correct)
  | none => false

theorem checkPassword_iff {config : Config} {password : String} :
    config.checkPassword password = true <->
      config.requirepass = some password := by
  unfold checkPassword
  cases config.requirepass with
  | none => simp
  | some correct =>
      simp only [constantTimeEq_iff, Option.some.injEq]
      exact ⟨fun h => (asBytes_injective h).symm, fun h => by rw [h]⟩

end Config

end FeoxServer
