import FeoxServer.Foundation.Prog

/-!
# Loops that try again

A round of such a loop ends it, is refused, or does not come that far.  The loop
gives up after a number of refusals; rounds that do not come so far are not
counted.
-/

namespace Foundation

namespace Prog

variable {Call : Type} {Answer : Call -> Type} {α β : Type}

/-- A program that returns whatever the answers are. -/
inductive Ending : Prog Call Answer α -> Prop
  | done (a : α) : Ending (.done a)
  | ask {c : Call} {next : Answer c -> Prog Call Answer α} :
      (forall answer, Ending (next answer)) -> Ending (.ask c next)

theorem ending_bind {p : Prog Call Answer α} {f : α -> Prog Call Answer β}
    (hp : Ending p) (hf : forall a, Ending (f a)) : Ending (p >>= f) := by
  induction hp with
  | done a => exact hf a
  | ask _ ih => exact Ending.ask ih

theorem ending_call (c : Call) : Ending (call c : Prog Call Answer (Answer c)) :=
  Ending.ask fun answer => Ending.done answer

theorem Ending.run {p : Prog Call Answer α} (hp : Ending p)
    (S : Service Call Answer) (s : S.State) : exists a s', p.run S s = some (a, s') := by
  induction hp generalizing s with
  | done a => exact ⟨a, s, rfl⟩
  | ask _ ih =>
      rw [run_ask]
      exact ih _ _

/-- What a round comes to. -/
inductive Round (α : Type) where
  | skipped
  | refused
  | ended (a : α)

def retry (round : Prog Call Answer (Round α)) (limit : Nat) (giveUp : α) :
    Nat -> Nat -> Prog Call Answer α
  | 0, _ => .exhausted
  | rounds + 1, refusals =>
      round >>= fun r =>
        match r with
        | .skipped => retry round limit giveUp rounds refusals
        | .refused =>
            if refusals + 1 >= limit then .done giveUp
            else retry round limit giveUp rounds (refusals + 1)
        | .ended a => .done a

/-- One after the other, as many steps of the one kind and as many of the other can
be taken from a state. -/
inductive Circles {σ : Type} (skip refuse : σ -> σ -> Prop) : Nat -> Nat -> σ -> Prop
  | zero (s : σ) : Circles skip refuse 0 0 s
  | skip {skips refusals : Nat} {s s' : σ} :
      skip s s' -> Circles skip refuse skips refusals s' ->
        Circles skip refuse (skips + 1) refusals s
  | refuse {skips refusals : Nat} {s s' : σ} :
      refuse s s' -> Circles skip refuse skips refusals s' ->
        Circles skip refuse skips (refusals + 1) s

/-- The steps that a round takes when it is skipped and when it is refused. -/
structure GoesRound (S : Service Call Answer) (round : Prog Call Answer (Round α))
    (skip refuse : S.State -> S.State -> Prop) : Prop where
  ending : Ending round
  skipped : forall s s', round.run S s = some (.skipped, s') <-> skip s s'
  refused : forall s s', round.run S s = some (.refused, s') <-> refuse s s'

section Retry

variable {S : Service Call Answer} {round : Prog Call Answer (Round α)}
  {skip refuse : S.State -> S.State -> Prop} {limit : Nat} {giveUp : α}

theorem retry_skipped {s s' : S.State} (h : round.run S s = some (.skipped, s'))
    (rounds refusals : Nat) :
    (retry round limit giveUp (rounds + 1) refusals).run S s =
      (retry round limit giveUp rounds refusals).run S s' := by
  rw [retry, run_bind_of_some S _ h]

theorem retry_refused {s s' : S.State} (h : round.run S s = some (.refused, s'))
    (rounds : Nat) {refusals : Nat} (hlimit : refusals + 1 < limit) :
    (retry round limit giveUp (rounds + 1) refusals).run S s =
      (retry round limit giveUp rounds (refusals + 1)).run S s' := by
  rw [retry, run_bind_of_some S _ h]
  dsimp only
  rw [if_neg (Nat.not_le.mpr hlimit)]

theorem retry_gives_up {s s' : S.State} (h : round.run S s = some (.refused, s'))
    (rounds : Nat) {refusals : Nat} (hlimit : limit <= refusals + 1) :
    (retry round limit giveUp (rounds + 1) refusals).run S s = some (giveUp, s') := by
  rw [retry, run_bind_of_some S _ h]
  dsimp only
  rw [if_pos hlimit]
  rfl

theorem retry_ended {s s' : S.State} {a : α} (h : round.run S s = some (.ended a, s'))
    (rounds refusals : Nat) :
    (retry round limit giveUp (rounds + 1) refusals).run S s = some (a, s') := by
  rw [retry, run_bind_of_some S _ h]
  rfl

/-- The rounds do not suffice if and only if the loop goes round in all of them
and there are not too many refusals. -/
theorem retry_none_iff (hround : GoesRound S round skip refuse)
    {rounds refusals : Nat} {s : S.State} (hlimit : refusals < limit) :
    (retry round limit giveUp rounds refusals).run S s = none <->
      exists skips more, skips + more = rounds ∧ refusals + more < limit ∧
        Circles skip refuse skips more s := by
  induction rounds generalizing refusals s with
  | zero =>
      apply iff_of_true rfl
      exact ⟨0, 0, rfl, hlimit, .zero s⟩
  | succ rounds ih =>
      rcases hround.ending.run S s with ⟨r, s', hrun⟩
      have hback : forall {skips more}, Circles skip refuse skips more s ->
          skips + more = rounds + 1 ->
          (r = .skipped ∧ exists fewer, skips = fewer + 1 ∧
            Circles skip refuse fewer more s') ∨
          r = .refused ∧ exists fewer, more = fewer + 1 ∧
            Circles skip refuse skips fewer s' := by
        intro skips more hcircles hsum
        cases hcircles with
        | zero => cases hsum
        | skip h hrest =>
            rw [← hround.skipped, hrun] at h
            injection h with h
            injection h with hr hs
            subst hs
            exact Or.inl ⟨hr, _, rfl, hrest⟩
        | refuse h hrest =>
            rw [← hround.refused, hrun] at h
            injection h with h
            injection h with hr hs
            subst hs
            exact Or.inr ⟨hr, _, rfl, hrest⟩
      cases r with
      | skipped =>
          rw [retry_skipped hrun, ih hlimit]
          constructor
          · intro h
            rcases h with ⟨skips, more, hsum, hfew, hcircles⟩
            exact ⟨skips + 1, more, by omega, hfew, .skip ((hround.skipped _ _).mp hrun) hcircles⟩
          · intro h
            rcases h with ⟨skips, more, hsum, hfew, hcircles⟩
            rcases hback hcircles hsum with ⟨_, fewer, heq, hrest⟩ | ⟨hr, _⟩
            · exact ⟨fewer, more, by omega, hfew, hrest⟩
            · cases hr
      | refused =>
          by_cases hmore : refusals + 1 < limit
          · rw [retry_refused hrun rounds hmore, ih hmore]
            constructor
            · intro h
              rcases h with ⟨skips, more, hsum, hfew, hcircles⟩
              exact ⟨skips, more + 1, by omega, by omega, .refuse ((hround.refused _ _).mp hrun) hcircles⟩
            · intro h
              rcases h with ⟨skips, more, hsum, hfew, hcircles⟩
              rcases hback hcircles hsum with ⟨hr, _⟩ | ⟨_, fewer, heq, hrest⟩
              · cases hr
              · exact ⟨skips, fewer, by omega, by omega, hrest⟩
          · rw [retry_gives_up hrun rounds (Nat.not_lt.mp hmore)]
            apply iff_of_false (fun h => by cases h)
            intro h
            rcases h with ⟨skips, more, hsum, hfew, hcircles⟩
            rcases hback hcircles hsum with ⟨hr, _⟩ | ⟨_, fewer, heq, _⟩
            · cases hr
            · omega
      | ended a =>
          rw [retry_ended hrun]
          apply iff_of_false (fun h => by cases h)
          intro h
          rcases h with ⟨skips, more, hsum, _, hcircles⟩
          rcases hback hcircles hsum with ⟨hr, _⟩ | ⟨hr, _⟩
          · cases hr
          · cases hr

/-- As many rounds as refusals are allowed suffice unless the loop goes round in
all of them and some are skipped. -/
theorem retry_limit_iff (hround : GoesRound S round skip refuse)
    (hlimit : 0 < limit) {s : S.State} :
    (retry round limit giveUp limit 0).run S s = none <->
      exists skips refusals, skips + refusals = limit ∧ 0 < skips ∧
        Circles skip refuse skips refusals s := by
  rw [retry_none_iff hround hlimit]
  constructor
  · intro h
    rcases h with ⟨skips, more, hsum, hfew, hcircles⟩
    exact ⟨skips, more, hsum, by omega, hcircles⟩
  · intro h
    rcases h with ⟨skips, refusals, hsum, hskips, hcircles⟩
    exact ⟨skips, refusals, hsum, by omega, hcircles⟩

theorem retry_never (h : forall s : S.State, exists s', round.run S s = some (.skipped, s'))
    (rounds refusals : Nat) (s : S.State) :
    (retry round limit giveUp rounds refusals).run S s = none := by
  induction rounds generalizing s with
  | zero => rfl
  | succ rounds ih =>
      rcases h s with ⟨s', hrun⟩
      rw [retry_skipped hrun]
      exact ih s'

end Retry

end Prog

end Foundation
