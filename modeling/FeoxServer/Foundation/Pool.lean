import FeoxServer.Foundation.Prog

/-!
# Programs that take turns

Several programs run against one service.  A turn of a program is one call with
its answer; between two turns of a program any other program may have taken
any number of turns.  Every thread remembers the turns it has taken.
-/

namespace Foundation

structure Pool {Call : Type} {Answer : Call -> Type} (S : Service Call Answer)
    (ι α : Type) where
  state : S.State
  thread : ι -> Prog Call Answer α
  log : ι -> List (Exchange Call Answer)

namespace Pool

variable {Call : Type} {Answer : Call -> Type} {S : Service Call Answer}
  {ι α : Type} [DecidableEq ι]

/-- No turn has been taken yet. -/
def start (state : S.State) (thread : ι -> Prog Call Answer α) : Pool S ι α where
  state := state
  thread := thread
  log _ := []

/-- A turn of thread `i`; a thread that has ended stays as it is. -/
def step (pool : Pool S ι α) (i : ι) : Pool S ι α :=
  match pool.thread i with
  | .ask c next =>
      { state := (S.reply c pool.state).2
        thread := Function.update pool.thread i
          (next (S.reply c pool.state).1)
        log := Function.update pool.log i
          (⟨c, (S.reply c pool.state).1⟩ :: pool.log i) }
  | .done _ => pool
  | .exhausted => pool

def run (pool : Pool S ι α) (turns : List ι) : Pool S ι α :=
  turns.foldl step pool

/-- Every thread has returned. -/
def Finished (pool : Pool S ι α) (result : ι -> α) : Prop :=
  forall i, pool.thread i = .done (result i)

/-- Every turn is taken at a moment that `good` allows. -/
def Meets (good : Pool S ι α -> ι -> Prop) : Pool S ι α -> List ι -> Prop
  | _, [] => True
  | pool, i :: turns => good pool i ∧ Meets good (pool.step i) turns

instance decidableMeets (good : Pool S ι α -> ι -> Prop) [forall pool i, Decidable (good pool i)] :
    forall pool turns, Decidable (Meets good pool turns)
  | _, [] => .isTrue trivial
  | pool, i :: turns =>
      have : Decidable (Meets good (pool.step i) turns) :=
        decidableMeets good (pool.step i) turns
      inferInstanceAs (Decidable (good pool i ∧ Meets good (pool.step i) turns))

theorem run_of_step {good : Pool S ι α -> ι -> Prop} {Inv : Pool S ι α -> Prop}
    (hstep : forall pool i, Inv pool -> good pool i -> Inv (pool.step i))
    {pool : Pool S ι α} (h : Inv pool) {turns : List ι}
    (hmeets : Meets good pool turns) : Inv (pool.run turns) := by
  induction turns generalizing pool with
  | nil => exact h
  | cons i turns ih => exact ih (hstep pool i h hmeets.1) hmeets.2

/-- Every thread is at a place of its program that its mark tells, and the
shared state agrees with the marks. -/
def Marked {γ : Type}
    (Local : ι -> γ -> List (Exchange Call Answer) -> Prog Call Answer α -> Prop)
    (Global : S.State -> (ι -> γ) -> Prop) (pool : Pool S ι α) : Prop :=
  exists mark : ι -> γ,
    (forall i, Local i (mark i) (pool.log i) (pool.thread i)) ∧
      Global pool.state mark

theorem run_marked {γ : Type}
    {Local : ι -> γ -> List (Exchange Call Answer) -> Prog Call Answer α -> Prop}
    {Global : S.State -> (ι -> γ) -> Prop} {good : Pool S ι α -> ι -> Prop}
    (hcall : forall pool i c next mark, pool.thread i = .ask c next ->
      (forall j, Local j (mark j) (pool.log j) (pool.thread j)) ->
        Global pool.state mark -> good pool i ->
          exists g, Local i g (⟨c, (S.reply c pool.state).1⟩ :: pool.log i)
              (next (S.reply c pool.state).1) ∧
            Global (S.reply c pool.state).2 (Function.update mark i g))
    {pool : Pool S ι α} (h : Marked Local Global pool) {turns : List ι}
    (hmeets : Meets good pool turns) : Marked Local Global (pool.run turns) := by
  refine run_of_step ?_ h hmeets
  rintro pool i ⟨mark, hlocal, hglobal⟩ hgood
  unfold step
  cases hthread : pool.thread i with
  | done a => exact ⟨mark, hlocal, hglobal⟩
  | exhausted => exact ⟨mark, hlocal, hglobal⟩
  | ask c next =>
      rcases hcall pool i c next mark hthread hlocal hglobal hgood with
        ⟨g, hnext, hstate⟩
      refine ⟨Function.update mark i g, fun j => ?_, hstate⟩
      by_cases hj : j = i
      · subst hj
        change Local j (Function.update mark j g j) (Function.update pool.log j _ j)
          (Function.update pool.thread j _ j)
        rw [Function.update_self, Function.update_self, Function.update_self]
        exact hnext
      · change Local j (Function.update mark i g j) (Function.update pool.log i _ j)
          (Function.update pool.thread i _ j)
        rw [Function.update_of_ne hj, Function.update_of_ne hj,
          Function.update_of_ne hj]
        exact hlocal j

end Pool

theorem sum_update_add {ι γ M : Type} [DecidableEq ι] [Fintype ι] [AddCommMonoid M]
    (f : ι -> γ -> M) (mark : ι -> γ) (i : ι) (g : γ) :
    (∑ j, f j (Function.update mark i g j)) + f i (mark i) =
      (∑ j, f j (mark j)) + f i g := by
  have hrest : forall j, j ∈ Finset.univ.erase i ->
      f j (Function.update mark i g j) = f j (mark j) := fun j hj => by
    rw [Function.update_of_ne (Finset.ne_of_mem_erase hj)]
  rw [← Finset.add_sum_erase Finset.univ (fun j => f j (Function.update mark i g j))
      (Finset.mem_univ i), ← Finset.add_sum_erase Finset.univ (fun j => f j (mark j))
      (Finset.mem_univ i), Finset.sum_congr rfl hrest, Function.update_self]
  abel

theorem sum_update_of_eq {ι γ M : Type} [DecidableEq ι] [Fintype ι] [AddCommMonoid M]
    (f : ι -> γ -> M) {mark : ι -> γ} {i : ι} {g : γ} (h : f i g = f i (mark i)) :
    (∑ j, f j (Function.update mark i g j)) = ∑ j, f j (mark j) := by
  refine Finset.sum_congr rfl fun j _ => ?_
  by_cases hj : j = i
  · rw [hj, Function.update_self, h]
  · rw [Function.update_of_ne hj]

end Foundation
