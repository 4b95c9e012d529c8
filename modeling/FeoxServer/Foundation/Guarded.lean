import FeoxServer.Foundation.Prog

/-!
# Runs under a guard

A guard tells at every call of a run whether it is made at a good moment.  What
a program ensures under a guard holds at the end of every run that obeys it.
-/

namespace Foundation

variable {Call : Type} {Answer : Call -> Type}

abbrev Guard {Call : Type} {Answer : Call -> Type} (S : Service Call Answer) : Type :=
  List (Exchange Call Answer) -> Call -> S.State -> Prop

namespace Prog

variable {S : Service Call Answer} {good : Guard S} {α β : Type}

def Obeys (good : Guard S) :
    Prog Call Answer α -> List (Exchange Call Answer) -> S.State -> Prop
  | done _, _, _ => True
  | ask c next, log, s => good log c s ∧
      (next (S.reply c s).1).Obeys good (⟨c, (S.reply c s).1⟩ :: log) (S.reply c s).2
  | exhausted, _, _ => True

instance decidableObeys (good : Guard S) [forall log c s, Decidable (good log c s)] :
    forall (p : Prog Call Answer α) log s, Decidable (p.Obeys good log s)
  | done _, _, _ => .isTrue trivial
  | ask c next, log, s =>
      have : Decidable ((next (S.reply c s).1).Obeys good
          (⟨c, (S.reply c s).1⟩ :: log) (S.reply c s).2) :=
        decidableObeys good (next (S.reply c s).1) _ _
      inferInstanceAs (Decidable (good log c s ∧ _))
  | exhausted, _, _ => .isTrue trivial

/-- Every run that obeys the guard ends in `Q`. -/
def Ensures (good : Guard S) (Q : α -> List (Exchange Call Answer) -> S.State -> Prop) :
    Prog Call Answer α -> List (Exchange Call Answer) -> S.State -> Prop
  | done a, log, s => Q a log s
  | ask c next, log, s => good log c s ->
      (next (S.reply c s).1).Ensures good Q (⟨c, (S.reply c s).1⟩ :: log) (S.reply c s).2
  | exhausted, _, _ => True

variable {Q : α -> List (Exchange Call Answer) -> S.State -> Prop}

theorem Ensures.mono {Q' : α -> List (Exchange Call Answer) -> S.State -> Prop}
    {p : Prog Call Answer α} {log : List (Exchange Call Answer)} {s : S.State}
    (h : p.Ensures good Q log s) (hQ : forall a log s, Q a log s -> Q' a log s) :
    p.Ensures good Q' log s := by
  induction p generalizing log s with
  | done a => exact hQ a log s h
  | ask c next ih => exact fun hgood => ih _ (h hgood)
  | exhausted => trivial

theorem Ensures.bind {R : β -> List (Exchange Call Answer) -> S.State -> Prop}
    {p : Prog Call Answer α} {f : α -> Prog Call Answer β}
    {log : List (Exchange Call Answer)} {s : S.State} (h : p.Ensures good Q log s)
    (hf : forall a log s, Q a log s -> (f a).Ensures good R log s) :
    (p >>= f).Ensures good R log s := by
  induction p generalizing log s with
  | done a => exact hf a log s h
  | ask c next ih => exact fun hgood => ih _ (h hgood)
  | exhausted => trivial

theorem ensures_ask {c : Call} {next : Answer c -> Prog Call Answer α}
    {log : List (Exchange Call Answer)} {s s' : S.State} {r : Answer c}
    (hreply : S.reply c s = (r, s'))
    (h : good log c s -> (next r).Ensures good Q (⟨c, r⟩ :: log) s') :
    (ask c next).Ensures good Q log s := by
  intro hgood
  rw [hreply]
  exact h hgood

theorem Ensures.run {p : Prog Call Answer α} {log : List (Exchange Call Answer)}
    {s s' : S.State} {a : α} (h : p.Ensures good Q log s) (hobeys : p.Obeys good log s)
    (hrun : p.run S s = some (a, s')) : exists log', Q a log' s' := by
  induction p generalizing log s with
  | done b =>
      cases hrun
      exact ⟨log, h⟩
  | ask c next ih => exact ih _ (h hobeys.1) hobeys.2 hrun
  | exhausted => cases hrun

end Prog

end Foundation
