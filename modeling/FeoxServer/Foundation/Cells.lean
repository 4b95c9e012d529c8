import FeoxServer.Foundation.Prog

/-!
# Services made of cells

The state of such a service is divided into cells, and a call depends on the
cells that it touches, and changes no others.  A program then depends on the
cells that its calls touch, and what it leaves behind elsewhere is what was
there.
-/

namespace Foundation

variable {Call : Type} {Answer : Call -> Type} {κ ε α β : Type}

/-- A call answers by the cells it touches, changes them by what they hold, and
leaves the others alone. -/
structure Celled (S : Service Call Answer) (touches : Call -> Set κ)
    (cell : S.State -> κ -> ε) : Prop where
  answer : forall c {s t}, Set.EqOn (cell s) (cell t) (touches c) ->
    (S.reply c s).1 = (S.reply c t).1
  own : forall c {s t}, Set.EqOn (cell s) (cell t) (touches c) ->
    Set.EqOn (cell (S.reply c s).2) (cell (S.reply c t).2) (touches c)
  others : forall c s {k}, k ∉ touches c ->
    cell (S.reply c s).2 k = cell s k

namespace Prog

def Within (S : Service Call Answer) (R : S.State -> S.State -> Prop)
    (p : Prog Call Answer α) : Prop :=
  forall {s s' a}, p.run S s = some (a, s') -> R s s'

section Within

variable {S : Service Call Answer} {R : S.State -> S.State -> Prop}

theorem within_done (hrefl : forall s, R s s) (a : α) :
    Within S R (done a : Prog Call Answer α) := by
  intro s s' b hrun
  cases hrun
  exact hrefl s

theorem within_call {c : Call} (h : forall s, R s (S.reply c s).2) :
    Within S R (call c : Prog Call Answer (Answer c)) := by
  intro s s' a hrun
  cases hrun
  exact h s

theorem within_bind (htrans : forall {s t u}, R s t -> R t u -> R s u)
    {p : Prog Call Answer α} {f : α -> Prog Call Answer β}
    (hp : Within S R p) (hf : forall a, Within S R (f a)) :
    Within S R (p >>= f) := by
  intro s s' b hrun
  rcases (run_bind_eq_some _).mp hrun with ⟨a, s1, hfirst, hrest⟩
  exact htrans (hp hfirst) (hf a hrest)

end Within

end Prog

end Foundation
