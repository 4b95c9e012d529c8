import Mathlib

/-!
# Programs over a set of calls

A program asks its environment one call after the other and ends in a value.
Nothing is fixed about the environment: it may be one service that answers
from its own state, or several programs that take turns.  A loop that may not
end carries fuel, and a program whose fuel runs out is `exhausted`.
-/

namespace Foundation

inductive Prog (Call : Type) (Answer : Call -> Type) (α : Type) : Type where
  | done (a : α)
  | ask (c : Call) (next : Answer c -> Prog Call Answer α)
  | exhausted

namespace Prog

variable {Call : Type} {Answer : Call -> Type} {α β γ : Type}

def bind : Prog Call Answer α -> (α -> Prog Call Answer β) ->
    Prog Call Answer β
  | done a, f => f a
  | ask c next, f => ask c fun answer => (next answer).bind f
  | exhausted, _ => exhausted

instance : Monad (Prog Call Answer) where
  pure := done
  bind := bind

def call (c : Call) : Prog Call Answer (Answer c) :=
  ask c done

@[simp] theorem pure_eq (a : α) :
    (pure a : Prog Call Answer α) = done a := rfl

@[simp] theorem done_bind (a : α) (f : α -> Prog Call Answer β) :
    (done a >>= f) = f a := rfl

@[simp] theorem ask_bind (c : Call) (next : Answer c -> Prog Call Answer α)
    (f : α -> Prog Call Answer β) :
    (ask c next >>= f) = ask c fun answer => next answer >>= f := rfl

@[simp] theorem exhausted_bind (f : α -> Prog Call Answer β) :
    ((exhausted : Prog Call Answer α) >>= f) = exhausted := rfl

theorem bind_done (p : Prog Call Answer α) : (p >>= done) = p := by
  induction p with
  | done a => rfl
  | ask c next ih =>
      rw [ask_bind]
      congr 1
      funext answer
      exact ih answer
  | exhausted => rfl

theorem bind_assoc (p : Prog Call Answer α) (f : α -> Prog Call Answer β)
    (g : β -> Prog Call Answer γ) :
    (p >>= f >>= g) = p >>= fun a => f a >>= g := by
  induction p with
  | done a => rfl
  | ask c next ih =>
      simp only [ask_bind]
      congr 1
      funext answer
      exact ih answer
  | exhausted => rfl

instance : LawfulMonad (Prog Call Answer) :=
  LawfulMonad.mk' _ bind_done (fun _ _ => rfl) bind_assoc

end Prog

/-!
# Services

A service answers every call from its own state.
-/

/-- The state of the environment and how it answers. -/
structure Service (Call : Type) (Answer : Call -> Type) where
  State : Type
  reply : (c : Call) -> State -> Answer c × State

abbrev Exchange (Call : Type) (Answer : Call -> Type) : Type :=
  Sigma fun c : Call => Answer c

namespace Prog

variable {Call : Type} {Answer : Call -> Type} {α β γ : Type}

/-- The result and the state after a run, unless the fuel runs out. -/
def run (S : Service Call Answer) :
    Prog Call Answer α -> S.State -> Option (α × S.State)
  | done a, s => some (a, s)
  | ask c next, s => (next (S.reply c s).1).run S (S.reply c s).2
  | exhausted, _ => none

def trace (S : Service Call Answer) :
    Prog Call Answer α -> S.State -> List (Exchange Call Answer)
  | done _, _ => []
  | ask c next, s =>
      ⟨c, (S.reply c s).1⟩ :: (next (S.reply c s).1).trace S (S.reply c s).2
  | exhausted, _ => []

section Run

variable (S : Service Call Answer)

@[simp] theorem run_done (a : α) (s : S.State) :
    (done a : Prog Call Answer α).run S s = some (a, s) := rfl

variable {S} in
theorem run_done_eq_some {a a' : α} {s s' : S.State} :
    (done a : Prog Call Answer α).run S s = some (a', s') <->
      a = a' ∧ s = s' := by
  simp

@[simp] theorem run_ask (c : Call) (next : Answer c -> Prog Call Answer α)
    (s : S.State) :
    (ask c next).run S s = (next (S.reply c s).1).run S (S.reply c s).2 := rfl

@[simp] theorem run_exhausted (s : S.State) :
    (exhausted : Prog Call Answer α).run S s = none := rfl

@[simp] theorem run_call (c : Call) (s : S.State) :
    (call c : Prog Call Answer (Answer c)).run S s = some (S.reply c s) := rfl

theorem run_bind (p : Prog Call Answer α) (f : α -> Prog Call Answer β)
    (s : S.State) :
    (p >>= f).run S s = (p.run S s).bind fun r => (f r.1).run S r.2 := by
  induction p generalizing s with
  | done a => rfl
  | ask c next ih => exact ih (S.reply c s).1 (S.reply c s).2
  | exhausted => rfl

@[simp] theorem run_call_bind (c : Call) (f : Answer c -> Prog Call Answer β)
    (s : S.State) :
    (call c >>= f).run S s = (f (S.reply c s).1).run S (S.reply c s).2 := rfl

theorem run_bind_eq_some {p : Prog Call Answer α}
    {f : α -> Prog Call Answer β} {s s' : S.State} {b : β} :
    (p >>= f).run S s = some (b, s') <->
      exists a s1, p.run S s = some (a, s1) ∧ (f a).run S s1 = some (b, s') := by
  rw [run_bind, Option.bind_eq_some_iff]
  constructor
  · rintro ⟨⟨a, s1⟩, hp, hf⟩
    exact ⟨a, s1, hp, hf⟩
  · rintro ⟨a, s1, hp, hf⟩
    exact ⟨(a, s1), hp, hf⟩

theorem run_bind_of_none {p : Prog Call Answer α}
    (f : α -> Prog Call Answer β) {s : S.State} (h : p.run S s = none) :
    (p >>= f).run S s = none := by
  rw [run_bind, h]
  rfl

theorem run_bind_of_some {p : Prog Call Answer α}
    (f : α -> Prog Call Answer β) {s s1 : S.State} {a : α}
    (h : p.run S s = some (a, s1)) :
    (p >>= f).run S s = (f a).run S s1 := by
  rw [run_bind, h]
  rfl

@[simp] theorem trace_done (a : α) (s : S.State) :
    (done a : Prog Call Answer α).trace S s = [] := rfl

@[simp] theorem trace_call_bind (c : Call) (f : Answer c -> Prog Call Answer β)
    (s : S.State) :
    (call c >>= f).trace S s =
      ⟨c, (S.reply c s).1⟩ :: (f (S.reply c s).1).trace S (S.reply c s).2 := rfl

end Run

/-!
# Calls a program can make

`Only P p` says that every call of `p`, whatever the answers were so far,
satisfies `P`.  What each such call preserves, every run preserves.
-/

inductive Only (P : Call -> Prop) : Prog Call Answer α -> Prop where
  | done (a : α) : Only P (.done a)
  | ask {c : Call} {next : Answer c -> Prog Call Answer α} :
      P c -> (forall answer, Only P (next answer)) -> Only P (.ask c next)
  | exhausted : Only P .exhausted

theorem only_bind {P : Call -> Prop} {p : Prog Call Answer α}
    {f : α -> Prog Call Answer β} (hp : Only P p)
    (hf : forall a, Only P (f a)) : Only P (p >>= f) := by
  induction hp with
  | done a => exact hf a
  | ask hc _ ih => exact Only.ask hc ih
  | exhausted => exact Only.exhausted

theorem only_call {P : Call -> Prop} {c : Call} (hc : P c) :
    Only P (call c : Prog Call Answer (Answer c)) :=
  Only.ask hc fun answer => Only.done answer

theorem only_true (p : Prog Call Answer α) : Only (fun _ => True) p := by
  induction p with
  | done a => exact Only.done a
  | ask c next ih => exact Only.ask trivial ih
  | exhausted => exact Only.exhausted

@[simp] theorem only_done_iff {P : Call -> Prop} {a : α} :
    Only P (done a : Prog Call Answer α) <-> True :=
  ⟨fun _ => trivial, fun _ => Only.done a⟩

@[simp] theorem only_call_bind_iff {P : Call -> Prop} {c : Call}
    {f : Answer c -> Prog Call Answer β} :
    Only P (call c >>= f) <-> P c ∧ forall answer, Only P (f answer) := by
  constructor
  · intro h
    cases h with
    | ask hc hnext => exact ⟨hc, hnext⟩
  · rintro ⟨hc, hnext⟩
    exact Only.ask hc hnext

@[simp] theorem only_call_iff {P : Call -> Prop} {c : Call} :
    Only P (call c : Prog Call Answer (Answer c)) <-> P c := by
  constructor
  · intro h
    cases h with
    | ask hc _ => exact hc
  · exact only_call

theorem only_mono {P Q : Call -> Prop} {p : Prog Call Answer α}
    (h : Only P p) (hPQ : forall c, P c -> Q c) : Only Q p := by
  induction h with
  | done a => exact Only.done a
  | ask hc _ ih => exact Only.ask (hPQ _ hc) ih
  | exhausted => exact Only.exhausted

/-- Induction over a run: a relation that holds from each state to itself and
survives every permitted call holds between the ends of the run. -/
theorem run_induction (S : Service Call Answer) {P : Call -> Prop}
    {R : S.State -> S.State -> Prop} (hrefl : forall s, R s s)
    (hstep : forall c, P c -> forall s0 s, R s0 s -> R s0 (S.reply c s).2)
    {p : Prog Call Answer α} (hp : Only P p) {s s' : S.State} {a : α}
    (hrun : p.run S s = some (a, s')) : R s s' := by
  have hgeneral : forall s0, R s0 s -> R s0 s' := by
    induction hp generalizing s with
    | done b =>
        intro s0 hs
        cases hrun
        exact hs
    | ask hc _ ih =>
        intro s0 hs
        exact ih _ hrun s0 (hstep _ hc s0 s hs)
    | exhausted => cases hrun
  exact hgeneral s (hrefl s)

theorem run_observe_eq (S : Service Call Answer) {P : Call -> Prop}
    {O : Type} (observe : S.State -> O)
    (hstep : forall c, P c -> forall s,
      observe (S.reply c s).2 = observe s)
    {p : Prog Call Answer α} (hp : Only P p) {s s' : S.State} {a : α}
    (hrun : p.run S s = some (a, s')) : observe s' = observe s :=
  run_induction S (R := fun s0 s1 => observe s1 = observe s0)
    (fun _ => rfl)
    (fun c hc s0 s hs => by rw [hstep c hc s, hs]) hp hrun

/-!
# Simulation

A map between the states of two services that commutes with every permitted
call carries runs of the first to runs of the second.
-/

theorem run_simulates (S T : Service Call Answer) {P : Call -> Prop}
    (abs : S.State -> T.State)
    (hstep : forall c, P c -> forall s,
      T.reply c (abs s) = ((S.reply c s).1, abs (S.reply c s).2))
    {p : Prog Call Answer α} (hp : Only P p) (s : S.State) :
    p.run T (abs s) = (p.run S s).map fun r => (r.1, abs r.2) := by
  induction hp generalizing s with
  | done a => rfl
  | ask hc _ ih =>
      rw [run_ask, run_ask, hstep _ hc s]
      exact ih _ _
  | exhausted => rfl

/-- Two services in related states that answer every permitted call alike
give the same result. -/
theorem run_agrees (S T : Service Call Answer) {P : Call -> Prop}
    {R : S.State -> T.State -> Prop}
    (hstep : forall c, P c -> forall s t, R s t ->
      (S.reply c s).1 = (T.reply c t).1 ∧
        R (S.reply c s).2 (T.reply c t).2)
    {p : Prog Call Answer α} (hp : Only P p) {s : S.State} {t : T.State}
    (hst : R s t) :
    (p.run S s = none ∧ p.run T t = none) ∨
      exists a s' t', p.run S s = some (a, s') ∧ p.run T t = some (a, t') ∧
        R s' t' := by
  induction hp generalizing s t with
  | done a => exact Or.inr ⟨a, s, t, rfl, rfl, hst⟩
  | ask hc _ ih =>
      rename_i c next _
      rcases hstep c hc s t hst with ⟨hanswer, hrel⟩
      rw [run_ask, run_ask, ← hanswer]
      exact ih _ hrel
  | exhausted => exact Or.inl ⟨rfl, rfl⟩

/-!
# Possible results

`Returns A Q p` says that as long as the answers satisfy `A`, whatever `p`
ends in satisfies `Q`.
-/

inductive Returns (A : (c : Call) -> Answer c -> Prop) (Q : α -> Prop) :
    Prog Call Answer α -> Prop where
  | done {a : α} : Q a -> Returns A Q (.done a)
  | ask {c : Call} {next : Answer c -> Prog Call Answer α} :
      (forall answer, A c answer -> Returns A Q (next answer)) ->
        Returns A Q (.ask c next)
  | exhausted : Returns A Q .exhausted

section Returns

variable {A : (c : Call) -> Answer c -> Prop} {Q : α -> Prop} {R : β -> Prop}

theorem returns_bind {p : Prog Call Answer α} {f : α -> Prog Call Answer β}
    (hp : Returns A Q p) (hf : forall a, Q a -> Returns A R (f a)) :
    Returns A R (p >>= f) := by
  induction hp with
  | done ha => exact hf _ ha
  | ask _ ih => exact Returns.ask fun answer hanswer => ih answer hanswer
  | exhausted => exact Returns.exhausted

theorem returns_mono {Q' : α -> Prop} {p : Prog Call Answer α}
    (hp : Returns A Q p) (h : forall a, Q a -> Q' a) : Returns A Q' p := by
  induction hp with
  | done ha => exact Returns.done (h _ ha)
  | ask _ ih => exact Returns.ask ih
  | exhausted => exact Returns.exhausted

theorem returns_and {Q' : α -> Prop} {p : Prog Call Answer α} (hp : Returns A Q p)
    (hp' : Returns A Q' p) : Returns A (fun a => Q a ∧ Q' a) p := by
  induction hp with
  | done ha =>
      cases hp' with
      | done ha' => exact Returns.done ⟨ha, ha'⟩
  | ask _ ih =>
      cases hp' with
      | ask hnext =>
          exact Returns.ask fun answer hanswer =>
            ih answer hanswer (hnext answer hanswer)
  | exhausted => exact Returns.exhausted

theorem bind_congr_of_returns {p : Prog Call Answer α}
    (hp : Returns (fun _ _ => True) Q p) {f g : α -> Prog Call Answer β}
    (hfg : forall a, Q a -> f a = g a) : p >>= f = p >>= g := by
  induction hp with
  | done ha => exact hfg _ ha
  | ask _ ih =>
      rw [ask_bind, ask_bind]
      congr 1
      funext answer
      exact ih answer trivial
  | exhausted => rfl

theorem returns_trivial (p : Prog Call Answer α) :
    Returns A (fun _ => True) p := by
  induction p with
  | done a => exact Returns.done trivial
  | ask c next ih => exact Returns.ask fun answer _ => ih answer
  | exhausted => exact Returns.exhausted

@[simp] theorem returns_done_iff {a : α} :
    Returns A Q (done a : Prog Call Answer α) <-> Q a := by
  constructor
  · intro h
    cases h with
    | done ha => exact ha
  · exact Returns.done

@[simp] theorem returns_call_bind_iff {c : Call}
    {f : Answer c -> Prog Call Answer α} :
    Returns A Q (call c >>= f) <->
      forall answer, A c answer -> Returns A Q (f answer) := by
  constructor
  · intro h
    cases h with
    | ask hnext => exact hnext
  · exact Returns.ask

theorem run_returns (S : Service Call Answer)
    (hS : forall c s, A c (S.reply c s).1) {p : Prog Call Answer α}
    (hp : Returns A Q p) {s s' : S.State} {a : α}
    (hrun : p.run S s = some (a, s')) : Q a := by
  induction hp generalizing s with
  | done ha =>
      cases hrun
      exact ha
  | ask _ ih => exact ih _ (hS _ s) hrun
  | exhausted => cases hrun

end Returns

/-!
# Embedding

A program over some calls is a program over any calls that include them.
-/

section Hoist

variable {Call' : Type} {Answer' : Call' -> Type} (embed : Call -> Call')
  (answer : (c : Call) -> Answer' (embed c) -> Answer c)

def hoist : Prog Call Answer α -> Prog Call' Answer' α
  | done a => done a
  | ask c next => ask (embed c) fun a => (next (answer c a)).hoist
  | exhausted => exhausted

variable {embed answer}

theorem only_hoist {P : Call -> Prop} {P' : Call' -> Prop}
    {p : Prog Call Answer α} (hp : Only P p)
    (h : forall c, P c -> P' (embed c)) : Only P' (p.hoist embed answer) := by
  induction hp with
  | done a => exact Only.done a
  | ask hc _ ih => exact Only.ask (h _ hc) fun a => ih _
  | exhausted => exact Only.exhausted

theorem returns_hoist {A : (c : Call) -> Answer c -> Prop}
    {A' : (c : Call') -> Answer' c -> Prop} {Q : α -> Prop}
    {p : Prog Call Answer α} (hp : Returns A Q p)
    (h : forall c a, A' (embed c) a -> A c (answer c a)) :
    Returns A' Q (p.hoist embed answer) := by
  induction hp with
  | done ha => exact Returns.done ha
  | ask _ ih => exact Returns.ask fun a ha => ih _ (h _ a ha)
  | exhausted => exact Returns.exhausted

/-- A service that answers the embedded calls from one component of its state
runs the embedded program on that component. -/
theorem run_hoist (S : Service Call Answer) (T : Service Call' Answer')
    (get : T.State -> S.State) (put : S.State -> T.State -> T.State)
    (hget : forall s t, get (put s t) = s)
    (hput : forall t, put (get t) t = t)
    (hputput : forall s s' t, put s' (put s t) = put s' t)
    (hanswer : forall c t, answer c (T.reply (embed c) t).1 =
      (S.reply c (get t)).1)
    (hstate : forall c t, (T.reply (embed c) t).2 =
      put (S.reply c (get t)).2 t)
    (p : Prog Call Answer α) (t : T.State) :
    (p.hoist embed answer).run T t =
      (p.run S (get t)).map fun r => (r.1, put r.2 t) := by
  induction p generalizing t with
  | done a =>
      simp only [hoist, run_done, Option.map_some, hput]
  | ask c next ih =>
      simp only [hoist, run_ask, hanswer, ih, hstate, hget, hputput]
  | exhausted => rfl

end Hoist

end Prog

end Foundation
