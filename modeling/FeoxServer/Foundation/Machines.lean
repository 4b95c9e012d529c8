import Mathlib

/-!
# Machines

A machine takes the step that an input names, unless the input finds none.  What
every step preserves holds along a run, and what a run has brought about one of its
steps has brought about last.
-/

namespace Foundation

section Machines

variable {σ ε : Type} {step : σ -> ε -> Option σ}

def runInputs (step : σ -> ε -> Option σ) : List ε -> σ -> Option σ
  | [], s => some s
  | e :: es, s => (step s e).bind fun s' => runInputs step es s'

theorem runInputs_cons_eq_some {e : ε} {es : List ε} {s s' : σ} :
    runInputs step (e :: es) s = some s' <->
      exists s1, step s e = some s1 ∧ runInputs step es s1 = some s' :=
  Option.bind_eq_some_iff

theorem runInputs_append_eq_some {es es' : List ε} {s s' : σ} :
    runInputs step (es ++ es') s = some s' <->
      exists s1, runInputs step es s = some s1 ∧ runInputs step es' s1 = some s' := by
  induction es generalizing s with
  | nil =>
      constructor
      · intro hrun
        exact ⟨s, rfl, hrun⟩
      · rintro ⟨s1, hnil, hrun⟩
        cases hnil
        exact hrun
  | cons e es ih =>
      rw [List.cons_append, runInputs_cons_eq_some]
      constructor
      · rintro ⟨s1, hstep, hrest⟩
        rcases ih.mp hrest with ⟨s2, hfirst, hlater⟩
        exact ⟨s2, runInputs_cons_eq_some.mpr ⟨s1, hstep, hfirst⟩, hlater⟩
      · rintro ⟨s2, hfirst, hlater⟩
        rcases runInputs_cons_eq_some.mp hfirst with ⟨s1, hstep, hrest⟩
        exact ⟨s1, hstep, ih.mpr ⟨s2, hrest, hlater⟩⟩

theorem invariant_runInputs {Inv : σ -> Prop} {P : ε -> Prop}
    (hstep : forall s e s', P e -> Inv s -> step s e = some s' -> Inv s')
    {es : List ε} (hes : forall e, e ∈ es -> P e) {s s' : σ} (hs : Inv s)
    (hrun : runInputs step es s = some s') : Inv s' := by
  induction es generalizing s with
  | nil =>
      cases hrun
      exact hs
  | cons e es ih =>
      rcases runInputs_cons_eq_some.mp hrun with ⟨s1, hfirst, hrest⟩
      exact ih (fun e' he' => hes e' (List.mem_cons_of_mem _ he'))
        (hstep s e s1 (hes e List.mem_cons_self) hs hfirst) hrest

/-- A step at which `P` sets in, and from which it lasts to the end of the run. -/
structure LastOnset (step : σ -> ε -> Option σ) (P : σ -> Prop) (es : List ε)
    (s s' : σ) (before : List ε) (e : ε) (after : List ε) (s1 s2 : σ) : Prop where
  inputs : es = before ++ e :: after
  run_before : runInputs step before s = some s1
  here : step s1 e = some s2
  run_after : runInputs step after s2 = some s'
  without : ¬ P s1
  lasting : forall first later s3, after = first ++ later ->
    runInputs step first s2 = some s3 -> P s3

/-- What holds at the end of a run and not at its start has set in at one of the
steps and has lasted from there. -/
theorem exists_lastOnset {P : σ -> Prop} {es : List ε} {s s' : σ}
    (hrun : runInputs step es s = some s') (hstart : ¬ P s) (hend : P s') :
    exists before e after s1 s2, LastOnset step P es s s' before e after s1 s2 := by
  induction es using List.reverseRecOn generalizing s' with
  | nil =>
      cases hrun
      exact absurd hend hstart
  | append_singleton es e ih =>
      rcases runInputs_append_eq_some.mp hrun with ⟨s1, hbefore, hlast⟩
      rcases runInputs_cons_eq_some.mp hlast with ⟨s2, hstep, hnil⟩
      cases hnil
      by_cases hs1 : P s1
      · rcases ih hbefore hs1 with ⟨before, e', after, t1, t2, honset⟩
        refine ⟨before, e', after ++ [e], t1, t2, ?_, honset.run_before, honset.here,
          runInputs_append_eq_some.mpr ⟨s1, honset.run_after, hlast⟩,
          honset.without, ?_⟩
        · rw [honset.inputs, List.append_assoc, List.cons_append]
        · intro first later s3 hsplit hfirst
          rcases List.append_eq_append_iff.mp hsplit with
            ⟨rest, rfl, hlater⟩ | ⟨rest, hafter, _⟩
          · -- The prefix is all of the inputs or all but the last.
            rcases runInputs_append_eq_some.mp hfirst with ⟨s4, hall, hmore⟩
            cases honset.run_after.symm.trans hall
            rcases List.singleton_eq_append_iff.mp hlater with
              ⟨rfl, _⟩ | ⟨rfl, _⟩
            · cases hmore
              exact hs1
            · cases hlast.symm.trans hmore
              exact hend
          · exact honset.lasting first rest s3 hafter hfirst
      · refine ⟨es, e, [], s1, s', rfl, hbefore, hstep, rfl, hs1, ?_⟩
        intro first later s3 hsplit hfirst
        rcases List.nil_eq_append_iff.mp hsplit with ⟨rfl, _⟩
        cases hfirst
        exact hend

end Machines

end Foundation
