import Mathlib

/-!
# Versions and readers

Every modification of a key takes the next number as the version of the key.
A reader that notes the versions it reads learns from them whether a key was
modified since it was last read.  A history lists what happened, the latest
event first.
-/

namespace Foundation

variable {κ : Type}

inductive WatchEvent (κ : Type) where
  | modified (key : κ)
  | read (key : κ)
  | cleared
  deriving DecidableEq

namespace WatchEvent

abbrev History (κ : Type) : Type :=
  List (WatchEvent κ)

/-- The number of modifications so far. -/
def modifications : History κ -> Nat
  | [] => 0
  | modified _ :: h => modifications h + 1
  | read _ :: h => modifications h
  | cleared :: h => modifications h

section Decidable

variable [DecidableEq κ]

def version (key : κ) : History κ -> Nat
  | [] => 0
  | modified key' :: h =>
      if key' = key then modifications h + 1 else version key h
  | read _ :: h => version key h
  | cleared :: h => version key h

/-- The version noted when the key was last read, unless the notes were
cleared after that. -/
def recorded (key : κ) : History κ -> Option Nat
  | [] => none
  | modified _ :: h => recorded key h
  | read key' :: h =>
      if key' = key then some (version key h) else recorded key h
  | cleared :: _ => none

theorem version_le_modifications (key : κ) (h : History κ) :
    version key h <= modifications h := by
  induction h with
  | nil => exact Nat.le_refl 0
  | cons e h ih =>
      cases e with
      | modified key' =>
          simp only [version, modifications]
          split
          · exact Nat.le_refl _
          · exact ih.trans (Nat.le_succ _)
      | read key' => exact ih
      | cleared => exact ih

theorem recorded_le_version {key : κ} {h : History κ} {v : Nat}
    (hv : recorded key h = some v) : v <= version key h := by
  induction h with
  | nil => cases hv
  | cons e h ih =>
      cases e with
      | modified key' =>
          unfold version
          have hle := ih hv
          split
          · exact hle.trans ((version_le_modifications key h).trans
              (Nat.le_succ _))
          · exact hle
      | read key' =>
          unfold recorded at hv
          split at hv
          · injection hv with hv
            exact hv.symm.le
          · exact ih hv
      | cleared => cases hv

end Decidable

/-!
# Modified after a read
-/

/-- The key was read and modified after that, and nothing was cleared since. -/
def ModifiedSinceRead (key : κ) (h : History κ) : Prop :=
  exists later earlier, h = later ++ read key :: earlier ∧
    cleared ∉ later ∧ modified key ∈ later

/-- The key was modified after its last read. -/
def ModifiedSinceLastRead (key : κ) (h : History κ) : Prop :=
  exists later earlier, h = later ++ read key :: earlier ∧
    cleared ∉ later ∧ modified key ∈ later ∧ read key ∉ later

theorem ModifiedSinceLastRead.modifiedSinceRead {key : κ} {h : History κ}
    (hlast : ModifiedSinceLastRead key h) : ModifiedSinceRead key h := by
  rcases hlast with ⟨later, earlier, heq, hcleared, hmodified, _⟩
  exact ⟨later, earlier, heq, hcleared, hmodified⟩

/-- Apart from a clearing and a read of the key, an event leaves an earlier
modification after the last read where it is. -/
theorem modifiedSinceLastRead_cons {key : κ} {e : WatchEvent κ} {h : History κ}
    (hlast : ModifiedSinceLastRead key h) (hcleared : e ≠ cleared)
    (hread : e ≠ read key) : ModifiedSinceLastRead key (e :: h) := by
  rcases hlast with ⟨later, earlier, heq, hnone, hmodified, hunread⟩
  refine ⟨e :: later, earlier, by rw [heq]; rfl, ?_, ?_, ?_⟩
  · rw [List.mem_cons]
    rintro (hc | hc)
    · exact hcleared hc.symm
    · exact hnone hc
  · exact List.mem_cons_of_mem e hmodified
  · rw [List.mem_cons]
    rintro (hr | hr)
    · exact hread hr.symm
    · exact hunread hr

theorem modifiedSinceLastRead_of_cons {key : κ} {e : WatchEvent κ}
    {h : History κ} (hlast : ModifiedSinceLastRead key (e :: h)) :
    e ≠ cleared ∧ e ≠ read key ∧
      (ModifiedSinceLastRead key h ∨
        e = modified key ∧ exists later earlier, h = later ++ read key :: earlier ∧
          cleared ∉ later ∧ read key ∉ later) := by
  rcases hlast with ⟨later, earlier, heq, hnone, hmodified, hunread⟩
  cases later with
  | nil => cases hmodified
  | cons e' later =>
      injection heq with he heq
      subst he
      have hcleared : e ≠ cleared := fun hc =>
        hnone (hc ▸ List.mem_cons_self)
      have hread : e ≠ read key := fun hr =>
        hunread (hr ▸ List.mem_cons_self)
      refine ⟨hcleared, hread, ?_⟩
      have hnone' : cleared ∉ later := fun hc =>
        hnone (List.mem_cons_of_mem _ hc)
      have hunread' : read key ∉ later := fun hr =>
        hunread (List.mem_cons_of_mem _ hr)
      rw [List.mem_cons] at hmodified
      rcases hmodified with hm | hm
      · exact Or.inr ⟨hm.symm, later, earlier, heq, hnone', hunread'⟩
      · exact Or.inl ⟨later, earlier, heq, hnone', hm, hunread'⟩

section Decidable

variable [DecidableEq κ]

theorem recorded_isSome_iff {key : κ} {h : History κ} :
    (exists v, recorded key h = some v) <->
      exists later earlier, h = later ++ read key :: earlier ∧
        cleared ∉ later ∧ read key ∉ later := by
  induction h with
  | nil =>
      constructor
      · rintro ⟨v, hv⟩
        cases hv
      · rintro ⟨later, earlier, heq, _⟩
        cases later <;> cases heq
  | cons e h ih =>
      have hstep : forall (_ : e ≠ cleared) (_ : e ≠ read key),
          (exists later earlier, h = later ++ read key :: earlier ∧
            cleared ∉ later ∧ read key ∉ later) <->
          exists later earlier, e :: h = later ++ read key :: earlier ∧
            cleared ∉ later ∧ read key ∉ later := by
        intro hc hr
        constructor
        · rintro ⟨later, earlier, heq, hnone, hunread⟩
          refine ⟨e :: later, earlier, by rw [heq]; rfl, ?_, ?_⟩
          · simp [hnone, Ne.symm hc]
          · simp [hunread, Ne.symm hr]
        · rintro ⟨later, earlier, heq, hnone, hunread⟩
          cases later with
          | nil =>
              injection heq with he _
              exact absurd he hr
          | cons e' later =>
              injection heq with _ heq
              exact ⟨later, earlier, heq,
                fun h => hnone (List.mem_cons_of_mem _ h),
                fun h => hunread (List.mem_cons_of_mem _ h)⟩
      cases e with
      | modified key' =>
          exact ih.trans (hstep (by simp) (by simp))
      | read key' =>
          by_cases hk : key' = key
          · subst hk
            simp only [recorded, if_pos]
            exact ⟨fun _ => ⟨[], h, rfl, by simp, by simp⟩, fun _ => ⟨_, rfl⟩⟩
          · simp only [recorded, if_neg hk]
            exact ih.trans (hstep (by simp) (by simp [hk]))
      | cleared =>
          constructor
          · rintro ⟨v, hv⟩
            cases hv
          · rintro ⟨later, earlier, heq, hnone, _⟩
            cases later with
            | nil => cases heq
            | cons e' later =>
                injection heq with he _
                subst he
                exact absurd List.mem_cons_self hnone

/-- A noted version is out of date exactly if the key was modified after its
last read. -/
theorem recorded_ne_version_iff {key : κ} {h : History κ} {v : Nat}
    (hv : recorded key h = some v) :
    version key h ≠ v <-> ModifiedSinceLastRead key h := by
  induction h with
  | nil => cases hv
  | cons e h ih =>
      cases e with
      | modified key' =>
          by_cases hk : key' = key
          · subst hk
            have hle := recorded_le_version (h := h) hv
            have hbound := version_le_modifications key' h
            simp only [version, if_pos]
            constructor
            · intro _
              rcases (recorded_isSome_iff (h := h)).mp ⟨v, hv⟩ with
                ⟨later, earlier, heq, hnone, hunread⟩
              exact ⟨modified key' :: later, earlier, by rw [heq]; rfl,
                by simp [hnone], List.mem_cons_self, by simp [hunread]⟩
            · intro _
              omega
          · simp only [version, if_neg hk]
            rw [ih hv]
            constructor
            · intro hlast
              exact modifiedSinceLastRead_cons hlast (by simp) (by simp)
            · intro hlast
              rcases (modifiedSinceLastRead_of_cons hlast).2.2 with
                hlast | ⟨hmod, _⟩
              · exact hlast
              · exact absurd (WatchEvent.modified.inj hmod) hk
      | read key' =>
          unfold recorded at hv
          by_cases hk : key' = key
          · subst hk
            rw [if_pos rfl] at hv
            injection hv with hv
            constructor
            · intro hne
              exact absurd hv hne
            · intro hlast
              exact absurd rfl (modifiedSinceLastRead_of_cons hlast).2.1
          · rw [if_neg hk] at hv
            simp only [version]
            rw [ih hv]
            constructor
            · intro hlast
              exact modifiedSinceLastRead_cons hlast (by simp) (by simp [hk])
            · intro hlast
              rcases (modifiedSinceLastRead_of_cons hlast).2.2 with
                hlast | ⟨hmod, _⟩
              · exact hlast
              · cases hmod
      | cleared => cases hv

end Decidable

/-!
# Reads during a stretch of history
-/

/-- During a stretch of history a key is read of which `P` holds up to that
read. -/
def ReadWith (P : κ -> History κ -> Prop) (during before : History κ) : Prop :=
  exists key later earlier, during = later ++ read key :: earlier ∧
    P key (earlier ++ before)

section ReadWith

variable {P Q : κ -> History κ -> Prop}

@[simp] theorem readWith_nil (before : History κ) :
    ReadWith P [] before <-> False := by
  constructor
  · rintro ⟨key, later, earlier, heq, _⟩
    cases later <;> cases heq
  · exact False.elim

theorem readWith_cons {e : WatchEvent κ} {during before : History κ} :
    ReadWith P (e :: during) before <->
      (exists key, e = read key ∧ P key (during ++ before)) ∨
        ReadWith P during before := by
  constructor
  · rintro ⟨key, later, earlier, heq, hP⟩
    cases later with
    | nil =>
        injection heq with he hrest
        exact Or.inl ⟨key, he, hrest ▸ hP⟩
    | cons e' later =>
        injection heq with _ hrest
        exact Or.inr ⟨key, later, earlier, hrest, hP⟩
  · rintro (⟨key, rfl, hP⟩ | ⟨key, later, earlier, rfl, hP⟩)
    · exact ⟨key, [], during, rfl, hP⟩
    · exact ⟨key, e :: later, earlier, rfl, hP⟩

@[simp] theorem readWith_modified {key : κ} {during before : History κ} :
    ReadWith P (modified key :: during) before <-> ReadWith P during before := by
  simp [readWith_cons]

@[simp] theorem readWith_read {key : κ} {during before : History κ} :
    ReadWith P (read key :: during) before <->
      P key (during ++ before) ∨ ReadWith P during before := by
  simp [readWith_cons]

theorem readWith_append {later during before : History κ} :
    ReadWith P (later ++ during) before <->
      ReadWith P later (during ++ before) ∨ ReadWith P during before := by
  induction later with
  | nil => simp
  | cons e later ih =>
      rw [List.cons_append, readWith_cons, readWith_cons, ih,
        List.append_assoc, or_assoc]

theorem ReadWith.mono {during before : History κ}
    (h : ReadWith P during before) (hPQ : forall key h, P key h -> Q key h) :
    ReadWith Q during before := by
  rcases h with ⟨key, later, earlier, heq, hP⟩
  exact ⟨key, later, earlier, heq, hPQ key _ hP⟩

end ReadWith

/-!
# Stretches without reads
-/

def OnlyModified (h h' : History κ) : Prop :=
  exists later, h' = later ++ h ∧
    forall e, e ∈ later -> exists key, e = modified key

theorem OnlyModified.refl (h : History κ) : OnlyModified h h :=
  ⟨[], rfl, by simp⟩

theorem OnlyModified.trans {h h1 h2 : History κ} (h01 : OnlyModified h h1)
    (h12 : OnlyModified h1 h2) : OnlyModified h h2 := by
  rcases h01 with ⟨later, rfl, hlater⟩
  rcases h12 with ⟨later', rfl, hlater'⟩
  refine ⟨later' ++ later, by simp, ?_⟩
  intro e he
  rcases List.mem_append.mp he with he | he
  · exact hlater' e he
  · exact hlater e he

theorem OnlyModified.recorded_eq [DecidableEq κ] {h h' : History κ}
    (hh : OnlyModified h h') (key : κ) : recorded key h' = recorded key h := by
  rcases hh with ⟨later, rfl, hlater⟩
  induction later with
  | nil => rfl
  | cons e later ih =>
      rcases hlater e List.mem_cons_self with ⟨key', rfl⟩
      exact ih fun e he => hlater e (List.mem_cons_of_mem _ he)

theorem OnlyModified.not_readWith {P : κ -> History κ -> Prop}
    {later h : History κ}
    (hlater : forall e, e ∈ later -> exists key, e = modified key) :
    ¬ ReadWith P later h := by
  rintro ⟨key, after, earlier, rfl, _⟩
  rcases hlater (read key) (by simp) with ⟨key', hkey⟩
  cases hkey

theorem modifications_append (later h : History κ) :
    modifications (later ++ h) = modifications later + modifications h := by
  induction later with
  | nil => simp [modifications]
  | cons e later ih =>
      cases e <;> simp only [List.cons_append, modifications, ih]
      omega

end WatchEvent

end Foundation
