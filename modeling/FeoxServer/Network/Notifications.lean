import FeoxServer.Network.Connection

/-!
# Notifications in two steps

A notification takes the next version and then stores it under the key.  Other
threads may take and store versions between the two, so the version of a key may
become smaller.  It never becomes what it was before.
-/

namespace FeoxServer

open Foundation

namespace WatchRegistry

/-- `GLOBAL_VERSION.fetch_add`. -/
def fetchVersion (r : WatchRegistry) : UInt64 × WatchRegistry :=
  (r.globalVersion, { r with globalVersion := r.globalVersion + 1 })

/-- `KEY_VERSIONS.insert`. -/
def insertVersion (r : WatchRegistry) (key : Bytes) (version : UInt64) : WatchRegistry :=
  { r with keyVersions := r.keyVersions.insert key version }

theorem notifyKeyModified_eq (r : WatchRegistry) (key : Bytes) :
    r.notifyKeyModified key = r.fetchVersion.2.insertVersion key r.fetchVersion.1 := rfl

theorem getKeyVersion_insert (r : WatchRegistry) (key key' : Bytes) (version : UInt64) :
    (r.insertVersion key version).getKeyVersion key' =
      if key = key' then version else r.getKeyVersion key' := by
  unfold getKeyVersion insertVersion
  split
  · rename_i heq
    subst heq
    rw [AList.lookup_insert]
    rfl
  · rename_i hne
    rw [AList.lookup_insert_ne (Ne.symm hne)]

end WatchRegistry

/-- A step of `notify_key_modified` that a thread makes. -/
inductive NotifyStep (ι : Type) where
  | fetch (thread : ι) (key : Bytes)
  | insert (thread : ι)

/-- The registry, and for every thread between its two steps the key with the
version it has taken. -/
structure Notifying (ι : Type) where
  registry : WatchRegistry
  taken : ι -> Option (Bytes × UInt64)

namespace Notifying

variable {ι : Type} [DecidableEq ι]

def new : Notifying ι where
  registry := .new
  taken _ := none

/-- A thread begins only when it has stored what it took before. -/
def step (s : Notifying ι) : NotifyStep ι -> Notifying ι
  | .fetch thread key =>
      match s.taken thread with
      | none =>
          let (version, registry) := s.registry.fetchVersion
          { registry, taken := Function.update s.taken thread (some (key, version)) }
      | some _ => s
  | .insert thread =>
      match s.taken thread with
      | some (key, version) =>
          { registry := s.registry.insertVersion key version
            taken := Function.update s.taken thread none }
      | none => s

def run (s : Notifying ι) (steps : List (NotifyStep ι)) : Notifying ι :=
  steps.foldl step s

omit [DecidableEq ι] in
/-- What a step stores. -/
def stored (s : Notifying ι) : NotifyStep ι -> List (Bytes × UInt64)
  | .insert thread => (s.taken thread).toList
  | .fetch _ _ => []

def inserts : Notifying ι -> List (NotifyStep ι) -> List (Bytes × UInt64)
  | _, [] => []
  | s, a :: steps => s.stored a ++ inserts (s.step a) steps

def begins (s : Notifying ι) : NotifyStep ι -> Bool
  | .fetch thread _ => (s.taken thread).isNone
  | .insert _ => false

def notifications : Notifying ι -> List (NotifyStep ι) -> Nat
  | _, [] => 0
  | s, a :: steps => (s.begins a).toNat + notifications (s.step a) steps

/-- The state after some of the steps. -/
def after (steps : List (NotifyStep ι)) (moment : Nat) : Notifying ι :=
  new.run (steps.take moment)

/-- The keys that are stored between two moments. -/
def insertedBetween (steps : List (NotifyStep ι)) (start stop : Nat) : List Bytes :=
  ((after steps start).inserts ((steps.take stop).drop start)).map Prod.fst

/-- The versions that are stored under a key, in order. -/
def versionsOf (steps : List (NotifyStep ι)) (key : Bytes) : List UInt64 :=
  ((new.inserts steps).filter fun e => e.1 == key).map Prod.snd

end Notifying

/-- A watched key with the moments at which its version is recorded and compared. -/
structure WatchedKey where
  key : Bytes
  recorded : Nat
  compared : Nat

namespace WatchedKey

variable {ι : Type} [DecidableEq ι]

/-- The key with the version that is recorded. -/
def entry (steps : List (NotifyStep ι)) (w : WatchedKey) : Bytes × UInt64 :=
  (w.key, (Notifying.after steps w.recorded).registry.getKeyVersion w.key)

end WatchedKey

/-- The world of a reader whose calls take place at given moments of the steps of
others. -/
def momentary (S : FeoxStore) (P : Platform) {ι : Type} [DecidableEq ι]
    (steps : List (NotifyStep ι)) : Service Call Answer where
  State := World S P × List Nat
  reply c σ :=
    let registry := (Notifying.after steps (σ.2.headD steps.length)).registry
    let (answer, world) := World.reply c { σ.1 with watch := registry }
    (answer, world, σ.2.tail)

/-!
# Versions are fresh
-/

namespace Notifying

variable {ι : Type}

def latest (log : List (Bytes × UInt64)) (key : Bytes) : UInt64 :=
  ((log.find? fun e => e.1 == key).map Prod.snd).getD 0

/-- After so many notifications every version that is taken or stored was taken once:
those in flight differ from each other and from what is stored. -/
structure Fresh (count : Nat) (log : List (Bytes × UInt64)) (s : Notifying ι) : Prop where
  counter : s.registry.globalVersion.toNat = (count + 1) % 2 ^ 64
  reads : forall key, s.registry.getKeyVersion key = latest log key
  inFlight : forall thread e, s.taken thread = some e ->
    0 < e.2.toNat ∧ e.2.toNat <= count ∧ forall e', e' ∈ log -> e'.2 ≠ e.2
  apart : forall thread thread' e e', s.taken thread = some e ->
    s.taken thread' = some e' -> e.2 = e'.2 -> thread = thread'
  kept : forall e, e ∈ log -> 0 < e.2.toNat ∧ e.2.toNat <= count
  distinct : (log.map Prod.snd).Nodup

theorem fresh_new : Fresh 0 [] (new : Notifying ι) where
  counter := rfl
  reads _ := rfl
  inFlight _ _ h := nomatch h
  apart _ _ _ _ h := nomatch h
  kept _ h := nomatch h
  distinct := List.nodup_nil

variable [DecidableEq ι] {count : Nat} {log : List (Bytes × UInt64)} {s : Notifying ι}

theorem of_update_taken {taken : ι -> Option (Bytes × UInt64)}
    {thread thread' : ι} {own : Option (Bytes × UInt64)} {e : Bytes × UInt64}
    (h : Function.update taken thread own thread' = some e) :
    thread' = thread ∧ own = some e ∨ thread' ≠ thread ∧ taken thread' = some e := by
  by_cases heq : thread' = thread
  · subst heq
    rw [Function.update_self] at h
    exact .inl ⟨rfl, h⟩
  · rw [Function.update_of_ne heq] at h
    exact .inr ⟨heq, h⟩

theorem step_fetch {thread : ι} (hidle : s.taken thread = none) (key : Bytes) :
    s.step (.fetch thread key) =
      { registry := s.registry.fetchVersion.2
        taken := Function.update s.taken thread
          (some (key, s.registry.globalVersion)) } := by
  simp only [step, hidle]
  rfl

theorem step_insert {thread : ι} {e : Bytes × UInt64} (hbusy : s.taken thread = some e) :
    s.step (.insert thread) =
      { registry := s.registry.insertVersion e.1 e.2
        taken := Function.update s.taken thread none } := by
  simp only [step, hbusy]

theorem run_uninterrupted {thread : ι} (hidle : s.taken thread = none) (key : Bytes) :
    (s.run [.fetch thread key, .insert thread]).registry =
      s.registry.notifyKeyModified key := by
  have htaken : (s.step (.fetch thread key)).taken thread =
      some (key, s.registry.globalVersion) := by
    rw [step_fetch hidle]
    exact Function.update_self ..
  change ((s.step (.fetch thread key)).step (.insert thread)).registry = _
  rw [step_insert htaken, step_fetch hidle]
  rfl

theorem Fresh.fetch (h : Fresh count log s) (hfew : count + 1 < 2 ^ 64) {thread : ι}
    (hidle : s.taken thread = none) (key : Bytes) :
    Fresh (count + 1) log (s.step (.fetch thread key)) := by
  have hcounter : s.registry.globalVersion.toNat = count + 1 :=
    h.counter.trans (Nat.mod_eq_of_lt hfew)
  have hold : forall thread' e, s.taken thread' = some e ->
      s.registry.globalVersion ≠ e.2 := by
    intro thread' e he heq
    have hle := (h.inFlight thread' e he).2.1
    rw [← heq, hcounter] at hle
    exact Nat.not_succ_le_self count hle
  rw [step_fetch hidle]
  constructor
  · change (s.registry.globalVersion + 1).toNat = _
    rw [UInt64.toNat_add, hcounter, UInt64.toNat_one]
  · exact h.reads
  · intro thread' e he
    rcases of_update_taken he with ⟨_, hown⟩ | ⟨_, he⟩
    · cases hown
      refine ⟨by rw [hcounter]; exact Nat.succ_pos count, hcounter.le, ?_⟩
      intro e' he' heq
      have hle := (h.kept e' he').2
      rw [heq, hcounter] at hle
      exact Nat.not_succ_le_self count hle
    · rcases h.inFlight thread' e he with ⟨hpos, hle, hlog⟩
      exact ⟨hpos, hle.trans (Nat.le_succ count), hlog⟩
  · intro thread₁ thread₂ e₁ e₂ h₁ h₂ heq
    rcases of_update_taken h₁ with ⟨hself₁, hown₁⟩ | ⟨_, hother₁⟩ <;>
      rcases of_update_taken h₂ with ⟨hself₂, hown₂⟩ | ⟨_, hother₂⟩
    · exact hself₁.trans hself₂.symm
    · cases hown₁
      exact absurd heq (hold thread₂ e₂ hother₂)
    · cases hown₂
      exact absurd heq.symm (hold thread₁ e₁ hother₁)
    · exact h.apart thread₁ thread₂ e₁ e₂ hother₁ hother₂ heq
  · intro e he
    exact ⟨(h.kept e he).1, (h.kept e he).2.trans (Nat.le_succ count)⟩
  · exact h.distinct

theorem Fresh.insert (h : Fresh count log s) {thread : ι} {e : Bytes × UInt64}
    (hbusy : s.taken thread = some e) :
    Fresh count (e :: log) (s.step (.insert thread)) := by
  rcases h.inFlight thread e hbusy with ⟨hpos, hle, hlog⟩
  have hother : forall thread' e', Function.update s.taken thread none thread' = some e' ->
      thread' ≠ thread ∧ s.taken thread' = some e' := by
    intro thread' e' he
    rcases of_update_taken he with ⟨_, hown⟩ | hother
    · cases hown
    · exact hother
  rw [step_insert hbusy]
  constructor
  · exact h.counter
  · intro key'
    change (s.registry.insertVersion e.1 e.2).getKeyVersion key' = _
    rw [WatchRegistry.getKeyVersion_insert, h.reads, latest, latest, List.find?_cons]
    by_cases heq : e.1 = key'
    · rw [if_pos heq, beq_iff_eq.mpr heq]
      rfl
    · rw [if_neg heq, beq_eq_false_iff_ne.mpr heq]
  · intro thread' e' he
    rcases hother thread' e' he with ⟨hne, htaken⟩
    rcases h.inFlight thread' e' htaken with ⟨hpos', hle', hlog'⟩
    refine ⟨hpos', hle', ?_⟩
    intro e'' he'' heq
    rcases List.mem_cons.mp he'' with rfl | he''
    · exact hne (h.apart thread thread' _ e' hbusy htaken heq).symm
    · exact hlog' e'' he'' heq
  · intro thread₁ thread₂ e₁ e₂ h₁ h₂
    exact h.apart thread₁ thread₂ e₁ e₂ (hother thread₁ e₁ h₁).2 (hother thread₂ e₂ h₂).2
  · intro e' he'
    rcases List.mem_cons.mp he' with rfl | he'
    · exact ⟨hpos, hle⟩
    · exact h.kept e' he'
  · rw [List.map_cons, List.nodup_cons]
    refine ⟨fun hmem => ?_, h.distinct⟩
    rcases List.mem_map.mp hmem with ⟨e', he', heq⟩
    exact hlog e' he' heq

theorem Fresh.step (h : Fresh count log s) (a : NotifyStep ι)
    (hfew : count + (s.begins a).toNat < 2 ^ 64) :
    Fresh (count + (s.begins a).toNat) ((s.stored a).reverse ++ log) (s.step a) := by
  cases a with
  | fetch thread key =>
      cases hthread : s.taken thread with
      | none =>
          have hbegins : s.begins (.fetch thread key) = true := by
            rw [begins, hthread]
            rfl
          rw [hbegins] at hfew ⊢
          exact h.fetch hfew hthread key
      | some e =>
          have hbegins : s.begins (.fetch thread key) = false := by
            rw [begins, hthread]
            rfl
          have hstep : s.step (.fetch thread key) = s := by
            simp only [Notifying.step, hthread]
          rw [hbegins, hstep]
          exact h
  | insert thread =>
      cases hthread : s.taken thread with
      | none =>
          have hstep : s.step (.insert thread) = s := by
            simp only [Notifying.step, hthread]
          rw [hstep, stored, hthread]
          exact h
      | some e =>
          rw [stored, hthread]
          exact h.insert hthread

theorem Fresh.run (h : Fresh count log s) (steps : List (NotifyStep ι))
    (hfew : count + s.notifications steps < 2 ^ 64) :
    Fresh (count + s.notifications steps) ((s.inserts steps).reverse ++ log)
      (s.run steps) := by
  induction steps generalizing s count log with
  | nil => exact h
  | cons a steps ih =>
      rw [notifications, ← Nat.add_assoc] at hfew ⊢
      rw [inserts, List.reverse_append, List.append_assoc]
      exact ih (h.step a (Nat.lt_of_le_of_lt (Nat.le_add_right _ _) hfew)) hfew

/-!
# Moments of a run
-/

theorem inserts_append (s : Notifying ι) (as bs : List (NotifyStep ι)) :
    s.inserts (as ++ bs) = s.inserts as ++ (s.run as).inserts bs := by
  induction as generalizing s with
  | nil => rfl
  | cons a as ih =>
      rw [List.cons_append, inserts, inserts, ih, List.append_assoc]
      rfl

theorem notifications_append (s : Notifying ι) (as bs : List (NotifyStep ι)) :
    s.notifications (as ++ bs) = s.notifications as + (s.run as).notifications bs := by
  induction as generalizing s with
  | nil => exact (Nat.zero_add _).symm
  | cons a as ih =>
      rw [List.cons_append, notifications, notifications, ih, Nat.add_assoc]
      rfl

def logAt (steps : List (NotifyStep ι)) (moment : Nat) : List (Bytes × UInt64) :=
  (new.inserts (steps.take moment)).reverse

theorem logAt_split (steps : List (NotifyStep ι)) {start stop : Nat}
    (h : start <= stop) :
    logAt steps stop =
      ((after steps start).inserts ((steps.take stop).drop start)).reverse ++
        logAt steps start := by
  have hsplit : steps.take stop = steps.take start ++ (steps.take stop).drop start := by
    have htake : steps.take start = (steps.take stop).take start := by
      rw [List.take_take, Nat.min_eq_left h]
    rw [htake, List.take_append_drop]
  unfold logAt
  conv_lhs => rw [hsplit]
  rw [inserts_append, List.reverse_append]
  rfl

theorem fresh_after {steps : List (NotifyStep ι)}
    (hfew : new.notifications steps < 2 ^ 64) (moment : Nat) :
    exists count, Fresh count (logAt steps moment) (after steps moment) := by
  have hsplit := notifications_append new (steps.take moment) (steps.drop moment)
  rw [List.take_append_drop] at hsplit
  have hrun := fresh_new.run (steps.take moment) (by omega)
  rw [List.append_nil] at hrun
  exact ⟨_, hrun⟩

omit [DecidableEq ι] in
theorem Fresh.latest_append_iff {newer older : List (Bytes × UInt64)}
    (h : Fresh count (newer ++ older) s) (key : Bytes) :
    latest (newer ++ older) key = latest older key ↔ key ∉ newer.map Prod.fst := by
  unfold latest
  rw [List.find?_append]
  constructor
  · intro heq hmem
    rcases List.mem_map.mp hmem with ⟨e₀, he₀, hkey⟩
    have hsome : (newer.find? fun e => e.1 == key).isSome := by
      rw [List.find?_isSome]
      exact ⟨e₀, he₀, beq_iff_eq.mpr hkey⟩
    rcases Option.isSome_iff_exists.mp hsome with ⟨e, he⟩
    have hnewer := List.mem_of_find?_eq_some he
    rw [he] at heq
    change e.2 = _ at heq
    cases hfind : older.find? fun e => e.1 == key with
    | none =>
        have hpos := (h.kept e (List.mem_append_left _ hnewer)).1
        rw [heq, hfind] at hpos
        exact absurd hpos (Nat.lt_irrefl 0)
    | some e' =>
        rw [hfind] at heq
        have hdistinct := h.distinct
        rw [List.map_append, List.nodup_append] at hdistinct
        exact hdistinct.2.2 e.2 (List.mem_map_of_mem hnewer) e'.2
          (List.mem_map_of_mem (List.mem_of_find?_eq_some hfind)) heq
  · intro hnone
    have hfind : newer.find? (fun e => e.1 == key) = none := by
      rw [List.find?_eq_none]
      intro e he heq
      exact hnone (List.mem_map.mpr ⟨e, he, beq_iff_eq.mp heq⟩)
    rw [hfind]
    rfl

theorem getKeyVersion_after_iff {steps : List (NotifyStep ι)}
    (hfew : new.notifications steps < 2 ^ 64) {start stop : Nat} (h : start <= stop)
    (key : Bytes) :
    (after steps stop).registry.getKeyVersion key =
        (after steps start).registry.getKeyVersion key ↔
      key ∉ insertedBetween steps start stop := by
  rcases fresh_after hfew start with ⟨_, hstart⟩
  rcases fresh_after hfew stop with ⟨_, hstop⟩
  rw [hstop.reads, hstart.reads]
  rw [logAt_split steps h] at hstop ⊢
  rw [hstop.latest_append_iff]
  unfold insertedBetween
  rw [List.map_reverse, List.mem_reverse]

theorem getKeyVersion_after_ne_zero {steps : List (NotifyStep ι)}
    (hfew : new.notifications steps < 2 ^ 64) {moment : Nat} {key : Bytes}
    (h : key ∈ insertedBetween steps 0 moment) :
    (after steps moment).registry.getKeyVersion key ≠ 0 := by
  have hiff := getKeyVersion_after_iff hfew (Nat.zero_le moment) key
  exact fun hzero => hiff.mp hzero h

theorem nodup_versionsOf {steps : List (NotifyStep ι)}
    (hfew : new.notifications steps < 2 ^ 64) (key : Bytes) :
    (versionsOf steps key).Nodup ∧ 0 ∉ versionsOf steps key := by
  rcases fresh_after hfew steps.length with ⟨_, h⟩
  have hlog : logAt steps steps.length = (new.inserts steps).reverse := by
    rw [logAt, List.take_length]
  rw [hlog] at h
  constructor
  · have hdistinct := h.distinct
    rw [List.map_reverse, List.nodup_reverse] at hdistinct
    exact hdistinct.sublist (List.filter_sublist.map Prod.snd)
  · intro hzero
    rcases List.mem_map.mp hzero with ⟨e, he, heq⟩
    have hpos := (h.kept e (List.mem_reverse.mpr (List.mem_filter.mp he).1)).1
    rw [heq] at hpos
    exact Nat.lt_irrefl 0 hpos

end Notifying

/-!
# What a check sees
-/

section Checks

variable {S : FeoxStore} {P : Platform} {ι : Type} [DecidableEq ι]

/-- The check goes through exactly if no watched key was stored between the moments at
which its version was recorded and compared. -/
theorem run_checkKeysUnchanged_momentary {steps : List (NotifyStep ι)}
    (hfew : Notifying.new.notifications steps < 2 ^ 64) (watched : List WatchedKey)
    (hordered : forall w, w ∈ watched -> w.recorded <= w.compared) (w₀ : World S P)
    (later : List Nat) :
    exists unchanged σ,
      (Connection.checkKeysUnchanged (watched.map (WatchedKey.entry steps))).run
        (momentary S P steps) (w₀, watched.map WatchedKey.compared ++ later) =
          some (unchanged, σ) ∧
      (unchanged = true ↔ forall w, w ∈ watched ->
        w.key ∉ Notifying.insertedBetween steps w.recorded w.compared) := by
  induction watched generalizing w₀ with
  | nil => exact ⟨true, _, rfl, by simp⟩
  | cons w watched ih =>
      have hsame := Notifying.getKeyVersion_after_iff hfew
        (hordered w List.mem_cons_self) w.key
      let registry := (Notifying.after steps w.compared).registry
      rcases ih (fun w' hw' => hordered w' (List.mem_cons_of_mem _ hw'))
        { w₀ with watch := registry } with ⟨unchanged, σ, hrun, hiff⟩
      have hstep : (Connection.checkKeysUnchanged
          ((w :: watched).map (WatchedKey.entry steps))).run (momentary S P steps)
            (w₀, (w :: watched).map WatchedKey.compared ++ later) =
          Prog.run (momentary S P steps)
            (if registry.getKeyVersion w.key ≠ (w.entry steps).2 then pure false
            else Connection.checkKeysUnchanged (watched.map (WatchedKey.entry steps)))
            ({ w₀ with watch := registry }, watched.map WatchedKey.compared ++ later) :=
        rfl
      rw [hstep]
      by_cases hmem : w.key ∈ Notifying.insertedBetween steps w.recorded w.compared
      · have hne : registry.getKeyVersion w.key ≠ (w.entry steps).2 :=
          fun heq => hsame.mp heq hmem
        rw [if_pos hne]
        refine ⟨false, _, rfl, ?_⟩
        simp [hmem]
      · have heq : registry.getKeyVersion w.key = (w.entry steps).2 := hsame.mpr hmem
        rw [if_neg (not_not.mpr heq)]
        refine ⟨unchanged, σ, hrun, hiff.trans ?_⟩
        simp [hmem]

/-- The versions of a key never repeat and are never zero, so a check goes through
exactly if no watched key was stored since its version was recorded. -/
theorem versions_never_repeat {steps : List (NotifyStep ι)}
    (hfew : Notifying.new.notifications steps < 2 ^ 64) :
    (forall key, (Notifying.versionsOf steps key).Nodup ∧
      0 ∉ Notifying.versionsOf steps key) ∧
    (forall key moment, key ∈ Notifying.insertedBetween steps 0 moment ->
      (Notifying.after steps moment).registry.getKeyVersion key ≠ 0) ∧
    forall (S : FeoxStore) (P : Platform) (w₀ : World S P) (watched : List WatchedKey)
      (later : List Nat), (forall w, w ∈ watched -> w.recorded <= w.compared) ->
        exists unchanged σ,
          (Connection.checkKeysUnchanged (watched.map (WatchedKey.entry steps))).run
            (momentary S P steps) (w₀, watched.map WatchedKey.compared ++ later) =
              some (unchanged, σ) ∧
          (unchanged = true ↔ forall w, w ∈ watched ->
            w.key ∉ Notifying.insertedBetween steps w.recorded w.compared) :=
  ⟨Notifying.nodup_versionsOf hfew,
    fun _ _ h => Notifying.getKeyVersion_after_ne_zero hfew h,
    fun _ _ w₀ watched later h =>
      run_checkKeysUnchanged_momentary hfew watched h w₀ later⟩

def overtaken : List (NotifyStep Nat) :=
  [.fetch 0 (asBytes "k"), .fetch 1 (asBytes "k"), .insert 1, .insert 0]

theorem versions_never_repeat_overtaken :
    Notifying.versionsOf overtaken (asBytes "k") = [2, 1] ∧
      (Notifying.versionsOf overtaken (asBytes "k")).Nodup :=
  ⟨by decide +kernel,
    ((versions_never_repeat (by decide : Notifying.new.notifications overtaken < 2 ^ 64)).1
      (asBytes "k")).1⟩

end Checks

end FeoxServer
