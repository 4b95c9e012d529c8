import FeoxServer.Foundation.Rounds
import FeoxServer.Protocol.ListOperations
import FeoxServer.Store.FaultyStore
import FeoxServer.Store.MapStore

/-!
# The rounds of a push

A push tries again when its metadata has been changed, and gives up after a
number of refusals.  A round in which the metadata can be neither read nor
created is not counted.
-/

namespace FeoxServer

open Foundation Prog

namespace ListOperations

variable {S : FeoxStore} {pushMeta : ListMeta -> ListMeta × Int64} {key : Bytes}

def pushRound (pushMeta : ListMeta -> ListMeta × Int64) (key value : Bytes) :
    StoreProg (Round (Except Error Unit)) := do
  match <- readOrCreate key with
  | none => pure .skipped
  | some (metaBytes, isNew) =>
      let (newMeta, pos) := pushMeta (parseMetadata metaBytes)
      match <- writeMetadata key metaBytes (buildMetadata newMeta) isNew with
      | .error e => pure (.ended (.error e))
      | .ok true =>
          match <- Store.insert (valueKey key pos) value with
          | .ok _ => pure (.ended (.ok ()))
          | .error e => pure (.ended (.error (.database e)))
      | .ok false => pure .refused

def contention : Except Error Unit :=
  .error (.system "Operation failed due to contention")

theorem pushOne_eq_retry (value : Bytes) (fuel retries : Nat) :
    pushOne pushMeta key value fuel retries =
      retry (pushRound pushMeta key value) maxRetries contention fuel retries := by
  induction fuel generalizing retries with
  | zero => rfl
  | succ fuel ih =>
      rw [pushOne, retry, pushRound, Prog.bind_assoc]
      congr 1
      funext found
      cases found with
      | none => exact ih retries
      | some found =>
          rcases found with ⟨metaBytes, isNew⟩
          dsimp only
          rw [Prog.bind_assoc]
          congr 1
          funext written
          cases written with
          | error e => rfl
          | ok swapped =>
              cases swapped with
              | false =>
                  dsimp only [pure_eq, done_bind]
                  rw [ih]
                  rfl
              | true =>
                  dsimp only
                  rw [Prog.bind_assoc]
                  congr 1
                  funext inserted
                  cases inserted <;> rfl

theorem ending_pushRound (value : Bytes) :
    Ending (pushRound pushMeta key value) := by
  have hread : Ending (readOrCreate key) := by
    apply ending_bind (ending_call _)
    intro r
    cases r with
    | ok bytes => exact .done _
    | error e =>
        apply ending_bind (ending_call _)
        intro r
        cases r <;> exact .done _
  have hwrite : forall metaBytes newMeta isNew,
      Ending (writeMetadata key metaBytes newMeta isNew) := by
    intro metaBytes newMeta isNew
    cases isNew with
    | true =>
        apply ending_bind (ending_call _)
        intro r
        cases r <;> exact .done _
    | false =>
        apply ending_bind (ending_call _)
        intro r
        cases r <;> exact .done _
  apply ending_bind hread
  intro found
  cases found with
  | none => exact .done _
  | some found =>
      rcases found with ⟨metaBytes, isNew⟩
      apply ending_bind (hwrite _ _ _)
      intro written
      cases written with
      | error e => exact .done _
      | ok swapped =>
          cases swapped with
          | false => exact .done _
          | true =>
              apply ending_bind (ending_call _)
              intro inserted
              cases inserted <;> exact .done _

def Skips (S : FeoxStore) (key : Bytes) (s s' : S.State) : Prop :=
  exists e e' s1, S.reply (.getBytes (metaKey key)) s = (.error e, s1) ∧
    S.reply (.insert (metaKey key) initialMetadata) s1 = (.error e', s')

/-- The store returns the metadata and does not swap it, or takes the initial
one and then not the new one. -/
def Refuses (S : FeoxStore) (pushMeta : ListMeta -> ListMeta × Int64) (key : Bytes)
    (s s' : S.State) : Prop :=
  (exists bytes s1, S.reply (.getBytes (metaKey key)) s = (.ok bytes, s1) ∧
    S.reply (.compareAndSwap (metaKey key) bytes
      (buildMetadata (pushMeta (parseMetadata bytes)).1)) s1 = (.ok false, s')) ∨
  exists e s1 s2 e', S.reply (.getBytes (metaKey key)) s = (.error e, s1) ∧
    S.reply (.insert (metaKey key) initialMetadata) s1 = (.ok (), s2) ∧
    S.reply (.insert (metaKey key)
      (buildMetadata (pushMeta (parseMetadata initialMetadata)).1)) s2 = (.error e', s')

theorem pushRound_run_iff (value : Bytes) (s s' : S.State) :
    ((pushRound pushMeta key value).run S s = some (.skipped, s') <->
        Skips S key s s') ∧
      ((pushRound pushMeta key value).run S s = some (.refused, s') <->
        Refuses S pushMeta key s s') := by
  rcases hget : S.reply (.getBytes (metaKey key)) s with ⟨got, s1⟩
  cases got with
  | ok bytes =>
      rcases hswap : S.reply (.compareAndSwap (metaKey key) bytes
        (buildMetadata (pushMeta (parseMetadata bytes)).1)) s1 with ⟨swap, s2⟩
      rcases hinsert : S.reply (.insert (valueKey key
        (pushMeta (parseMetadata bytes)).2) value) s2 with ⟨stored, s3⟩
      cases swap with
      | error e => simp [pushRound, readOrCreate, writeMetadata, hget, hswap, Skips,
            Refuses]
      | ok swapped =>
          cases swapped <;> cases stored <;>
            simp [pushRound, readOrCreate, writeMetadata, hget, hswap, hinsert, Skips,
              Refuses]
  | error e =>
      rcases hinit : S.reply (.insert (metaKey key) initialMetadata) s1 with ⟨init, s2⟩
      cases init with
      | error e' => simp [pushRound, readOrCreate, writeMetadata, hget, hinit, Skips,
            Refuses]
      | ok u =>
          rcases hinsert : S.reply (.insert (metaKey key)
            (buildMetadata (pushMeta (parseMetadata initialMetadata)).1)) s2 with
            ⟨written, s3⟩
          rcases hvalue : S.reply (.insert (valueKey key
            (pushMeta (parseMetadata initialMetadata)).2) value) s3 with ⟨stored, s4⟩
          cases written <;> cases stored <;>
            simp [pushRound, readOrCreate, writeMetadata, hget, hinit, hinsert, hvalue,
              Skips, Refuses]

theorem goesRound_pushRound (value : Bytes) :
    GoesRound S (pushRound pushMeta key value) (Skips S key)
      (Refuses S pushMeta key) where
  ending := ending_pushRound value
  skipped s s' := (pushRound_run_iff value s s').1
  refused s s' := (pushRound_run_iff value s s').2

/-- As many rounds as there may be refusals go round by the answers of the store,
and in one of them the metadata can be neither read nor created. -/
def RoundsLost (S : FeoxStore) (pushMeta : ListMeta -> ListMeta × Int64)
    (key : Bytes) (s : S.State) : Prop :=
  exists skips refusals, skips + refusals = maxRetries ∧ 0 < skips ∧
    Circles (Skips S key) (Refuses S pushMeta key) skips refusals s

/-- So it is for one of the values, when those before it have been pushed. -/
def SomeRoundsLost (S : FeoxStore) (pushMeta : ListMeta -> ListMeta × Int64)
    (key : Bytes) : List Bytes -> S.State -> Prop
  | [], _ => False
  | value :: values, s =>
      RoundsLost S pushMeta key s ∨
        exists s', (pushOne pushMeta key value maxRetries 0).run S s =
            some (.ok (), s') ∧
          SomeRoundsLost S pushMeta key values s'

theorem pushOne_none_iff (value : Bytes) (s : S.State) :
    (pushOne pushMeta key value maxRetries 0).run S s = none <->
      RoundsLost S pushMeta key s := by
  rw [pushOne_eq_retry]
  exact retry_limit_iff (goesRound_pushRound value) (by decide)

theorem pushAll_none_iff (values : List Bytes) (s : S.State) :
    (pushAll pushMeta maxRetries key values).run S s = none <->
      SomeRoundsLost S pushMeta key values s := by
  induction values generalizing s with
  | nil => exact iff_of_false (fun h => by cases h) id
  | cons value values ih =>
      rw [SomeRoundsLost, ← pushOne_none_iff, pushAll]
      cases hrun : (pushOne pushMeta key value maxRetries 0).run S s with
      | none => exact iff_of_true (run_bind_of_none S _ hrun) (Or.inl rfl)
      | some result =>
          rcases result with ⟨r, s'⟩
          rw [run_bind_of_some S _ hrun]
          cases r with
          | error e =>
              apply iff_of_false (fun h => by cases h)
              intro h
              rcases h with h | ⟨s'', h, _⟩ <;> cases h
          | ok u =>
              refine (ih s').trans ?_
              constructor
              · intro h
                exact Or.inr ⟨s', rfl, h⟩
              · intro h
                rcases h with h | ⟨s'', h, hlater⟩
                · cases h
                · injection h with h
                  injection h with _ hs
                  subst hs
                  exact hlater

/-- A push returns when its loop may take as many rounds for each value as there
may be refusals. -/
def PushReturns (S : FeoxStore) (pushMeta : ListMeta -> ListMeta × Int64)
    (key : Bytes) (values : List Bytes) (s : S.State) : Prop :=
  exists r, (push pushMeta maxRetries key values).run S s = some r

theorem push_returns_iff (values : List Bytes) (s : S.State) :
    PushReturns S pushMeta key values s <->
      ¬ SomeRoundsLost S pushMeta key values s := by
  rw [← pushAll_none_iff]
  unfold PushReturns push
  cases hrun : (pushAll pushMeta maxRetries key values).run S s with
  | none =>
      rw [run_bind_of_none S _ hrun]
      exact iff_of_false (fun h => by cases h with | intro _ h => cases h)
        (fun h => h rfl)
  | some result =>
      rcases result with ⟨r, s'⟩
      rw [run_bind_of_some S _ hrun]
      apply iff_of_true
      · cases r with
        | error e => exact ⟨_, rfl⟩
        | ok u =>
            dsimp only
            rw [run_call_bind]
            split
            · exact ⟨_, rfl⟩
            · exact ⟨_, rfl⟩
      · intro h
        cases h

/-- `LPUSH` and `RPUSH` return in time if and only if for no value rounds are lost
to metadata that can be neither read nor created. -/
theorem pushes_return_iff (S : FeoxStore) (key : Bytes) (values : List Bytes)
    (s : S.State) :
    ((exists r, (lpush maxRetries key values).run S s = some r) <->
        ¬ SomeRoundsLost S lpushMeta key values s) ∧
      ((exists r, (rpush maxRetries key values).run S s = some r) <->
        ¬ SomeRoundsLost S rpushMeta key values s) :=
  ⟨push_returns_iff values s, push_returns_iff values s⟩

/-- A store in which every call fails that can. -/
def failingStore : FeoxStore where
  State := Unit
  reply c s :=
    ((c.refusal { keyNotFound := false, text := "Out of memory" }).getD
      (MapStore.reply c ∅).1, s)

/-- However many rounds it may take, a push does not return where no call
succeeds. -/
theorem push_never_returns :
    (¬ exists fuel r, (lpush fuel [107] [[118]]).run failingStore () = some r) ∧
      ¬ exists fuel r, (rpush fuel [107] [[118]]).run failingStore () = some r := by
  have hnever : forall (pushMeta : ListMeta -> ListMeta × Int64) (fuel : Nat),
      (push pushMeta fuel [107] [[118]]).run failingStore () = none := by
    intro pushMeta fuel
    have hskip : forall s : failingStore.State,
        exists s', (pushRound pushMeta [107] [118]).run failingStore s =
          some (.skipped, s') :=
      fun s => ⟨s, rfl⟩
    have hpush : (pushOne pushMeta [107] [118] fuel 0).run failingStore () = none := by
      rw [pushOne_eq_retry]
      exact retry_never hskip fuel 0 ()
    have hall : (pushAll pushMeta fuel [107] [[118]]).run failingStore () = none := by
      rw [pushAll]
      exact run_bind_of_none failingStore _ hpush
    rw [push]
    exact run_bind_of_none failingStore _ hall
  constructor
  · intro h
    rcases h with ⟨fuel, r, hrun⟩
    have hnone := hnever lpushMeta fuel
    rw [lpush, hnone] at hrun
    cases hrun
  · intro h
    rcases h with ⟨fuel, r, hrun⟩
    have hnone := hnever rpushMeta fuel
    rw [rpush, hnone] at hrun
    cases hrun

end ListOperations

end FeoxServer
