import FeoxServer.Foundation.Checked
import FeoxServer.Protocol.PopReplies

/-!
# Pops on any store

A pop ends on whatever stands in the store, since each round narrows the span between
head and tail.  Its arithmetic is checked here; it never panics, because a span that is
not empty leaves room for one step.
-/

namespace FeoxServer

open Foundation Prog Checked

namespace ListOperations

/-!
# Pops with their panics
-/

def addI64 (a b : Int64) : Checked Int64 :=
  if -2 ^ 63 <= a.toInt + b.toInt ∧ a.toInt + b.toInt < 2 ^ 63 then .ok (a + b)
  else .error .overflow

def subI64 (a b : Int64) : Checked Int64 :=
  if -2 ^ 63 <= a.toInt - b.toInt ∧ a.toInt - b.toInt < 2 ^ 63 then .ok (a - b)
  else .error .overflow

def subU64 (a b : UInt64) : Checked UInt64 :=
  if b <= a then .ok (a - b) else .error .overflow

def parseMetadataChecked (data : Bytes) : Checked ListMeta :=
  if data.length < 24 then
    pure { head := initialPosition, tail := initialPosition, count := 0 }
  else do
    let head <- Checked.slice data 0 8
    let tail <- Checked.slice data 8 16
    let count <- Checked.slice data 16 24
    pure { head := i64FromLeBytes head
           tail := i64FromLeBytes tail
           count := u64FromLeBytes count }

def lpopMetaChecked (m : ListMeta) : Checked (ListMeta × Int64) := do
  let newHead <- addI64 m.head 1
  let newCount <- subU64 m.count 1
  pure ({ head := newHead, tail := m.tail, count := newCount }, m.head)

def rpopMetaChecked (m : ListMeta) : Checked (ListMeta × Int64) := do
  let newTail <- subI64 m.tail 1
  let newCount <- subU64 m.count 1
  pure ({ head := m.head, tail := newTail, count := newCount }, newTail)

def orPanic {α β : Type} (x : Checked α) (f : α -> StoreProg (Checked β)) :
    StoreProg (Checked β) :=
  match x with
  | .ok a => f a
  | .error why => pure (.error why)

def popOneChecked (popMeta : ListMeta -> Checked (ListMeta × Int64)) (key : Bytes) :
    Nat -> Nat -> StoreProg (Checked (Except Error (Option Bytes)))
  | 0, _ => .exhausted
  | fuel + 1, retries => do
      match <- Store.getBytes (metaKey key) with
      | .error _ => pure (.ok (.ok none))
      | .ok metaBytes =>
          orPanic (parseMetadataChecked metaBytes) fun m =>
            if m.count = 0 ∨ m.tail <= m.head then pure (.ok (.ok none))
            else
              orPanic (popMeta m) fun (newMeta, pos) => do
                match <- Store.compareAndSwap (metaKey key) metaBytes
                    (buildMetadata newMeta) with
                | .error e => pure (.ok (.error (.database e)))
                | .ok true =>
                    match <- Store.getBytes (valueKey key pos) with
                    | .ok value =>
                        match <- Store.delete (valueKey key pos) with
                        | .ok _ => pure (.ok (.ok (some value)))
                        | .error e => pure (.ok (.error (.database e)))
                    | .error _ => popOneChecked popMeta key fuel retries
                | .ok false =>
                    orPanic (Checked.add retries 1) fun retries =>
                      if retries >= maxRetries then pure (.ok (.ok none))
                      else popOneChecked popMeta key fuel retries

def popLoopChecked (popMeta : ListMeta -> Checked (ListMeta × Int64)) (fuel : Nat)
    (key : Bytes) : Nat -> List Bytes -> StoreProg (Checked (Except Error (List Bytes)))
  | 0, popped => pure (.ok (.ok popped))
  | n + 1, popped => do
      match <- popOneChecked popMeta key fuel 0 with
      | .error why => pure (.error why)
      | .ok (.error e) => pure (.ok (.error e))
      | .ok (.ok none) => pure (.ok (.ok popped))
      | .ok (.ok (some value)) =>
          popLoopChecked popMeta fuel key n (popped ++ [value])

def popChecked (popMeta : ListMeta -> Checked (ListMeta × Int64)) (fuel : Nat)
    (key : Bytes) (count : Option UInt64) :
    StoreProg (Checked (Except Error (List Bytes))) :=
  popLoopChecked popMeta fuel key (count.getD 1).toNat []

def lpopChecked : Nat -> Bytes -> Option UInt64 ->
    StoreProg (Checked (Except Error (List Bytes))) :=
  popChecked lpopMetaChecked

def rpopChecked : Nat -> Bytes -> Option UInt64 ->
    StoreProg (Checked (Except Error (List Bytes))) :=
  popChecked rpopMetaChecked

/-!
# No panic
-/

theorem parseMetadataChecked_eq (data : Bytes) :
    parseMetadataChecked data = .ok (parseMetadata data) := by
  unfold parseMetadataChecked parseMetadata
  by_cases hshort : data.length < 24
  · rw [if_pos hshort, if_pos hshort]
    rfl
  · rw [if_neg hshort, if_neg hshort, slice_ok (by omega) (by omega), ok_bind,
      slice_ok (by omega) (by omega), ok_bind, slice_ok (by omega) (by omega), ok_bind,
      List.drop_take, List.drop_take, List.drop_take]
    rfl

def ListMeta.Open (m : ListMeta) : Prop :=
  ¬ (m.count = 0 ∨ m.tail <= m.head)

theorem ListMeta.Open.lt {m : ListMeta} (h : m.Open) : m.head.toInt < m.tail.toInt := by
  rw [ListMeta.Open, not_or, Int64.le_iff_toInt_le] at h
  omega

theorem ListMeta.Open.one_le {m : ListMeta} (h : m.Open) : 1 <= m.count := by
  rw [UInt64.le_iff_toNat_le]
  have hne : m.count.toNat ≠ 0 := fun hzero =>
    h (.inl (UInt64.toNat_inj.mp hzero))
  exact Nat.one_le_iff_ne_zero.mpr hne

theorem ListMeta.Open.inRange {m : ListMeta} (h : m.Open) :
    InRange (m.head.toInt + (1 : Int64).toInt) ∧
      InRange (m.tail.toInt - (1 : Int64).toInt) := by
  have hlt := h.lt
  have hhead := m.head.le_toInt
  have htail := m.tail.toInt_lt
  have hone : (1 : Int64).toInt = 1 := rfl
  unfold InRange
  omega

theorem addI64_ok {a b : Int64} (h : InRange (a.toInt + b.toInt)) :
    addI64 a b = .ok (a + b) :=
  if_pos h

theorem subI64_ok {a b : Int64} (h : InRange (a.toInt - b.toInt)) :
    subI64 a b = .ok (a - b) :=
  if_pos h

theorem subU64_ok {a b : UInt64} (h : b <= a) : subU64 a b = .ok (a - b) :=
  if_pos h

theorem lpopMetaChecked_eq {m : ListMeta} (h : m.Open) :
    lpopMetaChecked m = .ok (lpopMeta m) := by
  unfold lpopMetaChecked
  rw [addI64_ok h.inRange.1, ok_bind, subU64_ok h.one_le, ok_bind]
  rfl

theorem rpopMetaChecked_eq {m : ListMeta} (h : m.Open) :
    rpopMetaChecked m = .ok (rpopMeta m) := by
  unfold rpopMetaChecked
  rw [subI64_ok h.inRange.2, ok_bind, subU64_ok h.one_le, ok_bind]
  rfl

section NoPanic

variable {checked : ListMeta -> Checked (ListMeta × Int64)}
  {popMeta : ListMeta -> ListMeta × Int64}

theorem popOneChecked_eq (hmeta : forall {m : ListMeta}, m.Open -> checked m = .ok (popMeta m))
    (key : Bytes) (fuel : Nat) {retries : Nat} (hretries : retries < maxRetries) :
    popOneChecked checked key fuel retries =
      (popOne popMeta key fuel retries >>= fun r => pure (.ok r)) := by
  induction fuel generalizing retries with
  | zero => rfl
  | succ fuel ih =>
      have hretry : Checked.add retries 1 = .ok (retries + 1) :=
        add_ok (by unfold maxRetries at hretries; omega)
      refine congrArg (Prog.ask _) (funext fun r => ?_)
      cases r with
      | error e => rfl
      | ok metaBytes =>
          simp only [parseMetadataChecked_eq, orPanic, Prog.bind]
          by_cases hopen : (parseMetadata metaBytes).Open
          · rw [if_neg hopen, if_neg hopen, hmeta hopen]
            refine congrArg (Prog.ask _) (funext fun r => ?_)
            rcases r with e | (_ | _)
            case error => rfl
            case ok.true =>
                refine congrArg (Prog.ask _) (funext fun r => ?_)
                cases r with
                | error e => exact ih hretries
                | ok value =>
                    exact congrArg (Prog.ask _) (funext fun r => by cases r <;> rfl)
            case ok.false =>
                simp only [hretry, Prog.bind]
                by_cases hlast : retries + 1 >= maxRetries
                · rw [if_pos hlast, if_pos hlast]
                  rfl
                · rw [if_neg hlast, if_neg hlast]
                  exact ih (Nat.not_le.mp hlast)
          · rw [if_pos (not_not.mp hopen), if_pos (not_not.mp hopen)]
            rfl

theorem popLoopChecked_eq
    (hmeta : forall {m : ListMeta}, m.Open -> checked m = .ok (popMeta m))
    (fuel : Nat) (key : Bytes) (n : Nat) (popped : List Bytes) :
    popLoopChecked checked fuel key n popped =
      (popLoop popMeta fuel key n popped >>= fun r => pure (.ok r)) := by
  induction n generalizing popped with
  | zero => rfl
  | succ n ih =>
      rw [popLoopChecked, popLoop, popOneChecked_eq hmeta key fuel (by decide),
        Prog.bind_assoc, Prog.bind_assoc]
      congr 1
      funext r
      rcases r with e | (_ | value)
      · rfl
      · rfl
      · exact ih (popped ++ [value])

end NoPanic

/-!
# Spans of positions
-/

def ListMeta.Covers (m : ListMeta) (pos : Int64) : Prop :=
  m.head <= pos ∧ pos < m.tail

def ListMeta.span (m : ListMeta) : Nat :=
  (m.tail.toInt - m.head.toInt).toNat

def metaOf (v : Bytes -> Option Bytes) (key : Bytes) : Option ListMeta :=
  (v (metaKey key)).map parseMetadata

def Covered (v : Bytes -> Option Bytes) (key : Bytes) (pos : Int64) : Prop :=
  exists m, metaOf v key = some m ∧ m.Covers pos

def spanOf (v : Bytes -> Option Bytes) (key : Bytes) : Nat :=
  ((metaOf v key).map ListMeta.span).getD 0

/-- A pop takes a position of the span and leaves the others. -/
structure Narrows (popMeta : ListMeta -> ListMeta × Int64) : Prop where
  taken : forall {m : ListMeta}, m.Open -> m.Covers (popMeta m).2
  covers : forall {m : ListMeta} {pos : Int64}, m.Open -> (popMeta m).1.Covers pos ->
    m.Covers pos ∧ pos ≠ (popMeta m).2
  span : forall {m : ListMeta}, m.Open -> (popMeta m).1.span < m.span

theorem narrows_lpopMeta : Narrows lpopMeta where
  taken {m} h := ⟨Int64.le_refl _, Int64.lt_iff_toInt_lt.mpr h.lt⟩
  covers {m pos} h hcovers := by
    have hnext : (m.head + 1).toInt = m.head.toInt + 1 := toInt_add_of_inRange h.inRange.1
    rcases hcovers with ⟨hhead, htail⟩
    change m.head + 1 <= pos at hhead
    rw [Int64.le_iff_toInt_le, hnext] at hhead
    refine ⟨⟨Int64.le_iff_toInt_le.mpr (by omega), htail⟩, fun heq => ?_⟩
    have hpos : pos.toInt = m.head.toInt := congrArg Int64.toInt heq
    omega
  span {m} h := by
    have hnext : (m.head + 1).toInt = m.head.toInt + 1 := toInt_add_of_inRange h.inRange.1
    have hlt := h.lt
    change (m.tail.toInt - (m.head + 1).toInt).toNat < (m.tail.toInt - m.head.toInt).toNat
    omega

theorem narrows_rpopMeta : Narrows rpopMeta where
  taken {m} h := by
    have hnext : (m.tail - 1).toInt = m.tail.toInt - 1 := toInt_sub_of_inRange h.inRange.2
    have hlt := h.lt
    refine ⟨?_, ?_⟩
    · change m.head <= m.tail - 1
      rw [Int64.le_iff_toInt_le]
      omega
    · change m.tail - 1 < m.tail
      rw [Int64.lt_iff_toInt_lt]
      omega
  covers {m pos} h hcovers := by
    have hnext : (m.tail - 1).toInt = m.tail.toInt - 1 := toInt_sub_of_inRange h.inRange.2
    rcases hcovers with ⟨hhead, htail⟩
    change pos < m.tail - 1 at htail
    rw [Int64.lt_iff_toInt_lt, hnext] at htail
    refine ⟨⟨hhead, Int64.lt_iff_toInt_lt.mpr (by omega)⟩, fun heq => ?_⟩
    have hpos : pos.toInt = (m.tail - 1).toInt := congrArg Int64.toInt heq
    omega
  span {m} h := by
    have hnext : (m.tail - 1).toInt = m.tail.toInt - 1 := toInt_sub_of_inRange h.inRange.2
    have hlt := h.lt
    change ((m.tail - 1).toInt - m.head.toInt).toNat < (m.tail.toInt - m.head.toInt).toNat
    omega

/-!
# Pops end
-/

/-- Values that stood at different positions of the span are taken and deleted, and
nothing else but the metadata is changed. -/
def TakenFrom (key : Bytes) (v v' : Bytes -> Option Bytes) (values : List Bytes) : Prop :=
  exists positions : List Int64, positions.Nodup ∧
    (forall pos, pos ∈ positions -> Covered v key pos) ∧
    positions.map (fun pos => v (valueKey key pos)) = values.map some ∧
    forall k, k ≠ metaKey key ->
      v' k = if k ∈ positions.map (valueKey key) then none else v k

def OneTakenFrom (key : Bytes) (v v' : Bytes -> Option Bytes) : Option Bytes -> Prop
  | none => forall k, k ≠ metaKey key -> v' k = v k
  | some value => exists pos, Covered v key pos ∧ ¬ Covered v' key pos ∧
      v (valueKey key pos) = some value ∧
      forall k, k ≠ metaKey key -> v' k = if k = valueKey key pos then none else v k

/-- The span has become no larger. -/
structure Narrower (key : Bytes) (v v' : Bytes -> Option Bytes) : Prop where
  span : spanOf v' key <= spanOf v key
  covered : forall {pos : Int64}, Covered v' key pos -> Covered v key pos

theorem Narrower.trans {key : Bytes} {v v' v'' : Bytes -> Option Bytes}
    (h : Narrower key v v') (h' : Narrower key v' v'') : Narrower key v v'' where
  span := h'.span.trans h.span
  covered hpos := h.covered (h'.covered hpos)

theorem OneTakenFrom.after {key : Bytes} {v v' v'' : Bytes -> Option Bytes}
    (hnarrower : Narrower key v v') (hkept : forall k, k ≠ metaKey key -> v' k = v k)
    {r : Option Bytes} (h : OneTakenFrom key v' v'' r) : OneTakenFrom key v v'' r := by
  cases r with
  | none => exact fun k hk => (h k hk).trans (hkept k hk)
  | some value =>
      rcases h with ⟨pos, hcovered, hnot, hvalue, hrest⟩
      refine ⟨pos, hnarrower.covered hcovered, hnot, ?_, fun k hk => ?_⟩
      · rw [← hkept _ (valueKey_ne_metaKey key pos)]
        exact hvalue
      · rw [hrest k hk, hkept k hk]

theorem metaOf_swapped (v : Bytes -> Option Bytes) (key : Bytes) (m : ListMeta) :
    metaOf (Function.update v (metaKey key) (some (buildMetadata m))) key = some m := by
  rw [metaOf, Function.update_self, Option.map_some, parseMetadata_buildMetadata]

theorem metaOf_congr {v v' : Bytes -> Option Bytes} {key : Bytes}
    (h : v' (metaKey key) = v (metaKey key)) : metaOf v' key = metaOf v key :=
  congrArg (Option.map parseMetadata) h

theorem narrower_of_metaOf {key : Bytes} {v v' : Bytes -> Option Bytes}
    (h : metaOf v' key = metaOf v key) : Narrower key v v' where
  span := by rw [spanOf, spanOf, h]
  covered hpos := by
    rcases hpos with ⟨m, hm, hcovers⟩
    exact ⟨m, h.symm.trans hm, hcovers⟩

theorem Narrows.swapped {popMeta : ListMeta -> ListMeta × Int64} (h : Narrows popMeta)
    {key : Bytes} {v v' : Bytes -> Option Bytes} {m : ListMeta} (hopen : m.Open)
    (hm : metaOf v key = some m) (hm' : metaOf v' key = some (popMeta m).1) :
    Narrower key v v' ∧ spanOf v' key < spanOf v key ∧
      Covered v key (popMeta m).2 ∧ ¬ Covered v' key (popMeta m).2 := by
  have hspan : spanOf v' key < spanOf v key := by
    rw [spanOf, spanOf, hm, hm']
    exact h.span hopen
  have hcovers : forall {pos}, Covered v' key pos -> m.Covers pos ∧ pos ≠ (popMeta m).2 := by
    rintro pos ⟨m', hm'', hpos⟩
    cases hm'.symm.trans hm''
    exact h.covers hopen hpos
  exact ⟨⟨hspan.le, fun hpos => ⟨m, hm, (hcovers hpos).1⟩⟩, hspan,
    ⟨m, hm, h.taken hopen⟩, fun hpos => (hcovers hpos).2 rfl⟩

section Ends

variable {S : FeoxStore} {view : S.State -> Bytes -> Option Bytes}
  {popMeta : ListMeta -> ListMeta × Int64}

theorem popOne_ends (hS : BehavesAsMap S view) (hnarrows : Narrows popMeta) (key : Bytes)
    (retries : Nat) {fuel : Nat} {s : S.State} (hfuel : spanOf (view s) key < fuel) :
    exists r s', (popOne popMeta key fuel retries).run S s = some (.ok r, s') ∧
      Narrower key (view s) (view s') ∧ OneTakenFrom key (view s) (view s') r := by
  induction fuel generalizing s with
  | zero => exact absurd hfuel (Nat.not_lt_zero _)
  | succ fuel ih =>
      cases hmeta : view s (metaKey key) with
      | none =>
          rcases hS.getBytes_absent hmeta with ⟨e, s1, hget, hview⟩
          refine ⟨none, s1, ?_, narrower_of_metaOf (by rw [hview]), fun k _ => by rw [hview]⟩
          unfold popOne
          simp [hget]
      | some metaBytes =>
          have hm : metaOf (view s) key = some (parseMetadata metaBytes) := by
            rw [metaOf, hmeta]
            rfl
          rcases hS.getBytes_present hmeta with ⟨s1, hget, hview1⟩
          by_cases hopen : (parseMetadata metaBytes).Open
          · have hcount := (not_or.mp hopen).1
            have horder := (not_or.mp hopen).2
            rw [← hview1] at hmeta
            rcases hS.compareAndSwap_equal (buildMetadata (popMeta (parseMetadata metaBytes)).1)
              hmeta with ⟨s2, hswap, hview2⟩
            rw [hview1] at hview2
            have hkept : forall k, k ≠ metaKey key -> view s2 k = view s k := by
              intro k hk
              rw [hview2, Function.update_of_ne hk]
            rcases hnarrows.swapped hopen hm (hview2 ▸ metaOf_swapped _ key _) with
              ⟨hnarrower, hless, hcovered, hleft⟩
            have hother := valueKey_ne_metaKey key (popMeta (parseMetadata metaBytes)).2
            cases hvalue : view s2 (valueKey key (popMeta (parseMetadata metaBytes)).2) with
            | none =>
                rcases hS.getBytes_absent hvalue with ⟨e, s3, hread, hview3⟩
                rcases ih (by rw [hview3]; omega) with ⟨r, s4, hrun, hrest, htaken⟩
                rw [hview3] at hrest htaken
                refine ⟨r, s4, ?_, hnarrower.trans hrest, htaken.after hnarrower hkept⟩
                unfold popOne
                simp [hget, hcount, horder, hswap, hread, hrun]
            | some value =>
                rcases hS.getBytes_present hvalue with ⟨s3, hread, hview3⟩
                rw [← hview3] at hvalue
                rcases hS.delete_present hvalue with ⟨s4, hdelete, hview4⟩
                rw [hview3] at hview4 hvalue
                have hsame : metaOf (view s4) key = metaOf (view s2) key :=
                  metaOf_congr (by rw [hview4, Function.update_of_ne hother.symm])
                refine ⟨some value, s4, ?_, hnarrower.trans (narrower_of_metaOf hsame), _,
                  hcovered, ?_, ?_, fun k hk => ?_⟩
                · unfold popOne
                  simp [hget, hcount, horder, hswap, hread, hdelete]
                · exact fun hpos => hleft ((narrower_of_metaOf hsame).covered hpos)
                · rw [← hkept _ hother]
                  exact hvalue
                · rw [hview4, Function.update_apply, hkept k hk]
          · refine ⟨none, s1, ?_, narrower_of_metaOf (by rw [hview1]),
              fun k _ => by rw [hview1]⟩
            unfold popOne
            rcases not_not.mp hopen with hcount | horder
            · simp [hget, hcount]
            · simp [hget, horder]

theorem popLoop_ends (hS : BehavesAsMap S view) (hnarrows : Narrows popMeta) (key : Bytes)
    (n : Nat) (popped : List Bytes) {fuel : Nat} {s : S.State}
    (hfuel : spanOf (view s) key < fuel) :
    exists values s', (popLoop popMeta fuel key n popped).run S s =
        some (.ok (popped ++ values), s') ∧
      values.length <= n ∧ TakenFrom key (view s) (view s') values := by
  induction n generalizing popped s with
  | zero =>
      exact ⟨[], s, by simp [popLoop], Nat.le_refl 0, [], List.nodup_nil, nofun, rfl,
        fun k _ => by simp⟩
  | succ n ih =>
      rcases popOne_ends hS hnarrows key 0 hfuel with ⟨r, s1, hrun, hnarrower, htaken⟩
      cases r with
      | none =>
          refine ⟨[], s1, ?_, Nat.zero_le _, [], List.nodup_nil, nofun, rfl,
            fun k hk => by simpa using htaken k hk⟩
          rw [popLoop, run_bind_of_some S _ hrun]
          simp
      | some value =>
          rcases htaken with ⟨pos, hcovered, hnot, hvalue, hrest⟩
          rcases ih (popped ++ [value]) (Nat.lt_of_le_of_lt hnarrower.span hfuel) with
            ⟨values, s2, hloop, hlength, positions, hnodup, hall, hvalues, hkept⟩
          have hapart : forall pos', pos' ∈ positions ->
              valueKey key pos' ≠ valueKey key pos := by
            intro pos' hpos' heq
            rw [valueKey_injective key heq] at hpos'
            exact hnot (hall pos hpos')
          refine ⟨value :: values, s2, ?_, Nat.succ_le_succ hlength, pos :: positions,
            List.nodup_cons.mpr ⟨fun hmem => hnot (hall pos hmem), hnodup⟩, ?_, ?_, ?_⟩
          · rw [popLoop, run_bind_of_some S _ hrun]
            simpa using hloop
          · intro pos' hpos'
            rcases List.mem_cons.mp hpos' with rfl | hpos'
            · exact hcovered
            · exact hnarrower.covered (hall pos' hpos')
          · rw [List.map_cons, List.map_cons, hvalue, ← hvalues]
            refine congrArg (_ :: ·) (List.map_congr_left fun pos' hpos' => ?_)
            rw [hrest _ (valueKey_ne_metaKey key pos'), if_neg (hapart pos' hpos')]
          · intro k hk
            rw [hkept k hk, hrest k hk, List.map_cons]
            by_cases hfirst : k = valueKey key pos
            · simp [hfirst]
            · simp [hfirst]

end Ends

end ListOperations

open ListOperations

/-- A pop from an end, with its panics. -/
def ListEnd.popChecked : ListEnd -> Nat -> Bytes -> Option UInt64 ->
    StoreProg (Checked (Except Error (List Bytes)))
  | left => lpopChecked
  | right => rpopChecked

namespace ListEnd

def popMeta : ListEnd -> ListMeta -> ListMeta × Int64
  | left => lpopMeta
  | right => rpopMeta

theorem narrows (e : ListEnd) : Narrows e.popMeta := by
  cases e with
  | left => exact narrows_lpopMeta
  | right => exact narrows_rpopMeta

theorem pop_eq (e : ListEnd) (fuel : Nat) (key : Bytes) (count : Option UInt64) :
    e.pop fuel key count = popLoop e.popMeta fuel key (count.getD 1).toNat [] := by
  cases e <;> rfl

theorem popChecked_eq (e : ListEnd) (fuel : Nat) (key : Bytes) (count : Option UInt64) :
    e.popChecked fuel key count = (e.pop fuel key count >>= fun r => pure (.ok r)) := by
  cases e with
  | left => exact popLoopChecked_eq lpopMetaChecked_eq fuel key _ []
  | right => exact popLoopChecked_eq rpopMetaChecked_eq fuel key _ []

end ListEnd

/-- Whatever stands in the store, a pop ends without a panic.  It takes and deletes values
from positions of the span, and it needs one round more than the span has positions. -/
theorem pop_ends {S : FeoxStore} {view : S.State -> Bytes -> Option Bytes}
    (hS : BehavesAsMap S view) (e : ListEnd) (key : Bytes) (count : Option UInt64)
    (s : S.State) {fuel : Nat} (hfuel : spanOf (view s) key < fuel) :
    exists values s', (e.popChecked fuel key count).run S s = some (.ok (.ok values), s') ∧
      values.length <= (count.getD 1).toNat ∧ TakenFrom key (view s) (view s') values := by
  rcases popLoop_ends hS e.narrows key (count.getD 1).toNat [] hfuel with
    ⟨values, s', hrun, hlength, htaken⟩
  refine ⟨values, s', ?_, hlength, htaken⟩
  rw [e.popChecked_eq, e.pop_eq, run_bind_of_some S _ hrun]
  rfl

section Example

def gapEntries : MapStore.Entries :=
  ((∅ : MapStore.Entries).insert (metaKey (asBytes "k"))
    (buildMetadata { head := 0, tail := 3, count := 2 }, none)).insert
      (valueKey (asBytes "k") 1) ([7], none)

theorem pop_ends_gap :
    exists values s', (ListEnd.left.popChecked 4 (asBytes "k") (some 18446744073709551615)).run
        mapStore gapEntries = some (.ok (.ok values), s') ∧
      values.length <= 18446744073709551615 ∧
      TakenFrom (asBytes "k") (MapStore.view gapEntries) (MapStore.view s') values :=
  pop_ends MapStore.behavesAsMap .left (asBytes "k") (some 18446744073709551615) gapEntries
    (by decide +kernel)

end Example

end FeoxServer
