import FeoxServer.Protocol.ListRefinement
import FeoxServer.Store.MapStore

/-!
# Runs of list commands

Every command, run alone on a store that is a map, answers as the
double-ended queue does and leaves a list that represents the queue.
-/

namespace FeoxServer

open Foundation Prog

namespace ListOperations

variable {S : FeoxStore} {view : S.State -> Bytes -> Option Bytes}

/-!
# Pushing
-/

theorem pushOne_run (hS : BehavesAsMap S view)
    (pushMeta : ListMeta -> ListMeta × Int64) {key : Bytes} {m : ListMeta}
    {s : S.State} (hstored : Stored (view s) key m) (value : Bytes)
    (fuel retries : Nat) :
    exists s', (pushOne pushMeta key value (fuel + 1) retries).run S s =
        some (.ok (), s') ∧
      view s' = written (view s) key (pushMeta m).1 (pushMeta m).2
        (some value) := by
  rcases hstored with hmeta | ⟨hmeta, hinitial⟩
  · rcases hS.getBytes_present hmeta with ⟨s1, hget, hview1⟩
    rw [← hview1] at hmeta
    rcases hS.compareAndSwap_equal (buildMetadata (pushMeta m).1) hmeta with
      ⟨s2, hswap, hview2⟩
    rcases hS.insert s2 (valueKey key (pushMeta m).2) value with
      ⟨s3, hinsert, hview3⟩
    refine ⟨s3, ?_, ?_⟩
    · unfold pushOne readOrCreate
      simp [hget, writeMetadata, hswap, hinsert]
    · rw [hview3, hview2, hview1]
      rfl
  · subst hinitial
    rcases hS.getBytes_absent hmeta with ⟨e, s1, hget, hview1⟩
    rcases hS.insert s1 (metaKey key) initialMetadata with
      ⟨s2, hcreate, hview2⟩
    rcases hS.insert s2 (metaKey key) (buildMetadata (pushMeta initialMeta).1)
      with ⟨s3, hwrite, hview3⟩
    rcases hS.insert s3 (valueKey key (pushMeta initialMeta).2) value with
      ⟨s4, hinsert, hview4⟩
    have hparse : parseMetadata initialMetadata = initialMeta :=
      parseMetadata_buildMetadata initialMeta
    refine ⟨s4, ?_, ?_⟩
    · unfold pushOne readOrCreate
      simp [hget, hcreate, hparse, writeMetadata, hwrite, hinsert]
    · rw [hview4, hview3, hview2, hview1, Function.update_idem]
      rfl

/-- An invariant with a budget of pushes goes through the loop over the
values, and after a first push the metadata is in the store. -/
theorem pushAll_run (hS : BehavesAsMap S view)
    {pushMeta : ListMeta -> ListMeta × Int64} {key : Bytes}
    {put : List Bytes -> Bytes -> List Bytes}
    {I : Nat -> List Bytes -> ListMeta -> (Bytes -> Option Bytes) -> Prop}
    (hstored : forall {n items m v}, I n items m v -> Stored v key m)
    (hstep : forall {n items m v} value, I (n + 1) items m v ->
      I n (put items value) (pushMeta m).1
        (written v key (pushMeta m).1 (pushMeta m).2 (some value)))
    (fuel : Nat) (values : List Bytes) {items : List Bytes} {m : ListMeta}
    {s : S.State} (h : I values.length items m (view s)) :
    exists s' m', (pushAll pushMeta (fuel + 1) key values).run S s =
        some (.ok (), s') ∧ I 0 (values.foldl put items) m' (view s') ∧
      (values ≠ [] ∨ view s (metaKey key) = some (buildMetadata m) ->
        view s' (metaKey key) = some (buildMetadata m')) := by
  induction values generalizing items m s with
  | nil => exact ⟨s, m, rfl, h, fun hmeta => hmeta.resolve_left (fun hne => hne rfl)⟩
  | cons value values ih =>
      rcases pushOne_run hS pushMeta (hstored h) value fuel 0 with
        ⟨s1, hrun1, hview1⟩
      have hnext := hstep value h
      have hmeta1 := written_metaKey (view s) key (pushMeta m).1
        (pushMeta m).2 (some value)
      rw [← hview1] at hnext hmeta1
      rcases ih hnext with ⟨s2, m2, hrun2, hinv2, hmeta2⟩
      refine ⟨s2, m2, ?_, hinv2, fun _ => hmeta2 (Or.inr hmeta1)⟩
      rw [pushAll, run_bind_of_some S _ hrun1]
      exact hrun2

/-- The list is represented, `l` pushes on the left and `r` on the right stay
within the positions, and `n` more elements can be counted. -/
structure Roomy (key : Bytes) (l r n : Nat) (items : List Bytes)
    (m : ListMeta) (v : Bytes -> Option Bytes) : Prop where
  represents : Represents v key items m
  left : -2 ^ 63 + l <= m.head.toInt
  right : m.tail.toInt + r < 2 ^ 63
  length : items.length + n < 2 ^ 63

theorem Roomy.lpush {key : Bytes} {l r n : Nat} {items : List Bytes}
    {m : ListMeta} {v : Bytes -> Option Bytes}
    (h : Roomy key (l + 1) r (n + 1) items m v) (value : Bytes) :
    Roomy key l r n (value :: items) (lpushMeta m).1
      (written v key (lpushMeta m).1 (lpushMeta m).2 (some value)) := by
  have hleft := h.left
  have hlength := h.length
  have hhead : (lpushMeta m).1.head.toInt = m.head.toInt - 1 :=
    toInt_sub_one (by omega)
  refine ⟨represents_lpush h.represents (by omega) (by omega) value, ?_, ?_, ?_⟩
  · omega
  · rw [lpushMeta_tail h.represents]
    exact h.right
  · rw [List.length_cons]
    omega

theorem Roomy.rpush {key : Bytes} {l r n : Nat} {items : List Bytes}
    {m : ListMeta} {v : Bytes -> Option Bytes}
    (h : Roomy key l (r + 1) (n + 1) items m v) (value : Bytes) :
    Roomy key l r n (items ++ [value]) (rpushMeta m).1
      (written v key (rpushMeta m).1 (rpushMeta m).2 (some value)) := by
  have hright := h.right
  have hlength := h.length
  have hafter := represents_rpush h.represents (by omega) (by omega) value
  have hwindow := hafter.window
  rw [rpushMeta_head h.represents, List.length_append,
    List.length_singleton] at hwindow
  have hbefore := h.represents.window
  refine ⟨hafter, ?_, ?_, ?_⟩
  · rw [rpushMeta_head h.represents]
    exact h.left
  · omega
  · rw [List.length_append, List.length_singleton]
    omega

theorem push_run (hS : BehavesAsMap S view)
    {pushMeta : ListMeta -> ListMeta × Int64} {key : Bytes}
    {put : List Bytes -> Bytes -> List Bytes} {l r : Nat -> Nat}
    (hstep : forall {n items m v} value,
      Roomy key (l (n + 1)) (r (n + 1)) (n + 1) items m v ->
        Roomy key (l n) (r n) n (put items value) (pushMeta m).1
          (written v key (pushMeta m).1 (pushMeta m).2 (some value)))
    (fuel : Nat) {values : List Bytes} (hne : values ≠ [])
    {items : List Bytes} {m : ListMeta} {s : S.State}
    (h : Roomy key (l values.length) (r values.length) values.length items m
      (view s)) :
    exists s' m' n, (push pushMeta (fuel + 1) key values).run S s =
        some (.ok n, s') ∧ n.toInt = (values.foldl put items).length ∧
      Roomy key (l 0) (r 0) 0 (values.foldl put items) m' (view s') := by
  rcases pushAll_run hS
      (I := fun n items m v => Roomy key (l n) (r n) n items m v)
      (fun hI => hI.represents.stored) hstep fuel values h with
    ⟨s1, m1, hrun, hroomy, hmeta⟩
  rcases hS.getBytes_present (hmeta (Or.inl hne)) with ⟨s2, hget, hview⟩
  refine ⟨s2, m1, m1.count.toInt64, ?_, ?_, ?_⟩
  · rw [push, run_bind_of_some S _ hrun]
    simp [hget]
  · have hlength := hroomy.length
    have hcount := hroomy.represents.count
    rw [toInt_toInt64_of_lt (by omega), hcount]
  · rw [hview]
    exact hroomy

/-!
# Popping
-/

theorem popOne_run_empty (hS : BehavesAsMap S view)
    (popMeta : ListMeta -> ListMeta × Int64) {key : Bytes} {m : ListMeta}
    {s : S.State} (h : Represents (view s) key [] m) (fuel retries : Nat) :
    exists s', (popOne popMeta key (fuel + 1) retries).run S s =
        some (.ok none, s') ∧ view s' = view s := by
  have hzero := (count_eq_zero_iff h).mpr rfl
  rcases h.stored with hmeta | ⟨hmeta, _⟩
  · rcases hS.getBytes_present hmeta with ⟨s1, hget, hview⟩
    refine ⟨s1, ?_, hview⟩
    unfold popOne
    simp [hget, hzero]
  · rcases hS.getBytes_absent hmeta with ⟨e, s1, hget, hview⟩
    refine ⟨s1, ?_, hview⟩
    unfold popOne
    simp [hget]

theorem popOne_run_value (hS : BehavesAsMap S view)
    (popMeta : ListMeta -> ListMeta × Int64) {key value : Bytes}
    {items : List Bytes} {m : ListMeta} {s : S.State}
    (h : Represents (view s) key items m) (hne : items ≠ [])
    (hvalue : view s (valueKey key (popMeta m).2) = some value)
    (fuel retries : Nat) :
    exists s', (popOne popMeta key (fuel + 1) retries).run S s =
        some (.ok (some value), s') ∧
      view s' = written (view s) key (popMeta m).1 (popMeta m).2 none := by
  rcases metaKey_of_ne_nil h hne with ⟨hcount, hmeta⟩
  have hwindow := h.window
  have hpos := List.length_pos_iff.mpr hne
  have horder : ¬ m.tail <= m.head := by
    rw [Int64.le_iff_toInt_le]
    omega
  rcases hS.getBytes_present hmeta with ⟨s1, hget, hview1⟩
  rw [← hview1] at hmeta hvalue
  rcases hS.compareAndSwap_equal (buildMetadata (popMeta m).1) hmeta with
    ⟨s2, hswap, hview2⟩
  have hkept : view s2 (valueKey key (popMeta m).2) = some value := by
    rw [hview2, Function.update_of_ne (valueKey_ne_metaKey key _), hvalue]
  rcases hS.getBytes_present hkept with ⟨s3, hread, hview3⟩
  rw [← hview3] at hkept
  rcases hS.delete_present hkept with ⟨s4, hdelete, hview4⟩
  refine ⟨s4, ?_, ?_⟩
  · unfold popOne
    simp [hget, hcount, horder, hswap, hread, hdelete]
  · rw [hview4, hview3, hview2, hview1]
    rfl

/-- The loop of a pop takes elements from the front of `items` in the order in
which the end of the list gives them; `J` says how the list stands. -/
theorem popLoop_run (fuel : Nat) (popMeta : ListMeta -> ListMeta × Int64)
    (key : Bytes) (n : Nat) (popped items : List Bytes) {J : List Bytes -> S.State -> Prop}
    (hnil : forall {s}, J [] s -> exists s',
      (popOne popMeta key fuel 0).run S s = some (.ok none, s') ∧ J [] s')
    (hcons : forall {s value items}, J (value :: items) s -> exists s',
      (popOne popMeta key fuel 0).run S s = some (.ok (some value), s') ∧
        J items s')
    {s : S.State} (h : J items s) :
    exists s', (popLoop popMeta fuel key n popped).run S s =
        some (.ok (popped ++ items.take n), s') ∧ J (items.drop n) s' := by
  induction n generalizing popped items s with
  | zero => exact ⟨s, by simp [popLoop], h⟩
  | succ n ih =>
      cases items with
      | nil =>
          rcases hnil h with ⟨s1, hrun, hJ⟩
          refine ⟨s1, ?_, hJ⟩
          rw [popLoop, run_bind_of_some S _ hrun]
          simp
      | cons value items =>
          rcases hcons h with ⟨s1, hrun, hJ⟩
          rcases ih (popped ++ [value]) items hJ with ⟨s2, hrest, hJ2⟩
          refine ⟨s2, ?_, hJ2⟩
          rw [popLoop, run_bind_of_some S _ hrun]
          simpa using hrest

theorem Roomy.lpop {key value : Bytes} {l r : Nat} {items : List Bytes}
    {m : ListMeta} {v : Bytes -> Option Bytes}
    (h : Roomy key l r 0 (value :: items) m v) :
    Roomy key l r 0 items (lpopMeta m).1
      (written v key (lpopMeta m).1 (lpopMeta m).2 none) := by
  have hafter := represents_lpop h.represents
  have hbefore := h.represents.window
  have hwindow := hafter.window
  have hlength := h.length
  have hleft := h.left
  have htail : (lpopMeta m).1.tail.toInt = m.tail.toInt := rfl
  rw [List.length_cons] at hbefore hlength
  refine ⟨hafter, by omega, ?_, by omega⟩
  rw [htail]
  exact h.right

theorem Roomy.rpop {key value : Bytes} {l r : Nat} {items : List Bytes}
    {m : ListMeta} {v : Bytes -> Option Bytes}
    (h : Roomy key l r 0 (items ++ [value]) m v) :
    Roomy key l r 0 items (rpopMeta m).1
      (written v key (rpopMeta m).1 (rpopMeta m).2 none) := by
  have hafter := represents_rpop h.represents
  have hbefore := h.represents.window
  have hwindow := hafter.window
  have hlength := h.length
  have hright := h.right
  have hhead : (rpopMeta m).1.head.toInt = m.head.toInt := rfl
  rw [List.length_append, List.length_singleton] at hbefore hlength
  refine ⟨hafter, h.left, by omega, by omega⟩

/-- The loop of a pop against an invariant of the values in the order in which
the end gives them: what a pop finds at its position is the first of them. -/
theorem pop_run_keeping (hS : BehavesAsMap S view) {key : Bytes}
    {popMeta : ListMeta -> ListMeta × Int64}
    {I : List Bytes -> ListMeta -> (Bytes -> Option Bytes) -> Prop}
    (hlist : forall {values m v}, I values m v ->
      exists items, Represents v key items m ∧ items.length = values.length)
    (hvalue : forall {value values m v}, I (value :: values) m v ->
      v (valueKey key (popMeta m).2) = some value)
    (hstep : forall {value values m v}, I (value :: values) m v ->
      I values (popMeta m).1 (written v key (popMeta m).1 (popMeta m).2 none))
    (fuel : Nat) (count : Option UInt64) {values : List Bytes} {m : ListMeta}
    {s : S.State} (h : I values m (view s)) :
    exists s' m', (pop popMeta (fuel + 1) key count).run S s =
        some (.ok (values.take (count.getD 1).toNat), s') ∧
      I (values.drop (count.getD 1).toNat) m' (view s') := by
  have hnil : forall {s}, (exists m, I [] m (view s)) -> exists s',
      (popOne popMeta key (fuel + 1) 0).run S s = some (.ok none, s') ∧
        exists m, I [] m (view s') := by
    intro s hkept
    rcases hkept with ⟨m, hkept⟩
    rcases hlist hkept with ⟨items, hrepresents, hlength⟩
    rw [List.length_eq_zero_iff.mp hlength] at hrepresents
    rcases popOne_run_empty hS popMeta hrepresents fuel 0 with ⟨s', hrun, hview⟩
    rw [← hview] at hkept
    exact ⟨s', hrun, m, hkept⟩
  have hcons : forall {s value values}, (exists m, I (value :: values) m (view s)) ->
      exists s', (popOne popMeta key (fuel + 1) 0).run S s = some (.ok (some value), s') ∧
        exists m, I values m (view s') := by
    intro s value values hkept
    rcases hkept with ⟨m, hkept⟩
    rcases hlist hkept with ⟨items, hrepresents, hlength⟩
    have hne : items ≠ [] := by
      rw [← List.length_pos_iff, hlength]
      exact Nat.succ_pos _
    rcases popOne_run_value hS popMeta hrepresents hne (hvalue hkept) fuel 0 with
      ⟨s', hrun, hview⟩
    have hafter := hstep hkept
    rw [← hview] at hafter
    exact ⟨s', hrun, _, hafter⟩
  rcases popLoop_run (J := fun values s => exists m, I values m (view s)) (fuel + 1)
    popMeta key (count.getD 1).toNat [] values hnil hcons ⟨m, h⟩ with
    ⟨s', hrun, m', hkept⟩
  exact ⟨s', m', hrun, hkept⟩

theorem Represents.lpop_value {v : Bytes -> Option Bytes} {key value : Bytes}
    {items : List Bytes} {m : ListMeta} (h : Represents v key (value :: items) m) :
    v (valueKey key (lpopMeta m).2) = some value :=
  h.holds.read (i := 0) (by simp [lpopMeta])

theorem Represents.rpop_value {v : Bytes -> Option Bytes} {key value : Bytes}
    {items : List Bytes} {m : ListMeta} (h : Represents v key (items ++ [value]) m) :
    v (valueKey key (rpopMeta m).2) = some value := by
  have hwindow := (represents_rpop h).window
  change v (valueKey key (rpopMeta m).1.tail) = some value
  rw [h.holds.read (i := items.length) hwindow]
  simp

theorem lpop_run_keeping (hS : BehavesAsMap S view) {key : Bytes}
    {I : List Bytes -> ListMeta -> (Bytes -> Option Bytes) -> Prop}
    (hrepresents : forall {items m v}, I items m v -> Represents v key items m)
    (hstep : forall {value items m v}, I (value :: items) m v ->
      I items (lpopMeta m).1 (written v key (lpopMeta m).1 (lpopMeta m).2 none))
    (fuel : Nat) (count : Option UInt64) {items : List Bytes} {m : ListMeta}
    {s : S.State} (h : I items m (view s)) :
    exists s' m', (lpop (fuel + 1) key count).run S s =
        some (.ok (items.take (count.getD 1).toNat), s') ∧
      I (items.drop (count.getD 1).toNat) m' (view s') :=
  pop_run_keeping hS (fun hkept => ⟨_, hrepresents hkept, rfl⟩)
    (fun hkept => (hrepresents hkept).lpop_value) hstep fuel count h

theorem rpop_run_keeping (hS : BehavesAsMap S view) {key : Bytes}
    {I : List Bytes -> ListMeta -> (Bytes -> Option Bytes) -> Prop}
    (hrepresents : forall {items m v}, I items m v -> Represents v key items m)
    (hstep : forall {value items m v}, I (items ++ [value]) m v ->
      I items (rpopMeta m).1 (written v key (rpopMeta m).1 (rpopMeta m).2 none))
    (fuel : Nat) (count : Option UInt64) {items : List Bytes} {m : ListMeta}
    {s : S.State} (h : I items m (view s)) :
    exists s' m', (rpop (fuel + 1) key count).run S s =
        some (.ok (items.reverse.take (count.getD 1).toNat), s') ∧
      I (items.reverse.drop (count.getD 1).toNat).reverse m' (view s') := by
  -- The loop sees the list from its right end.
  have hlast : forall {value : Bytes} {values : List Bytes} {m v},
      I (value :: values).reverse m v -> I (values.reverse ++ [value]) m v := by
    intro value values m v hkept
    rw [← List.reverse_cons]
    exact hkept
  rw [← List.reverse_reverse items] at h
  exact pop_run_keeping (I := fun values m v => I values.reverse m v) hS
    (fun hkept => ⟨_, hrepresents hkept, List.length_reverse⟩)
    (fun hkept => (hrepresents (hlast hkept)).rpop_value)
    (fun hkept => hstep (hlast hkept)) fuel count h

theorem lpop_run (hS : BehavesAsMap S view) {key : Bytes} {l r : Nat}
    (fuel : Nat) (count : Option UInt64) {items : List Bytes} {m : ListMeta}
    {s : S.State} (h : Roomy key l r 0 items m (view s)) :
    exists s' m', (lpop (fuel + 1) key count).run S s =
        some (.ok (items.take (count.getD 1).toNat), s') ∧
      Roomy key l r 0 (items.drop (count.getD 1).toNat) m' (view s') :=
  lpop_run_keeping hS (fun hroomy => hroomy.represents) (fun hroomy => hroomy.lpop)
    fuel count h

theorem rpop_run (hS : BehavesAsMap S view) {key : Bytes} {l r : Nat}
    (fuel : Nat) (count : Option UInt64) {items : List Bytes} {m : ListMeta}
    {s : S.State} (h : Roomy key l r 0 items m (view s)) :
    exists s' m', (rpop (fuel + 1) key count).run S s =
        some (.ok (items.reverse.take (count.getD 1).toNat), s') ∧
      Roomy key l r 0 (items.reverse.drop (count.getD 1).toNat).reverse m'
        (view s') :=
  rpop_run_keeping hS (fun hroomy => hroomy.represents) (fun hroomy => hroomy.rpop)
    fuel count h

/-!
# Reading
-/

theorem llen_run (hS : BehavesAsMap S view) {key : Bytes}
    {items : List Bytes} {m : ListMeta} {s : S.State}
    (h : Represents (view s) key items m) (hlength : items.length < 2 ^ 63) :
    exists s' n, (llen key).run S s = some (.ok n, s') ∧
      n.toInt = items.length ∧ view s' = view s := by
  have hcount := h.count
  rcases h.stored with hmeta | ⟨hmeta, hinitial⟩
  · rcases hS.getBytes_present hmeta with ⟨s1, hget, hview⟩
    refine ⟨s1, m.count.toInt64, ?_, ?_, hview⟩
    · unfold llen
      simp [hget]
    · rw [toInt_toInt64_of_lt (by omega), hcount]
  · rcases hS.getBytes_absent hmeta with ⟨e, s1, hget, hview⟩
    refine ⟨s1, 0, ?_, ?_, hview⟩
    · unfold llen
      simp [hget]
    · rw [← hcount, hinitial]
      rfl

theorem rangeBounds_spec {len : Int64} (start stop : Int64) {n : Nat}
    (hlen : len.toInt = n) (hpos : 0 < n) :
    let first := if start.toInt < 0 then max (n + start.toInt) 0
      else start.toInt
    let last := if stop.toInt < 0 then n + stop.toInt else stop.toInt
    match rangeBounds len start stop with
    | none => n <= first ∨ last < first ∨ last < 0
    | some (a, b) => a.toInt = first ∧ b.toInt = min last (n - 1) ∧
        0 <= first ∧ first <= b.toInt := by
  have hzero : (0 : Int64).toInt = 0 := rfl
  have hone : (1 : Int64).toInt = 1 := rfl
  have hn := inRange_toInt len
  have hstart := inRange_toInt start
  have hstop := inRange_toInt stop
  unfold InRange at hn hstart hstop
  have hlast : (len - 1).toInt = n - 1 := by
    rw [toInt_sub_of_inRange, hlen, hone]
    unfold InRange
    omega
  have hfrom : (if start < 0 then max (len + start) 0 else start).toInt =
      if start.toInt < 0 then max (n + start.toInt) 0 else start.toInt := by
    by_cases hneg : start.toInt < 0
    · rw [if_pos hneg, if_pos (by rw [Int64.lt_iff_toInt_lt, hzero]; exact hneg),
        toInt_max, toInt_add_of_inRange, hlen, hzero]
      unfold InRange
      omega
    · rw [if_neg hneg, if_neg (by rw [Int64.lt_iff_toInt_lt, hzero]; exact hneg)]
  have hto : (if stop < 0 then len + stop else stop).toInt =
      if stop.toInt < 0 then n + stop.toInt else stop.toInt := by
    by_cases hneg : stop.toInt < 0
    · rw [if_pos hneg, if_pos (by rw [Int64.lt_iff_toInt_lt, hzero]; exact hneg),
        toInt_add_of_inRange, hlen]
      unfold InRange
      omega
    · rw [if_neg hneg, if_neg (by rw [Int64.lt_iff_toInt_lt, hzero]; exact hneg)]
  have hnonneg : 0 <= if start.toInt < 0 then max (n + start.toInt) 0
      else start.toInt := by
    split <;> omega
  unfold rangeBounds
  simp only
  rw [← hfrom, ← hto] at *
  generalize (if start < 0 then max (len + start) 0 else start) = first at *
  generalize (if stop < 0 then len + stop else stop) = last at *
  by_cases hout : first >= len ∨ last < 0
  · rw [if_pos hout]
    simp only
    rw [ge_iff_le, Int64.le_iff_toInt_le, Int64.lt_iff_toInt_lt, hzero,
      hlen] at hout
    omega
  · rw [if_neg hout]
    rw [ge_iff_le, Int64.le_iff_toInt_le, Int64.lt_iff_toInt_lt, hzero,
      hlen] at hout
    have hclampFirst : (min (max first 0) (len - 1)).toInt = first.toInt := by
      rw [toInt_min, toInt_max, hlast, hzero]
      omega
    have hclampLast : (min (max last 0) (len - 1)).toInt =
        min last.toInt (n - 1) := by
      rw [toInt_min, toInt_max, hlast, hzero]
      omega
    by_cases hempty : min (max first 0) (len - 1) > min (max last 0) (len - 1)
    · rw [if_pos hempty]
      rw [gt_iff_lt, Int64.lt_iff_toInt_lt, hclampFirst, hclampLast] at hempty
      simp only
      omega
    · rw [if_neg hempty]
      rw [gt_iff_lt, Int64.lt_iff_toInt_lt, hclampFirst, hclampLast] at hempty
      simp only
      rw [hclampFirst, hclampLast]
      omega

theorem rangeLoop_run (hS : BehavesAsMap S view) {key : Bytes}
    {items : List Bytes} {m : ListMeta} (n i : Nat) (results : List Bytes)
    (index : Int64) {s : S.State} (h : Represents (view s) key items m)
    (hindex : index.toInt = i) (hbound : i + n <= items.length)
    (hlength : items.length < 2 ^ 63) :
    exists s', (rangeLoop key m.head n index results).run S s =
        some (results ++ (items.drop i).take n, s') ∧ view s' = view s := by
  have hone : (1 : Int64).toInt = 1 := rfl
  induction n generalizing i results index s with
  | zero => exact ⟨s, by simp [rangeLoop], rfl⟩
  | succ n ih =>
      have hlt : i < items.length := by omega
      have hhead := inRange_toInt m.head
      have htail := inRange_toInt m.tail
      have hwindow := h.window
      unfold InRange at hhead htail
      have hpos : (m.head + index).toInt = m.head.toInt + i := by
        rw [toInt_add_of_inRange, hindex]
        unfold InRange
        omega
      have hnext : (index + 1).toInt = (i + 1 : Nat) := by
        rw [toInt_add_of_inRange, hindex, hone]
        · omega
        · unfold InRange
          omega
      have hvalue : view s (valueKey key (m.head + index)) = some items[i] := by
        rw [h.holds.read hpos, List.getElem?_eq_getElem hlt]
      rcases hS.getBytes_present hvalue with ⟨s1, hget, hview1⟩
      rw [← hview1] at h
      rcases ih (i + 1) (results ++ [items[i]]) _ h hnext (by omega) with
        ⟨s2, hrun, hview2⟩
      refine ⟨s2, ?_, by rw [hview2, hview1]⟩
      unfold rangeLoop
      rw [List.append_assoc] at hrun
      rw [run_call_bind, hget, List.drop_eq_getElem_cons hlt,
        List.take_succ_cons]
      exact hrun

theorem range_eq_drop_take (items : List Bytes) {first last : Int}
    (hfirst : 0 <= first) (hle : first <= min last (items.length - 1)) :
    (items.drop first.toNat).take
        (min last (items.length - 1) - first + 1).toNat =
      (items.take (last + 1).toNat).drop first.toNat := by
  rw [List.drop_take]
  by_cases hlast : last <= items.length - 1
  · congr 1
    omega
  · rw [List.take_of_length_le, List.take_of_length_le]
    · rw [List.length_drop]
      omega
    · rw [List.length_drop]
      omega

theorem range_eq_nil (items : List Bytes) {first last : Int}
    (h : items.length <= first ∨ last < first ∨ last < 0) (hfirst : 0 <= first) :
    (items.take (last + 1).toNat).drop first.toNat = [] := by
  rw [List.drop_eq_nil_iff, List.length_take]
  omega

theorem lrange_run (hS : BehavesAsMap S view) {key : Bytes}
    {items : List Bytes} {m : ListMeta} {s : S.State}
    (h : Represents (view s) key items m) (hlength : items.length < 2 ^ 63)
    (start stop : Int64) :
    exists s', (lrange key start stop).run S s =
        some (.ok (Deque.range items start.toInt stop.toInt), s') ∧
      view s' = view s := by
  by_cases hempty : items = []
  · have hrange : Deque.range items start.toInt stop.toInt = [] := by
      rw [hempty]
      simp [Deque.range]
    have hzero := (count_eq_zero_iff h).mpr hempty
    rw [hrange]
    rcases h.stored with hmeta | ⟨hmeta, _⟩
    · rcases hS.getBytes_present hmeta with ⟨s1, hget, hview⟩
      refine ⟨s1, ?_, hview⟩
      unfold lrange
      simp [hget, hzero]
    · rcases hS.getBytes_absent hmeta with ⟨e, s1, hget, hview⟩
      refine ⟨s1, ?_, hview⟩
      unfold lrange
      simp [hget]
  · rcases metaKey_of_ne_nil h hempty with ⟨hcount, hmeta⟩
    rcases hS.getBytes_present hmeta with ⟨s1, hget, hview1⟩
    have hwindow := h.window
    have hlen := toInt_tail_sub_head h hlength
    have hspec := rangeBounds_spec start stop hlen
      (List.length_pos_iff.mpr hempty)
    simp only at hspec
    rw [← hview1] at h
    unfold Deque.range
    simp only
    cases hbounds : rangeBounds (m.tail - m.head) start stop with
    | none =>
        rw [hbounds] at hspec
        refine ⟨s1, ?_, hview1⟩
        rw [range_eq_nil items hspec (by split <;> omega)]
        unfold lrange
        simp [hget, hcount, hbounds]
    | some window =>
        rcases window with ⟨a, b⟩
        rw [hbounds] at hspec
        rcases hspec with ⟨ha, hb, hnonneg, hle⟩
        have hspan : (b.toInt - a.toInt + 1).toNat + a.toInt.toNat <=
            items.length := by omega
        rcases rangeLoop_run hS (b.toInt - a.toInt + 1).toNat a.toInt.toNat []
          a h (by omega) (by omega) hlength with ⟨s2, hrun, hview2⟩
        refine ⟨s2, ?_, by rw [hview2, hview1]⟩
        rw [← range_eq_drop_take items hnonneg (by rw [← hb]; exact hle)]
        rw [List.nil_append, ha, hb] at hrun
        unfold lrange
        simp only [run_call_bind, hget, parseMetadata_buildMetadata,
          if_neg hcount, hbounds]
        rw [ha, hb, run_bind_of_some S _ hrun]
        rfl

theorem actualIndex_spec {len : Int64} (index : Int64) {n : Nat}
    (hlen : len.toInt = n) :
    match actualIndex len index with
    | none => (if index.toInt < 0 then n + index.toInt else index.toInt) < 0 ∨
        n <= (if index.toInt < 0 then n + index.toInt else index.toInt)
    | some i => i.toInt =
          (if index.toInt < 0 then n + index.toInt else index.toInt) ∧
        0 <= i.toInt ∧ i.toInt < n := by
  have hzero : (0 : Int64).toInt = 0 := rfl
  have hn := inRange_toInt len
  have hindex := inRange_toInt index
  unfold InRange at hn hindex
  unfold actualIndex
  by_cases hneg : index.toInt < 0
  · have hsum : (len + index).toInt = n + index.toInt := by
      rw [toInt_add_of_inRange, hlen]
      unfold InRange
      omega
    rw [if_pos (by rw [Int64.lt_iff_toInt_lt, hzero]; exact hneg)]
    simp only [if_pos hneg, Int64.lt_iff_toInt_lt, hzero, hsum]
    by_cases hout : n + index.toInt < 0
    · rw [if_pos hout]
      exact Or.inl hout
    · rw [if_neg hout]
      change (len + index).toInt = n + index.toInt ∧
        0 <= (len + index).toInt ∧ (len + index).toInt < n
      rw [hsum]
      omega
  · rw [if_neg (by rw [Int64.lt_iff_toInt_lt, hzero]; exact hneg)]
    simp only [if_neg hneg, ge_iff_le, Int64.le_iff_toInt_le, hlen]
    by_cases hout : n <= index.toInt
    · rw [if_pos hout]
      exact Or.inr hout
    · rw [if_neg hout]
      exact ⟨rfl, by omega, by omega⟩

theorem lindex_run (hS : BehavesAsMap S view) {key : Bytes}
    {items : List Bytes} {m : ListMeta} {s : S.State}
    (h : Represents (view s) key items m) (hlength : items.length < 2 ^ 63)
    (index : Int64) :
    exists s', (lindex key index).run S s =
        some (.ok (Deque.index items index.toInt), s') ∧
      view s' = view s := by
  unfold Deque.index
  by_cases hempty : items = []
  · have hzero := (count_eq_zero_iff h).mpr hempty
    rw [hempty, itemAt_nil]
    rcases h.stored with hmeta | ⟨hmeta, _⟩
    · rcases hS.getBytes_present hmeta with ⟨s1, hget, hview⟩
      refine ⟨s1, ?_, hview⟩
      unfold lindex
      simp [hget, hzero]
    · rcases hS.getBytes_absent hmeta with ⟨e, s1, hget, hview⟩
      refine ⟨s1, ?_, hview⟩
      unfold lindex
      simp [hget]
  · rcases metaKey_of_ne_nil h hempty with ⟨hcount, hmeta⟩
    rcases hS.getBytes_present hmeta with ⟨s1, hget, hview1⟩
    have hwindow := h.window
    have hlen := toInt_tail_sub_head h hlength
    have hspec := actualIndex_spec index hlen
    cases hactual : actualIndex (m.tail - m.head) index with
    | none =>
        rw [hactual] at hspec
        refine ⟨s1, ?_, hview1⟩
        have hnone : itemAt items (if index.toInt < 0 then
            items.length + index.toInt else index.toInt) = none := by
          rcases hspec with hneg | hout
          · exact itemAt_of_neg items hneg
          · exact itemAt_of_length_le hout
        rw [hnone]
        unfold lindex
        simp [hget, hcount, hactual]
    | some i =>
        rw [hactual] at hspec
        rcases hspec with ⟨hi, hnonneg, hlt⟩
        have hhead := inRange_toInt m.head
        have htail := inRange_toInt m.tail
        unfold InRange at hhead htail
        have hpos : (m.head + i).toInt = m.head.toInt + i.toInt.toNat := by
          rw [toInt_add_of_inRange]
          · omega
          · unfold InRange
            omega
        have hread := h.holds.read hpos
        rw [List.getElem?_eq_getElem (by omega), ← hview1] at hread
        rcases hS.getBytes_present hread with ⟨s2, hvalue, hview2⟩
        refine ⟨s2, ?_, by rw [hview2, hview1]⟩
        rw [← hi, ← Int.toNat_of_nonneg hnonneg, itemAt_natCast,
          List.getElem?_eq_getElem (by omega)]
        unfold lindex
        simp [hget, hcount, hactual, hvalue]

/-!
# Whole runs
-/

theorem foldl_concat (items values : List Bytes) :
    values.foldl (fun items value => items ++ [value]) items =
      items ++ values := by
  induction values generalizing items with
  | nil => simp
  | cons value values ih => simp [ih]

theorem length_foldl_cons (items values : List Bytes) :
    (values.foldl (fun items value => value :: items) items).length =
      items.length + values.length := by
  induction values generalizing items with
  | nil => rfl
  | cons value values ih =>
      rw [List.foldl_cons, ih, List.length_cons, List.length_cons]
      omega

theorem perform_run (hS : BehavesAsMap S view) {key : Bytes}
    (command : ListCommand Bytes) {l r : Nat} (fuel : Nat)
    {items : List Bytes} {m : ListMeta} {s : S.State}
    (h : Roomy key (l + command.lpushed) (r + command.rpushed) 0 items m
      (view s))
    (hne : command.Nonempty)
    (hlength : (Deque.next items command).length < 2 ^ 63) :
    exists s' m', (perform (fuel + 1) key command).run S s =
        some (.ok (Deque.reply items command), s') ∧
      Roomy key l r 0 (Deque.next items command) m' (view s') := by
  cases command with
  | lpush values =>
      rw [Deque.next, length_foldl_cons] at hlength
      rcases push_run hS (fun value hroomy => hroomy.lpush value)
          (l := fun n => l + n) (r := fun _ => r) fuel hne
          ⟨h.represents, h.left, h.right, hlength⟩ with
        ⟨s', m', n, hrun, hn, hroomy⟩
      refine ⟨s', m', ?_, hroomy⟩
      rw [perform, lpush, run_bind_of_some S _ hrun]
      simp [Except.map, hn, Deque.reply, Deque.next]
  | rpush values =>
      rw [Deque.next, List.length_append] at hlength
      rcases push_run hS (fun value hroomy => hroomy.rpush value)
          (l := fun _ => l) (r := fun n => r + n) fuel hne
          ⟨h.represents, h.left, h.right, hlength⟩ with
        ⟨s', m', n, hrun, hn, hroomy⟩
      rw [foldl_concat] at hn hroomy
      refine ⟨s', m', ?_, hroomy⟩
      rw [perform, rpush, run_bind_of_some S _ hrun]
      simp [Except.map, hn, Deque.reply, Deque.next]
  | lpop count =>
      rcases lpop_run hS fuel count h with ⟨s', m', hrun, hroomy⟩
      refine ⟨s', m', ?_, hroomy⟩
      rw [perform, run_bind_of_some S _ hrun]
      rfl
  | rpop count =>
      rcases rpop_run hS fuel count h with ⟨s', m', hrun, hroomy⟩
      refine ⟨s', m', ?_, hroomy⟩
      rw [perform, run_bind_of_some S _ hrun]
      rfl
  | llen =>
      rcases llen_run hS h.represents hlength with ⟨s', n, hrun, hn, hview⟩
      refine ⟨s', m, ?_, by rw [hview]; exact h⟩
      rw [perform, run_bind_of_some S _ hrun]
      simp [Except.map, hn, Deque.reply]
  | lrange start stop =>
      rcases lrange_run hS h.represents hlength start stop with
        ⟨s', hrun, hview⟩
      refine ⟨s', m, ?_, by rw [hview]; exact h⟩
      rw [perform, run_bind_of_some S _ hrun]
      rfl
  | lindex index =>
      rcases lindex_run hS h.represents hlength index with ⟨s', hrun, hview⟩
      refine ⟨s', m, ?_, by rw [hview]; exact h⟩
      rw [perform, run_bind_of_some S _ hrun]
      rfl

theorem performAll_run (hS : BehavesAsMap S view) {key : Bytes}
    (commands : List (ListCommand Bytes)) (fuel : Nat)
    {items : List Bytes} {m : ListMeta} {s : S.State}
    (h : Roomy key (commands.map ListCommand.lpushed).sum
      (commands.map ListCommand.rpushed).sum 0 items m (view s))
    (hne : forall command, command ∈ commands -> command.Nonempty)
    (hlength : forall before, before <+: commands ->
      (Deque.after items before).length < 2 ^ 63) :
    exists s' m', (performAll (fuel + 1) key commands).run S s =
        some ((Deque.replies items commands).map .ok, s') ∧
      Represents (view s') key (Deque.after items commands) m' := by
  induction commands generalizing items m s with
  | nil => exact ⟨s, m, rfl, h.represents⟩
  | cons command commands ih =>
      simp only [List.map_cons, List.sum_cons] at h
      rw [Nat.add_comm command.lpushed, Nat.add_comm command.rpushed] at h
      have hfirst := hlength [command] ⟨commands, rfl⟩
      rcases perform_run hS command fuel h (hne command List.mem_cons_self)
          hfirst with ⟨s1, m1, hrun1, hroomy1⟩
      have hlater : forall before, before <+: commands ->
          (Deque.after (Deque.next items command) before).length < 2 ^ 63 := by
        intro before hbefore
        exact hlength (command :: before)
          (List.cons_prefix_cons.mpr ⟨rfl, hbefore⟩)
      rcases ih hroomy1 (fun c hc => hne c (List.mem_cons_of_mem _ hc)) hlater
        with ⟨s2, m2, hrun2, hrep2⟩
      refine ⟨s2, m2, ?_, hrep2⟩
      rw [performAll, run_bind_of_some S _ hrun1, run_bind_of_some S _ hrun2]
      rfl

/-- Lists refine double-ended queues.  Starting from an absent list, with room
for the pushes among the positions, every command sequence is answered as the
queue answers it, and the metadata and the value keys stay consistent. -/
theorem performAll_refines_deque (hS : BehavesAsMap S view) (key : Bytes)
    (commands : List (ListCommand Bytes)) (fuel : Nat) (s : S.State)
    (habsent : Absent (view s) key)
    (hne : forall command, command ∈ commands -> command.Nonempty)
    (hleft : (commands.map ListCommand.lpushed).sum <= 2 ^ 63 + 1000000000)
    (hright : (commands.map ListCommand.rpushed).sum < 2 ^ 63 - 1000000000)
    (hlength : forall before, before <+: commands ->
      (Deque.after [] before).length < 2 ^ 63) :
    exists s', (performAll (fuel + 1) key commands).run S s =
        some ((Deque.replies [] commands).map .ok, s') ∧
      Consistent (view s') key := by
  have hhead : initialMeta.head.toInt = 1000000000 := by decide
  have htail : initialMeta.tail.toInt = 1000000000 := by decide
  have hroomy : Roomy key (commands.map ListCommand.lpushed).sum
      (commands.map ListCommand.rpushed).sum 0 [] initialMeta (view s) := by
    refine ⟨habsent.represents, ?_, ?_, by decide⟩
    · rw [hhead]
      omega
    · rw [htail]
      omega
  rcases performAll_run hS commands fuel hroomy hne hlength with
    ⟨s', m', hrun, hrep⟩
  exact ⟨s', hrun, hrep.consistent⟩

/-- A list that is filled from both ends, emptied from the left, and filled
again from the right. -/
theorem performAll_refines_deque_refilled :
    let key := asBytes "k"
    let commands : List (ListCommand Bytes) :=
      [.lpush [[1], [2]], .rpush [[3]], .lrange (-2) 7, .lpop (some 9),
        .rpush [[4]], .lindex (-1), .rpop none, .llen]
    exists s', (performAll 1 key commands).run mapStore
        (∅ : MapStore.Entries) =
        some ((Deque.replies [] commands).map .ok, s') ∧
      Consistent (MapStore.view s') key := by
  apply performAll_refines_deque MapStore.behavesAsMap
  · exact ⟨rfl, fun _ => rfl⟩
  · simp [ListCommand.Nonempty]
  · decide
  · decide
  · intro before hbefore
    rw [← List.mem_inits] at hbefore
    revert before
    decide

end ListOperations

end FeoxServer
