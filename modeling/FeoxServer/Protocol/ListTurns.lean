import FeoxServer.Protocol.ListTallies

/-!
# List commands side by side

Pushes and pops of several threads take turns on one list.  No value is lost or
doubled as long as nobody overtakes a push between its metadata and its value,
or a pop between its metadata and its deletion.
-/

namespace FeoxServer

open Foundation Prog

namespace ListOperations

noncomputable instance fintypeInt64 : Fintype Int64 :=
  have : Finite Int64 := Finite.of_injective (fun pos => pos.toBitVec.toFin) fun _ _ h =>
    Int64.toBitVec_inj.mp (BitVec.toFin_inj.mp h)
  Fintype.ofFinite Int64

/-!
# The account of a list
-/

section Account

variable {ι : Type} [DecidableEq ι] [Fintype ι]

def occupied (x : Option Bytes) : Int :=
  if x.isSome then 1 else 0

/-- Every position of the window has its value, except that some are owed, and
some values outside have a claim; all that was put and not taken is in the store. -/
structure Balanced (key : Bytes) (v : Bytes -> Option Bytes) (mark : ι -> ListMark)
    (m : ListMeta) : Prop where
  stored : v (metaKey key) = some (buildMetadata m) ∨
    v (metaKey key) = none ∧ m = initialMeta ∧ forall i, (mark i).seen = false
  room : (∑ i, (mark i).room) < 2 ^ 63 - 1000000000
  sound : Sound (∑ i, (mark i).room) m
  positions : forall pos, window m pos + ∑ i, (mark i).hand.balance pos =
    occupied (v (valueKey key pos))
  contents : (∑ i, (mark i).pushed) =
    (∑ i, (mark i).popped) + held fun pos => v (valueKey key pos)

variable {key : Bytes} {v : Bytes -> Option Bytes} {mark : ι -> ListMark}
  {m : ListMeta} {i : ι} {g : ListMark}

omit [DecidableEq ι] in
theorem Balanced.stored_of_seen (h : Balanced key v mark m) (hseen : (mark i).seen = true) :
    v (metaKey key) = some (buildMetadata m) := by
  rcases h.stored with hstored | ⟨_, _, hunseen⟩
  · exact hstored
  · rw [hunseen i] at hseen
    contradiction

theorem Balanced.keep (h : Balanced key v mark m)
    (hseen : g.seen = (mark i).seen ∨ (v (metaKey key)).isSome)
    (hhand : g.hand.balance = (mark i).hand.balance) (hroom : g.room = (mark i).room)
    (hpushed : g.pushed = (mark i).pushed) (hpopped : g.popped = (mark i).popped) :
    Balanced key v (Function.update mark i g) m := by
  have hrooms := sum_update_of_eq (fun _ : ι => ListMark.room) hroom
  refine ⟨?_, ?_, ?_, fun pos => ?_, ?_⟩
  · rcases h.stored with hstored | ⟨hnone, hinitial, hunseen⟩
    · exact Or.inl hstored
    · refine Or.inr ⟨hnone, hinitial, fun j => ?_⟩
      by_cases hj : j = i
      · subst hj
        rw [Function.update_self]
        rw [hnone] at hseen
        exact (hseen.resolve_right Bool.false_ne_true).trans (hunseen j)
      · rw [Function.update_of_ne hj]
        exact hunseen j
  · rw [hrooms]
    exact h.room
  · rw [hrooms]
    exact h.sound
  · rw [sum_update_of_eq (fun _ : ι => fun g : ListMark => g.hand.balance pos)
      (congrFun hhand pos)]
    exact h.positions pos
  · rw [sum_update_of_eq (fun _ : ι => ListMark.pushed) hpushed,
      sum_update_of_eq (fun _ : ι => ListMark.popped) hpopped]
    exact h.contents

theorem valueKeys_update_metaKey (key : Bytes) (v : Bytes -> Option Bytes)
    (value : Option Bytes) (pos : Int64) :
    Function.update v (metaKey key) value (valueKey key pos) = v (valueKey key pos) :=
  Function.update_of_ne (valueKey_ne_metaKey key pos) _ _

theorem Balanced.write_meta {m' : ListMeta} (h : Balanced key v mark m)
    (hroom : g.room <= (mark i).room)
    (hsound : Sound (∑ j, (Function.update mark i g j).room) m')
    (hwindow : forall pos, window m' pos + g.hand.balance pos =
      window m pos + (mark i).hand.balance pos)
    (hpushed : g.pushed = (mark i).pushed) (hpopped : g.popped = (mark i).popped) :
    Balanced key (Function.update v (metaKey key) (some (buildMetadata m')))
      (Function.update mark i g) m' := by
  refine ⟨Or.inl (Function.update_self _ _ _), ?_, hsound, fun pos => ?_, ?_⟩
  · have hrooms := sum_update_add (fun _ : ι => ListMark.room) mark i g
    have hbound := h.room
    omega
  · have hhands := sum_update_add (fun _ : ι => fun g : ListMark => g.hand.balance pos)
      mark i g
    have hpos := h.positions pos
    have hmoved := hwindow pos
    rw [valueKeys_update_metaKey]
    omega
  · simp only [valueKeys_update_metaKey]
    rw [sum_update_of_eq (fun _ : ι => ListMark.pushed) hpushed,
      sum_update_of_eq (fun _ : ι => ListMark.popped) hpopped]
    exact h.contents

theorem valueKeys_update_valueKey (key : Bytes) (v : Bytes -> Option Bytes)
    (value : Option Bytes) (pos : Int64) :
    (fun p => Function.update v (valueKey key pos) value (valueKey key p)) =
      Function.update (fun p => v (valueKey key p)) pos value := by
  funext p
  by_cases hp : p = pos
  · rw [hp, Function.update_self, Function.update_self]
  · rw [Function.update_of_ne hp, Function.update_of_ne ((valueKey_injective key).ne hp)]

theorem Balanced.write_value {pos : Int64} {value : Option Bytes}
    (h : Balanced key v mark m) (hseen : g.seen = (mark i).seen)
    (hroom : g.room = (mark i).room)
    (hhand : forall p, g.hand.balance p = (mark i).hand.balance p +
      if p = pos then occupied value - occupied (v (valueKey key pos)) else 0)
    (hcontents : g.pushed + (mark i).popped + held (fun pos => v (valueKey key pos)) =
      (mark i).pushed + g.popped +
        held (Function.update (fun pos => v (valueKey key pos)) pos value)) :
    Balanced key (Function.update v (valueKey key pos) value)
      (Function.update mark i g) m := by
  have hrooms := sum_update_of_eq (fun _ : ι => ListMark.room) hroom
  refine ⟨?_, ?_, ?_, fun p => ?_, ?_⟩
  · rw [Function.update_of_ne (valueKey_ne_metaKey key pos).symm]
    refine h.stored.imp_right fun ⟨hnone, hinitial, hunseen⟩ => ⟨hnone, hinitial, fun j => ?_⟩
    by_cases hj : j = i
    · subst hj
      rw [Function.update_self, hseen]
      exact hunseen j
    · rw [Function.update_of_ne hj]
      exact hunseen j
  · rw [hrooms]
    exact h.room
  · rw [hrooms]
    exact h.sound
  · have hhands := sum_update_add (fun _ : ι => fun g : ListMark => g.hand.balance p)
      mark i g
    have hpos := h.positions p
    have hmoved := hhand p
    have hcell := congrFun (valueKeys_update_valueKey key v value pos) p
    rw [show Function.update v (valueKey key pos) value (valueKey key p) = _ from hcell]
    by_cases hp : p = pos
    · subst hp
      rw [if_pos rfl] at hmoved
      rw [Function.update_self]
      omega
    · rw [if_neg hp] at hmoved
      rw [Function.update_of_ne hp]
      omega
  · have hpushed := sum_update_add (fun _ : ι => ListMark.pushed) mark i g
    have hpopped := sum_update_add (fun _ : ι => ListMark.popped) mark i g
    have hbefore := h.contents
    rw [valueKeys_update_valueKey]
    refine add_right_cancel (b := (mark i).pushed + (mark i).popped) ?_
    calc (∑ j, (Function.update mark i g j).pushed) + ((mark i).pushed + (mark i).popped)
        = (∑ j, (mark j).pushed) + g.pushed + (mark i).popped := by
          rw [← add_assoc, hpushed]
      _ = (∑ j, (mark j).popped) +
          (g.pushed + (mark i).popped + held fun pos => v (valueKey key pos)) := by
          rw [hbefore]
          ac_rfl
      _ = (∑ j, (mark j).popped) + g.popped + ((mark i).pushed +
          held (Function.update (fun pos => v (valueKey key pos)) pos value)) := by
          rw [hcontents]
          ac_rfl
      _ = _ := by
          rw [← hpopped]
          ac_rfl

omit [DecidableEq ι] in
theorem Balanced.count_eq_zero (h : Balanced key v mark m) (hlength : lengthIn v key = 0) :
    m.count = 0 :=
  count_eq_zero_of_lengthIn (h.stored.imp_right fun hnone => ⟨hnone.1, hnone.2.1⟩)
    h.sound hlength

theorem Balanced.create (h : Balanced key v mark m) (hcount : m.count = 0) :
    Balanced key (Function.update v (metaKey key) (some (buildMetadata initialMeta)))
      (Function.update mark i { mark i with seen := true }) initialMeta := by
  have hrooms : (∑ j, (Function.update mark i { mark i with seen := true } j).room) =
      ∑ j, (mark j).room := sum_update_of_eq (fun _ : ι => ListMark.room) rfl
  have hsound := sound_initialMeta h.room
  refine h.write_meta (le_refl _) ?_ (fun pos => ?_) rfl rfl
  · rw [hrooms]
    exact hsound
  · rw [window_of_empty h.sound hcount, window_of_empty hsound rfl]

theorem Balanced.publish {pushMeta : ListMeta -> ListMeta × Int64} {base : ListMeta}
    {room : Nat} (h : Balanced key v mark m) (hopens : Opens pushMeta)
    (hhand : (mark i).hand = .free) (hroom : (mark i).room = room + 1)
    (hsound : Sound (∑ j, (mark j).room) base)
    (hwindow : forall pos, window base pos = window m pos)
    (hg : g = { mark i with
      hand := .placing (pushMeta base).2, seen := g.seen, room := room }) :
    Balanced key (Function.update v (metaKey key) (some (buildMetadata (pushMeta base).1)))
      (Function.update mark i g) (pushMeta base).1 := by
  have hrooms := sum_update_add (fun _ : ι => ListMark.room) mark i g
  have hgroom : g.room = room := by rw [hg]
  have htotal : (∑ j, (mark j).room) = (∑ j, (Function.update mark i g j).room) + 1 := by
    omega
  rw [htotal] at hsound
  refine h.write_meta (by omega) (hopens.sound hsound) (fun pos => ?_) (by rw [hg])
    (by rw [hg])
  have hopened := hopens.window hsound pos
  rw [hwindow] at hopened
  rw [hg, hopened, hhand]
  simp only [Hand.balance]
  split
  · omega
  · omega

theorem Balanced.put {pos : Int64} (h : Balanced key v mark m) (value : Bytes)
    (hhand : (mark i).hand = .placing pos) (hempty : v (valueKey key pos) = none) :
    Balanced key (Function.update v (valueKey key pos) (some value))
      (Function.update mark i { mark i with
        hand := .free, pushed := (mark i).pushed + {value} }) m := by
  refine h.write_value rfl rfl (fun p => ?_) ?_
  · rw [hhand, hempty]
    simp only [Hand.balance, occupied]
    split
    · rfl
    · rfl
  · rw [held_put (f := fun pos => v (valueKey key pos)) hempty]
    change (mark i).pushed + {value} + (mark i).popped + _ =
      (mark i).pushed + (mark i).popped + _
    ac_rfl

theorem Balanced.claim {popMeta : ListMeta -> ListMeta × Int64}
    (h : Balanced key v mark m) (hcloses : Closes popMeta)
    (hhand : (mark i).hand = .free) (hcount : m.count ≠ 0) :
    Balanced key (Function.update v (metaKey key) (some (buildMetadata (popMeta m).1)))
      (Function.update mark i { mark i with hand := .claiming (popMeta m).2 })
      (popMeta m).1 := by
  have hrooms : (∑ j, (Function.update mark i
      { mark i with hand := .claiming (popMeta m).2 } j).room) = ∑ j, (mark j).room :=
    sum_update_of_eq (fun _ : ι => ListMark.room) rfl
  refine h.write_meta (le_refl _) ?_ (fun pos => ?_) rfl rfl
  · rw [hrooms]
    exact hcloses.sound h.sound hcount
  · rw [← hcloses.window h.sound hcount pos, hhand]
    exact (add_zero _).symm

theorem Balanced.remove {pos : Int64} {value : Bytes} (h : Balanced key v mark m)
    (hhand : (mark i).hand = .holding pos value)
    (hstored : v (valueKey key pos) = some value) :
    Balanced key (Function.update v (valueKey key pos) none)
      (Function.update mark i { mark i with
        hand := .free, popped := (mark i).popped + {value} }) m := by
  refine h.write_value rfl rfl (fun p => ?_) ?_
  · rw [hhand, hstored]
    simp only [Hand.balance, occupied]
    split
    · rfl
    · rfl
  · rw [← held_take (f := fun pos => v (valueKey key pos)) hstored]
    change (mark i).pushed + (mark i).popped + _ =
      (mark i).pushed + ((mark i).popped + {value}) + _
    ac_rfl

omit [DecidableEq ι] in
theorem Balanced.represents (h : Balanced key v mark m)
    (hfree : forall i, (mark i).hand = .free) :
    exists items, Represents v key items m ∧ items.length < 2 ^ 63 ∧
      (∑ i, (mark i).pushed) = (∑ i, (mark i).popped) + items := by
  have hspan := h.sound.span
  have hlength := h.sound.length
  have hhead := inRange_toInt m.head
  have htail := inRange_toInt m.tail
  unfold InRange at hhead htail
  have hin : forall pos, (v (valueKey key pos)).isSome <->
      m.head.toInt <= pos.toInt ∧ pos.toInt < m.head.toInt + m.count.toNat := by
    intro pos
    have hpos := h.positions pos
    simp only [hfree, Hand.balance, Finset.sum_const_zero, add_zero, window,
      occupied, Int64.le_iff_toInt_le, Int64.lt_iff_toInt_lt, hspan] at hpos
    by_cases hsome : (v (valueKey key pos)).isSome
    · rw [if_pos hsome] at hpos
      refine ⟨fun _ => ?_, fun _ => hsome⟩
      by_contra hout
      rw [if_neg hout] at hpos
      contradiction
    · rw [if_neg hsome] at hpos
      refine ⟨fun hyes => absurd hyes hsome, fun hwindow => ?_⟩
      rw [if_pos hwindow] at hpos
      contradiction
  rcases exists_holds toInt_injective m.count.toNat (fun k hk =>
      ⟨Int64.ofInt (m.head.toInt + k), Int64.toInt_ofInt_of_le (by omega) (by omega)⟩)
      hin with ⟨items, hitems, hholds, hbag⟩
  refine ⟨items, ⟨h.stored.imp_right fun hnone => ⟨hnone.1, hnone.2.1⟩, hitems.symm, ?_,
    hholds⟩, by omega, ?_⟩
  · rw [hspan, hitems]
  · rw [h.contents, hbag]

end Account

/-!
# Turns
-/

section Turns

variable {S : FeoxStore} {view : S.State -> Bytes -> Option Bytes} {ι : Type}
  {key : Bytes}

def isPut (key : Bytes) : Exchange StoreCall StoreAnswer -> Bool
  | ⟨.insert k _, _⟩ => k ≠ metaKey key
  | _ => false

def valueRead : Exchange StoreCall StoreAnswer -> Option Bytes
  | ⟨.getBytes _, .ok value⟩ => some value
  | _ => none

def givesUp {α : Type} : StoreProg (Except Error α) -> Bool
  | .done (.error _) => true
  | _ => false

/-- No other command has come in between.  Metadata is written over only while
the list is empty, a value is put where there is none, the value of a popped
position is there and is deleted as it was read, and a push does not give up
after it has put a value. -/
def undisturbed (view : S.State -> Bytes -> Option Bytes) (key : Bytes)
    (pool : Pool S ι (Except Error (ListReply Bytes))) (i : ι) : Bool :=
  match pool.thread i with
  | .ask (.insert k _) _ =>
      if k = metaKey key then lengthIn (view pool.state) key = 0
      else (view pool.state k).isNone
  | .ask (.getBytes k) _ => k = metaKey key ∨ (view pool.state k).isSome
  | .ask (.delete k) _ => view pool.state k = (pool.log i).head?.bind valueRead
  | .ask (.compareAndSwap k expected _) next =>
      givesUp (next (.ok false)) && (pool.log i).any (isPut key) ->
        view pool.state k = some expected
  | _ => true

/-- A thread attends to a command: what is left of it, and what it has done. -/
structure Attends (key : Bytes) (command : ListCommand Bytes) (mark : ListMark)
    (log : List (Exchange StoreCall StoreAnswer))
    (p : StoreProg (Except Error (ListReply Bytes))) : Prop where
  moves : Moves key (Returned command) mark p
  read : forall {pos value}, mark.hand = .holding pos value ->
    log.head?.bind valueRead = some value
  put : mark.pushed ≠ 0 -> log.any (isPut key) = true

theorem Attends.next {command : ListCommand Bytes} {mark g : ListMark}
    {log : List (Exchange StoreCall StoreAnswer)}
    {p p' : StoreProg (Except Error (ListReply Bytes))} {c : StoreCall}
    {a : StoreAnswer c} (h : Attends key command mark log p)
    (hmoves : Moves key (Returned command) g p')
    (hread : forall {pos value}, g.hand = .holding pos value ->
      valueRead ⟨c, a⟩ = some value)
    (hput : g.pushed = mark.pushed ∨ isPut key ⟨c, a⟩ = true) :
    Attends key command g (⟨c, a⟩ :: log) p' where
  moves := hmoves
  read := hread
  put hne := by
    rw [List.any_cons]
    rcases hput with hsame | hput
    · rw [h.put (by rwa [← hsame]), Bool.or_true]
    · rw [hput, Bool.true_or]

theorem fails_iff {α : Type} (p : StoreProg (Except Error α)) :
    Fails p <-> givesUp p = true := by
  constructor
  · rintro ⟨e, rfl⟩
    rfl
  · intro h
    match p with
    | .done (.error e) => exact ⟨e, rfl⟩

section Settling

variable [DecidableEq ι] [Fintype ι] {command : ListCommand Bytes}
  {mark : ι -> ListMark} {i : ι} {m : ListMeta} {s : S.State}
  {log : List (Exchange StoreCall StoreAnswer)}

/-- Behind the reply to a call the thread attends to the rest of its command, and the
account is balanced. -/
def Settled (view : S.State -> Bytes -> Option Bytes) (key : Bytes)
    (command : ListCommand Bytes) (mark : ι -> ListMark) (i : ι)
    (log : List (Exchange StoreCall StoreAnswer)) (s : S.State) (c : StoreCall)
    (next : StoreAnswer c -> StoreProg (Except Error (ListReply Bytes))) : Prop :=
  exists g, Attends key command g (⟨c, (S.reply c s).1⟩ :: log) (next (S.reply c s).1) ∧
    exists m, Balanced key (view (S.reply c s).2) (Function.update mark i g) m

theorem swap_cases (hS : BehavesAsMap S view)
    (hmeta : view s (metaKey key) = some (buildMetadata m)) (metaBytes new : Bytes) :
    (buildMetadata m = metaBytes ∧ exists s',
        S.reply (.compareAndSwap (metaKey key) metaBytes new) s = (.ok true, s') ∧
          view s' = Function.update (view s) (metaKey key) (some new)) ∨
      buildMetadata m ≠ metaBytes ∧ exists s',
        S.reply (.compareAndSwap (metaKey key) metaBytes new) s = (.ok false, s') ∧
          view s' = view s := by
  by_cases hequal : buildMetadata m = metaBytes
  · subst hequal
    exact Or.inl ⟨rfl, hS.compareAndSwap_equal _ hmeta⟩
  · exact Or.inr ⟨hequal, hS.compareAndSwap_differs _ hmeta hequal⟩

theorem Attends.unchanged {c : StoreCall} {a : StoreAnswer c} {s' : S.State}
    {p p' : StoreProg (Except Error (ListReply Bytes))}
    (h : Attends key command (mark i) log p) (hb : Balanced key (view s) mark m)
    (hhand : (mark i).hand = .free) (hmoves : Moves key (Returned command) (mark i) p')
    (hview : view s' = view s) :
    exists g, Attends key command g (⟨c, a⟩ :: log) p' ∧
      exists m, Balanced key (view s') (Function.update mark i g) m := by
  refine ⟨mark i, h.next hmoves (fun h => nomatch hhand.symm.trans h) (Or.inl rfl), m, ?_⟩
  rw [Function.update_eq_self, hview]
  exact hb

theorem settled_look (hS : BehavesAsMap S view) (hb : Balanced key (view s) mark m)
    {next : Except FeoxError Bytes -> StoreProg (Except Error (ListReply Bytes))}
    (h : Attends key command (mark i) log (.ask (.getBytes (metaKey key)) next))
    (hhand : (mark i).hand = .free)
    (hok : forall metaBytes, Moves key (Returned command)
      { mark i with seen := true } (next (.ok metaBytes)))
    (herror : (mark i).seen = false -> forall e,
      Moves key (Returned command) (mark i) (next (.error e))) :
    Settled view key command mark i log s (.getBytes (metaKey key)) next := by
  unfold Settled
  cases hmeta : view s (metaKey key) with
  | some metaBytes =>
      rcases hS.getBytes_present hmeta with ⟨s', hreply, hview⟩
      rw [hreply, hview]
      exact ⟨{ mark i with seen := true },
        h.next (hok metaBytes) (fun h => nomatch hhand.symm.trans h) (Or.inl rfl),
        m, hb.keep (Or.inr (by rw [hmeta]; rfl)) rfl rfl rfl rfl⟩
  | none =>
      have hunseen : (mark i).seen = false := by
        rw [← Bool.not_eq_true]
        intro hseen
        rw [hb.stored_of_seen hseen] at hmeta
        contradiction
      rcases hS.getBytes_absent hmeta with ⟨e, s', hreply, hview⟩
      rw [hreply]
      exact h.unchanged hb hhand (herror hunseen e) hview

theorem settled_create (hS : BehavesAsMap S view) (hb : Balanced key (view s) mark m)
    {next : Except FeoxError Unit -> StoreProg (Except Error (ListReply Bytes))}
    (h : Attends key command (mark i) log
      (.ask (.insert (metaKey key) initialMetadata) next))
    (hhand : (mark i).hand = .free) (hempty : lengthIn (view s) key = 0)
    (hnext : Moves key (Returned command) { mark i with seen := true } (next (.ok ()))) :
    Settled view key command mark i log s (.insert (metaKey key) initialMetadata)
      next := by
  unfold Settled
  rcases hS.insert s (metaKey key) initialMetadata with ⟨s', hreply, hview⟩
  rw [hreply, hview]
  exact ⟨{ mark i with seen := true },
    h.next hnext (fun h => nomatch hhand.symm.trans h) (Or.inl rfl), initialMeta,
    hb.create (hb.count_eq_zero hempty)⟩

theorem settled_publishNew (hS : BehavesAsMap S view)
    (hb : Balanced key (view s) mark m) {pushMeta : ListMeta -> ListMeta × Int64}
    {room : Nat}
    {next : Except FeoxError Unit -> StoreProg (Except Error (ListReply Bytes))}
    (h : Attends key command (mark i) log
      (.ask (.insert (metaKey key) (buildMetadata (pushMeta initialMeta).1)) next))
    (hhand : (mark i).hand = .free) (hopens : Opens pushMeta)
    (hroom : (mark i).room = room + 1) (hempty : lengthIn (view s) key = 0)
    (hnext : Moves key (Returned command) { mark i with
      hand := .placing (pushMeta initialMeta).2, seen := true, room := room }
        (next (.ok ()))) :
    Settled view key command mark i log s
      (.insert (metaKey key) (buildMetadata (pushMeta initialMeta).1)) next := by
  unfold Settled
  rcases hS.insert s (metaKey key) (buildMetadata (pushMeta initialMeta).1) with
    ⟨s', hreply, hview⟩
  rw [hreply, hview]
  have hcount := hb.count_eq_zero hempty
  have hsound := sound_initialMeta hb.room
  refine ⟨_, h.next hnext (fun h => nomatch h) (Or.inl rfl), _,
    hb.publish hopens hhand hroom hsound (fun pos => ?_) rfl⟩
  rw [window_of_empty hsound rfl, window_of_empty hb.sound hcount]

theorem settled_publish (hS : BehavesAsMap S view) (hb : Balanced key (view s) mark m)
    {pushMeta : ListMeta -> ListMeta × Int64} {room : Nat} {metaBytes : Bytes}
    {next : Except FeoxError Bool -> StoreProg (Except Error (ListReply Bytes))}
    (h : Attends key command (mark i) log (.ask (.compareAndSwap (metaKey key) metaBytes
      (buildMetadata (pushMeta (parseMetadata metaBytes)).1)) next))
    (hhand : (mark i).hand = .free) (hseen : (mark i).seen = true)
    (hopens : Opens pushMeta) (hroom : (mark i).room = room + 1)
    (hkept : givesUp (next (.ok false)) && log.any (isPut key) ->
      view s (metaKey key) = some metaBytes)
    (htrue : Moves key (Returned command) { mark i with
      hand := .placing (pushMeta (parseMetadata metaBytes)).2, room := room }
        (next (.ok true)))
    (hfalse : (mark i).pushed = 0 ∨ ¬ Fails (next (.ok false)) ->
      Moves key (Returned command) (mark i) (next (.ok false))) :
    Settled view key command mark i log s (.compareAndSwap (metaKey key) metaBytes
      (buildMetadata (pushMeta (parseMetadata metaBytes)).1)) next := by
  unfold Settled
  have hmeta := hb.stored_of_seen hseen
  rcases swap_cases hS hmeta metaBytes
      (buildMetadata (pushMeta (parseMetadata metaBytes)).1) with
    ⟨rfl, s', hreply, hview⟩ | ⟨hdiffers, s', hreply, hview⟩
  · rw [hreply, hview]
    rw [parseMetadata_buildMetadata] at htrue ⊢
    exact ⟨_, h.next htrue (fun h => nomatch h) (Or.inl rfl), _,
      hb.publish hopens hhand hroom hb.sound (fun _ => rfl) rfl⟩
  · rw [hreply]
    refine h.unchanged hb hhand (hfalse ?_) hview
    by_cases hnone : (mark i).pushed = 0
    · exact Or.inl hnone
    · refine Or.inr fun hfail => hdiffers ?_
      have hstored := hkept (Bool.and_eq_true_iff.mpr
        ⟨(fails_iff _).mp hfail, h.put hnone⟩)
      exact Option.some.inj (hmeta.symm.trans hstored)

theorem settled_put (hS : BehavesAsMap S view) (hb : Balanced key (view s) mark m)
    {pos : Int64} {value : Bytes}
    {next : Except FeoxError Unit -> StoreProg (Except Error (ListReply Bytes))}
    (h : Attends key command (mark i) log (.ask (.insert (valueKey key pos) value) next))
    (hhand : (mark i).hand = .placing pos) (hnone : view s (valueKey key pos) = none)
    (hnext : Moves key (Returned command)
      { mark i with hand := .free, pushed := (mark i).pushed + {value} }
        (next (.ok ()))) :
    Settled view key command mark i log s (.insert (valueKey key pos) value) next := by
  unfold Settled
  rcases hS.insert s (valueKey key pos) value with ⟨s', hreply, hview⟩
  rw [hreply, hview]
  refine ⟨_, h.next hnext (fun h => nomatch h) (Or.inr ?_), m, hb.put value hhand hnone⟩
  exact decide_eq_true (valueKey_ne_metaKey key pos)

theorem settled_claim (hS : BehavesAsMap S view) (hb : Balanced key (view s) mark m)
    {popMeta : ListMeta -> ListMeta × Int64} {metaBytes : Bytes}
    {next : Except FeoxError Bool -> StoreProg (Except Error (ListReply Bytes))}
    (h : Attends key command (mark i) log (.ask (.compareAndSwap (metaKey key) metaBytes
      (buildMetadata (popMeta (parseMetadata metaBytes)).1)) next))
    (hhand : (mark i).hand = .free) (hseen : (mark i).seen = true)
    (hcloses : Closes popMeta) (hcount : (parseMetadata metaBytes).count ≠ 0)
    (htrue : Moves key (Returned command)
      { mark i with hand := .claiming (popMeta (parseMetadata metaBytes)).2 }
        (next (.ok true)))
    (hfalse : Moves key (Returned command) (mark i) (next (.ok false))) :
    Settled view key command mark i log s (.compareAndSwap (metaKey key) metaBytes
      (buildMetadata (popMeta (parseMetadata metaBytes)).1)) next := by
  unfold Settled
  have hmeta := hb.stored_of_seen hseen
  rcases swap_cases hS hmeta metaBytes
      (buildMetadata (popMeta (parseMetadata metaBytes)).1) with
    ⟨rfl, s', hreply, hview⟩ | ⟨_, s', hreply, hview⟩
  · rw [hreply, hview]
    rw [parseMetadata_buildMetadata] at htrue hcount ⊢
    exact ⟨_, h.next htrue (fun h => nomatch h) (Or.inl rfl), _,
      hb.claim hcloses hhand hcount⟩
  · rw [hreply]
    exact h.unchanged hb hhand hfalse hview

theorem settled_fetch (hS : BehavesAsMap S view) (hb : Balanced key (view s) mark m)
    {pos : Int64}
    {next : Except FeoxError Bytes -> StoreProg (Except Error (ListReply Bytes))}
    (h : Attends key command (mark i) log (.ask (.getBytes (valueKey key pos)) next))
    (hhand : (mark i).hand = .claiming pos)
    (hsome : (view s (valueKey key pos)).isSome = true)
    (hnext : forall value, Moves key (Returned command)
      { mark i with hand := .holding pos value } (next (.ok value))) :
    Settled view key command mark i log s (.getBytes (valueKey key pos)) next := by
  unfold Settled
  rcases Option.isSome_iff_exists.mp hsome with ⟨value, hvalue⟩
  rcases hS.getBytes_present hvalue with ⟨s', hreply, hview⟩
  rw [hreply, hview]
  refine ⟨{ mark i with hand := .holding pos value },
    h.next (hnext value) (fun h => ?_) (Or.inl rfl), m,
    hb.keep (Or.inl rfl) (by rw [hhand]; rfl) rfl rfl rfl⟩
  cases h
  rfl

theorem settled_remove (hS : BehavesAsMap S view) (hb : Balanced key (view s) mark m)
    {pos : Int64} {value : Bytes}
    {next : Except FeoxError Unit -> StoreProg (Except Error (ListReply Bytes))}
    (h : Attends key command (mark i) log (.ask (.delete (valueKey key pos)) next))
    (hhand : (mark i).hand = .holding pos value)
    (hstored : view s (valueKey key pos) = some value)
    (hnext : Moves key (Returned command)
      { mark i with hand := .free, popped := (mark i).popped + {value} }
        (next (.ok ()))) :
    Settled view key command mark i log s (.delete (valueKey key pos)) next := by
  unfold Settled
  rcases hS.delete_present hstored with ⟨s', hreply, hview⟩
  rw [hreply, hview]
  exact ⟨_, h.next hnext (fun h => nomatch h) (Or.inl rfl), m, hb.remove hhand hstored⟩

end Settling

variable [DecidableEq ι] [Fintype ι]

theorem tallies_run (hS : BehavesAsMap S view) {command : ι -> ListCommand Bytes}
    {pool : Pool S ι (Except Error (ListReply Bytes))} {turns : List ι}
    (h : pool.Marked (fun i => Attends key (command i))
      fun s mark => exists m, Balanced key (view s) mark m)
    (hturns : pool.Meets (fun pool i => undisturbed view key pool i = true) turns) :
    (pool.run turns).Marked (fun i => Attends key (command i))
      fun s mark => exists m, Balanced key (view s) mark m := by
  refine Pool.run_marked ?_ h hturns
  rintro pool i c next mark hthread hlocal ⟨m, hb⟩ hgood
  change Settled view key (command i) mark i (pool.log i) pool.state c next
  have hi := hlocal i
  unfold undisturbed at hgood
  rw [hthread] at hi hgood
  cases hi.moves with
  | look hhand hok herror => exact settled_look hS hb hi hhand hok herror
  | create hhand hnext =>
      simp only [if_pos] at hgood
      exact settled_create hS hb hi hhand (of_decide_eq_true hgood) hnext
  | publishNew hhand hopens hroom hnext =>
      simp only [if_pos] at hgood
      exact settled_publishNew hS hb hi hhand hopens hroom (of_decide_eq_true hgood) hnext
  | publish hhand hseen hopens hroom htrue hfalse =>
      exact settled_publish hS hb hi hhand hseen hopens hroom (of_decide_eq_true hgood)
        htrue hfalse
  | put hhand hnext =>
      rename_i pos value next
      simp only [if_neg (valueKey_ne_metaKey key pos)] at hgood
      exact settled_put hS hb hi hhand (Option.isNone_iff_eq_none.mp hgood) hnext
  | claim hhand hseen hcloses hcount htrue hfalse =>
      exact settled_claim hS hb hi hhand hseen hcloses hcount htrue hfalse
  | fetch hhand hnext =>
      rename_i pos next
      exact settled_fetch hS hb hi hhand ((of_decide_eq_true hgood).resolve_left
        (valueKey_ne_metaKey key pos)) hnext
  | remove hhand hnext =>
      exact settled_remove hS hb hi hhand
        ((of_decide_eq_true hgood).trans (hi.read hhand)) hnext

/-- The list after the commands: its length is the length of its range, and what
was pushed is what was popped and what the range shows. -/
def Tallied (S : FeoxStore) (key : Bytes)
    (command : ι -> ListCommand Bytes) (s : S.State)
    (result : ι -> Except Error (ListReply Bytes)) : Prop :=
  exists items n s1 s2, (lrange key 0 (-1)).run S s = some (.ok items, s1) ∧
    (llen key).run S s = some (.ok n, s2) ∧ n.toInt = items.length ∧
      (∑ i, pushedBy (command i) (result i)) =
        (∑ i, poppedBy (command i) (result i)) + items

/-- No value is lost or doubled in a run in which nobody comes in between. -/
theorem tallied_of_undisturbed (hS : BehavesAsMap S view)
    {command : ι -> ListCommand Bytes} (hcommand : forall i, Changes (command i))
    (fuel : Nat) {s : S.State} (habsent : Absent (view s) key)
    (hroom : (∑ i, ((command i).lpushed + (command i).rpushed)) < 2 ^ 63 - 1000000000)
    {pool : Pool S ι (Except Error (ListReply Bytes))}
    (hpool : pool = .start s fun i => perform fuel key (command i))
    {turns : List ι}
    (hturns : pool.Meets (fun pool i => undisturbed view key pool i = true) turns)
    {result : ι -> Except Error (ListReply Bytes)}
    (hfinished : (pool.run turns).Finished result) :
    Tallied S key command (pool.run turns).state result := by
  have hbalanced : Balanced key (view s)
      (fun i => freshMark ((command i).lpushed + (command i).rpushed)) initialMeta := by
    refine ⟨Or.inr ⟨habsent.1, rfl, fun _ => rfl⟩, hroom, sound_initialMeta hroom, ?_, ?_⟩
    · intro pos
      rw [habsent.2 pos, window_of_empty (sound_initialMeta hroom) rfl, zero_add]
      simp [freshMark, Hand.balance, occupied]
    · simp [held, bag, freshMark, habsent.2]
  have hmarked : pool.Marked (fun i => Attends key (command i))
      fun s mark => exists m, Balanced key (view s) mark m := by
    subst hpool
    exact ⟨_, fun i => ⟨moves_perform (hcommand i) fuel key, by rintro _ _ ⟨⟩,
      fun h => absurd rfl h⟩, initialMeta, hbalanced⟩
  rcases tallies_run hS hmarked hturns with ⟨mark, hlocal, m, hend⟩
  have hreturned : forall i, (mark i).hand = .free ∧ Returned (command i) (mark i) (result i) := by
    intro i
    have hi := (hlocal i).moves
    rw [hfinished i] at hi
    cases hi with
    | done hhand hr => exact ⟨hhand, hr⟩
  rcases hend.represents fun i => (hreturned i).1 with ⟨items, hrep, hlength, hsum⟩
  rcases hrep.shown hS hlength with ⟨n, s1, s2, hrange, hlen, hn⟩
  refine ⟨items, n, s1, s2, hrange, hlen, hn, ?_⟩
  simp only [(hreturned _).2.1, (hreturned _).2.2] at hsum
  exact hsum

end Turns

/-- A client that pushes one value and a client that pops one. -/
def pushAndPop (i : Fin 2) : ListCommand Bytes :=
  if i = 0 then .rpush [[1]] else .lpop none

abbrev sharing : Pool mapStore (Fin 2) (Except Error (ListReply Bytes)) :=
  .start (∅ : MapStore.Entries) fun i => perform 2 [107] (pushAndPop i)

theorem popped_in_turn :
    Tallied mapStore [107] pushAndPop
      (sharing.run [0, 0, 0, 0, 1, 0, 1, 1, 1]).state
      (fun i => .ok (if i = 0 then .length 1 else .values [[1]])) :=
  tallied_of_undisturbed MapStore.behavesAsMap
    (by
      intro i
      fin_cases i
      · exact .rpush [[1]]
      · exact .lpop none)
    2 (s := (∅ : MapStore.Entries)) ⟨rfl, fun _ => rfl⟩ (by decide) rfl
    (by decide +kernel) (by
      intro i
      fin_cases i
      · rfl
      · rfl)

/-- The pop comes between the metadata of the push and its value. -/
theorem value_lost :
    (sharing.run [0, 0, 0, 1, 1, 1, 1, 0, 0]).Finished
        (fun i => .ok (if i = 0 then .length 0 else .values [])) ∧
      ¬ Tallied mapStore [107] pushAndPop
        (sharing.run [0, 0, 0, 1, 1, 1, 1, 0, 0]).state
        (fun i => .ok (if i = 0 then .length 0 else .values [])) := by
  constructor
  · intro i
    fin_cases i
    · rfl
    · rfl
  · rintro ⟨items, n, s1, s2, hrange, hlen, hn, hsum⟩
    have hzero : ((llen [107]).run mapStore
        (sharing.run [0, 0, 0, 1, 1, 1, 1, 0, 0]).state).map Prod.fst =
          some (.ok 0) := rfl
    rw [hlen] at hzero
    have hn0 : n = 0 := Except.ok.inj (Option.some.inj hzero)
    subst hn0
    have hnil : items = [] := List.length_eq_zero_iff.mp (Int.natCast_eq_zero.mp hn.symm)
    subst hnil
    exact absurd hsum (by decide)

end ListOperations

end FeoxServer
