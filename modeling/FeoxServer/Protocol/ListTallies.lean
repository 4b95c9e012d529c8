import FeoxServer.Foundation.Bags
import FeoxServer.Protocol.ListIsolation

/-!
# What a list command does call by call

Pushes publish a position in the metadata before they put the value there, and
pops take a position out of the metadata before they take the value.  Between
its calls a command therefore owes a value to a position, or has a claim to one.
-/

namespace FeoxServer

open Foundation Prog

namespace ListOperations

/-!
# The window of the metadata
-/

def window (m : ListMeta) (pos : Int64) : Int :=
  if m.head <= pos ∧ pos < m.tail then 1 else 0

/-- The metadata describes a window, and there is room for more values. -/
structure Sound (room : Nat) (m : ListMeta) : Prop where
  span : m.tail.toInt = m.head.toInt + m.count.toNat
  left : -2 ^ 63 + room <= m.head.toInt
  right : m.tail.toInt + room < 2 ^ 63
  length : m.count.toNat + room < 2 ^ 63

theorem sound_initialMeta {room : Nat} (h : room < 2 ^ 63 - 1000000000) :
    Sound room initialMeta := by
  have hhead : initialMeta.head.toInt = 1000000000 := by decide
  have htail : initialMeta.tail.toInt = 1000000000 := by decide
  have hcount : initialMeta.count.toNat = 0 := rfl
  refine ⟨?_, ?_, ?_, ?_⟩
  · rw [hhead, htail, hcount]
    rfl
  · rw [hhead]
    omega
  · rw [htail]
    omega
  · rw [hcount]
    omega

theorem window_of_empty {room : Nat} {m : ListMeta} (h : Sound room m)
    (hcount : m.count = 0) (pos : Int64) : window m pos = 0 := by
  have hspan := h.span
  have hzero : m.count.toNat = 0 := by
    rw [hcount]
    rfl
  apply if_neg
  rw [Int64.le_iff_toInt_le, Int64.lt_iff_toInt_lt]
  omega

theorem count_eq_zero_of_lengthIn {v : Bytes -> Option Bytes} {key : Bytes}
    {room : Nat} {m : ListMeta} (h : Stored v key m) (hsound : Sound room m)
    (hlength : lengthIn v key = 0) : m.count = 0 := by
  unfold lengthIn at hlength
  rcases h with hstored | ⟨_, hinitial⟩
  · rw [hstored] at hlength
    simp only [parseMetadata_buildMetadata] at hlength
    have hbound := hsound.length
    have hcount := toInt_toInt64_of_lt (n := m.count) (by omega)
    rw [hlength] at hcount
    have hzero : m.count.toNat = 0 := Int.natCast_eq_zero.mp hcount.symm
    exact UInt64.toNat_inj.mp hzero
  · rw [hinitial]
    rfl

theorem Represents.shown {S : FeoxStore} {view : S.State -> Bytes -> Option Bytes}
    (hS : BehavesAsMap S view) {key : Bytes} {items : List Bytes} {m : ListMeta}
    {s : S.State} (h : Represents (view s) key items m) (hlength : items.length < 2 ^ 63) :
    exists n s1 s2, (lrange key 0 (-1)).run S s = some (.ok items, s1) ∧
      (llen key).run S s = some (.ok n, s2) ∧ n.toInt = items.length := by
  have hall : Deque.range items 0 (-1) = items := by
    simp [Deque.range]
  rcases lrange_run hS h hlength 0 (-1) with ⟨s1, hrange, _⟩
  rcases llen_run hS h hlength with ⟨s2, n, hlen, hn, _⟩
  change (lrange key 0 (-1)).run S _ = some (.ok (Deque.range items 0 (-1)), s1) at hrange
  rw [hall] at hrange
  exact ⟨n, s1, s2, hrange, hlen, hn⟩

/-- A push takes one position into the window. -/
structure Opens (pushMeta : ListMeta -> ListMeta × Int64) : Prop where
  sound : forall {room m}, Sound (room + 1) m -> Sound room (pushMeta m).1
  window : forall {room m}, Sound (room + 1) m -> forall pos,
    window (pushMeta m).1 pos =
      ListOperations.window m pos + if pos = (pushMeta m).2 then 1 else 0

/-- A pop leaves one position out of the window. -/
structure Closes (popMeta : ListMeta -> ListMeta × Int64) : Prop where
  sound : forall {room m}, Sound room m -> m.count ≠ 0 -> Sound room (popMeta m).1
  window : forall {room m}, Sound room m -> m.count ≠ 0 -> forall pos,
    window (popMeta m).1 pos + (if pos = (popMeta m).2 then 1 else 0) =
      ListOperations.window m pos

theorem eq_iff_toInt (p q : Int64) : p = q <-> p.toInt = q.toInt :=
  Int64.toInt_inj.symm

theorem count_pos {n : UInt64} (h : n ≠ 0) : 0 < n.toNat := by
  refine Nat.pos_of_ne_zero fun hzero => h ?_
  rw [← UInt64.toNat_inj, hzero]
  rfl

theorem window_add {m m' : ListMeta} {p : Int64}
    (h : forall x : Int, m'.head.toInt <= x ∧ x < m'.tail.toInt <->
      (m.head.toInt <= x ∧ x < m.tail.toInt) ∨ x = p.toInt)
    (hout : ¬ (m.head.toInt <= p.toInt ∧ p.toInt < m.tail.toInt)) (pos : Int64) :
    window m' pos = window m pos + if pos = p then 1 else 0 := by
  unfold window
  simp only [Int64.le_iff_toInt_le, Int64.lt_iff_toInt_lt, h, eq_iff_toInt pos p]
  by_cases hp : pos.toInt = p.toInt
  · rw [hp, if_pos (Or.inr rfl), if_neg hout, if_pos rfl]
    rfl
  · rw [if_neg hp, add_zero]
    exact if_congr (or_iff_left hp) rfl rfl

/-- `m'` describes one position more than `m`, at one of its ends. -/
structure Extends (m m' : ListMeta) (pos : Int64) : Prop where
  count : m'.count.toNat = m.count.toNat + 1
  ends : (m'.head.toInt = m.head.toInt - 1 ∧ m'.tail.toInt = m.tail.toInt ∧
      pos.toInt = m'.head.toInt) ∨
    (m'.head.toInt = m.head.toInt ∧ m'.tail.toInt = m.tail.toInt + 1 ∧
      pos.toInt = m.tail.toInt)

theorem Extends.window {m m' : ListMeta} {pos : Int64} (h : Extends m m' pos)
    {room : Nat} (hsound : Sound room m) (p : Int64) :
    window m' p = window m p + if p = pos then 1 else 0 := by
  have hspan := hsound.span
  have hends := h.ends
  apply window_add
  · intro x
    omega
  · omega

theorem Extends.sound {m m' : ListMeta} {pos : Int64} (h : Extends m m' pos)
    {room : Nat} (hsound : Sound (room + 1) m) : Sound room m' := by
  have hcount := h.count
  have hends := h.ends
  have hspan := hsound.span
  have hleft := hsound.left
  have hright := hsound.right
  have hlength := hsound.length
  exact ⟨by omega, by omega, by omega, by omega⟩

theorem Extends.sound_back {m m' : ListMeta} {pos : Int64} (h : Extends m m' pos)
    {room : Nat} (hsound : Sound room m') : Sound room m := by
  have hcount := h.count
  have hends := h.ends
  have hspan := hsound.span
  have hleft := hsound.left
  have hright := hsound.right
  have hlength := hsound.length
  exact ⟨by omega, by omega, by omega, by omega⟩

theorem opens_of_extends {pushMeta : ListMeta -> ListMeta × Int64}
    (h : forall {room m}, Sound (room + 1) m ->
      Extends m (pushMeta m).1 (pushMeta m).2) : Opens pushMeta where
  sound := fun hsound => (h hsound).sound hsound
  window := fun hsound => (h hsound).window hsound

theorem closes_of_extends {popMeta : ListMeta -> ListMeta × Int64}
    (h : forall {room m}, Sound room m -> m.count ≠ 0 ->
      Extends (popMeta m).1 m (popMeta m).2) : Closes popMeta where
  sound := fun hsound hne => (h hsound hne).sound_back hsound
  window := by
    intro room m hsound hne pos
    have hextends := h hsound hne
    exact (hextends.window (hextends.sound_back hsound) pos).symm

theorem Sound.head_eq_tail {room : Nat} {m : ListMeta} (h : Sound room m)
    (hzero : m.count = 0) : m.head.toInt = m.tail.toInt := by
  have hspan := h.span
  have hcount : m.count.toNat = 0 := by
    rw [hzero]
    rfl
  omega

theorem opens_lpushMeta : Opens lpushMeta := by
  apply opens_of_extends
  intro room m h
  have hspan := h.span
  have hleft := h.left
  have hlength := h.length
  have htail : (lpushMeta m).1.tail.toInt = m.tail.toInt := by
    unfold lpushMeta
    by_cases hzero : m.count = 0
    · simp only [if_pos hzero]
      exact h.head_eq_tail hzero
    · simp only [if_neg hzero]
  constructor
  · exact toNat_add_one rfl (by omega)
  · exact Or.inl ⟨toInt_sub_one (by omega), htail, rfl⟩

theorem opens_rpushMeta : Opens rpushMeta := by
  apply opens_of_extends
  intro room m h
  have hspan := h.span
  have hright := h.right
  have hlength := h.length
  have hhead : (rpushMeta m).1.head.toInt = m.head.toInt := by
    unfold rpushMeta
    by_cases hzero : m.count = 0
    · simp only [if_pos hzero]
      exact (h.head_eq_tail hzero).symm
    · simp only [if_neg hzero]
  constructor
  · exact toNat_add_one rfl (by omega)
  · exact Or.inr ⟨hhead, toInt_add_one (by omega), rfl⟩

theorem count_sub_one {n : UInt64} (h : n ≠ 0) : n.toNat = (n - 1).toNat + 1 := by
  have hpos := count_pos h
  have hcount : (n - 1).toNat = n.toNat - 1 := toNat_sub_one (by omega)
  omega

theorem closes_lpopMeta : Closes lpopMeta := by
  apply closes_of_extends
  intro room m h hne
  have hspan := h.span
  have hpos := count_pos hne
  have htail := m.tail.toInt_lt
  have hhead : (lpopMeta m).1.head.toInt = m.head.toInt + 1 := toInt_add_one (by omega)
  constructor
  · exact count_sub_one hne
  · exact Or.inl ⟨by omega, rfl, rfl⟩

theorem closes_rpopMeta : Closes rpopMeta := by
  apply closes_of_extends
  intro room m h hne
  have hspan := h.span
  have hpos := count_pos hne
  have hhead := m.head.le_toInt
  have htail : (rpopMeta m).1.tail.toInt = m.tail.toInt - 1 := toInt_sub_one (by omega)
  constructor
  · exact count_sub_one hne
  · exact Or.inr ⟨rfl, by omega, rfl⟩

/-!
# What is left of a command
-/

/-- What a command has to do with a position between two of its calls. -/
inductive Hand where
  | free
  | placing (pos : Int64)
  | claiming (pos : Int64)
  | holding (pos : Int64) (value : Bytes)

/-- A value that is still to come counts against the position, and a value that
is still to be taken away counts for it. -/
def Hand.balance : Hand -> Int64 -> Int
  | free, _ => 0
  | placing p, pos => if pos = p then -1 else 0
  | claiming p, pos => if pos = p then 1 else 0
  | holding p _, pos => if pos = p then 1 else 0

/-- How far a command has come: whether it knows that there is metadata, how
many values it may still publish, and what it has put and taken. -/
structure ListMark where
  hand : Hand
  seen : Bool
  room : Nat
  pushed : Multiset Bytes
  popped : Multiset Bytes

variable {α β : Type}

def Fails (p : StoreProg (Except Error α)) : Prop :=
  exists e, p = .done (.error e)

/-- What is left of a command at a mark.  Every call of a push or a pop is one
of these; only the answers that the list can give are followed. -/
inductive Moves (key : Bytes) (Q : ListMark -> Except Error α -> Prop) :
    ListMark -> StoreProg (Except Error α) -> Prop where
  | done {mark : ListMark} {r : Except Error α} :
      mark.hand = .free -> Q mark r -> Moves key Q mark (.done r)
  | exhausted {mark : ListMark} : Moves key Q mark .exhausted
  | look {mark : ListMark}
      {next : Except FeoxError Bytes -> StoreProg (Except Error α)} :
      mark.hand = .free ->
        (forall metaBytes, Moves key Q { mark with seen := true } (next (.ok metaBytes))) ->
          (mark.seen = false -> forall e, Moves key Q mark (next (.error e))) ->
            Moves key Q mark (.ask (.getBytes (metaKey key)) next)
  | create {mark : ListMark}
      {next : Except FeoxError Unit -> StoreProg (Except Error α)} :
      mark.hand = .free -> Moves key Q { mark with seen := true } (next (.ok ())) ->
        Moves key Q mark (.ask (.insert (metaKey key) initialMetadata) next)
  | publishNew {mark : ListMark} {pushMeta : ListMeta -> ListMeta × Int64}
      {room : Nat} {next : Except FeoxError Unit -> StoreProg (Except Error α)} :
      mark.hand = .free -> Opens pushMeta -> mark.room = room + 1 ->
        Moves key Q { mark with
          hand := .placing (pushMeta initialMeta).2, seen := true, room := room }
            (next (.ok ())) ->
          Moves key Q mark (.ask (.insert (metaKey key)
            (buildMetadata (pushMeta initialMeta).1)) next)
  | publish {mark : ListMark} {pushMeta : ListMeta -> ListMeta × Int64}
      {room : Nat} {metaBytes : Bytes}
      {next : Except FeoxError Bool -> StoreProg (Except Error α)} :
      mark.hand = .free -> mark.seen = true -> Opens pushMeta ->
        mark.room = room + 1 ->
          Moves key Q { mark with
            hand := .placing (pushMeta (parseMetadata metaBytes)).2, room := room }
              (next (.ok true)) ->
            (mark.pushed = 0 ∨ ¬ Fails (next (.ok false)) ->
              Moves key Q mark (next (.ok false))) ->
              Moves key Q mark (.ask (.compareAndSwap (metaKey key) metaBytes
                (buildMetadata (pushMeta (parseMetadata metaBytes)).1)) next)
  | put {mark : ListMark} {pos : Int64} {value : Bytes}
      {next : Except FeoxError Unit -> StoreProg (Except Error α)} :
      mark.hand = .placing pos ->
        Moves key Q { mark with hand := .free, pushed := mark.pushed + {value} }
            (next (.ok ())) ->
          Moves key Q mark (.ask (.insert (valueKey key pos) value) next)
  | claim {mark : ListMark} {popMeta : ListMeta -> ListMeta × Int64}
      {metaBytes : Bytes}
      {next : Except FeoxError Bool -> StoreProg (Except Error α)} :
      mark.hand = .free -> mark.seen = true -> Closes popMeta ->
        (parseMetadata metaBytes).count ≠ 0 ->
          Moves key Q { mark with
            hand := .claiming (popMeta (parseMetadata metaBytes)).2 }
              (next (.ok true)) ->
            Moves key Q mark (next (.ok false)) ->
              Moves key Q mark (.ask (.compareAndSwap (metaKey key) metaBytes
                (buildMetadata (popMeta (parseMetadata metaBytes)).1)) next)
  | fetch {mark : ListMark} {pos : Int64}
      {next : Except FeoxError Bytes -> StoreProg (Except Error α)} :
      mark.hand = .claiming pos ->
        (forall value, Moves key Q { mark with hand := .holding pos value }
          (next (.ok value))) ->
          Moves key Q mark (.ask (.getBytes (valueKey key pos)) next)
  | remove {mark : ListMark} {pos : Int64} {value : Bytes}
      {next : Except FeoxError Unit -> StoreProg (Except Error α)} :
      mark.hand = .holding pos value ->
        Moves key Q { mark with hand := .free, popped := mark.popped + {value} }
            (next (.ok ())) ->
          Moves key Q mark (.ask (.delete (valueKey key pos)) next)

theorem Fails.bind {p : StoreProg (Except Error α)}
    {f : Except Error α -> StoreProg (Except Error β)}
    (hf : forall e, Fails (f (.error e))) (h : Fails p) : Fails (p >>= f) := by
  rcases h with ⟨e, rfl⟩
  exact hf e

theorem Moves.bind {key : Bytes} {Q : ListMark -> Except Error α -> Prop}
    {R : ListMark -> Except Error β -> Prop} {mark : ListMark}
    {p : StoreProg (Except Error α)}
    {f : Except Error α -> StoreProg (Except Error β)} (h : Moves key Q mark p)
    (hf : forall mark r, mark.hand = .free -> Q mark r -> Moves key R mark (f r))
    (hfails : forall e, Fails (f (.error e))) : Moves key R mark (p >>= f) := by
  induction h with
  | done hhand hQ => exact hf _ _ hhand hQ
  | exhausted => exact .exhausted
  | look hhand _ _ ihok iherror =>
      exact .look hhand ihok fun hseen e => iherror hseen e
  | create hhand _ ih => exact .create hhand ih
  | publishNew hhand hopens hroom _ ih => exact .publishNew hhand hopens hroom ih
  | publish hhand hseen hopens hroom _ _ ihtrue ihfalse =>
      refine .publish hhand hseen hopens hroom ihtrue fun h => ihfalse ?_
      exact h.imp_right fun hnot hfail => hnot (hfail.bind hfails)
  | put hhand _ ih => exact .put hhand ih
  | claim hhand hseen hcloses hcount _ _ ihtrue ihfalse =>
      exact .claim hhand hseen hcloses hcount ihtrue ihfalse
  | fetch hhand _ ih => exact .fetch hhand ih
  | remove hhand _ ih => exact .remove hhand ih

theorem Moves.weaken {key : Bytes} {Q R : ListMark -> Except Error α -> Prop}
    {mark : ListMark} {p : StoreProg (Except Error α)} (h : Moves key Q mark p)
    (hQ : forall mark r, Q mark r -> R mark r) : Moves key R mark p := by
  rw [← bind_done p]
  exact h.bind (fun mark r hhand hr => .done hhand (hQ mark r hr)) fun e => ⟨e, rfl⟩

def PushedOne (mark : ListMark) (room : Nat) (value : Bytes) (mark' : ListMark) :
    Except Error Unit -> Prop
  | .ok _ => mark' = { mark with
      seen := true, room := room, pushed := mark.pushed + {value} }
  | .error _ => mark'.pushed = 0 ∧ mark'.popped = mark.popped

theorem moves_pushOne {pushMeta : ListMeta -> ListMeta × Int64}
    (hopens : Opens pushMeta) (key value : Bytes) (fuel retries : Nat)
    {mark : ListMark} (hhand : mark.hand = .free) {room : Nat}
    (hroom : mark.room = room + 1) :
    Moves key (PushedOne mark room value) mark
      (pushOne pushMeta key value fuel retries) := by
  induction fuel generalizing mark retries with
  | zero => exact .exhausted
  | succ fuel ih =>
      refine .look hhand (fun metaBytes => ?_) fun _ e => ?_
      · refine .publish hhand rfl hopens hroom ?_ fun hfails => ?_
        · exact .put rfl (.done rfl (by rw [PushedOne, hhand]))
        · by_cases hlast : retries + 1 >= maxRetries
          · simp only [if_pos hlast] at hfails ⊢
            have hnone := hfails.resolve_right fun hnot => hnot ⟨_, rfl⟩
            exact .done hhand ⟨hnone, rfl⟩
          · simp only [if_neg hlast]
            exact @ih (retries + 1) { mark with seen := true } hhand hroom
      · refine .create hhand ?_
        refine .publishNew hhand hopens hroom ?_
        exact .put rfl (.done rfl (by rw [PushedOne, hhand]))

def Pushed (mark : ListMark) (values : List Bytes) (mark' : ListMark) :
    Except Error Unit -> Prop
  | .ok _ => mark'.pushed = mark.pushed + values ∧ mark'.popped = mark.popped ∧
      (values ≠ [] ∨ mark.seen = true -> mark'.seen = true)
  | .error _ => mark'.pushed = 0 ∧ mark'.popped = mark.popped

theorem moves_pushAll {pushMeta : ListMeta -> ListMeta × Int64}
    (hopens : Opens pushMeta) (fuel : Nat) (key : Bytes) (values : List Bytes)
    {mark : ListMark} (hhand : mark.hand = .free)
    (hroom : mark.room = values.length) :
    Moves key (Pushed mark values) mark (pushAll pushMeta fuel key values) := by
  induction values generalizing mark with
  | nil =>
      refine .done hhand ⟨(add_zero _).symm, rfl, fun h => ?_⟩
      exact h.resolve_left fun hne => hne rfl
  | cons value values ih =>
      refine (moves_pushOne hopens key value fuel 0 hhand hroom).bind ?_ fun e => ⟨e, rfl⟩
      intro mark' r hhand' hr
      cases r with
      | error e => exact .done hhand' hr
      | ok u =>
          change mark' = _ at hr
          subst hr
          refine (@ih { mark with
            seen := true, room := values.length, pushed := mark.pushed + {value} }
              hhand rfl).weaken fun mark'' r hr => ?_
          cases r with
          | error e => exact hr
          | ok u =>
              rcases hr with ⟨hpushed, hpopped, hseen⟩
              refine ⟨?_, hpopped, fun _ => hseen (Or.inr rfl)⟩
              rw [hpushed, add_assoc, Multiset.singleton_add, Multiset.cons_coe]

def pushedBy : ListCommand Bytes -> Except Error (ListReply Bytes) -> Multiset Bytes
  | .lpush values, .ok _ => values
  | .rpush values, .ok _ => values
  | _, _ => 0

def poppedBy : ListCommand Bytes -> Except Error (ListReply Bytes) -> Multiset Bytes
  | .lpop _, .ok (.values values) => values
  | .rpop _, .ok (.values values) => values
  | _, _ => 0

def Returned (command : ListCommand Bytes) (mark : ListMark)
    (r : Except Error (ListReply Bytes)) : Prop :=
  mark.pushed = pushedBy command r ∧ mark.popped = poppedBy command r

def freshMark (room : Nat) : ListMark where
  hand := .free
  seen := false
  room := room
  pushed := 0
  popped := 0

/-- What is known when a push of `values` has returned. -/
def PushReturned (values : List Bytes) (mark : ListMark) : Except Error Int64 -> Prop
  | .ok _ => mark.pushed = values ∧ mark.popped = 0
  | .error _ => mark.pushed = 0 ∧ mark.popped = 0

theorem moves_push {pushMeta : ListMeta -> ListMeta × Int64}
    (hopens : Opens pushMeta) (fuel : Nat) (key : Bytes) (values : List Bytes) :
    Moves key (PushReturned values) (freshMark values.length)
      (push pushMeta fuel key values) := by
  have hall : Moves key (Pushed (freshMark values.length) values)
      (freshMark values.length) (pushAll pushMeta fuel key values) :=
    moves_pushAll hopens fuel key values rfl rfl
  refine hall.bind ?_ fun e => ⟨e, rfl⟩
  intro mark r hhand hr
  cases r with
  | error e => exact .done hhand hr
  | ok u =>
      rcases hr with ⟨hpushed, hpopped, hseen⟩
      have hvalues : mark.pushed = values := hpushed.trans (zero_add _)
      refine .look hhand (fun metaBytes => ?_) fun hunseen e => ?_
      · exact .done hhand ⟨hvalues, hpopped⟩
      · -- Nothing was pushed, or the metadata has been seen.
        have hnil : values = [] := by
          by_contra hne
          rw [hseen (Or.inl hne)] at hunseen
          contradiction
        rw [hnil] at hvalues
        exact .done hhand ⟨hvalues, hpopped⟩

def PoppedOne (mark : ListMark) (mark' : ListMark) :
    Except Error (Option Bytes) -> Prop
  | .ok value => mark'.pushed = mark.pushed ∧ mark'.popped = mark.popped + bag value
  | .error _ => False

theorem moves_popOne {popMeta : ListMeta -> ListMeta × Int64}
    (hcloses : Closes popMeta) (key : Bytes) (fuel retries : Nat)
    {mark : ListMark} (hhand : mark.hand = .free) :
    Moves key (PoppedOne mark) mark (popOne popMeta key fuel retries) := by
  induction fuel generalizing mark retries with
  | zero => exact .exhausted
  | succ fuel ih =>
      have hnone : PoppedOne mark mark (.ok none) := ⟨rfl, (add_zero _).symm⟩
      refine .look hhand (fun metaBytes => ?_) fun _ e => .done hhand hnone
      change Moves key _ _ (if _ then _ else _)
      by_cases hempty : (parseMetadata metaBytes).count = 0 ∨
          (parseMetadata metaBytes).tail <= (parseMetadata metaBytes).head
      · rw [if_pos hempty]
        exact .done hhand hnone
      · rw [if_neg hempty]
        have hcount : (parseMetadata metaBytes).count ≠ 0 := fun h => hempty (Or.inl h)
        refine .claim hhand rfl hcloses hcount ?_ ?_
        · refine .fetch rfl fun value => ?_
          exact .remove rfl (.done rfl ⟨rfl, rfl⟩)
        · change Moves key _ _ (if _ then _ else _)
          by_cases hlast : retries + 1 >= maxRetries
          · rw [if_pos hlast]
            exact .done hhand hnone
          · rw [if_neg hlast]
            exact @ih (retries + 1) { mark with seen := true } hhand

def PopReturned (mark : ListMark) : Except Error (List Bytes) -> Prop
  | .ok values => mark.pushed = 0 ∧ mark.popped = values
  | .error _ => False

theorem moves_popLoop {popMeta : ListMeta -> ListMeta × Int64}
    (hcloses : Closes popMeta) (fuel : Nat) (key : Bytes) (n : Nat)
    (popped : List Bytes) {mark : ListMark} (hhand : mark.hand = .free)
    (hmark : PopReturned mark (.ok popped)) :
    Moves key PopReturned mark (popLoop popMeta fuel key n popped) := by
  induction n generalizing mark popped with
  | zero => exact .done hhand hmark
  | succ n ih =>
      refine (moves_popOne hcloses key fuel 0 hhand).bind ?_ fun e => ⟨e, rfl⟩
      intro mark' r hhand' hr
      rcases hmark with ⟨hpushed, hpopped⟩
      cases r with
      | error e => exact hr.elim
      | ok value =>
          rcases hr with ⟨hpushed', hpopped'⟩
          rw [hpushed] at hpushed'
          rw [hpopped] at hpopped'
          cases value with
          | none => exact .done hhand' ⟨hpushed', hpopped'.trans (add_zero _)⟩
          | some value =>
              refine ih (popped ++ [value]) hhand' ⟨hpushed', ?_⟩
              rw [hpopped', ← Multiset.coe_add]
              rfl

theorem moves_pop {popMeta : ListMeta -> ListMeta × Int64}
    (hcloses : Closes popMeta) (fuel : Nat) (key : Bytes) (count : Option UInt64) :
    Moves key PopReturned (freshMark 0) (pop popMeta fuel key count) :=
  moves_popLoop hcloses fuel key _ [] rfl ⟨rfl, rfl⟩

/-- The commands that put values into the list or take values out. -/
inductive Changes : ListCommand Bytes -> Prop where
  | lpush (values : List Bytes) : Changes (.lpush values)
  | rpush (values : List Bytes) : Changes (.rpush values)
  | lpop (count : Option UInt64) : Changes (.lpop count)
  | rpop (count : Option UInt64) : Changes (.rpop count)

theorem Moves.reply {key : Bytes} {command : ListCommand Bytes}
    {Q : ListMark -> Except Error α -> Prop} {mark : ListMark}
    {p : StoreProg (Except Error α)} (h : Moves key Q mark p)
    (f : α -> ListReply Bytes)
    (hQ : forall mark r, Q mark r -> Returned command mark (r.map f)) :
    Moves key (Returned command) mark (p >>= fun r => pure (r.map f)) :=
  h.bind (fun mark r hhand hr => .done hhand (hQ mark r hr)) fun e => ⟨e, rfl⟩

theorem moves_perform {command : ListCommand Bytes} (h : Changes command)
    (fuel : Nat) (key : Bytes) :
    Moves key (Returned command)
      (freshMark (command.lpushed + command.rpushed)) (perform fuel key command) := by
  cases h with
  | lpush values =>
      refine (moves_push opens_lpushMeta fuel key values).reply _ fun mark r hr => ?_
      cases r with
      | ok n => exact hr
      | error e => exact hr
  | rpush values =>
      have hroom : (ListCommand.rpush values).lpushed +
          (ListCommand.rpush values).rpushed = values.length := Nat.zero_add _
      rw [hroom]
      refine (moves_push opens_rpushMeta fuel key values).reply _ fun mark r hr => ?_
      cases r with
      | ok n => exact hr
      | error e => exact hr
  | lpop count =>
      refine (moves_pop closes_lpopMeta fuel key count).reply _ fun mark r hr => ?_
      cases r with
      | ok values => exact hr
      | error e => exact hr.elim
  | rpop count =>
      refine (moves_pop closes_rpopMeta fuel key count).reply _ fun mark r hr => ?_
      cases r with
      | ok values => exact hr
      | error e => exact hr.elim

end ListOperations

end FeoxServer
