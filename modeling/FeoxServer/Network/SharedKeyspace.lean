import FeoxServer.Network.KeyspaceTurns
import FeoxServer.Network.OpenConnections

/-!
# Many clients, one keyspace

The workers serve any number of clients in turns of any order.  All of them see one
keyspace: their commands are answered one after the other, those of each client in the
order in which it has sent them.
-/

namespace FeoxServer

open Foundation Prog

/-!
# Orders of commands
-/

abbrev ClientId : Type :=
  ThreadId × Token

/-- Commands with the clients they are from. -/
abbrev Order : Type :=
  List (ClientId × KeyspaceCommand)

namespace Order

def commands (order : Order) : List KeyspaceCommand :=
  order.map Prod.snd

/-- The commands of one client. -/
def own (order : Order) (i : ClientId) : List KeyspaceCommand :=
  order.filterMap fun e => if e.1 = i then some e.2 else none

/-- What one client is replied. -/
def repliesTo (i : ClientId) : Keyspace -> Order -> List RespValue
  | _, [] => []
  | ks, (j, k) :: order =>
      if j = i then ks.reply k :: repliesTo i (ks.next k) order
      else repliesTo i (ks.next k) order

def inRow (i : ClientId) (done : List KeyspaceCommand) : Order :=
  done.map fun k => (i, k)

theorem commands_append (order later : Order) :
    (order ++ later).commands = order.commands ++ later.commands :=
  List.map_append

theorem commands_inRow (i : ClientId) (done : List KeyspaceCommand) :
    (inRow i done).commands = done := by
  unfold commands inRow
  rw [List.map_map]
  exact List.map_id done

theorem own_append (order later : Order) (i : ClientId) :
    (order ++ later).own i = order.own i ++ later.own i :=
  List.filterMap_append

theorem own_inRow_self (i : ClientId) (done : List KeyspaceCommand) :
    (inRow i done).own i = done := by
  unfold own inRow
  rw [List.filterMap_map]
  simp

theorem own_inRow_of_ne {i j : ClientId} (h : j ≠ i) (done : List KeyspaceCommand) :
    (inRow j done).own i = [] := by
  unfold own inRow
  rw [List.filterMap_map]
  simp [h]

theorem repliesTo_append (i : ClientId) (ks : Keyspace) (order later : Order) :
    repliesTo i ks (order ++ later) =
      repliesTo i ks order ++ repliesTo i (ks.after order.commands) later := by
  induction order generalizing ks with
  | nil => rfl
  | cons e order ih =>
      rcases e with ⟨j, k⟩
      change (if j = i then ks.reply k :: repliesTo i (ks.next k) (order ++ later)
        else repliesTo i (ks.next k) (order ++ later)) = (if j = i then
          ks.reply k :: repliesTo i (ks.next k) order
          else repliesTo i (ks.next k) order) ++ repliesTo i (ks.after _) later
      rw [ih]
      split <;> rfl

theorem repliesTo_inRow_self (i : ClientId) (ks : Keyspace)
    (done : List KeyspaceCommand) :
    repliesTo i ks (inRow i done) = ks.replies done := by
  induction done generalizing ks with
  | nil => rfl
  | cons k done ih =>
      refine (if_pos rfl).trans ?_
      exact congrArg (ks.reply k :: ·) (ih (ks.next k))

theorem repliesTo_inRow_of_ne {i j : ClientId} (h : j ≠ i) (ks : Keyspace)
    (done : List KeyspaceCommand) : repliesTo i ks (inRow j done) = [] := by
  induction done generalizing ks with
  | nil => rfl
  | cons k done ih => exact (if_neg h).trans (ih (ks.next k))

/-- Each client's commands are the first ones of its plan. -/
def Follows (plan : ClientId -> List KeyspaceCommand) (order : Order) : Prop :=
  forall i, order.own i <+: plan i

theorem Follows.append {plan : ClientId -> List KeyspaceCommand} {order : Order}
    (h : Follows plan order) {i : ClientId} {done later : List KeyspaceCommand}
    (hplan : plan i = order.own i ++ (done ++ later)) :
    Follows plan (order ++ inRow i done) := by
  intro j
  rw [own_append]
  by_cases hj : i = j
  · subst hj
    rw [own_inRow_self, hplan, ← List.append_assoc]
    exact List.prefix_append _ _
  · rw [own_inRow_of_ne hj, List.append_nil]
    exact h j

end Order

/-!
# Turns
-/

/-- A connection has become ready. -/
structure ClientTurn where
  threadId : ThreadId
  token : Token
  readiness : Readiness

namespace ClientTurn

def client (turn : ClientTurn) : ClientId :=
  (turn.threadId, turn.token)

def input (turn : ClientTurn) : ServerInput :=
  .turn turn.threadId (.ready turn.token turn.readiness)

/-- What some turns bring from one client. -/
def received (i : ClientId) (turns : List ClientTurn) : Bytes :=
  turns.flatMap fun turn => if turn.client = i then turn.readiness.arriving else []

end ClientTurn

namespace Server

variable {ε : Type} {S : FeoxStore} {P : Platform} {cell : S.State -> Bytes -> ε}
  {view : S.State -> Bytes -> Option Bytes} {N : KeyNames} {fuel : Nat}
  {plan : ClientId -> List KeyspaceCommand} {L R : Bytes -> Nat}

/-- In every order the commands can be in, they apply and there is room for them. -/
def Allows (N : KeyNames) (L R : Bytes -> Nat) (plan : ClientId -> List KeyspaceCommand) :
    Prop :=
  forall order : Order, order.Follows plan -> Keyspace.empty.Fits N order.commands ∧
    forall key, (order.commands.map (KeyspaceCommand.lpushed key)).sum <= L key ∧
      (order.commands.map (KeyspaceCommand.rpushed key)).sum <= R key

/-- Behind some turns the clients have been answered in some order. -/
structure Shares (view : S.State -> Bytes -> Option Bytes) (N : KeyNames)
    (L R : Bytes -> Nat) (plan : ClientId -> List KeyspaceCommand) (start : Server S P)
    (turns : List ClientTurn) (order : Order) (s : Server S P) : Prop where
  follows : order.Follows plan
  clients : forall i cl, s.client i.1 i.2 = some cl -> exists cl0 todo,
    start.client i.1 i.2 = some cl0 ∧ plan i = order.own i ++ todo ∧
      cl.connection.Expects todo (ClientTurn.received i turns) ∧
      cl.connection.pendingPubsubMessages = [] ∧
      cl.output = cl0.output ++
        (Order.repliesTo i .empty order).flatMap formatRespResponse
  hosts : exists l r, Hosts view N (Keyspace.empty.after order.commands) l r s.world ∧
    L = KeyspaceCommand.roomLeft l order.commands ∧
    R = KeyspaceCommand.roomRight r order.commands
  running : forall turn, turn ∈ turns ->
    exists w, s.workers[turn.threadId]? = some w ∧ w.running = true

theorem settle_worker (s : Server S P) (u : ThreadId) (w : Worker) (token : Token)
    (r : Reading S P) :
    exists w', (s.settle u w token r).workers = s.workers.set u w' ∧
      w'.running = w.running := by
  unfold settle
  split <;> exact ⟨_, rfl, rfl⟩

theorem hosts_settle {ks : Keyspace} {l r : Bytes -> Nat} {rd : Reading S P}
    (h : Hosts view N ks l r rd.shared.world) (s : Server S P) (u : ThreadId) (w : Worker)
    (token : Token) : Hosts view N ks l r (s.settle u w token rd).world := by
  unfold settle
  split
  · exact h.registered _
  · exact h

theorem deliverTo_nil {s : Server S P} {u : ThreadId} {w : Worker}
    (hw : s.workers[u]? = some w) (writes : List (List SocketWrite)) :
    s.deliverTo u writes [] = s := by
  rw [deliverTo_of_worker hw]
  have hdelivered : w.deliverAll writes [] = w := by
    unfold Worker.deliverAll
    rfl
  rcases List.getElem?_eq_some_iff.mp hw with ⟨hlt, rfl⟩
  rw [hdelivered, List.set_getElem_self]

theorem step_ready {s : Server S P} {turn : ClientTurn} {w : Worker}
    (hw : s.workers[turn.threadId]? = some w) (hrunning : w.running = true) :
    s.step fuel turn.input =
      s.ready fuel turn.threadId w turn.token turn.readiness := by
  unfold step ClientTurn.input
  dsimp only
  rw [hw]
  exact if_pos hrunning

theorem received_cons_self {turn : ClientTurn} (turns : List ClientTurn) :
    ClientTurn.received turn.client (turn :: turns) =
      turn.readiness.arriving ++ ClientTurn.received turn.client turns :=
  congrArg (· ++ ClientTurn.received turn.client turns) (if_pos rfl)

theorem received_cons_of_ne {turn : ClientTurn} {i : ClientId} (h : turn.client ≠ i)
    (turns : List ClientTurn) :
    ClientTurn.received i (turn :: turns) = ClientTurn.received i turns :=
  congrArg (· ++ ClientTurn.received i turns) (if_neg h)

theorem Shares.skip {start s : Server S P} {turn : ClientTurn} {turns : List ClientTurn}
    {order : Order} (h : Shares view N L R plan start (turn :: turns) order s)
    (hnone : s.client turn.threadId turn.token = none) :
    Shares view N L R plan start turns order s := by
  refine ⟨h.follows, fun i cl hi => ?_, h.hosts, fun turn' hmem =>
    h.running turn' (List.mem_cons_of_mem _ hmem)⟩
  have hne : turn.client ≠ i := by
    rintro rfl
    cases hnone.symm.trans hi
  rw [← received_cons_of_ne hne turns]
  exact h.clients i cl hi

theorem Shares.settle {start s : Server S P} {turn : ClientTurn} {turns : List ClientTurn}
    {order : Order} (h : Shares view N L R plan start (turn :: turns) order s)
    {w : Worker} (hw : s.workers[turn.threadId]? = some w) (hrunning : w.running = true)
    {cl cl0 : Client} (hcl : w.connections.lookup turn.token = some cl)
    (hstart : start.client turn.threadId turn.token = some cl0)
    {todo done later : List KeyspaceCommand} {l r : Bytes -> Nat} {rd : Reading S P}
    (hplan : plan turn.client = order.own turn.client ++ todo)
    (houtput : cl.output = cl0.output ++
      (Order.repliesTo turn.client .empty order).flatMap formatRespResponse)
    (hleft : L = KeyspaceCommand.roomLeft (KeyspaceCommand.roomLeft l todo) order.commands)
    (hright : R =
      KeyspaceCommand.roomRight (KeyspaceCommand.roomRight r todo) order.commands)
    (hturned : Reading.Turned view N l r (Keyspace.empty.after order.commands) todo
      (ClientTurn.received turn.client turns) ⟨cl, s.shared w, [], false⟩ done later rd) :
    Shares view N L R plan start turns (order ++ Order.inRow turn.client done)
      (s.settle turn.threadId w turn.token rd) := by
  have hmoved : forall (f : Bytes -> KeyspaceCommand -> Nat) (m : Bytes -> Nat),
      KeyspaceCommand.room f (KeyspaceCommand.room f m todo) order.commands =
        KeyspaceCommand.room f (KeyspaceCommand.room f m later)
          (order ++ Order.inRow turn.client done).commands := by
    intro f m
    rw [Order.commands_append, Order.commands_inRow, hturned.split,
      KeyspaceCommand.room_append, KeyspaceCommand.room_append]
  refine ⟨h.follows.append (hplan.trans (congrArg _ hturned.split)), fun i cl' hi => ?_,
    ⟨_, _, ?_, hleft.trans (hmoved _ l), hright.trans (hmoved _ r)⟩, fun turn' hmem => ?_⟩
  · rw [client_settle hw hcl] at hi
    split at hi
    · rename_i hand
      have heq : i = turn.client := Prod.ext hand.1 hand.2
      subst heq
      rcases Option.ite_none_left_eq_some.mp hi with ⟨_, hclient⟩
      cases hclient
      refine ⟨cl0, later, hstart, ?_, hturned.expects, hturned.messages, ?_⟩
      · rw [hplan, Order.own_append, Order.own_inRow_self, hturned.split,
          List.append_assoc]
      · rw [hturned.output, houtput, Order.repliesTo_append,
          Order.repliesTo_inRow_self, List.flatMap_append, List.append_assoc]
    · rename_i hnot
      have hne : turn.client ≠ i := by
        rintro rfl
        exact hnot ⟨rfl, rfl⟩
      rcases h.clients i cl' hi with ⟨cl1, todo1, hstart1, hplan1, hexpects1, hrest⟩
      rw [received_cons_of_ne hne] at hexpects1
      rw [Order.own_append, Order.own_inRow_of_ne hne, Order.repliesTo_append,
        Order.repliesTo_inRow_of_ne hne, List.append_nil, List.append_nil]
      exact ⟨cl1, todo1, hstart1, hplan1, hexpects1, hrest⟩
  · rw [Order.commands_append, Order.commands_inRow, Keyspace.after_append]
    exact hosts_settle hturned.hosts s turn.threadId w turn.token
  · rcases h.running turn' (List.mem_cons_of_mem _ hmem) with ⟨w1, hw1, hrunning1⟩
    rcases settle_worker s turn.threadId w turn.token rd with ⟨w2, hset, hsame⟩
    rw [hset]
    by_cases heq : turn.threadId = turn'.threadId
    · rw [← heq, List.getElem?_set_self (List.getElem?_eq_some_iff.mp hw).1]
      exact ⟨w2, rfl, hsame.trans hrunning⟩
    · rw [List.getElem?_set_ne heq]
      exact ⟨w1, hw1, hrunning1⟩

theorem shares_step (hS : SharedStore S cell view) (hN : N.Separate)
    (hallows : Allows N L R plan) {start s : Server S P} {turn : ClientTurn}
    {turns : List ClientTurn} {order : Order}
    (h : Shares view N L R plan start (turn :: turns) order s) :
    exists done s', s.step (fuel + 1) turn.input = some s' ∧
      Shares view N L R plan start turns (order ++ Order.inRow turn.client done) s' := by
  rcases h.running turn List.mem_cons_self with ⟨w, hw, hrunning⟩
  have hclient := client_of_worker hw turn.token
  rw [step_ready hw hrunning]
  unfold ready
  cases hcl : w.connections.lookup turn.token with
  | none =>
      refine ⟨[], s, rfl, ?_⟩
      change Shares view N L R plan start turns (order ++ []) s
      rw [List.append_nil]
      exact h.skip (hclient.trans hcl)
  | some cl =>
      rcases h.clients turn.client cl (hclient.trans hcl) with
        ⟨cl0, todo, hstart, hplan, hexpects, hpending, houtput⟩
      rw [received_cons_self] at hexpects
      rcases h.hosts with ⟨l, r, hhosts, hleft, hright⟩
      -- All that the client still wants may come next.
      rcases hallows (order ++ Order.inRow turn.client todo)
        (h.follows.append (hplan.trans (congrArg _ (List.append_nil todo).symm))) with
        ⟨hfits, hroom⟩
      rw [Order.commands_append, Order.commands_inRow] at hfits hroom
      rcases KeyspaceCommand.exists_room KeyspaceCommand.lpushed l
        (fun key => ((hroom key).1).trans_eq (congrFun hleft key)) with ⟨l', rfl⟩
      rcases KeyspaceCommand.exists_room KeyspaceCommand.rpushed r
        (fun key => ((hroom key).2).trans_eq (congrFun hright key)) with ⟨r', rfl⟩
      rcases serve_served hS hN turn.threadId (s.shared w) turn.readiness hexpects hpending
        hhosts (Keyspace.fits_append.mp hfits).2 with ⟨done, later, rd, hserve, hturned⟩
      rcases @worker_settle _ _ s turn.threadId w turn.token rd hw with ⟨w', hw'⟩
      refine ⟨done, s.settle turn.threadId w turn.token rd, ?_,
        h.settle hw hrunning hcl hstart hplan houtput hleft hright hturned⟩
      dsimp only
      rw [hserve]
      refine congrArg some ?_
      rw [hturned.deliveries]
      exact deliverTo_nil hw' _

theorem shares_run (hS : SharedStore S cell view) (hN : N.Separate)
    (hallows : Allows N L R plan) {start s : Server S P} {turns : List ClientTurn}
    {order : Order} (h : Shares view N L R plan start turns order s) :
    exists later s', s.run (fuel + 1) (turns.map ClientTurn.input) = some s' ∧
      Shares view N L R plan start [] (order ++ later) s' := by
  induction turns generalizing s order with
  | nil => exact ⟨[], s, rfl, (List.append_nil order).symm ▸ h⟩
  | cons turn turns ih =>
      rcases shares_step hS hN hallows h with ⟨done, s1, hstep, h1⟩
      rcases ih h1 with ⟨later, s2, hrun, h2⟩
      refine ⟨Order.inRow turn.client done ++ later, s2, ?_, ?_⟩
      · exact runInputs_cons_eq_some.mpr ⟨s1, hstep, hrun⟩
      · rw [← List.append_assoc]
        exact h2

theorem hosts_spare {ks : Keyspace} {l r : Bytes -> Nat} {w : World S P}
    (h : Hosts view N ks l r w) : Hosts view N ks (fun _ => 0) (fun _ => 0) w where
  strings := h.strings
  lists key hkey := by
    rcases h.lists key hkey with ⟨m, hroomy⟩
    have hleft := hroomy.left
    have hright := hroomy.right
    exact ⟨m, hroomy.represents, by omega, by omega, hroomy.length⟩
  fields := h.fields
  tallies := h.tallies
  sizes := h.sizes

/-- A connection that nothing has been read from. -/
structure Fresh (c : Connection) : Prop where
  idle : c.Idle
  inside : c.writePosition <= c.writeBuffer.length
  messages : c.pendingPubsubMessages = []
  unparsed : c.parser.unconsumed = []

/-- All clients of a server see one keyspace.  There is an order of their commands, with
those of each client in its own order, such that everyone is sent what the keyspace
replies to its commands in this order, and the store keeps the keyspace behind them. -/
theorem clients_share_keyspace (hS : SharedStore S cell view) (hN : N.Separate)
    (fuel : Nat) (plan : ClientId -> List KeyspaceCommand) (s : Server S P)
    (turns : List ClientTurn) (hunused : N.Unused view s.world)
    (hallows : Allows N (fun _ => 2 ^ 63 + 1000000000) (fun _ => 2 ^ 63 - 1000000001) plan)
    (hclients : forall i cl, s.client i.1 i.2 = some cl -> Fresh cl.connection ∧
      ClientTurn.received i turns = Connection.requested (plan i) ∧
      Connection.AllSendable (plan i))
    (hrunning : forall turn, turn ∈ turns ->
      exists w, s.workers[turn.threadId]? = some w ∧ w.running = true) :
    exists order s', s.run (fuel + 1) (turns.map ClientTurn.input) = some s' ∧
      order.Follows plan ∧
      (forall i cl', s'.client i.1 i.2 = some cl' -> order.own i = plan i ∧
        exists cl, s.client i.1 i.2 = some cl ∧ cl'.output = cl.output ++
          (Order.repliesTo i .empty order).flatMap formatRespResponse) ∧
      Hosts view N (Keyspace.empty.after order.commands) (fun _ => 0) (fun _ => 0)
        s'.world := by
  have hstart : Shares view N (fun _ => 2 ^ 63 + 1000000000) (fun _ => 2 ^ 63 - 1000000001)
      plan s turns [] s := by
    refine ⟨fun i => List.nil_prefix, fun i cl hi => ?_, ?_, hrunning⟩
    · rcases hclients i cl hi with ⟨hfresh, hreceived, hsendable⟩
      refine ⟨cl, plan i, hi, rfl, ⟨hfresh.idle, hfresh.inside, ?_, ?_, hsendable⟩,
        hfresh.messages, (List.append_nil _).symm⟩
      · rw [hfresh.unparsed]
        rfl
      · rw [hfresh.unparsed, hreceived]
        rfl
    · refine ⟨fun _ => 2 ^ 63 + 1000000000, fun _ => 2 ^ 63 - 1000000001,
        hunused.keeps ⟨fun _ _ => Nat.le_refl _, fun _ _ => ?_⟩, ?_, ?_⟩
      · norm_num
      · funext key
        exact (Nat.zero_add _).symm
      · funext key
        exact (Nat.zero_add _).symm
  rcases shares_run hS hN hallows hstart with ⟨order, s', hrun, hshares⟩
  rw [List.nil_append] at hshares
  rcases hshares.hosts with ⟨l, r, hhosts, _, _⟩
  refine ⟨order, s', hrun, hshares.follows, fun i cl' hi => ?_, hosts_spare hhosts⟩
  rcases hshares.clients i cl' hi with ⟨cl, todo, hcl, hplan, hexpects, _, houtput⟩
  rcases hexpects.nil with ⟨rfl, _⟩
  rw [List.append_nil] at hplan
  exact ⟨hplan.symm, cl, hcl, houtput⟩

def twoClients : Server mapStore idlePlatform :=
  let s := new 2 { requirepass := none }
    (⟨(∅ : MapStore.Entries), (), .new, ∅, ∅⟩ : World mapStore idlePlatform)
  (s.accept 0 (.new 0) none 0).accept 1 (.new 1) none 0

def twoPlans (i : ClientId) : List KeyspaceCommand :=
  if i = (0, 1) then [.string (.set (asBytes "s") (asBytes "v"))]
  else if i = (1, 1) then [.string (.get (asBytes "s"))]
  else []

def twoTurns : List ClientTurn :=
  [⟨0, 1, none, some [(.ok (asBytes "*3\r\n$3\r\nSET\r\n$1\r\ns\r\n$1"), [])], []⟩,
    ⟨1, 1, none, some [(.ok (asBytes "*2\r\n$3\r\nGET\r\n$1\r\ns\r\n"), [.ok 2])], []⟩,
    ⟨0, 1, none, some [(.ok (asBytes "\r\nv\r\n"), [.ok 5])], []⟩]

theorem twoPlans_mem {i : ClientId} {k : KeyspaceCommand} (h : k ∈ twoPlans i) :
    k = .string (.set (asBytes "s") (asBytes "v")) ∨ k = .string (.get (asBytes "s")) := by
  unfold twoPlans at h
  split at h
  · exact Or.inl (List.mem_singleton.mp h)
  · split at h
    · exact Or.inr (List.mem_singleton.mp h)
    · cases h

theorem allows_twoPlans : Allows Keyspace.sampleNames (fun _ => 2 ^ 63 + 1000000000)
    (fun _ => 2 ^ 63 - 1000000001) twoPlans := by
  have hkeys : forall key, key ∈ [asBytes "s"] -> key ∈ Keyspace.sampleNames.strings := by
    intro key hkey
    rw [List.mem_singleton.mp hkey]
    rfl
  have hplain : forall (commands : List KeyspaceCommand) (ks : Keyspace),
      (forall k, k ∈ commands -> k = .string (.set (asBytes "s") (asBytes "v")) ∨
        k = .string (.get (asBytes "s"))) ->
      ks.Fits Keyspace.sampleNames commands ∧ forall key,
        (commands.map (KeyspaceCommand.lpushed key)).sum = 0 ∧
        (commands.map (KeyspaceCommand.rpushed key)).sum = 0 := by
    intro commands
    induction commands with
    | nil => exact fun _ _ => ⟨trivial, fun _ => ⟨rfl, rfl⟩⟩
    | cons k commands ih =>
        intro ks hall
        rcases ih (ks.next k) fun k hk => hall k (List.mem_cons_of_mem _ hk) with
          ⟨hfits, hsums⟩
        rcases hall k List.mem_cons_self with rfl | rfl
        · exact ⟨⟨⟨hkeys, trivial⟩, hfits⟩, fun key =>
            ⟨(Nat.zero_add _).trans (hsums key).1, (Nat.zero_add _).trans (hsums key).2⟩⟩
        · exact ⟨⟨⟨hkeys, trivial⟩, hfits⟩, fun key =>
            ⟨(Nat.zero_add _).trans (hsums key).1, (Nat.zero_add _).trans (hsums key).2⟩⟩
  intro order hfollows
  have hall : forall k, k ∈ order.commands ->
      k = .string (.set (asBytes "s") (asBytes "v")) ∨ k = .string (.get (asBytes "s")) := by
    intro k hk
    rcases List.mem_map.mp hk with ⟨⟨i, k⟩, hmem, rfl⟩
    refine twoPlans_mem ((hfollows i).subset (List.mem_filterMap.mpr ⟨(i, k), hmem, ?_⟩))
    exact if_pos rfl
  rcases hplain order.commands .empty hall with ⟨hfits, hsums⟩
  refine ⟨hfits, fun key => ?_⟩
  rw [(hsums key).1, (hsums key).2]
  exact ⟨Nat.zero_le _, Nat.zero_le _⟩

theorem client_twoClients {i : ClientId} {cl : Client}
    (h : twoClients.client i.1 i.2 = some cl) :
    (i = (0, 1) ∨ i = (1, 1)) ∧ Fresh cl.connection := by
  unfold twoClients at h
  dsimp only at h
  rw [client_accept rfl, client_accept rfl, client_new] at h
  split at h
  · rename_i hand
    cases h
    exact ⟨Or.inr (Prod.ext hand.1 hand.2), ⟨rfl, rfl, rfl, rfl⟩, Nat.le_refl 0, rfl, rfl⟩
  · split at h
    · rename_i hand
      cases h
      exact ⟨Or.inl (Prod.ext hand.1 hand.2), ⟨rfl, rfl, rfl, rfl⟩, Nat.le_refl 0, rfl, rfl⟩
    · cases h

theorem clients_share_keyspace_two :
    exists order s', twoClients.run 1 (twoTurns.map ClientTurn.input) = some s' ∧
      order.Follows twoPlans ∧
      (forall i cl', s'.client i.1 i.2 = some cl' -> order.own i = twoPlans i ∧
        exists cl, twoClients.client i.1 i.2 = some cl ∧ cl'.output = cl.output ++
          (Order.repliesTo i .empty order).flatMap formatRespResponse) ∧
      Hosts MapStore.view Keyspace.sampleNames (Keyspace.empty.after order.commands)
        (fun _ => 0) (fun _ => 0) s'.world := by
  apply clients_share_keyspace MapStore.sharedStore Keyspace.sampleNames_plain.separate
  · exact ⟨fun _ _ => rfl, fun _ _ => ⟨rfl, fun _ => rfl⟩, fun _ _ _ _ => rfl, rfl⟩
  · exact allows_twoPlans
  · intro i cl hi
    rcases client_twoClients hi with ⟨rfl | rfl, hfresh⟩
    · refine ⟨hfresh, by decide, ?_⟩
      intro k hk
      rw [List.mem_singleton.mp hk]
      exact ⟨⟨trivial, by rintro _ ⟨⟩⟩, Command.fits_words
        [asBytes "SET", asBytes "s", asBytes "v"] (by decide) (by decide)⟩
    · refine ⟨hfresh, by decide, ?_⟩
      intro k hk
      rw [List.mem_singleton.mp hk]
      exact ⟨⟨trivial, by rintro _ ⟨⟩⟩, Command.fits_words
        [asBytes "GET", asBytes "s"] (by decide) (by decide)⟩
  · intro turn hmem
    simp only [twoTurns, List.mem_cons, List.not_mem_nil, or_false] at hmem
    rcases hmem with rfl | rfl | rfl
    · exact ⟨_, rfl, rfl⟩
    · exact ⟨_, rfl, rfl⟩
    · exact ⟨_, rfl, rfl⟩

end Server

end FeoxServer
