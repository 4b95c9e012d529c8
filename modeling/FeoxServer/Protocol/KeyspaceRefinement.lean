import FeoxServer.Protocol.HashFamilies
import FeoxServer.Protocol.ListIsolation
import FeoxServer.Protocol.StringRefinement

/-!
# Strings, lists and hashes in one store

The store knows keys and values only.  As long as the keys that are made of their names
differ, a client sees a map of strings, queues and finite maps side by side.
-/

namespace FeoxServer

open Foundation Prog

/-!
# Commands on one list
-/

namespace ListCommand

/-- A command as a client sends it. -/
def command (key : Bytes) : ListCommand Bytes -> Command
  | lpush values => .lpush key values
  | rpush values => .rpush key values
  | lpop count => .lpop key count
  | rpop count => .rpop key count
  | llen => .llen key
  | lrange start stop => .lrange key start stop
  | lindex index => .lindex key index

/-- A reply as a client receives it. -/
def toResp : ListCommand Bytes -> ListReply Bytes -> RespValue
  | _, .length n => .integer (Int64.ofInt n)
  | _, .element v => .bulkString v
  | lpop _, .values vs | rpop _, .values vs => CommandExecutor.popReply vs
  | _, .values vs => CommandExecutor.bulkArray vs

instance (c : ListCommand Bytes) : Decidable c.Nonempty :=
  match c with
  | lpush values | rpush values => inferInstanceAs (Decidable (values ≠ []))
  | lpop _ | rpop _ | llen | lrange _ _ | lindex _ => inferInstanceAs (Decidable True)

end ListCommand

namespace ListOperations

section Store

variable {S : FeoxStore} {P : Platform} {view : S.State -> Bytes -> Option Bytes}

theorem run_of_map {α β : Type} {p : StoreProg (Except Error α)} {f : α -> β} {b : β}
    {s s' : S.State}
    (h : (do let r <- p; pure (r.map f)).run S s = some (.ok b, s')) :
    exists a, p.run S s = some (.ok a, s') ∧ f a = b := by
  rw [run_bind] at h
  cases hp : p.run S s with
  | none =>
      rw [hp] at h
      cases h
  | some outcome =>
      rcases outcome with ⟨e | a, s1⟩
      · rw [hp] at h
        cases h
      · rw [hp] at h
        cases h
        exact ⟨a, rfl, rfl⟩

theorem onStore_run {α : Type} {p : StoreProg α} {a : α} {s' : S.State} {w : World S P}
    (h : p.run S w.store = some (a, s')) :
    (onStore p).run (server S P) w = some (a, { w with store := s' }) := by
  rw [run_onStore, h]
  rfl

theorem modifying_onStore {α : Type} (key : Bytes) (modified : α -> Bool)
    (reply : α -> RespValue) {p : StoreProg (Except Error α)} {a : α} {s' : S.State}
    {w : World S P} (h : p.run S w.store = some (.ok a, s')) :
    exists w', (CommandExecutor.modifying key modified reply (onStore p)).run
        (server S P) w = some (reply a, w') ∧ w'.store = s' := by
  refine ⟨_, CommandExecutor.modifying_run key modified reply (onStore_run h), ?_⟩
  split <;> rfl

theorem reading_onStore {α : Type} (reply : α -> RespValue)
    {p : StoreProg (Except Error α)} {a : α} {s' : S.State} {w : World S P}
    (h : p.run S w.store = some (.ok a, s')) :
    exists w', (CommandExecutor.reading reply (onStore p)).run (server S P) w =
        some (reply a, w') ∧ w'.store = s' := by
  refine ⟨{ w with store := s' }, ?_, rfl⟩
  rw [CommandExecutor.reading, run_bind_of_some _ _ (onStore_run h)]
  rfl

theorem respond_of_perform (key : Bytes) (command : ListCommand Bytes) (fuel : Nat)
    (x : CommandExecutor) {reply : ListReply Bytes} {s' : S.State} {w : World S P}
    (h : (perform fuel key command).run S w.store = some (.ok reply, s')) :
    exists w', (x.respond fuel (command.command key)).run (server S P) w =
        some (command.toResp reply, w') ∧ w'.store = s' := by
  have hlength : forall {n : Int64}, .integer n =
      ListCommand.toResp command (.length n.toInt) := by
    intro n
    rw [ListCommand.toResp, Int64.ofInt_toInt]
  cases command with
  | lpush values =>
      rcases run_of_map h with ⟨n, hrun, rfl⟩
      rw [← hlength]
      exact modifying_onStore key _ .integer hrun
  | rpush values =>
      rcases run_of_map h with ⟨n, hrun, rfl⟩
      rw [← hlength]
      exact modifying_onStore key _ .integer hrun
  | lpop count =>
      rcases run_of_map h with ⟨values, hrun, rfl⟩
      exact modifying_onStore key _ CommandExecutor.popReply hrun
  | rpop count =>
      rcases run_of_map h with ⟨values, hrun, rfl⟩
      exact modifying_onStore key _ CommandExecutor.popReply hrun
  | llen =>
      rcases run_of_map h with ⟨n, hrun, rfl⟩
      rw [← hlength]
      exact reading_onStore .integer hrun
  | lrange start stop =>
      rcases run_of_map h with ⟨values, hrun, rfl⟩
      exact reading_onStore CommandExecutor.bulkArray hrun
  | lindex index =>
      rcases run_of_map h with ⟨value, hrun, rfl⟩
      exact reading_onStore .bulkString hrun

end Store

theorem on_command (key : Bytes) (command : ListCommand Bytes) (fuel : Nat)
    (x : CommandExecutor) :
    Only (Call.On (keysOf key)) (x.respond fuel (command.command key)) := by
  cases command with
  | lpush values => exact (Writes.lpush values).on_respond fuel x
  | rpush values => exact (Writes.rpush values).on_respond fuel x
  | lpop count => exact (Writes.lpop count).on_respond fuel x
  | rpop count => exact (Writes.rpop count).on_respond fuel x
  | llen => exact Reads.llen.on_respond fuel x
  | lrange start stop => exact (Reads.lrange start stop).on_respond fuel x
  | lindex index => exact (Reads.lindex index).on_respond fuel x

theorem Roomy.congr {key : Bytes} {l r n : Nat} {items : List Bytes} {m : ListMeta}
    {v v' : Bytes -> Option Bytes} (h : Roomy key l r n items m v)
    (hv : forall k, k ∈ keysOf key -> v' k = v k) : Roomy key l r n items m v' where
  represents :=
    { stored := by
        unfold Stored
        rw [hv _ (metaKey_mem key)]
        exact h.represents.stored
      count := h.represents.count
      window := h.represents.window
      holds := by
        have hsame : (fun pos => v' (valueKey key pos)) = fun pos => v (valueKey key pos) :=
          funext fun pos => hv _ (valueKey_mem key pos)
        rw [hsame]
        exact h.represents.holds }
  left := h.left
  right := h.right
  length := h.length

end ListOperations

/-!
# Keys of different kinds
-/

theorem listKey_begins {key k : Bytes} (h : k ∈ ListOperations.keysOf key) :
    exists rest, k = 76 :: 58 :: rest := by
  rcases h with rfl | ⟨pos, rfl⟩
  · exact ⟨_, rfl⟩
  · exact ⟨_, rfl⟩

theorem hashKey_begins {key k : Bytes} (h : k ∈ HashOperations.keysOf key) :
    exists rest, k = 72 :: 58 :: rest := by
  rcases h with rfl | ⟨field, rfl⟩
  · exact ⟨_, rfl⟩
  · exact ⟨_, rfl⟩

theorem notMem_hashKeys {key key' k : Bytes} (h : k ∈ ListOperations.keysOf key) :
    k ∉ HashOperations.keysOf key' := by
  intro hmem
  rcases listKey_begins h with ⟨rest, rfl⟩
  rcases hashKey_begins hmem with ⟨rest', heq⟩
  cases heq

theorem not_nested_of_notMem {k1 k2 : Bytes} (h : (58 : UInt8) ∉ k2) :
    ¬ HashOperations.Nested k1 k2 := by
  unfold HashOperations.Nested
  rw [asBytes_fieldMark, asBytes_colon]
  rintro ⟨rest, hrest⟩
  rw [List.append_assoc] at hrest
  rcases List.append_eq_append_iff.mp hrest with ⟨gap, rfl, hgap⟩ | ⟨gap, rfl, hgap⟩
  · cases gap with
    | nil =>
        have hlength := congrArg List.length hgap
        simp at hlength
    | cons b gap =>
        rw [← (List.cons.inj hgap).1] at h
        exact h (List.mem_append_right _ List.mem_cons_self)
  · have hlength := congrArg List.length hgap
    simp at hlength
    omega

/-!
# The keyspace
-/

/-- What clients see. -/
structure Keyspace where
  strings : StringMap
  lists : Bytes -> List Bytes
  hashes : Bytes -> FieldMap

inductive KeyspaceCommand where
  | string (c : StringCommand)
  | list (key : Bytes) (c : ListCommand Bytes)
  | hash (key : Bytes) (c : HashCommand)

/-- The names that are in use for each kind. -/
structure KeyNames where
  strings : Set Bytes
  lists : Set Bytes
  hashes : Set Bytes

/-- No key of the store is made for two names. -/
structure KeyNames.Separate (N : KeyNames) : Prop where
  strings_lists : forall n, n ∈ N.strings -> forall key, key ∈ N.lists ->
    n ∉ ListOperations.keysOf key
  strings_hashes : forall n, n ∈ N.strings -> forall key, key ∈ N.hashes ->
    n ∉ HashOperations.keysOf key
  lists : Set.InjOn fromUtf8Lossy N.lists
  hashes : N.hashes.Pairwise HashOperations.Apart

/-- Strings have names without the marks of lists and hashes, lists are named by text,
and the names of hashes have no colon. -/
structure KeyNames.Plain (N : KeyNames) : Prop where
  strings : forall n, n ∈ N.strings -> forall rest,
    n ≠ 76 :: 58 :: rest ∧ n ≠ 72 :: 58 :: rest
  lists : forall key, key ∈ N.lists -> exists s, key = asBytes s
  hashes : forall key, key ∈ N.hashes -> (58 : UInt8) ∉ key

theorem KeyNames.Plain.separate {N : KeyNames} (h : N.Plain) : N.Separate where
  strings_lists n hn key _ hmem := by
    rcases listKey_begins hmem with ⟨rest, heq⟩
    exact (h.strings n hn rest).1 heq
  strings_hashes n hn key _ hmem := by
    rcases hashKey_begins hmem with ⟨rest, heq⟩
    exact (h.strings n hn rest).2 heq
  lists key hkey key' hkey' htext := by
    rcases h.lists key hkey with ⟨s, rfl⟩
    rcases h.lists key' hkey' with ⟨s', rfl⟩
    rw [fromUtf8Lossy_asBytes, fromUtf8Lossy_asBytes] at htext
    rw [htext]
  hashes key hkey key' hkey' hne :=
    ⟨hne, not_nested_of_notMem (h.hashes key' hkey'), not_nested_of_notMem (h.hashes key hkey)⟩

namespace KeyspaceCommand

/-- A command as a client sends it. -/
def command : KeyspaceCommand -> Command
  | string c => c.command
  | list key c => c.command key
  | hash key c => c.command key

/-- How many values the command pushes on the left of a list. -/
def lpushed (k : Bytes) : KeyspaceCommand -> Nat
  | list key c => if key = k then c.lpushed else 0
  | _ => 0

def rpushed (k : Bytes) : KeyspaceCommand -> Nat
  | list key c => if key = k then c.rpushed else 0
  | _ => 0

/-- The room that some commands take, each `f`, beside `l`. -/
def room (f : Bytes -> KeyspaceCommand -> Nat) (l : Bytes -> Nat)
    (commands : List KeyspaceCommand) (key : Bytes) : Nat :=
  (commands.map (f key)).sum + l key

def roomLeft : (Bytes -> Nat) -> List KeyspaceCommand -> Bytes -> Nat :=
  room lpushed

def roomRight : (Bytes -> Nat) -> List KeyspaceCommand -> Bytes -> Nat :=
  room rpushed

section Room

variable (f : Bytes -> KeyspaceCommand -> Nat) (l : Bytes -> Nat)

theorem room_nil : room f l [] = l :=
  funext fun key => Nat.zero_add (l key)

theorem room_cons (c : KeyspaceCommand) (commands : List KeyspaceCommand) :
    room f l (c :: commands) = fun key => room f l commands key + f key c := by
  funext key
  unfold room
  rw [List.map_cons, List.sum_cons]
  omega

theorem room_append (first later : List KeyspaceCommand) :
    room f l (first ++ later) = room f (room f l later) first := by
  funext key
  unfold room
  rw [List.map_append, List.sum_append, Nat.add_assoc]

theorem exists_room {first later : List KeyspaceCommand}
    (h : forall key, ((first ++ later).map (f key)).sum <= room f l first key) :
    exists l', l = room f l' later := by
  refine ⟨fun key => l key - (later.map (f key)).sum, funext fun key => ?_⟩
  have hkey := h key
  unfold room at hkey ⊢
  rw [List.map_append, List.sum_append] at hkey
  dsimp only
  omega

end Room

end KeyspaceCommand

namespace Keyspace

def empty : Keyspace where
  strings := fun _ => none
  lists := fun _ => []
  hashes := fun _ => ∅

def next (ks : Keyspace) : KeyspaceCommand -> Keyspace
  | .string c => { ks with strings := ks.strings.next c }
  | .list key c =>
      { ks with lists := Function.update ks.lists key (Deque.next (ks.lists key) c) }
  | .hash key c =>
      { ks with hashes := Function.update ks.hashes key ((ks.hashes key).next c) }

def reply (ks : Keyspace) : KeyspaceCommand -> RespValue
  | .string c => (ks.strings.reply c).toResp
  | .list key c => c.toResp (Deque.reply (ks.lists key) c)
  | .hash key c => ((ks.hashes key).reply c).toResp

def after (ks : Keyspace) (commands : List KeyspaceCommand) : Keyspace :=
  commands.foldl next ks

def replies (ks : Keyspace) : List KeyspaceCommand -> List RespValue
  | [] => []
  | c :: commands => ks.reply c :: replies (ks.next c) commands

/-- The command goes to names of its kind, it applies there, and there is room for what
it leaves. -/
def Applicable (N : KeyNames) (ks : Keyspace) : KeyspaceCommand -> Prop
  | .string c => (forall key, key ∈ c.keys -> key ∈ N.strings) ∧ ks.strings.Applicable c
  | .list key c => key ∈ N.lists ∧ c.Nonempty ∧
      (Deque.next (ks.lists key) c).length < 2 ^ 63
  | .hash key c => key ∈ N.hashes ∧ (ks.hashes key).Applicable c ∧
      ((ks.hashes key).next c).size < 2 ^ 63

def Fits (N : KeyNames) (ks : Keyspace) : List KeyspaceCommand -> Prop
  | [] => True
  | c :: commands => Applicable N ks c ∧ Fits N (ks.next c) commands

end Keyspace

/-!
# What the store keeps
-/

section Keeping

variable {ε : Type} {S : FeoxStore} {P : Platform} {cell : S.State -> Bytes -> ε}
  {view : S.State -> Bytes -> Option Bytes} {N : KeyNames}

/-- The world keeps the keyspace, with room for `l` pushes on the left and `r` on the
right of each list. -/
structure Hosts (view : S.State -> Bytes -> Option Bytes) (N : KeyNames) (ks : Keyspace)
    (l r : Bytes -> Nat) (w : World S P) : Prop where
  strings : forall n, n ∈ N.strings -> view w.store n = ks.strings n
  lists : forall key, key ∈ N.lists -> exists m,
    ListOperations.Roomy key (l key) (r key) 0 (ks.lists key) m (view w.store)
  fields : forall key, key ∈ N.hashes ->
    HashOperations.Stored (view w.store) key (ks.hashes key)
  tallies : HashOperations.Tallies view N.hashes (fun key => (ks.hashes key).size) w
  sizes : forall key, key ∈ N.hashes -> (ks.hashes key).size < 2 ^ 63

/-- Nothing that belongs to a name is in the store, and no change is pending. -/
structure KeyNames.Unused (view : S.State -> Bytes -> Option Bytes) (N : KeyNames)
    (w : World S P) : Prop where
  strings : forall n, n ∈ N.strings -> view w.store n = none
  lists : forall key, key ∈ N.lists -> ListOperations.Absent (view w.store) key
  hashes : forall key, key ∈ N.hashes -> forall k, k ∈ HashOperations.keysOf key ->
    view w.store k = none
  tracker : w.tracker = ∅

/-- The room in a list that is empty. -/
structure Roomed (N : KeyNames) (l r : Bytes -> Nat) : Prop where
  left : forall key, key ∈ N.lists -> l key <= 2 ^ 63 + 1000000000
  right : forall key, key ∈ N.lists -> r key < 2 ^ 63 - 1000000000

theorem KeyNames.Unused.keeps {l r : Bytes -> Nat} {w : World S P} (h : N.Unused view w)
    (hroom : Roomed N l r) : Hosts view N .empty l r w where
  strings := h.strings
  lists key hkey := by
    have hhead : ListOperations.initialMeta.head.toInt = 1000000000 := by decide
    have htail : ListOperations.initialMeta.tail.toInt = 1000000000 := by decide
    have hleft := hroom.left key hkey
    have hright := hroom.right key hkey
    refine ⟨ListOperations.initialMeta, (h.lists key hkey).represents, ?_, ?_,
      show 0 + 0 < 2 ^ 63 by decide⟩
    · rw [hhead]
      omega
    · rw [htail]
      omega
  fields key hkey field := h.hashes key hkey _ (HashOperations.fieldKey_mem key field)
  tallies :=
    { only := by
        rw [h.tracker]
        exact fun n hn => absurd hn (AList.notMem_empty n)
      sum := fun key hkey => by
        refine ⟨0, Or.inr ⟨h.hashes key hkey _ (HashOperations.metaKey_mem key), rfl⟩,
          le_refl _, ?_⟩
        unfold HashOperations.pending
        rw [h.tracker]
        rfl }
  sizes _ _ := show 0 < 2 ^ 63 by decide

theorem KeyNames.Separate.fieldsApart (h : N.Separate) {key : Bytes} (hkey : key ∈ N.hashes) :
    HashOperations.FieldsApart N.hashes key := by
  intro k hk hmem
  by_cases heq : k = key
  · subst heq
    rcases hmem with ⟨field, hfield⟩
    exact HashOperations.fieldKey_ne_metaKey k field hfield
  · exact (h.hashes hkey hk (Ne.symm heq)).metaKey_notMem
      (HashOperations.fieldKeys_subset key hmem)

theorem Hosts.string (hS : SharedStore S cell view) (hN : N.Separate) {ks : Keyspace}
    {l r : Bytes -> Nat} {w : World S P} (h : Hosts view N ks l r w) (c : StringCommand)
    (fuel : Nat) (x : CommandExecutor)
    (hkeys : forall key, key ∈ c.keys -> key ∈ N.strings) (hc : ks.strings.Applicable c) :
    exists w', (x.respond fuel c.command).run (server S P) w =
        some ((ks.strings.reply c).toResp, w') ∧
      Hosts view N { ks with strings := ks.strings.next c } l r w' := by
  have hsame : forall k, k ∈ c.keys -> view w.store k = ks.strings k :=
    fun k hk => h.strings k (hkeys k hk)
  rcases StringCommand.respond_run hS c fuel x
    ((StringMap.applicable_congr hsame).mpr hc) with ⟨w', hrun, hafter⟩
  rcases run_on_others hS.celled (c.on_respond fuel x) hrun with ⟨htracker, hcells⟩
  have hothers : forall k, k ∉ c.keys -> view w'.store k = view w.store k :=
    fun k hk => hS.value (hcells k hk)
  rw [StringMap.reply_congr hsame] at hrun
  refine ⟨w', hrun, ?_, fun key hkey => ?_, fun key hkey field => ?_, ?_, h.sizes⟩
  · intro n hn
    rw [hafter]
    exact StringMap.next_congr hsame (h.strings n hn)
  · rcases h.lists key hkey with ⟨m, hm⟩
    refine ⟨m, hm.congr fun k hk => hothers k fun hmem => ?_⟩
    exact hN.strings_lists k (hkeys k hmem) key hkey hk
  · refine (hothers _ fun hmem => ?_).trans (h.fields key hkey field)
    exact hN.strings_hashes _ (hkeys _ hmem) key hkey (HashOperations.fieldKey_mem key field)
  · refine h.tallies.congr w' (fun key hkey => hothers _ fun hmem => ?_) htracker
    exact hN.strings_hashes _ (hkeys _ hmem) key hkey (HashOperations.metaKey_mem key)

theorem Hosts.list (hS : SharedStore S cell view) (hN : N.Separate) {ks : Keyspace}
    {l r : Bytes -> Nat} {w : World S P} {key : Bytes} (c : ListCommand Bytes)
    (h : Hosts view N ks (fun k => l k + KeyspaceCommand.lpushed k (.list key c))
      (fun k => r k + KeyspaceCommand.rpushed k (.list key c)) w)
    (fuel : Nat) (x : CommandExecutor) (hkey : key ∈ N.lists) (hne : c.Nonempty)
    (hlength : (Deque.next (ks.lists key) c).length < 2 ^ 63) :
    exists w', (x.respond (fuel + 1) (c.command key)).run (server S P) w =
        some (c.toResp (Deque.reply (ks.lists key) c), w') ∧
      Hosts view N
        { ks with lists := Function.update ks.lists key (Deque.next (ks.lists key) c) }
        l r w' := by
  rcases h.lists key hkey with ⟨m, hroomy⟩
  simp only [KeyspaceCommand.lpushed, KeyspaceCommand.rpushed, if_true] at hroomy
  rcases ListOperations.perform_run hS.toBehavesAsMap c fuel hroomy hne hlength with
    ⟨s', m', hperform, hroomy'⟩
  rcases ListOperations.respond_of_perform (P := P) key c (fuel + 1) x hperform with
    ⟨w', hrun, rfl⟩
  rcases run_on_others hS.celled (ListOperations.on_command key c (fuel + 1) x) hrun with
    ⟨htracker, hcells⟩
  have hothers : forall k, k ∉ ListOperations.keysOf key ->
      view w'.store k = view w.store k := fun k hk => hS.value (hcells k hk)
  refine ⟨w', hrun, ?_, fun k hk => ?_, fun k hk field => ?_, ?_, h.sizes⟩
  · intro n hn
    rw [hothers n (hN.strings_lists n hn key hkey)]
    exact h.strings n hn
  · by_cases heq : k = key
    · subst heq
      refine ⟨m', ?_⟩
      dsimp only
      rw [Function.update_self]
      exact hroomy'
    · rcases h.lists k hk with ⟨m1, hm1⟩
      simp only [KeyspaceCommand.lpushed, KeyspaceCommand.rpushed, if_neg (Ne.symm heq),
        Nat.add_zero] at hm1
      refine ⟨m1, ?_⟩
      dsimp only
      rw [Function.update_of_ne heq]
      refine hm1.congr fun n hn => hothers n fun hmem => ?_
      refine Set.disjoint_left.mp (ListOperations.disjoint_keysOf fun htext => ?_) hn hmem
      exact heq (hN.lists hk hkey htext)
  · refine (hothers _ fun hmem => ?_).trans (h.fields k hk field)
    exact notMem_hashKeys hmem (HashOperations.fieldKey_mem k field)
  · refine h.tallies.congr w' (fun k _ => hothers _ fun hmem => ?_) htracker
    exact notMem_hashKeys hmem (HashOperations.metaKey_mem k)

theorem Hosts.hash (hS : SharedStore S cell view) (hN : N.Separate) {ks : Keyspace}
    {l r : Bytes -> Nat} {w : World S P} (h : Hosts view N ks l r w) {key : Bytes}
    (c : HashCommand) (fuel : Nat) (x : CommandExecutor) (hkey : key ∈ N.hashes)
    (hc : (ks.hashes key).Applicable c) (hsize : ((ks.hashes key).next c).size < 2 ^ 63) :
    exists w', (x.respond fuel (c.command key)).run (server S P) w =
        some (((ks.hashes key).reply c).toResp, w') ∧
      Hosts view N
        { ks with hashes := Function.update ks.hashes key ((ks.hashes key).next c) }
        l r w' := by
  have hsizes : forall m : FieldMap,
      Function.update (fun k => (ks.hashes k).size) key m.size =
        fun k => (Function.update ks.hashes key m k).size := by
    intro m
    funext k
    by_cases heq : k = key
    · rw [heq, Function.update_self, Function.update_self]
    · rw [Function.update_of_ne heq, Function.update_of_ne heq]
  have hmember : HashOperations.Member view N.hashes (fun k => (ks.hashes k).size) key
      (ks.hashes key) w := by
    refine ⟨h.fields key hkey, ?_⟩
    rw [hsizes, Function.update_eq_self]
    exact h.tallies
  rcases HashOperations.respond_member hS.toCountsAsMap hkey (hN.fieldsApart hkey) h.sizes
    c fuel x hmember hc (h.sizes key hkey) hsize with ⟨w', hrun, hstored, htallies⟩
  have hothers : forall n, (forall k, k ∈ N.hashes -> n ≠ HashOperations.metaKey k) ->
      n ∉ HashOperations.keysOf key -> view w'.store n = view w.store n :=
    fun n hcounters hn => HashOperations.view_command hS h.tallies hrun hcounters hn
  rw [hsizes] at htallies
  refine ⟨w', hrun, fun n hn => ?_, fun k hk => ?_, fun k hk => ?_, htallies, fun k hk => ?_⟩
  · refine (hothers n (fun k hk heq => ?_) (hN.strings_hashes n hn key hkey)).trans
      (h.strings n hn)
    exact hN.strings_hashes n hn k hk (heq ▸ HashOperations.metaKey_mem k)
  · rcases h.lists k hk with ⟨m, hm⟩
    refine ⟨m, hm.congr fun n hn => hothers n (fun k' _ heq => ?_) (notMem_hashKeys hn)⟩
    exact notMem_hashKeys hn (heq ▸ HashOperations.metaKey_mem k')
  · by_cases heq : k = key
    · subst heq
      dsimp only
      rw [Function.update_self]
      exact hstored
    · dsimp only
      rw [Function.update_of_ne heq]
      intro field
      refine (hothers _ (fun k' hk' hmeta => ?_) ?_).trans (h.fields k hk field)
      · exact hN.fieldsApart hk k' hk' ⟨field, hmeta⟩
      · exact (hN.hashes hkey hk (Ne.symm heq)).fieldKey_notMem field
  · by_cases heq : k = key
    · subst heq
      dsimp only
      rw [Function.update_self]
      exact hsize
    · dsimp only
      rw [Function.update_of_ne heq]
      exact h.sizes k hk

theorem Hosts.respond (hS : SharedStore S cell view) (hN : N.Separate) {ks : Keyspace}
    (c : KeyspaceCommand) {l r : Bytes -> Nat} {w : World S P}
    (h : Hosts view N ks (fun k => l k + c.lpushed k) (fun k => r k + c.rpushed k) w)
    (fuel : Nat) (x : CommandExecutor) (hc : ks.Applicable N c) :
    exists w', (x.respond (fuel + 1) c.command).run (server S P) w =
        some (ks.reply c, w') ∧
      Hosts view N (ks.next c) l r w' := by
  cases c with
  | string c => exact Hosts.string hS hN h c (fuel + 1) x hc.1 hc.2
  | list key c => exact Hosts.list hS hN c h fuel x hc.1 hc.2.1 hc.2.2
  | hash key c => exact Hosts.hash hS hN h c (fuel + 1) x hc.1 hc.2.1 hc.2.2

theorem Hosts.of_cons {ks : Keyspace} {l r : Bytes -> Nat} {c : KeyspaceCommand}
    {commands : List KeyspaceCommand} {w : World S P}
    (h : Hosts view N ks (KeyspaceCommand.roomLeft l (c :: commands))
      (KeyspaceCommand.roomRight r (c :: commands)) w) :
    Hosts view N ks (fun k => KeyspaceCommand.roomLeft l commands k + c.lpushed k)
      (fun k => KeyspaceCommand.roomRight r commands k + c.rpushed k) w := by
  have hleft : KeyspaceCommand.roomLeft l (c :: commands) =
      fun k => KeyspaceCommand.roomLeft l commands k + c.lpushed k :=
    KeyspaceCommand.room_cons KeyspaceCommand.lpushed l c commands
  have hright : KeyspaceCommand.roomRight r (c :: commands) =
      fun k => KeyspaceCommand.roomRight r commands k + c.rpushed k :=
    KeyspaceCommand.room_cons KeyspaceCommand.rpushed r c commands
  rw [hleft, hright] at h
  exact h

end Keeping

/-!
# Whole runs
-/

namespace Keyspace

variable {ε : Type} {S : FeoxStore} {P : Platform} {cell : S.State -> Bytes -> ε}
  {view : S.State -> Bytes -> Option Bytes} {N : KeyNames}

/-- Execute the commands in order and collect the replies. -/
def performAll (fuel : Nat) :
    CommandExecutor -> List KeyspaceCommand -> ServerProg (List RespValue)
  | _, [] => pure []
  | x, c :: commands => do
      let (response, x) <- x.execute fuel c.command
      let responses <- performAll fuel x commands
      pure (response :: responses)

theorem performAll_run (hS : SharedStore S cell view) (hN : N.Separate)
    (commands : List KeyspaceCommand) (fuel : Nat) (x : CommandExecutor) {ks : Keyspace}
    {l r : Bytes -> Nat} {w : World S P}
    (h : Hosts view N ks (KeyspaceCommand.roomLeft l commands)
      (KeyspaceCommand.roomRight r commands) w)
    (hfits : ks.Fits N commands) :
    exists w', (performAll (fuel + 1) x commands).run (server S P) w =
        some (ks.replies commands, w') ∧
      Hosts view N (ks.after commands) l r w' := by
  induction commands generalizing ks w x with
  | nil =>
      have hleft : KeyspaceCommand.roomLeft l [] = l := KeyspaceCommand.room_nil _ l
      have hright : KeyspaceCommand.roomRight r [] = r := KeyspaceCommand.room_nil _ r
      rw [hleft, hright] at h
      exact ⟨w, rfl, h⟩
  | cons c commands ih =>
      rcases hfits with ⟨hc, hlater⟩
      rcases h.of_cons.respond hS hN c fuel
        { x with commandsProcessed := x.commandsProcessed + 1 } hc with ⟨w1, hfirst, h1⟩
      rcases ih { x with commandsProcessed := x.commandsProcessed + 1 } h1 hlater with
        ⟨w2, hrest, h2⟩
      refine ⟨w2, ?_, h2⟩
      have hexecute : (x.execute (fuel + 1) c.command).run (server S P) w =
          some ((ks.reply c, { x with commandsProcessed := x.commandsProcessed + 1 }),
            w1) := by
        unfold CommandExecutor.execute
        rw [run_bind_of_some _ _ hfirst]
        rfl
      rw [performAll, run_bind_of_some _ _ hexecute, run_bind_of_some _ _ hrest]
      rfl

/-- Strings, lists and hashes refine one keyspace.  As long as no key of the store is
made for two names, commands of all kinds in any order are answered as the map, the
queues and the finite maps answer them, and the store keeps them side by side, whenever
the machine decides to flush. -/
theorem performAll_refines_keyspace (hS : SharedStore S cell view) (hN : N.Separate)
    (commands : List KeyspaceCommand) (fuel : Nat) (x : CommandExecutor) (w : World S P)
    (hunused : N.Unused view w) (hfits : empty.Fits N commands)
    (hleft : forall key, key ∈ N.lists ->
      (commands.map (KeyspaceCommand.lpushed key)).sum <= 2 ^ 63 + 1000000000)
    (hright : forall key, key ∈ N.lists ->
      (commands.map (KeyspaceCommand.rpushed key)).sum < 2 ^ 63 - 1000000000) :
    exists w', (performAll (fuel + 1) x commands).run (server S P) w =
        some (empty.replies commands, w') ∧
      Hosts view N (empty.after commands) (fun _ => 0) (fun _ => 0) w' :=
  performAll_run hS hN commands fuel x (hunused.keeps ⟨hleft, hright⟩) hfits

def sampleNames : KeyNames where
  strings := {asBytes "s"}
  lists := {asBytes "k"}
  hashes := {asBytes "k", asBytes "h"}

theorem sampleNames_plain : sampleNames.Plain where
  strings := by
    rintro n rfl rest
    have hname : asBytes "s" = [115] := by decide
    rw [hname]
    exact ⟨by rintro ⟨⟩, by rintro ⟨⟩⟩
  lists := by
    rintro key rfl
    exact ⟨_, rfl⟩
  hashes := by
    rintro key (rfl | rfl)
    · decide
    · decide

def sampleCommands : List KeyspaceCommand :=
  [.string (.incrBy (asBytes "s") 41),
    .hash (asBytes "k") (.hset [([1], asBytes "10"), ([2], [118])]),
    .hash (asBytes "h") (.hset [([1], [119])]), .list (asBytes "k") (.rpush [[1], [2]]),
    .string (.incr (asBytes "s")), .hash (asBytes "k") (.hincrby [1] 5),
    .hash (asBytes "h") .hlen, .list (asBytes "k") (.lpop none),
    .hash (asBytes "k") .hlen, .list (asBytes "k") .llen, .string (.get (asBytes "s"))]

theorem sampleCommands_fits : empty.Fits sampleNames sampleCommands := by
  have hs : asBytes "s" ∈ sampleNames.strings := rfl
  have hl : asBytes "k" ∈ sampleNames.lists := rfl
  have hk : asBytes "k" ∈ sampleNames.hashes := Or.inl rfl
  have hh : asBytes "h" ∈ sampleNames.hashes := Or.inr rfl
  have hkeys : forall key, key ∈ [asBytes "s"] -> key ∈ sampleNames.strings := by
    intro key hkey
    rw [List.mem_singleton.mp hkey]
    exact hs
  refine ⟨⟨hkeys, ?_⟩, ⟨hk, ?_⟩, ⟨hh, ?_⟩, ⟨hl, ?_⟩, ⟨hkeys, ?_⟩, ⟨hk, ?_⟩, ⟨hh, ?_⟩,
    ⟨hl, ?_⟩, ⟨hk, ?_⟩, ⟨hl, ?_⟩, ⟨hkeys, ?_⟩, trivial⟩ <;> decide +kernel

theorem performAll_refines_keyspace_mixed :
    let w : World mapStore idlePlatform := ⟨(∅ : MapStore.Entries), (), .new, ∅, ∅⟩
    exists w', (performAll 1 (.new { requirepass := none }) sampleCommands).run
          (server mapStore idlePlatform) w =
        some (empty.replies sampleCommands, w') ∧
      Hosts MapStore.view sampleNames (empty.after sampleCommands) (fun _ => 0)
        (fun _ => 0) w' := by
  apply performAll_refines_keyspace MapStore.sharedStore sampleNames_plain.separate
  · exact ⟨fun _ _ => rfl, fun _ _ => ⟨rfl, fun _ => rfl⟩, fun _ _ _ _ => rfl, rfl⟩
  · exact sampleCommands_fits
  · rintro key rfl
    decide +kernel
  · rintro key rfl
    decide +kernel

example : empty.replies sampleCommands =
    [.integer 41, .integer 2, .integer 1, .integer 2, .integer 42,
      .integer 15, .integer 1, .bulkString (some [1]), .integer 2, .integer 1,
      .bulkString (some [42, 0, 0, 0, 0, 0, 0, 0])] :=
  rfl

end Keyspace

end FeoxServer
