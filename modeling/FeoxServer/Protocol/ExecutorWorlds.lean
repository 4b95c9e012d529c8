import FeoxServer.Protocol.ClientListings
import FeoxServer.Protocol.ExecutorCalls

/-!
# Commands in related worlds

A command does and replies the same in two worlds that differ in the registry
of clients alone, unless it shows what differs.  The counter of the executor
is seen in `INFO` alone.
-/

namespace FeoxServer

open Foundation Prog

namespace ClientRegistry

theorem Related.symm {own : Nat} {clients clients' : ClientRegistry}
    (h : Related own clients clients') : Related own clients' clients :=
  ⟨h.keys.symm, fun id => (h.entry id).symm, fun id hid => (h.name id hid).symm⟩

theorem Related.trans {own : Nat} {clients clients' clients'' : ClientRegistry}
    (h : Related own clients clients') (h' : Related own clients' clients'') :
    Related own clients clients'' where
  keys := h'.keys.trans h.keys
  entry id := (h'.entry id).trans (h.entry id)
  name id hid := (h'.name id hid).trans (h.name id hid)

end ClientRegistry

namespace World

variable {S : FeoxStore} {P : Platform}

/-- The same world, apart from what may differ between related registries. -/
structure Related (own : Nat) (w w' : World S P) : Prop where
  store : w'.store = w.store
  platform : w'.platform = w.platform
  watch : w'.watch = w.watch
  tracker : w'.tracker = w.tracker
  clients : w.clients.Related own w'.clients

theorem Related.refl (own : Nat) (w : World S P) : Related own w w :=
  ⟨rfl, rfl, rfl, rfl, .refl own _⟩

theorem Related.symm {own : Nat} {w w' : World S P} (h : Related own w w') :
    Related own w' w :=
  ⟨h.store.symm, h.platform.symm, h.watch.symm, h.tracker.symm, h.clients.symm⟩

theorem Related.trans {own : Nat} {w w' w'' : World S P} (h : Related own w w')
    (h' : Related own w' w'') : Related own w w'' where
  store := h'.store.trans h.store
  platform := h'.platform.trans h.platform
  watch := h'.watch.trans h.watch
  tracker := h'.tracker.trans h.tracker
  clients := h.clients.trans h'.clients

theorem reply_basic {c : Call} (hc : c.Basic) (clients : ClientRegistry)
    (w : World S P) :
    reply c { w with clients := clients } =
      ((reply c w).1, { (reply c w).2 with clients := clients }) := by
  cases c <;> first | rfl | exact hc.elim

theorem clients_reply_basic {c : Call} (hc : c.Basic) (w : World S P) :
    (reply c w).2.clients = w.clients := by
  cases c <;> rfl

theorem run_related {α : Type} {own : Nat} {w w' w1 : World S P}
    {p : ServerProg α} {a : α} (hp : Basic p) (h : Related own w w')
    (hrun : p.run (server S P) w = some (a, w1)) :
    exists w1', p.run (server S P) w' = some (a, w1') ∧ Related own w1 w1' ∧
      w1.clients = w.clients ∧ w1'.clients = w'.clients := by
  have hw' : w' = { w with clients := w'.clients } := by
    rcases w with ⟨store, platform, watch, tracker, clients⟩
    rcases w' with ⟨store', platform', watch', tracker', clients'⟩
    rcases h with ⟨rfl, rfl, rfl, rfl, _⟩
    rfl
  have hclients : w1.clients = w.clients :=
    run_observe_eq (server S P) World.clients
      (fun c hc w => clients_reply_basic hc w) hp hrun
  have hsimulates := run_simulates (server S P) (server S P)
    (fun w : World S P => { w with clients := w'.clients })
    (fun c hc w => reply_basic hc w'.clients w) hp w
  rw [hrun] at hsimulates
  refine ⟨{ w1 with clients := w'.clients }, ?_,
    ⟨rfl, rfl, rfl, rfl, ?_⟩, hclients, rfl⟩
  · rw [hw']
    exact hsimulates
  · rw [hclients]
    exact h.clients

end World

/-!
# Replies up to the counter
-/

namespace CommandExecutor

variable {S : FeoxStore} {P : Platform}

/-- The same executor with another counter. -/
def counting (x : CommandExecutor) (n : UInt64) : CommandExecutor :=
  { x with commandsProcessed := n }

/-- Two replies to a command agree; those to `INFO` may count differently. -/
def Matches (S : FeoxStore) (P : Platform) (cmd : Command) (r r' : RespValue) :
    Prop :=
  match cmd with
  | .info sectionName =>
      exists (x : CommandExecutor) (n : UInt64) (w w1 : World S P),
        (info x sectionName).run (server S P) w = some (r, w1) ∧
        (info (x.counting n) sectionName).run (server S P) w = some (r', w1)
  | _ => r' = r

theorem run_sectionText_pure (sectionName : Option String) (name text : String)
    (w : World S P) :
    exists t, (sectionText sectionName name (pure text)).run (server S P) w =
      some (t, w) := by
  unfold sectionText
  split
  · exact ⟨text, rfl⟩
  · exact ⟨"", rfl⟩

theorem run_info_counting {x : CommandExecutor} {sectionName : Option String}
    {r : RespValue} {w w1 : World S P}
    (hrun : (info x sectionName).run (server S P) w = some (r, w1))
    (n : UInt64) :
    exists r', (info (x.counting n) sectionName).run (server S P) w =
      some (r', w1) := by
  unfold info at hrun ⊢
  rcases (run_bind_eq_some _).mp hrun with ⟨uptime, w2, huptime, hrun2⟩
  rcases (run_bind_eq_some _).mp hrun2 with ⟨stats, w3, hstats, hrun3⟩
  rcases (run_bind_eq_some _).mp hrun3 with ⟨serverText, w4, hserver, hrun4⟩
  rcases (run_bind_eq_some _).mp hrun4 with ⟨memoryText, w5, hmemory, hrun5⟩
  rcases (run_bind_eq_some _).mp hrun5 with ⟨statsText, w6, hstatsText, hrun6⟩
  have hw6 : w6 = w5 := by
    rcases run_sectionText_pure sectionName "stats"
      (statsSection x.commandsProcessed stats) w5 with ⟨t, ht⟩
    rw [ht] at hstatsText
    cases hstatsText
    rfl
  subst hw6
  rcases run_sectionText_pure sectionName "stats" (statsSection n stats) w6 with
    ⟨t, ht⟩
  rcases (run_bind_eq_some _).mp hrun6 with ⟨keyspaceText, w7, hkeyspace, hdone⟩
  cases hdone
  refine ⟨bulk (asBytes (serverText ++ memoryText ++ t ++ keyspaceText)), ?_⟩
  refine (run_bind_eq_some _).mpr ⟨uptime, w2, huptime, ?_⟩
  refine (run_bind_eq_some _).mpr ⟨stats, w3, hstats, ?_⟩
  refine (run_bind_eq_some _).mpr ⟨serverText, w4, hserver, ?_⟩
  refine (run_bind_eq_some _).mpr ⟨memoryText, w6, hmemory, ?_⟩
  refine (run_bind_eq_some _).mpr ⟨t, w6, ht, ?_⟩
  exact (run_bind_eq_some _).mpr ⟨keyspaceText, _, hkeyspace, rfl⟩

theorem respond_counting {cmd : Command}
    (hcmd : forall sectionName, cmd ≠ .info sectionName) (fuel : Nat)
    (x : CommandExecutor) (n : UInt64) :
    respond fuel (x.counting n) cmd = respond fuel x cmd := by
  cases cmd with
  | info sectionName => exact absurd rfl (hcmd sectionName)
  | ping msg => cases msg <;> rfl
  | _ => rfl

end CommandExecutor

namespace Command

/-- What a command shows of the name of its connection. -/
def shown : Command -> Option String -> Option String
  | .client subcommand _, name => ClientOperations.shown subcommand name
  | _, _ => none

end Command

namespace CommandExecutor

variable {S : FeoxStore} {P : Platform} {fuel own : Nat} {a b : Option String}
  {w w' w1 : World S P}

theorem respond_client {x : CommandExecutor}
    (hregistry : x.clientOps.hasRegistry = true) (hown : x.connectionId = some own)
    (h : World.Related own w w')
    (ha : (w.clients.lookup own).map ClientInfo.name = some a)
    (hb : (w'.clients.lookup own).map ClientInfo.name = some b)
    {subcommand : String} {args : List Bytes} {r : RespValue} (n : UInt64)
    (hrun : (respond fuel x (.client subcommand args)).run (server S P) w =
      some (r, w1)) :
    exists r' w1',
      (respond fuel (x.counting n) (.client subcommand args)).run (server S P) w' =
        some (r', w1') ∧
      World.Related own w1 w1' ∧ w1.clients = w.clients ∧
      w1'.clients = w'.clients ∧
      (Matches S P (.client subcommand args) r r' <->
        ClientOperations.shown subcommand b =
          ClientOperations.shown subcommand a) := by
  rcases ClientOperations.tells_execute hregistry h.clients h.platform ha hb
    subcommand args with ⟨r1, r', platform, hfirst, hsecond, hiff⟩
  rw [← hown] at hfirst hsecond
  have hsame : some (r, w1) = some (r1, { w with platform := platform }) :=
    hrun.symm.trans hfirst
  cases hsame
  exact ⟨r', _, hsecond, ⟨h.store, rfl, h.watch, h.tracker, h.clients⟩, rfl,
    rfl, hiff⟩

/-- A command in related worlds: what it replies differs exactly if it shows
different names. -/
theorem respond_related {x : CommandExecutor}
    (hregistry : x.clientOps.hasRegistry = true) (hown : x.connectionId = some own)
    (h : World.Related own w w')
    (ha : (w.clients.lookup own).map ClientInfo.name = some a)
    (hb : (w'.clients.lookup own).map ClientInfo.name = some b)
    {cmd : Command} {r : RespValue} (n : UInt64)
    (hrun : (respond fuel x cmd).run (server S P) w = some (r, w1)) :
    exists r' w1',
      (respond fuel (x.counting n) cmd).run (server S P) w' = some (r', w1') ∧
      World.Related own w1 w1' ∧ w1.clients = w.clients ∧
      w1'.clients = w'.clients ∧
      (Matches S P cmd r r' <-> cmd.shown b = cmd.shown a) := by
  by_cases hinfo : exists sectionName, cmd = .info sectionName
  · rcases hinfo with ⟨sectionName, rfl⟩
    rcases run_info_counting hrun n with ⟨r', hrun'⟩
    rcases World.run_related (observing_info (x.counting n) sectionName).basic h hrun' with
      ⟨w1', hrun'', hrelated, hclients, hclients'⟩
    exact ⟨r', w1', hrun'', hrelated, hclients, hclients',
      iff_of_true ⟨x, n, w, w1, hrun, hrun'⟩ rfl⟩
  · have hcounting := respond_counting (fun s hs => hinfo ⟨s, hs⟩) fuel x n
    by_cases hclient : cmd.isClientCommand = true
    · cases cmd with
      | client subcommand args =>
          exact respond_client hregistry hown h ha hb n hrun
      | _ => cases hclient
    · rw [Bool.not_eq_true] at hclient
      rcases World.run_related (basic_respond hclient fuel x) h hrun with
        ⟨w1', hrun', hrelated, hclients, hclients'⟩
      rw [hcounting]
      refine ⟨r, w1', hrun', hrelated, hclients, hclients', iff_of_true ?_ ?_⟩
      · cases cmd with
        | info sectionName => exact absurd ⟨sectionName, rfl⟩ hinfo
        | _ => rfl
      · cases cmd with
        | client subcommand args => cases hclient
        | _ => rfl

end CommandExecutor

end FeoxServer
