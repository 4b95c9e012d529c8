import FeoxServer.Foundation.DecimalWords
import FeoxServer.Network.Transcripts
import FeoxServer.Protocol.Increments

/-!
# Counters and decimal text

A number is kept as decimal text when a client has set it, and as eight octets
when the store has counted it up.  An increment takes eight octets for a
counter, whatever they are, and reading shows what is kept.
-/

namespace FeoxServer

open Foundation Prog

/-- What a client does with a number: it sets it as decimal text, adds an
amount, or reads it. -/
inductive CounterOp (key : Bytes) where
  | set (text : String) (n : Int64) (hnumber : parseI64 text = some n)
  | add (amount : Int) (cmd : Command)
      (hadds : (NumberSlot.string key).Adds amount cmd)
  | get

namespace CounterOp

variable {key : Bytes}

def command : CounterOp key -> Command
  | set text _ _ => .set key (asBytes text) none none
  | add _ cmd _ => cmd
  | get => .get key

/-- The number that the client works with, zero when there is none, and whether
an increment has been the last to change it. -/
structure Ledger where
  number : Int
  counted : Bool

def Ledger.after (l : Ledger) : CounterOp key -> Ledger
  | set _ n _ => ⟨n.toInt, false⟩
  | add amount _ _ => ⟨l.number + amount, true⟩
  | get => l

/-- An increment replies the new number, and a `GET` after an increment the
number as decimal text. -/
def Expected (l : Ledger) : CounterOp key -> RespValue -> Prop
  | set _ _ _, _ => True
  | add amount _ _, r => r = .integer (Int64.ofInt (l.number + amount))
  | get, r => l.counted = true ->
      r = .bulkString (some (asBytes (decimalInt l.number)))

/-- Every reply is as expected. -/
def Correct : Ledger -> List (CounterOp key) -> List RespValue -> Prop
  | _, [], _ => True
  | l, op :: ops, replies =>
      exists r rest, replies = r :: rest ∧ Expected l op r ∧
        Correct (l.after op) ops rest

/-- No sum leaves the range of the numbers. -/
def NoOverflow : Ledger -> List (CounterOp key) -> Prop
  | _, [] => True
  | l, op :: ops =>
      InRange (l.after op).number ∧ NoOverflow (l.after op) ops

/-!
# How the number is kept
-/

inductive Kept where
  | absent
  | text (digits : String)
  | counter

/-- An increment writes text back as text and otherwise leaves a counter. -/
def Kept.after (l : Ledger) : Kept -> CounterOp key -> Kept
  | _, .set digits _ _ => .text digits
  | .text _, .add amount _ _ => .text (decimalInt (l.number + amount))
  | _, .add _ _ _ => .counter
  | kept, .get => kept

def Kept.Suits : Kept -> CounterOp key -> Prop
  | .text digits, .add _ _ _ => (asBytes digits).length ≠ 8
  | .counter, .get => False
  | _, _ => True

def AllSuit : Ledger -> Kept -> List (CounterOp key) -> Prop
  | _, _, [] => True
  | l, kept, op :: ops =>
      kept.Suits op ∧ AllSuit (l.after op) (kept.after l op) ops

/-- Neither does the sum of an amount and of eight characters that are taken for
a counter. -/
def Kept.OctetsFit : Kept -> CounterOp key -> Prop
  | .text digits, .add amount _ _ =>
      (asBytes digits).length = 8 ->
        InRange ((i64FromLeBytes (asBytes digits)).toInt + amount)
  | _, _ => True

def AllOctetsFit : Ledger -> Kept -> List (CounterOp key) -> Prop
  | _, _, [] => True
  | l, kept, op :: ops =>
      kept.OctetsFit op ∧ AllOctetsFit (l.after op) (kept.after l op) ops

/-!
# One command
-/

def Holds (value : Option Bytes) (l : Ledger) : Kept -> Prop
  | .absent => value = none ∧ l = ⟨0, false⟩
  | .text digits => exists n : Int64,
      value = some (asBytes digits) ∧ parseI64 digits = some n ∧
        n.toInt = l.number ∧ (l.counted = true -> digits = decimalInt l.number)
  | .counter => exists n : Int64,
      value = some (i64ToLeBytes n) ∧ n.toInt = l.number ∧ l.counted = true

theorem respond_add {amount : Int} {cmd : Command}
    (h : (NumberSlot.string key).Adds amount cmd) :
    exists delta : Int64, delta.toInt = amount ∧
      forall fuel (x : CommandExecutor),
        x.respond fuel cmd = CommandExecutor.stringIncr key delta := by
  cases h with
  | incr => exact ⟨1, rfl, fun _ _ => rfl⟩
  | incrBy _ delta => exact ⟨delta, rfl, fun _ _ => rfl⟩
  | decr => exact ⟨-1, rfl, fun _ _ => rfl⟩
  | @decrBy _ delta hmin => exact ⟨-delta, toInt_neg_of_ne hmin, fun _ _ => rfl⟩

theorem stringNumber_text {digits : String} {n : Int64}
    (h : parseI64 digits = some n) :
    CommandExecutor.stringNumber (asBytes digits) = some n := by
  rw [CommandExecutor.stringNumber, fromUtf8Lossy_asBytes, trim_of_parseI64 h, h]

variable {S : FeoxStore} {P : Platform}
  {view : S.State -> Bytes -> Option Bytes}

theorem run_ask_store {α : Type} {c : StoreCall}
    {next : StoreAnswer c -> ServerProg α} {w : World S P} {r : StoreAnswer c}
    {s' : S.State} (h : S.reply c w.store = (r, s')) :
    (Prog.ask (Call.store c) next).run (server S P) w =
      (next r).run (server S P) { w with store := s' } := by
  rw [run_ask, reply_store h]

theorem run_stringIncr_counted {w : World S P} {delta val : Int64} {s' : S.State}
    (h : S.reply (.atomicIncrement key delta) w.store = (.ok val, s')) :
    exists w', (CommandExecutor.stringIncr key delta).run (server S P) w =
      some (.integer val, w') ∧ w'.store = s' := by
  rw [stringIncr_eq, run_ask_store h]
  exact ⟨_, rfl, rfl⟩

theorem run_writeNumber (hS : NumberStore S view) (w : World S P) (n : Int64) :
    exists w', (CommandExecutor.writeNumber key n).run (server S P) w =
        some (.integer n, w') ∧
      view w'.store key = some (asBytes (decimal n)) := by
  rcases hS.insertBytesWithTimestamp w.store key (asBytes (decimal n)) with
    ⟨s', hinsert, hview⟩
  refine ⟨_, run_ask_store hinsert, ?_⟩
  change view s' key = _
  rw [hview, Function.update_self]

theorem run_stringIncr_text (hS : NumberStore S view) {w : World S P}
    {digits : String} {n : Int64} (delta : Int64)
    (htext : view w.store key = some (asBytes digits))
    (hnumber : parseI64 digits = some n) (hlength : (asBytes digits).length ≠ 8) :
    exists w', (CommandExecutor.stringIncr key delta).run (server S P) w =
        some (.integer (n + delta), w') ∧
      view w'.store key = some (asBytes (decimal (n + delta))) := by
  rcases hS.atomicIncrement_text delta htext hlength with ⟨e, s1, hincr, hview1⟩
  have htext1 : view s1 key = some (asBytes digits) := by rw [hview1, htext]
  rcases hS.getBytes_present htext1 with ⟨s2, hget, _⟩
  rcases @run_writeNumber key S P view hS { w with store := s2 } (n + delta) with
    ⟨w', hwrite, hview⟩
  refine ⟨w', ?_, hview⟩
  rw [stringIncr_eq, run_ask_store hincr]
  refine (run_ask_store hget).trans ?_
  simp only [stringNumber_text hnumber]
  exact hwrite

theorem run_get (hS : NumberStore S view) {w : World S P} {value : Bytes}
    (hvalue : view w.store key = some value) (fuel : Nat) (x : CommandExecutor) :
    exists w', (x.respond fuel (.get key)).run (server S P) w =
        some (.bulkString (some value), w') ∧
      view w'.store = view w.store := by
  rcases hS.getBytes_present hvalue with ⟨s', hget, hview⟩
  exact ⟨_, run_ask_store hget, hview⟩

theorem run_suitable (hS : NumberStore S view) {op : CounterOp key} {l : Ledger}
    {kept : Kept} {w : World S P} (hholds : Holds (view w.store key) l kept)
    (hrange : InRange (l.after op).number) (hsuits : kept.Suits op) (fuel : Nat)
    (x : CommandExecutor) :
    exists r w', (x.respond fuel op.command).run (server S P) w = some (r, w') ∧
      Expected l op r ∧
      Holds (view w'.store key) (l.after op) (kept.after l op) := by
  cases op with
  | set text n hnumber =>
      rcases hS.insertBytesWithTimestamp w.store key (asBytes text) with
        ⟨s', hinsert, hview⟩
      refine ⟨_, _, run_ask_store hinsert, trivial, n, ?_, hnumber, rfl, nofun⟩
      change view s' key = _
      rw [hview, Function.update_self]
  | add amount cmd hadds =>
      rcases respond_add hadds with ⟨delta, rfl, hrespond⟩
      change InRange (l.number + delta.toInt) at hrange
      have hsum : forall n : Int64, n.toInt = l.number ->
          (n + delta).toInt = l.number + delta.toInt := by
        rintro n hn
        rw [← hn] at hrange ⊢
        exact toInt_add_of_inRange hrange
      have hreply : forall n : Int64, n.toInt = l.number ->
          RespValue.integer (n + delta) =
            .integer (Int64.ofInt (l.number + delta.toInt)) := by
        intro n hn
        rw [← hsum n hn, Int64.ofInt_toInt]
      rw [command, hrespond]
      cases kept with
      | absent =>
          rcases hholds with ⟨hnone, rfl⟩
          rcases hS.atomicIncrement_absent delta hnone with ⟨s', hincr, hview⟩
          rcases run_stringIncr_counted (P := P) hincr with ⟨w', hrun, hstore⟩
          refine ⟨_, w', hrun, ?_, delta, ?_, (Int.zero_add _).symm, rfl⟩
          · rw [Expected, Int.zero_add, Int64.ofInt_toInt]
          · rw [hstore, hview, Function.update_self]
      | counter =>
          rcases hholds with ⟨n, hvalue, hn, _⟩
          have hfits : InRange (n.toInt + delta.toInt) := by rwa [hn]
          rcases hS.atomicIncrement_present delta hvalue hfits with
            ⟨s', hincr, hview⟩
          rcases run_stringIncr_counted (P := P) hincr with ⟨w', hrun, hstore⟩
          refine ⟨_, w', hrun, hreply n hn, n + delta, ?_, hsum n hn, rfl⟩
          rw [hstore, hview, Function.update_self]
      | text digits =>
          rcases hholds with ⟨n, hvalue, hnumber, hn, _⟩
          rcases run_stringIncr_text (P := P) hS delta hvalue hnumber hsuits with
            ⟨w', hrun, hview⟩
          have hdecimal : decimal (n + delta) =
              decimalInt (l.number + delta.toInt) := by
            rw [decimal, hsum n hn]
          refine ⟨_, w', hrun, hreply n hn, n + delta, ?_, ?_, hsum n hn,
            fun _ => rfl⟩
          · rw [hview, hdecimal]
          · rw [← hdecimal, parseI64_decimal]
  | get =>
      cases kept with
      | absent =>
          rcases hholds with ⟨hnone, rfl⟩
          rcases hS.getBytes_absent hnone with ⟨e, s', hget, hview⟩
          refine ⟨_, _, run_ask_store hget, nofun, ?_, rfl⟩
          change view s' key = none
          rw [hview, hnone]
      | counter => exact absurd hsuits id
      | text digits =>
          rcases hholds with ⟨n, hvalue, hnumber, hn, hcanonical⟩
          rcases run_get hS hvalue fuel x with ⟨w', hrun, hview⟩
          refine ⟨_, w', hrun, fun hcounted => ?_, n, ?_, hnumber, hn, hcanonical⟩
          · rw [hcanonical hcounted]
          · rw [hview, hvalue]

theorem exists_run (op : CounterOp key) (fuel : Nat) (x : CommandExecutor)
    (w : World S P) :
    exists r w', (x.respond fuel op.command).run (server S P) w = some (r, w') := by
  have hwrite : forall (n : Int64) (w : World S P), exists r w',
      (CommandExecutor.writeNumber key n).run (server S P) w = some (r, w') := by
    intro n w
    unfold CommandExecutor.writeNumber
    rw [run_call_bind]
    split
    · exact ⟨_, _, rfl⟩
    · exact ⟨_, _, rfl⟩
  cases op with
  | set text n hnumber =>
      change exists r w', (CommandExecutor.set key _ none none).run
        (server S P) w = some (r, w')
      unfold CommandExecutor.set CommandExecutor.setCall
      rw [run_call_bind]
      split
      · exact ⟨_, _, rfl⟩
      · exact ⟨_, _, rfl⟩
  | add amount cmd hadds =>
      rcases respond_add hadds with ⟨delta, _, hrespond⟩
      rw [command, hrespond, stringIncr_eq, run_ask]
      split
      · exact ⟨_, _, rfl⟩
      · rw [run_ask]
        split
        · split
          · exact hwrite _ _
          · exact ⟨_, _, rfl⟩
        · split
          · exact hwrite _ _
          · exact ⟨_, _, rfl⟩
  | get =>
      change exists r w', (CommandExecutor.get key).run (server S P) w =
        some (r, w')
      unfold CommandExecutor.get
      rw [run_call_bind]
      split
      · exact ⟨_, _, rfl⟩
      · exact ⟨_, _, rfl⟩

theorem run_unsuitable (hS : NumberStore S view) {op : CounterOp key} {l : Ledger}
    {kept : Kept} {w : World S P} (hholds : Holds (view w.store key) l kept)
    (hfits : kept.OctetsFit op) (hsuits : ¬ kept.Suits op) (fuel : Nat)
    (x : CommandExecutor) :
    exists r w', (x.respond fuel op.command).run (server S P) w = some (r, w') ∧
      ¬ Expected l op r := by
  cases op with
  | set text n hnumber => cases kept <;> exact absurd trivial hsuits
  | add amount cmd hadds =>
      cases kept with
      | absent | counter => exact absurd trivial hsuits
      | text digits =>
          rcases respond_add hadds with ⟨delta, rfl, hrespond⟩
          rcases hholds with ⟨n, hvalue, hnumber, hn, _⟩
          have hlength : (asBytes digits).length = 8 := not_not.mp hsuits
          rw [← i64ToLeBytes_fromLeBytes hlength] at hvalue
          rcases hS.atomicIncrement_present delta hvalue (hfits hlength) with
            ⟨s', hincr, _⟩
          rcases run_stringIncr_counted (P := P) hincr with ⟨w', hrun, _⟩
          rw [command, hrespond]
          refine ⟨_, w', hrun, fun hexpected => ?_⟩
          injection hexpected with hsum
          rw [← hn, Int64.ofInt_add, Int64.ofInt_toInt, Int64.ofInt_toInt] at hsum
          exact i64FromLeBytes_ne_text hnumber hlength
            ((Int64.add_left_inj delta).mp hsum)
  | get =>
      cases kept with
      | absent | text digits => exact absurd trivial hsuits
      | counter =>
          rcases hholds with ⟨n, hvalue, hn, hcounted⟩
          rcases run_get hS hvalue fuel x with ⟨w', hrun, _⟩
          refine ⟨_, w', hrun, fun hexpected => ?_⟩
          have hsame := hexpected hcounted
          injection hsame with hsame
          injection hsame with hsame
          rw [← hn] at hsame
          exact i64ToLeBytes_ne_decimal n hsame

/-!
# Runs of one client
-/

open Connection in
theorem results_cons {op : CounterOp key} {ops : List (CounterOp key)} {fuel : Nat}
    {x : CommandExecutor} {w w1 w' : World S P} {r : RespValue}
    {replies : List RespValue}
    (hrun : (CommandExecutor.respond fuel
        { x with commandsProcessed := x.commandsProcessed + 1 } op.command).run
      (server S P) w = some (r, w1))
    (hrest : Results (server S P) fuel
      { x with commandsProcessed := x.commandsProcessed + 1 } w1 (ops.map command)
      replies w') :
    Results (server S P) fuel x w ((op :: ops).map command) (r :: replies) w' := by
  refine .cons ?_ hrest
  exact (run_bind_eq_some _).mpr ⟨r, w1, hrun, rfl⟩

theorem exists_results (ops : List (CounterOp key)) (fuel : Nat)
    (x : CommandExecutor) (w : World S P) :
    exists replies w', Connection.Results (server S P) fuel x w (ops.map command)
      replies w' := by
  induction ops generalizing x w with
  | nil => exact ⟨[], w, .nil⟩
  | cons op ops ih =>
      rcases exists_run op fuel
        { x with commandsProcessed := x.commandsProcessed + 1 } w with ⟨r, w1, hrun⟩
      rcases ih _ w1 with ⟨replies, w', hrest⟩
      exact ⟨r :: replies, w', results_cons hrun hrest⟩

theorem run_ops (hS : NumberStore S view) {ops : List (CounterOp key)}
    {l : Ledger} {kept : Kept} {w : World S P} (hfits : NoOverflow l ops)
    (hholds : Holds (view w.store key) l kept) (fuel : Nat) (x : CommandExecutor) :
    exists replies w', Connection.Results (server S P) fuel x w (ops.map command)
        replies w' ∧
      (AllSuit l kept ops -> Correct l ops replies) ∧
      (AllOctetsFit l kept ops -> Correct l ops replies -> AllSuit l kept ops) := by
  induction ops generalizing l kept w x with
  | nil => exact ⟨[], w, .nil, fun _ => trivial, fun _ _ => trivial⟩
  | cons op ops ih =>
      by_cases hsuits : kept.Suits op
      · rcases run_suitable hS hholds hfits.1 hsuits fuel
          { x with commandsProcessed := x.commandsProcessed + 1 } with
          ⟨r, w1, hrun, hexpected, hholds1⟩
        rcases ih hfits.2 hholds1 _ with ⟨replies, w', hrest, hcorrect, hsound⟩
        refine ⟨r :: replies, w', results_cons hrun hrest, ?_, ?_⟩
        · intro hall
          exact ⟨r, replies, rfl, hexpected, hcorrect hall.2⟩
        · rintro hoctets ⟨_, _, heq, _, hall⟩
          cases heq
          exact ⟨hsuits, hsound hoctets.2 hall⟩
      · by_cases hoctets : kept.OctetsFit op
        · rcases run_unsuitable hS hholds hoctets hsuits fuel
            { x with commandsProcessed := x.commandsProcessed + 1 } with
            ⟨r, w1, hrun, hwrong⟩
          rcases exists_results ops fuel _ w1 with ⟨replies, w', hrest⟩
          refine ⟨r :: replies, w', results_cons hrun hrest, ?_, ?_⟩
          · exact fun hall => absurd hall.1 hsuits
          · rintro _ ⟨_, _, heq, hexpected, _⟩
            cases heq
            exact absurd hexpected hwrong
        · rcases exists_results (op :: ops) fuel x w with ⟨replies, w', hrun⟩
          exact ⟨replies, w', hrun, fun hall => absurd hall.1 hsuits,
            fun hall => absurd hall.1 hoctets⟩

/-- The commands of one client on a new key are answered as expected when each
suits what is kept, and otherwise some reply is wrong. -/
theorem correct_iff (hS : NumberStore S view) {ops : List (CounterOp key)}
    {w : World S P} (hnew : view w.store key = none)
    (hfits : NoOverflow ⟨0, false⟩ ops) (fuel : Nat) (x : CommandExecutor) :
    exists replies x' w',
      (Connection.executeAll fuel x (ops.map command) []).run (server S P) w =
        some ((replies, x'), w') ∧
      (AllSuit ⟨0, false⟩ .absent ops -> Correct ⟨0, false⟩ ops replies) ∧
      (AllOctetsFit ⟨0, false⟩ .absent ops -> Correct ⟨0, false⟩ ops replies ->
        AllSuit ⟨0, false⟩ .absent ops) := by
  have hholds : Holds (view w.store key) ⟨0, false⟩ .absent := ⟨hnew, rfl⟩
  rcases run_ops hS hfits hholds fuel x with ⟨replies, w', hrun, hiff⟩
  rcases Connection.executeAll_of_results hrun [] with ⟨x', hall⟩
  exact ⟨replies, x', w', hall, hiff⟩

def countdown : List (CounterOp (asBytes "n")) :=
  [.set "10" 10 (by decide), .add (-1) (.decr (asBytes "n")) (.decr _), .get]

theorem correct_iff_countdown :
    exists replies x' w',
      (Connection.executeAll 0 (.new { requirepass := none })
          (countdown.map command) []).run (server mapStore idlePlatform)
        Connection.freshShared.world = some ((replies, x'), w') ∧
      (AllSuit ⟨0, false⟩ .absent countdown ->
        Correct ⟨0, false⟩ countdown replies) ∧
      (AllOctetsFit ⟨0, false⟩ .absent countdown ->
        Correct ⟨0, false⟩ countdown replies ->
        AllSuit ⟨0, false⟩ .absent countdown) := by
  have hfits : NoOverflow ⟨0, false⟩ countdown := by
    simp [NoOverflow, countdown, Ledger.after, InRange]
  exact correct_iff MapStore.numberStore rfl hfits 0 _

/-- A number that is counted up and read. -/
def countup : List (CounterOp (asBytes "n")) :=
  [.add 1 (.incr (asBytes "n")) (.incr _), .get]

/-- A number of eight characters that is counted up. -/
def eightDigits : List (CounterOp (asBytes "n")) :=
  [.set "12345678" 12345678 (by decide), .add 1 (.incr (asBytes "n")) (.incr _)]

/-- `GET` shows the octets of a counter, and eight characters are counted up as
octets. -/
theorem counter_not_read_back :
    (exists replies x' w',
      NoOverflow ⟨0, false⟩ countup ∧
      (Connection.executeAll 0 (.new { requirepass := none })
          (countup.map command) []).run (server mapStore idlePlatform)
        Connection.freshShared.world = some ((replies, x'), w') ∧
      replies = [.integer 1, .bulkString (some [1, 0, 0, 0, 0, 0, 0, 0])] ∧
      ¬ Correct ⟨0, false⟩ countup replies) ∧
    exists replies x' w',
      NoOverflow ⟨0, false⟩ eightDigits ∧
      (Connection.executeAll 0 (.new { requirepass := none })
          (eightDigits.map command) []).run (server mapStore idlePlatform)
        Connection.freshShared.world = some ((replies, x'), w') ∧
      replies = [CommandExecutor.okReply, .integer 4050765991979987506] ∧
      ¬ Correct ⟨0, false⟩ eightDigits replies := by
  constructor
  · refine ⟨[.integer 1, .bulkString (some [1, 0, 0, 0, 0, 0, 0, 0])], _, _, ?_,
      rfl, rfl, ?_⟩
    · simp [NoOverflow, countup, Ledger.after, InRange]
    · rintro ⟨_, _, heq, _, _, _, heq', hget, _⟩
      cases heq
      cases heq'
      have hoctets := hget rfl
      injection hoctets with hoctets
      injection hoctets with hoctets
      exact absurd hoctets (by decide)
  · refine ⟨[CommandExecutor.okReply, .integer 4050765991979987506], _, _, ?_,
      rfl, rfl, ?_⟩
    · simp [NoOverflow, eightDigits, Ledger.after, InRange]
    · rintro ⟨_, _, heq, _, _, _, heq', hadd, _⟩
      cases heq
      cases heq'
      injection hadd with hsum
      exact absurd hsum (by decide)

end CounterOp

end FeoxServer
