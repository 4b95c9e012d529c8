import FeoxServer.Network.DirectExecution

/-!
# The fast path as it is written

`try_fast_path` looks at the frame itself and appends its replies by hand.
What it does is what parsing, executing and writing do.
-/

namespace FeoxServer

open Foundation Prog

namespace Connection

/-- A plain `SET`: whatever the store answers ends the fast path. -/
def trySet (c : Connection) (key value : Bytes) :
    ServerProg (Connection × Bool) := do
  match <- CommandExecutor.fastSetBytes key value with
  | .ok _ => pure (c.write (asBytes "+OK\r\n"), true)
  | .error e =>
      pure (((c.write (asBytes "-ERR ")).write (asBytes e.text)).write
        (asBytes "\r\n"), true)

/-- The second half of `try_fast_path`. -/
def tryGet (c : Connection) (cmd : Bytes) (args : List RespValue) :
    ServerProg (Connection × Bool) :=
  if cmd.length = 3 ∧ eqIgnoreAsciiCase cmd (asBytes "GET") ∧
      args.length = 2 then
    match args[1]? with
    | some (RespValue.bulkString (some key)) => do
        match <- CommandExecutor.fastGet key with
        | .ok value =>
            pure (((((c.write (asBytes "$")).write
              (asBytes (decimalNat value.length))).write (asBytes "\r\n")).write
                value).write (asBytes "\r\n"), true)
        | .error e =>
            if e.keyNotFound then pure (c.write (asBytes "$-1\r\n"), true)
            else
              pure (((c.write (asBytes "-ERR ")).write (asBytes e.text)).write
                (asBytes "\r\n"), true)
    | _ => pure (c, false)
  else pure (c, false)

/-- `try_fast_path`: the connection afterwards, and whether the frame is dealt
with. -/
def tryFastPath (c : Connection) (v : RespValue) :
    ServerProg (Connection × Bool) :=
  match v with
  | .array (some args) =>
      if args.length < 2 then pure (c, false)
      else
        match args[0]? with
        | some (RespValue.bulkString (some cmd)) =>
            if cmd.length = 3 ∧ eqIgnoreAsciiCase cmd (asBytes "SET") ∧
                3 <= args.length then
              match args[1]?, args[2]? with
              | some (RespValue.bulkString (some key)),
                  some (RespValue.bulkString (some value)) =>
                  if args.length = 3 then trySet c key value
                  else tryGet c cmd args
              | _, _ => pure (c, false)
            else tryGet c cmd args
        | _ => pure (c, false)
  | _ => pure (c, false)

theorem write_write (c : Connection) (front back : Bytes) :
    (c.write front).write back = c.write (front ++ back) := by
  simp [write]

theorem length_of_eqIgnoreAsciiCase {a b : Bytes}
    (h : eqIgnoreAsciiCase a b = true) : a.length = b.length := by
  have hupper := congrArg List.length (eq_of_beq h)
  simpa [toAsciiUppercase] using hupper

theorem trySet_eq (c : Connection) (key value : Bytes) :
    c.trySet key value =
      (FastCommand.set key value).run >>= fun r => pure (c.write r.bytes, true) := by
  refine congrArg (Prog.ask _) (funext fun answer => ?_)
  cases answer with
  | ok u => rfl
  | error e =>
      change Prog.done _ = Prog.done _
      simp only [write_write, FastReply.bytes]

theorem tryGet_eq (c : Connection) {cmd : Bytes} (key : Bytes)
    (hget : eqIgnoreAsciiCase cmd (asBytes "GET") = true) :
    c.tryGet cmd [.bulkString (some cmd), .bulkString (some key)] =
      (FastCommand.get key).run >>= fun r => pure (c.write r.bytes, true) := by
  have hlength : cmd.length = 3 :=
    (length_of_eqIgnoreAsciiCase hget).trans (by decide)
  rw [tryGet, if_pos ⟨hlength, hget, rfl⟩]
  refine congrArg (Prog.ask _) (funext fun answer => ?_)
  cases answer with
  | ok value =>
      change Prog.done _ = Prog.done _
      simp only [write_write, FastReply.bytes]
  | error e =>
      change (if e.keyNotFound = true then Prog.done _ else Prog.done _) =
        Prog.done ((c.write (FastReply.bytes
          (if e.keyNotFound = true then .nil else .failed e))), true)
      by_cases hmissing : e.keyNotFound = true
      · rw [if_pos hmissing, if_pos hmissing]
        rfl
      · rw [if_neg hmissing, if_neg hmissing]
        simp only [write_write, FastReply.bytes]

theorem tryGet_other (c : Connection) {cmd : Bytes} {args : List RespValue}
    (h : args.length ≠ 2) : c.tryGet cmd args = pure (c, false) := by
  rw [tryGet, if_neg fun hget => h hget.2.2]

theorem tryFastPath_eq (c : Connection) (v : RespValue) :
    c.tryFastPath v =
      match fastCommand v with
      | some f => f.run >>= fun r => pure (c.write r.bytes, true)
      | none => pure (c, false) := by
  rcases v with s | e | n | b | (_ | args) <;> try rfl
  rcases args with _ | ⟨a, _ | ⟨b, args⟩⟩
  · rfl
  · rcases a with s | e | n | (_ | cmd) | args <;> rfl
  · rcases a with s | e | n | (_ | cmd) | as <;> try rfl
    -- The name of the command stands in front.
    rcases args with _ | ⟨d, _ | ⟨d', args⟩⟩
    · have htry : c.tryFastPath (.array (some [.bulkString (some cmd), b])) =
          c.tryGet cmd [.bulkString (some cmd), b] := by
        simp [tryFastPath]
      rw [htry]
      rcases b with s | e | n | (_ | key) | bs
      case bulkString.some =>
        by_cases hget : eqIgnoreAsciiCase cmd (asBytes "GET") = true
        · rw [tryGet_eq c key hget]
          simp only [fastCommand, if_pos hget]
        · rw [tryGet, if_neg fun h => hget h.2.1]
          simp only [fastCommand, if_neg hget]
      all_goals
        rw [tryGet]
        split_ifs <;> rfl
    · by_cases hset : eqIgnoreAsciiCase cmd (asBytes "SET") = true
      · have hlength : cmd.length = 3 :=
          (length_of_eqIgnoreAsciiCase hset).trans (by decide)
        rcases b with s | e | n | (_ | key) | bs
        case bulkString.some =>
          rcases d with s | e | n | (_ | value) | ds
          case bulkString.some =>
            have htry : c.tryFastPath (.array (some [.bulkString (some cmd),
                .bulkString (some key), .bulkString (some value)])) =
                  c.trySet key value := by
              simp [tryFastPath, hlength, hset]
            rw [htry]
            refine (trySet_eq c key value).trans ?_
            simp only [fastCommand, if_pos hset]
          all_goals simp [tryFastPath, fastCommand, hlength, hset]
        all_goals
          rcases d with s | e | n | (_ | value) | ds <;>
            simp [tryFastPath, fastCommand, hlength, hset]
      · have htry : c.tryFastPath (.array (some [.bulkString (some cmd), b, d])) =
            pure (c, false) := by
          rw [← @tryGet_other c cmd [.bulkString (some cmd), b, d] (by simp)]
          simp [tryFastPath, hset]
        rw [htry]
        rcases b with s | e | n | (_ | key) | bs <;>
          rcases d with s | e | n | (_ | value) | ds <;> try rfl
        simp only [fastCommand, if_neg hset]
    · have hother := @tryGet_other c cmd (.bulkString (some cmd) :: b :: d :: d' :: args)
        (by simp)
      have htry : c.tryFastPath
          (.array (some (.bulkString (some cmd) :: b :: d :: d' :: args))) =
            pure (c, false) := by
        rcases b with s | e | n | (_ | key) | bs <;>
          rcases d with s | e | n | (_ | value) | ds <;>
          simp [tryFastPath, hother]
      rw [htry]
      rcases b with s | e | n | (_ | key) | bs <;>
        rcases d with s | e | n | (_ | value) | ds <;> rfl

theorem exists_run_fast (S : FeoxStore) (P : Platform) (f : FastCommand)
    (w : World S P) : exists r w', f.run.run (server S P) w = some (r, w') := by
  cases f with
  | set key value =>
      unfold FastCommand.run CommandExecutor.fastSetBytes
      simp only [bind_assoc, run_call_bind]
      generalize World.reply (.store (.insertBytesWithTimestamp key value)) w =
        answered
      rcases answered with ⟨u | e, w'⟩ <;> exact ⟨_, _, rfl⟩
  | get key =>
      unfold FastCommand.run CommandExecutor.fastGet
      simp only [run_call_bind]
      generalize World.reply (.store (.getBytes key)) w = answered
      rcases answered with ⟨e | value, w'⟩ <;> exact ⟨_, _, rfl⟩

/-- Whatever the fast path does is what parsing the frame, executing the
command and writing the reply do; where it does not apply it does nothing. -/
theorem tryFastPath_refines (S : FeoxStore) (P : Platform) (fuel : Nat)
    (c : Connection) (v : RespValue) (w : World S P) :
    exists c' handled w',
      (c.tryFastPath v).run (server S P) w = some ((c', handled), w') ∧
      (handled = true -> exists cmd r x, Command.fromResp v = .ok cmd ∧
        (c.executor.execute fuel cmd).run (server S P) w = some ((r, x), w') ∧
        c' = { c with writeBuffer := writeRespValue c.writeBuffer r }) ∧
      (handled = false -> c' = c ∧ w' = w) := by
  rw [tryFastPath_eq]
  cases hfast : fastCommand v with
  | none => exact ⟨c, false, w, rfl, nofun, fun _ => ⟨rfl, rfl⟩⟩
  | some f =>
      rcases exists_run_fast S P f w with ⟨r, w', hrun⟩
      let x := { c.executor with
        commandsProcessed := c.executor.commandsProcessed + 1 }
      have hrespond : (CommandExecutor.respond fuel x f.command).run
          (server S P) w = some (r.toResp, w') := by
        rw [← f.run_bind_toResp]
        exact (run_bind_eq_some _).mpr ⟨r, w', hrun, rfl⟩
      refine ⟨c.write r.bytes, true, w', ?_, fun _ => ?_, nofun⟩
      · exact (run_bind_eq_some _).mpr ⟨r, w', hrun, rfl⟩
      · refine ⟨f.command, r.toResp, x, fromResp_of_fastCommand hfast, ?_, ?_⟩
        · exact (run_bind_eq_some _).mpr ⟨r.toResp, w', hrespond, rfl⟩
        · rw [write, r.bytes_eq, writeRespValue_eq_append]

end Connection

end FeoxServer
