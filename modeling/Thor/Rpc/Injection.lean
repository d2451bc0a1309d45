import Thor.CLib.Shell
import Thor.Rpc.NodeArgs

/-!
# The line that `cli-node` gives to the shell

`__exec_rpc_cmd` puts the client's text behind `lightning-cli`, and `popen` gives the line
to a shell.

- `mem_popened_runCliNode`: the line, whatever the command.
- `onlyLightningCli_iff`: for which texts the shell runs `lightning-cli` and nothing else.
-/

namespace Thor

open CLib Sql Prog

/-- What `__exec_rpc_cmd` leaves of a command, between its brackets. -/
def argumentText (command : Str) : Str := cutBrackets command (strnlen command (kb 700))

/-! ## The line -/

/-- No other line is handed to `popen`. -/
def OpensOnly (line : Str) (_ : World) (o : List Event) (_ : World) : Prop :=
  ∀ l ∈ popened o, l = line

theorem OpensOnly.composable (line : Str) : Composable (OpensOnly line) where
  refl _ := fun _ h => absurd h List.not_mem_nil
  trans {_ o _ o' _} h h' := by
    intro l hl
    rw [popened_append] at hl
    rcases List.mem_append.mp hl with hl | hl
    · exact h l hl
    · exact h' l hl

theorem opensOnly_of_childless {α : Type} {m : M α} (h : Always m Childless) (line : Str) :
    Always m (OpensOnly line) := by
  intro w hw l hl
  rw [show popened _ = [] from h w hw] at hl
  exact absurd hl List.not_mem_nil

theorem opensOnly_runProcess (y : Sys) (line : Str) :
    Always (runProcess y line) (OpensOnly line) := by
  intro w _ l hl
  rw [popened_runProcess] at hl
  split at hl
  · exact List.mem_singleton.mp hl
  · exact absurd hl List.not_mem_nil

/-- Also an empty command, for which there is no room, opens no other line. -/
theorem opensOnly_execRpcCmd (y : Sys) (command : Str) :
    Always (execRpcCmd y command) (OpensOnly (lit "lightning-cli " ++ argumentText command)) := by
  have hline : sprintf (lit "lightning-cli %s") [argumentText command]
      = lit "lightning-cli " ++ argumentText command := by
    simp [lit, sprintf]
  have hcomp := OpensOnly.composable (lit "lightning-cli " ++ argumentText command)
  have henter : Always (emit (.execRpcCmd command)) Childless := fun _ _ => rfl
  refine RelOn.seq hcomp (opensOnly_of_childless henter _) fun _ => ?_
  refine RelOn.bind (Q := fun process _ => process = lit "lightning-cli " ++ argumentText command)
    hcomp (opensOnly_of_childless (childless_prim.sprintfInto _ _) _) ?_ fun process => ?_
  · intro w _ process hprocess
    rw [run_sprintfInto, show cutBrackets command _ = argumentText command from rfl, hline]
      at hprocess
    dsimp only at hprocess
    split at hprocess
    · exact (Except.ok.inj hprocess).symm
    · cases hprocess
  · rintro w rfl
    exact opensOnly_runProcess y _ w trivial

theorem mem_popened_runCliNode (y : Sys) {process : Option Str} {latlong : Str}
    {txId : Option Str} {command line : Str} {w : World}
    (h : line ∈ popened ((runCliNode y process latlong txId command).run w).out) :
    line = lit "lightning-cli " ++ argumentText command := by
  have hcomp := OpensOnly.composable (lit "lightning-cli " ++ argumentText command)
  have hlog : Always (logRpcCommand y .auto process (some command) (some latlong) txId) Childless :=
    (childless_prim.db y).logRpcCommand _ _ _ _ _
  have hall : Always (runCliNode y process latlong txId command)
      (OpensOnly (lit "lightning-cli " ++ argumentText command)) := by
    refine RelOn.seq hcomp (RelOn.gets hcomp) fun _ => ?_
    split
    · exact RelOn.seq hcomp (opensOnly_of_childless (childless_callPtr hlog) _) fun _ =>
        opensOnly_execRpcCmd y command
    · exact opensOnly_execRpcCmd y command
  exact hall w trivial line h

/-! ## The text -/

/-- No byte of the marker is left in the command, so no `#` that would begin a comment. -/
theorem hash_notMem_argumentText {cmd : Str} {process : Option Str} {latlong : Str}
    {txId : Option Str} {command : Str}
    (h : parseRequest cmd = .cliNode process latlong txId command) :
    '#' ∉ argumentText command := by
  -- the command is a token without its last byte
  have hread := h ▸ parseRequest_readFrom cmd
  obtain ⟨-, -, -, token, htoken, rfl⟩ := hread
  intro hmem
  unfold argumentText cutBrackets at hmem
  split at hmem
  · exact absurd hmem (by decide)
  · rcases List.mem_cons.mp (List.mem_of_mem_take hmem) with heq | hmem
    · exact absurd heq (by decide)
    · have hfree := (strtok_some (Prod.ext htoken rfl)).2 '#' (List.mem_of_mem_dropLast (List.mem_of_mem_tail hmem))
      exact hfree.2 (by decide)

/-- **Only `lightning-cli`.** The line is one command of the shell, `lightning-cli` with
words for arguments, if and only if all that is active in the text is quoted. -/
theorem onlyLightningCli_iff (y : Sys) {w : World} {cmd : Str} {process : Option Str}
    {latlong : Str} {txId : Option Str} {command line : Str}
    (hcmd : parseRequest cmd = .cliNode process latlong txId command)
    (hline : line ∈ popened ((processCmd y cmd).run w).out) :
    SimpleCommand (lit "lightning-cli") line ↔ quoted (argumentText command) = true := by
  obtain ⟨saved, hrun⟩ := processCmd_run y cmd w
  rw [hrun, hcmd] at hline
  rw [mem_popened_runCliNode y hline]
  exact simpleCommand_iff (by decide) (hash_notMem_argumentText hcmd)

/-! ## Two commands -/

/-- A client without a role of its own, on a server that has just started. -/
def clientWorld : World := .before { initDataDflt with uid := 1 } (usersDb [])

/-- The command with this argument. -/
def cliNodeCommand (args : Str) : Str := cliNodeFrame (lit "1_2") (lit "3") args

/-- A quoted argument with a blank in it. -/
theorem onlyLightningCli_newaddr :
    SimpleCommand (lit "lightning-cli") (lit "lightning-cli   newaddr \"two words\" ") := by
  have hcmd : parseRequest (cliNodeCommand (lit "newaddr \"two words\""))
      = .cliNode (some (lit "cli-node")) (lit "1,2") (some (lit "3"))
        (lit "[ newaddr \"two words\" ]") := by decide +kernel
  have hline : lit "lightning-cli   newaddr \"two words\" " ∈
      popened ((processCmd quietSys (cliNodeCommand (lit "newaddr \"two words\""))).run
        clientWorld).out := by decide +kernel
  have hquoted : quoted (argumentText (lit "[ newaddr \"two words\" ]")) = true := by
    decide +kernel
  exact (onlyLightningCli_iff quietSys hcmd hline).mpr hquoted

/-- Behind a semicolon the shell runs whatever the client likes. -/
theorem not_onlyLightningCli :
    ¬ ∀ (y : Sys) (w : World) (cmd : Str) (process : Option Str) (latlong : Str)
      (txId : Option Str) (command line : Str),
      parseRequest cmd = .cliNode process latlong txId command →
      line ∈ popened ((processCmd y cmd).run w).out →
      SimpleCommand (lit "lightning-cli") line := by
  intro h
  have hcmd : parseRequest (cliNodeCommand (lit "getinfo;reboot"))
      = .cliNode (some (lit "cli-node")) (lit "1,2") (some (lit "3"))
        (lit "[ getinfo;reboot ]") := by decide +kernel
  have hline : lit "lightning-cli   getinfo;reboot " ∈
      popened ((processCmd quietSys (cliNodeCommand (lit "getinfo;reboot"))).run clientWorld).out := by
    decide +kernel
  obtain ⟨args, htokens, hargs⟩ := h _ _ _ _ _ _ _ _ hcmd hline
  have hscan : (ShState.start.scan (lit "lightning-cli   getinfo;reboot ")).tokens
      = some [.word (lit "lightning-cli"), .word (lit "getinfo"), .active ';',
        .word (lit "reboot")] := by decide +kernel
  rw [hscan] at htokens
  obtain rfl := (List.cons.inj (Option.some.inj htokens)).2
  exact absurd (hargs (.active ';') (by decide)) (by decide)

end Thor
