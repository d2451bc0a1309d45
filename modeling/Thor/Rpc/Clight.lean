import Thor.Database.Ops

/-!
# Child processes (rpc/clight.c)

`__exec_rpc_cmd` runs `lightning-cli` with the arguments of a command,
`__open_shell` runs a command as it is. Both cut the brackets off in place, read
all the child prints into one array, and send it.
-/

namespace Thor

open CLib Sql Prog

/-- `RESPSZ`. -/
def respsz : Nat := 10 * 1000 * 1000

/-- `command[0] = ' '; command[len - 1] = '\0';`. With `len = 0` the blank
replaces the terminator, and the byte that is zeroed lies before the string. -/
def cutBrackets (command : Str) : Nat → Str
  | 0 => [' ']
  | n + 1 => (' ' :: command.tail).take n

/-- `while (fgets(...) != NULL) strcat(resp, buf)`. -/
def readOutput (chunks : List Str) : Except Crash Str :=
  chunks.foldlM (fun resp buf => match strcat respsz resp buf with
    | some t => .ok t
    | none => .error .overflow) []

variable (y : Sys)

/-- Run a line with `popen` and send what it prints. -/
def runProcess (line : Str) : M Unit := do
  let t ← nextTick
  if y.alloc t then
    emit (.popen line)
    let t ← nextTick
    let db ← gets fun w => w.srv.db
    let child := y.popen t line db
    -- the child may have changed the database file
    modify fun w => { w with srv := { w.srv with db := child.2 } }
    match child.1 with
    | none => fail .nullDeref
    | some chunks =>
      let resp ← lift (readOutput chunks)
      sendResponse "resp,status,rpc-cmd,cli-node,[ %s ]" [txt resp]
  else
    sendResponse "%s" [txt (lit "resp,fail,reason,cannot execute command")]

/-- `__exec_rpc_cmd`. -/
def execRpcCmd (command : Str) : M Unit := do
  emit (.execRpcCmd command)
  let len := strnlen command (kb 700)
  let process ← sprintfInto (14 + len + 1)
    (sprintf (lit "lightning-cli %s") [cutBrackets command len])
  runProcess y process

/-- `__open_shell`. -/
def openShell (command : Option Str) : M Unit := do
  emit (.openShell command)
  let command ← deref command
  -- without the limit that `__exec_rpc_cmd` has
  let len := command.length
  let process ← sprintfInto (14 + len + 1) (sprintf (lit " %s ") [cutBrackets command len])
  runProcess y process

end Thor
