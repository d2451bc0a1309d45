import Thor.Rpc.DbManager

/-!
# The dispatcher (rpc/interface.c)

`processCmd` is what one frame of a client does. Its first field selects the
branch; the branches for logging, child processes and the server's own controls
stand here, those for the database in `Rpc.DbManager`.
-/

namespace Thor

open CLib Sql Prog

/-! ## Operations of the server object -/

/-- `set_logging_level`. -/
def setLoggingLevel (value : Option Str) : M Unit := do
  let value ← deref value
  let level := strToLoglvl value (strnlen value 15)
  modify fun w => { w with srv := { w.srv with level := level } }

/-- `get_loggin_level`. -/
def getLogginLevel : M Str := gets fun w => loglvlToStr w.srv.level

/-- `get_all_log_levels`. -/
def getAllLogLevels : Str :=
  (lit " [ \x7b \"log-levels\" : [ " ++
    (loglevels.map fun p => lit "\"" ++ p.2 ++ lit "\",").flatten).dropLast ++
      lit "] " ++ lit " \x7d ] "

/-- `print_nodes`. -/
def printNodes (p : Peer) : Str :=
  sprintf (lit (" \x7b \"IP\" : \"%s\" , \"PORT\" : \"%d\" , \"MODE\" : \"%d\" , " ++
      "\"UID\" : \"%d\" \x7d ,"))
    [p.ip, fmtD p.port, fmtD p.mode, fmtD (toInt32 p.uid)]

/-- `__list`. -/
def list : M Unit := do
  let b ← allocBuf []
  setValue (some b)
  let peers ← gets fun w => w.srv.peers
  let value ← sprintfInto (mb 2) (sprintf (lit "%s ") [lit "["] ++ (peers.map printNodes).flatten)
  setValue (some ⟨b.id, value.dropLast ++ lit "]"⟩)

variable (y : Sys)

/-- `__down`, called with a session: its own client list is empty, its own
listening descriptor is `0`, and its own thread was never created. -/
def down : M Unit := do
  modify fun w => { w with srv := { w.srv with state := stateClose } }
  emit (.closeFd 0)
  if y.joinNull then pure () else fail .badJoin

/-- `__close_client`. -/
def closeClient : M Unit := do
  modify fun w => { w with sess := { w.sess with isConnected := false } }
  emit .closeClient

/-! ## Branches of `__process_cmd` -/

/-- `char *tmp = strchr(s, '_'); *tmp = ',';`, `none` when there is nothing to
write to. -/
def underscoreToComma (s : Option Str) : Option Str :=
  s.bind fun s =>
    if '_' ∈ s then some (s.takeWhile (· ≠ '_') ++ ',' :: (s.dropWhile (· ≠ '_')).tail) else none

/-- `log-cmd` -/
def processLogCmd : M Unit := do
  let process ← strtokNext comma
  let latlong ← strtokNext comma
  let txId ← strtokNext comma
  let command ← strtokNext comma
  let latlong ← deref (underscoreToComma latlong)
  let _ ← callPtr .logCmd [process, command, some latlong, txId]
    (logRpcCommand y .reqd process command (some latlong) txId)

/-- `rpc-cmd,cli-node` -/
def processCliNode (process : Option Str) : M Unit := do
  let latlong ← strtokNext comma
  let txId ← strtokNext comma
  let command ← strtokNext marker
  let command ← deref command
  -- the last byte goes: the comma, when the marker follows the command at once
  let command := command.dropLast
  let latlong ← deref (underscoreToComma latlong)
  if (← gets fun w => w.sess.isLogged) ≠ 0 then
    let _ ← callPtr .logCmd [process, some command, some latlong, txId]
      (logRpcCommand y .auto process (some command) (some latlong) txId)
  execRpcCmd y command

/-- `rpc-cmd` -/
def processRpcCmd : M Unit := do
  let process ← strtokNext comma
  match findCmd process with
  | some .clinode => processCliNode y process
  | some .superuser => do
    let command ← strtokNext comma
    openShell y command
  | _ => reply "resp,fail,reason,invalid command"

/-- A branch of `control` that asks for a function pointer of the session. -/
def controlled (op : Op) (granted : M Unit) : M Unit := do
  if ← isSet op then granted else reply "resp,fail,reason,un-authorized"

/-- The switch of `control`. The logger's functions are called through the server
object, whose pointers are always set; the pointer tested is the session's. -/
def controlAction : Option Commands → M Unit
  | some .gettax => do
    let tax ← gets fun w => w.srv.tax
    sendResponse "resp,ok,0,response,%s" [txt tax]
  | some .setlogginglevel => do
    let logLevel ← strtokNext comma
    controlled .setMode do
      callPtr .setMode [logLevel] (setLoggingLevel logLevel)
      sendResponse "resp,ok,0,response,%s" [txt (lit "success")]
  | some .getlogginglevel =>
    controlled .getMode do
      let mode ← callPtr .getMode [] getLogginLevel
      sendResponse "resp,ok,0,response,%s" [txt mode]
  | some .getloglevels =>
    controlled .getAllLevels do
      let all ← callPtr .getAllLevels [] (pure getAllLogLevels)
      sendResponse "resp,ok,0,response,%s" [txt all]
  | some .listpeers =>
    controlled .list do
      callPtr .list [] list
      match ← gets fun w => w.sess.value with
      | some b => do
        sendResponse "resp,ok,0,response,%s" [⟨b.text, some b.id⟩]
        -- released, and left in the slot
        emit (.free b.id)
      | none => fail .nullDeref
  | some .kickpeer => reply "resp,status,under-way"
  | some .turndown =>
    controlled .down do
      sendResponse "resp,ok,0,response,successful" []
      callPtr .down [] (down y)
  | some .iteminterface => do
    let action ← strtokNext comma
    match findCmd action with
    | some .execquery => reply "resp,status,under-way"
    | _ => reply "resp,fail,reason,invalid command"
  | _ => pure ()

/-- `control` -/
def processControl : M Unit := do
  let cmd ← strtokNext comma
  controlAction y (findCmd cmd)

/-- The outer switch of `__process_cmd`. -/
def dispatch : Option Commands → M Unit
  | some .auth => sendResponse "auth,status,logged-in" []
  | some .db => processDbCmds y
  | some .logcmd => processLogCmd y
  | some .rpccmd => processRpcCmd y
  | some .control => processControl y
  | _ => reply "resp,fail,reason,invalid command"

/-- `__process_cmd`. -/
def processCmd (cmd : Str) : M Unit :=
  if strstr cmd (lit "bye") then do
    callPtr .close [] closeClient
    emit .freeIp
  else if strstr cmd marker ∧ strstr cmd comma then do
    let verb ← strtokFirst cmd comma
    dispatch y (findCmd verb)
  else reply "resp,fail,reason,invalid command format"

end Thor
