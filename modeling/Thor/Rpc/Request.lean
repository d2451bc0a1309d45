import Thor.Rpc.Interface
import Thor.CLib.Scan

/-!
# Commands as requests

`__process_cmd` takes its fields with `strtok` while it walks down its switches,
but it has all of them before it does anything else. So a command is a `Request`,
found by looking at its list of fields (`parseRequest`), and processing the
command is running the request (`processCmd_run`).

The requests on the database have one shape: a `DbLeaf` says which function
pointer it asks for, what it calls through it, how it answers and what it
releases.
-/

namespace Thor

open CLib Sql Prog

/-! ## Requests on the database -/

/-- The leaves of the switches in `rpc/db_manager.c`, with their fields. -/
inductive DbLeaf where
  | addItem (name quantity price extra : Option Str)
  | dltItem (name : Option Str)
  | updateItem (name key value : Option Str)
  | getAllItems
  | creatUsr (name pass : Option Str) (mode : Str)
  | dltUsr (name pass : Option Str)
  | updateUsr (name key value : Option Str)
  | getAllUsers
  | addImage (upc image : Option Str)
  | deleteImage (upc : Option Str)
  | updateImage (upc key value : Option Str)
  | getImage (upc : Option Str)
  | getAllImages
  deriving DecidableEq

namespace DbLeaf

/-- The function pointer it asks for. -/
def op : DbLeaf → Op
  | addItem .. => .addItem
  | dltItem _ => .dltItem
  | updateItem .. => .updateItem
  | getAllItems => .getAllItems
  | creatUsr .. => .creatUsr
  | dltUsr .. => .dltUsr
  | updateUsr .. => .updateUsr
  | getAllUsers => .getAllUsers
  | addImage .. => .addImage
  | deleteImage _ => .deleteImage
  | updateImage .. => .updateImage
  | getImage _ => .getImage
  | getAllImages => .getAllImages

/-- The arguments of the call. -/
def args : DbLeaf → List (Option Str)
  | addItem name quantity price extra => [name, quantity, price, extra]
  | dltItem name => [name]
  | updateItem name key value => [name, key, value]
  | creatUsr name pass mode => [name, pass, some mode]
  | dltUsr name pass => [name, pass]
  | updateUsr name key value => [name, key, value]
  | addImage upc image => [upc, image]
  | deleteImage upc => [upc]
  | updateImage upc key value => [upc, key, value]
  | getImage upc => [upc]
  | getAllItems | getAllUsers | getAllImages => []

variable (y : Sys)

/-- What it calls. -/
def call : DbLeaf → M Int
  | addItem name quantity price extra => addItems y name quantity price extra
  | dltItem name => deleteItem y name
  | updateItem name key value => updateItemsInfo y name (findCmd key) value
  | getAllItems => Thor.getAllItems y
  | creatUsr name pass mode => createUsrTable y name pass (atoi mode)
  | dltUsr _ _ => dltUsrInfo
  | updateUsr name key value => updateUserInfo y name (findCmd key) value
  | getAllUsers => Thor.getAllUsers y
  | addImage upc image => Thor.addImage y upc image
  | deleteImage upc => Thor.deleteImage y upc
  | updateImage upc key value => updateItemImage y upc (findCmd key) value
  | getImage upc => getImageForUpc y upc
  | getAllImages => getAllImageUpc y

/-- The answer to a call that returned `0`. -/
def ok : DbLeaf → M Unit
  | addItem .. | dltItem _ => sendResponse "resp,status,%s" [txt (lit "success")]
  | getAllItems | getAllUsers | getImage _ | getAllImages => replyValue "Resource Busy"
  | _ => replyValue "success"

/-- The answer to a call that failed. -/
def err : DbLeaf → M Unit
  | addItem .. | dltItem _ => do
    let response ← responseOr "db error"
    sendResponse "resp,status,fail,reason,%s" [response]
  | getAllItems => replyError "db-error"
  | getAllUsers | getImage _ | getAllImages => reply "resp,fail,reason,unauthorized"
  | _ => replyError "db error"

/-- The answer when the pointer is not set; two leaves have none. -/
def refused : DbLeaf → M Unit
  | addItem .. | dltItem _ | updateItem .. => reply "resp,status,fail,reason,unauthorized"
  | updateUsr .. | updateImage .. => pure ()
  | _ => reply "resp,fail,reason,unauthorized"

/-- What it releases in the end. -/
def cleanup : DbLeaf → M Unit
  | addItem .. | dltItem _ | updateItem .. | getAllItems => do
    freeValue
    setResponse none
  | getAllUsers | getImage _ | getAllImages => freeValue
  | _ => pure ()

/-- The whole leaf, with the end of `__process_db_cmds`. -/
def prog (l : DbLeaf) : M Unit := do
  guarded l.op l.args (l.call y) l.ok l.err l.refused
  l.cleanup
  freeResponse

end DbLeaf

/-! ## Requests -/

/-- What a command asks for. -/
inductive Request where
  | bye
  /-- no marker or no comma -/
  | malformed
  | auth
  | invalid
  /-- a field is missing, or has no `_`, where the code does not check for it -/
  | crash
  | db (leaf : DbLeaf)
  | dbInvalid
  | logCmd (process : Option Str) (latlong : Str) (txId command : Option Str)
  | cliNode (process : Option Str) (latlong : Str) (txId : Option Str) (command : Str)
  | superMode (command : Option Str)
  | getTax
  | setLogging (level : Option Str)
  | getLogging
  | getLogLevels
  | listPeers
  | underWay
  | shutdown
  /-- an unknown word after `control` -/
  | unanswered
  deriving DecidableEq

/-! ## Reading a request off the fields -/

/-- A request of `db` on a table, from the fields after the table's name. -/
def parseTable (action table : Option Commands) (f : Nat → Option Str) : Request :=
  match action, table with
  | some .add, some .user =>
    match f 2 with
    | some mode => .db (.creatUsr (f 0) (f 1) mode)
    | none => .crash
  | some .add, some .items => .db (.addItem (f 0) (f 1) (f 2) (f 3))
  | some .add, some .images => .db (.addImage (f 0) (f 1))
  | some .del, some .user => .db (.dltUsr (f 0) (f 1))
  | some .del, some .items => .db (.dltItem (f 0))
  | some .del, some .images => .db (.deleteImage (f 0))
  | some .update, some .user => .db (.updateUsr (f 0) (f 1) (f 2))
  | some .update, some .items => .db (.updateItem (f 0) (f 1) (f 2))
  | some .update, some .images => .db (.updateImage (f 0) (f 1) (f 2))
  | some .getimage, some .images => .db (.getImage (f 0))
  | some .getlist, some .user => .db .getAllUsers
  | some .getlist, some .items => .db .getAllItems
  | some .getlist, some .images => .db .getAllImages
  | _, _ => .dbInvalid

/-- `log-cmd` -/
def parseLogCmd (f : Nat → Option Str) : Request :=
  match underscoreToComma (f 1) with
  | some latlong => .logCmd (f 0) latlong (f 2) (f 3)
  | none => .crash

/-- `rpc-cmd,cli-node`; the command is cut from the text left after the other fields. -/
def parseCliNode (process latlong txId : Option Str) (rest : Str) : Request :=
  match (strtok marker rest).1, underscoreToComma latlong with
  | some command, some latlong => .cliNode process latlong txId command.dropLast
  | _, _ => .crash

/-- `control`, from its second field as a word and the field after it. -/
def parseControl (action : Option Commands) (arg : Option Str) : Request :=
  match action with
  | some .gettax => .getTax
  | some .setlogginglevel => .setLogging arg
  | some .getlogginglevel => .getLogging
  | some .getloglevels => .getLogLevels
  | some .listpeers => .listPeers
  | some .kickpeer => .underWay
  | some .turndown => .shutdown
  | some .iteminterface =>
    match findCmd arg with
    | some .execquery => .underWay
    | _ => .invalid
  | _ => .unanswered

/-- Field number `n` of a command. -/
def field (cmd : Str) (n : Nat) : Option Str := (fields comma cmd)[n]?

/-- `rpc-cmd`, from its second field as a word. -/
def parseRpcCmd (cmd : Str) : Option Commands → Request
  | some .clinode =>
    parseCliNode (field cmd 1) (field cmd 2) (field cmd 3) (strtokRest comma 4 cmd)
  | some .superuser => .superMode (field cmd 2)
  | _ => .invalid

/-- The request a command is. -/
def parseRequest (cmd : Str) : Request :=
  if strstr cmd (lit "bye") then .bye
  else if strstr cmd marker ∧ strstr cmd comma then
    match findCmd (field cmd 0) with
    | some .auth => .auth
    | some .db =>
      parseTable (findCmd (field cmd 1)) (findCmd (field cmd 2)) fun n => field cmd (n + 3)
    | some .logcmd => parseLogCmd fun n => field cmd (n + 1)
    | some .rpccmd => parseRpcCmd cmd (findCmd (field cmd 1))
    | some .control => parseControl (findCmd (field cmd 1)) (field cmd 2)
    | _ => .invalid
  else .malformed

/-- Where a request has its fields from, as far as they are not fields of `db`. -/
def Request.ReadFrom (cmd : Str) : Request → Prop
  | bye => strstr cmd (lit "bye") = true
  | logCmd process latlong txId command => process = field cmd 1 ∧
      underscoreToComma (field cmd 2) = some latlong ∧ txId = field cmd 3 ∧ command = field cmd 4
  | cliNode process latlong txId command => process = field cmd 1 ∧
      underscoreToComma (field cmd 2) = some latlong ∧ txId = field cmd 3 ∧
      ∃ token, (strtok marker (strtokRest comma 4 cmd)).1 = some token ∧ command = token.dropLast
  | superMode command => command = field cmd 2
  | setLogging level => level = field cmd 2
  | _ => True

theorem parseTable_readFrom (cmd : Str) (action table : Option Commands) (f : Nat → Option Str) :
    (parseTable action table f).ReadFrom cmd := by
  unfold parseTable
  split
  · split <;> trivial
  all_goals trivial

theorem parseControl_readFrom (cmd : Str) (action : Option Commands) :
    (parseControl action (field cmd 2)).ReadFrom cmd := by
  unfold parseControl
  split
  · trivial
  · exact rfl
  · trivial
  · trivial
  · trivial
  · trivial
  · trivial
  · split <;> trivial
  · trivial

theorem parseRpcCmd_readFrom (cmd : Str) (action : Option Commands) :
    (parseRpcCmd cmd action).ReadFrom cmd := by
  unfold parseRpcCmd
  split
  · unfold parseCliNode
    split
    · next token _ htoken hlatlong => exact ⟨rfl, hlatlong, rfl, token, htoken, rfl⟩
    · trivial
  · exact rfl
  · trivial

/-- **A request is read off its command.** -/
theorem parseRequest_readFrom (cmd : Str) : (parseRequest cmd).ReadFrom cmd := by
  unfold parseRequest
  split
  · next hbye => exact hbye
  · split
    · split
      · trivial
      · exact parseTable_readFrom ..
      · unfold parseLogCmd
        split
        · next hlatlong => exact ⟨rfl, hlatlong, rfl, rfl⟩
        · trivial
      · exact parseRpcCmd_readFrom ..
      · exact parseControl_readFrom ..
      · trivial
    · trivial

/-! ## Running a request -/

variable (y : Sys)

/-- `control,list-peers`, granted. -/
def sendPeers : M Unit := do
  callPtr .list [] list
  match ← gets fun w => w.sess.value with
  | some b => do
    sendResponse "resp,ok,0,response,%s" [⟨b.text, some b.id⟩]
    emit (.free b.id)
  | none => fail .nullDeref

/-- `rpc-cmd,cli-node`, its fields at hand. -/
def runCliNode (process : Option Str) (latlong : Str) (txId : Option Str) (command : Str) :
    M Unit := do
  if (← gets fun w => w.sess.isLogged) ≠ 0 then
    let _ ← callPtr .logCmd [process, some command, some latlong, txId]
      (logRpcCommand y .auto process (some command) (some latlong) txId)
  execRpcCmd y command

def Request.prog : Request → M Unit
  | bye => do
    callPtr .close [] closeClient
    emit .freeIp
  | malformed => reply "resp,fail,reason,invalid command format"
  | auth => sendResponse "auth,status,logged-in" []
  | invalid => reply "resp,fail,reason,invalid command"
  | crash => fail .nullDeref
  | db leaf => leaf.prog y
  | dbInvalid => do
    reply "resp,fail,reason,invalid command"
    freeResponse
  | logCmd process latlong txId command => do
    let _ ← callPtr .logCmd [process, command, some latlong, txId]
      (logRpcCommand y .reqd process command (some latlong) txId)
  | cliNode process latlong txId command => runCliNode y process latlong txId command
  | superMode command => openShell y command
  | getTax => do
    let tax ← gets fun w => w.srv.tax
    sendResponse "resp,ok,0,response,%s" [txt tax]
  | setLogging level =>
    controlled .setMode do
      callPtr .setMode [level] (setLoggingLevel level)
      sendResponse "resp,ok,0,response,%s" [txt (lit "success")]
  | getLogging =>
    controlled .getMode do
      let mode ← callPtr .getMode [] getLogginLevel
      sendResponse "resp,ok,0,response,%s" [txt mode]
  | getLogLevels =>
    controlled .getAllLevels do
      let all ← callPtr .getAllLevels [] (pure getAllLogLevels)
      sendResponse "resp,ok,0,response,%s" [txt all]
  | listPeers => controlled .list sendPeers
  | underWay => reply "resp,status,under-way"
  | shutdown =>
    controlled .down do
      sendResponse "resp,ok,0,response,successful" []
      callPtr .down [] (down y)
  | unanswered => pure ()

/-! ## Taking the fields -/

/-- The number of fields a request on a table takes. -/
def tableFields : Commands → Option Commands → Nat
  | .add, some .user => 3
  | .add, some .items => 4
  | .add, some .images => 2
  | .del, some .user => 2
  | .del, some .items | .del, some .images | .getimage, some .images => 1
  | .update, some .user | .update, some .items | .update, some .images => 3
  | _, _ => 0

/-- `db` and an action. -/
def scanTable (action : Commands) : Scan Request :=
  .take comma fun table =>
    .takes comma (tableFields action (findCmd table)) fun f =>
      .done (parseTable (some action) (findCmd table) f)

/-- `db` -/
def scanDb : Scan Request :=
  .take comma fun action =>
    match findCmd action with
    | some .add => scanTable .add
    | some .del => scanTable .del
    | some .update => scanTable .update
    | some .getimage => scanTable .getimage
    | some .getlist => scanTable .getlist
    | _ => .done .dbInvalid

/-- `rpc-cmd` -/
def scanRpcCmd : Scan Request :=
  .take comma fun process =>
    match findCmd process with
    | some .clinode =>
      .take comma fun latlong => .take comma fun txId => .take marker fun command =>
        .done (match command, underscoreToComma latlong with
          | some command, some latlong => .cliNode process latlong txId command.dropLast
          | _, _ => .crash)
    | some .superuser => .take comma fun command => .done (.superMode command)
    | _ => .done .invalid

/-- `control` -/
def scanControl : Scan Request :=
  .take comma fun action =>
    match findCmd action with
    | some .setlogginglevel => .take comma fun level => .done (.setLogging level)
    | some .iteminterface =>
      .take comma fun arg => .done (parseControl (some .iteminterface) arg)
    | action => .done (parseControl action none)

/-- The tokens a command takes, once its first one is known. -/
def scanDispatch : Option Commands → Scan Request
  | some .auth => .done .auth
  | some .db => scanDb
  | some .logcmd => .takes comma 4 fun f => .done (parseLogCmd f)
  | some .rpccmd => scanRpcCmd
  | some .control => scanControl
  | _ => .done .invalid

/-- All the tokens a command takes. -/
def scanCmd (cmd : Str) : Scan Request :=
  if strstr cmd (lit "bye") then .done .bye
  else if strstr cmd marker ∧ strstr cmd comma then .take comma fun verb => scanDispatch (findCmd verb)
  else .done .malformed

/-! ## Processing a command is taking its fields and running its request -/

/-- Take the tokens of a scan, and go on with the result. -/
def runScan {α β : Type} (k : α → M β) : Scan α → M β
  | .done a => k a
  | .take d next => strtokNext d >>= fun t => runScan k (next t)

theorem run_runScan {α β : Type} (k : α → M β) : ∀ (s : Scan α) (w : World),
    (runScan k s).run w = (k (s.result w.saved)).run { w with saved := s.rest w.saved }
  | .done _, _ => rfl
  | .take d next, w => by
    show (strtokNext d >>= fun t => runScan k (next t)).run w = _
    rw [run_bind_of_run (run_strtokNext d w), run_runScan k (next _)]
    rfl

/-- The scans of requests, run. -/
abbrev runRequest : Scan Request → M Unit := runScan fun r => r.prog y

/-- The actions that are defined on every table. -/
theorem dbTable_eq {action : Commands} (h : action ∈ [.add, .del, .update, .getlist])
    (table : Option Commands) :
    (do dbTable y action table; freeResponse) =
      runRequest y (.takes comma (tableFields action table) fun f =>
        .done (parseTable (some action) table f)) := by
  simp only [List.mem_cons, List.not_mem_nil, or_false] at h
  unfold dbTable
  split
  · rcases h with rfl | rfl | rfl | rfl
    · simp only [processDbUserCmds, Prog.bind_assoc]
      refine congrArg _ (funext fun name => congrArg _ (funext fun pass =>
        congrArg _ (funext fun mode => ?_)))
      cases mode with
      | none => rfl
      | some mode => rfl
    · simp only [processDbUserCmds, Prog.bind_assoc]
      rfl
    · simp only [processDbUserCmds, Prog.bind_assoc]
      rfl
    · simp only [processDbUserCmds, Prog.bind_assoc]
      rfl
  · -- the items clean up behind their leaf, which is where the leaf's own program ends
    rcases h with rfl | rfl | rfl | rfl <;>
    · simp only [processDbItemsCmds, dbItemsAction, Prog.bind_assoc, tableFields, Scan.takes,
        parseTable, runScan, Request.prog, DbLeaf.prog, DbLeaf.cleanup]
      rfl
  · rcases h with rfl | rfl | rfl | rfl <;>
    · simp only [processDbItemImageCmds, Prog.bind_assoc]
      rfl
  · next hu hi him =>
    have hnone : tableFields action table = 0 := by
      unfold tableFields
      split <;> first | rfl | contradiction
    rw [hnone]
    show _ = (parseTable (some action) table fun _ => none).prog y
    have hno : parseTable (some action) table (fun _ => none) = .dbInvalid := by
      unfold parseTable
      split <;> first | rfl | contradiction
    rw [hno]
    rfl

theorem dbGetImage_eq (table : Option Commands) :
    (do dbGetImage y table; freeResponse) =
      runRequest y (.takes comma (tableFields .getimage table) fun f =>
        .done (parseTable (some .getimage) table f)) := by
  unfold dbGetImage
  split
  · simp only [processDbItemImageCmds, Prog.bind_assoc]
    rfl
  · next him =>
    have hnone : tableFields .getimage table = 0 := by
      unfold tableFields
      split <;> first | rfl | contradiction
    rw [hnone]
    show _ = (parseTable (some .getimage) table fun _ => none).prog y
    have hno : parseTable (some .getimage) table (fun _ => none) = .dbInvalid := by
      unfold parseTable
      split <;> first | rfl | contradiction
    rw [hno]
    rfl

theorem dbTable_scan {action : Commands} (h : action ∈ [.add, .del, .update, .getlist]) :
    (do
      let table ← strtokNext comma
      dbTable y action (findCmd table)
      freeResponse) = runRequest y (scanTable action) :=
  congrArg _ (funext fun table => dbTable_eq y h (findCmd table))

theorem processDbCmds_eq : processDbCmds y = runRequest y scanDb := by
  refine congrArg _ (funext fun action => ?_)
  dsimp only
  generalize findCmd action = word
  cases word with
  | none => rfl
  | some word =>
    cases word with
    | add | del | update | getlist =>
      unfold dbAction
      rw [Prog.bind_assoc]
      exact dbTable_scan y (by decide)
    | getimage =>
      unfold dbAction
      rw [Prog.bind_assoc]
      exact congrArg _ (funext fun table => dbGetImage_eq y (findCmd table))
    | _ => rfl

theorem processLogCmd_eq : processLogCmd y = runRequest y (scanDispatch (some .logcmd)) := by
  refine congrArg _ (funext fun process => congrArg _ (funext fun latlong =>
    congrArg _ (funext fun txId => congrArg _ (funext fun command => ?_))))
  show _ = (parseLogCmd _).prog y
  unfold parseLogCmd
  dsimp only
  cases underscoreToComma latlong with
  | none => rfl
  | some latlong => rfl

theorem processRpcCmd_eq : processRpcCmd y = runRequest y scanRpcCmd := by
  refine congrArg _ (funext fun process => ?_)
  dsimp only
  generalize findCmd process = word
  cases word with
  | none => rfl
  | some word =>
    cases word with
    | clinode =>
      show processCliNode y process = _
      refine congrArg _ (funext fun latlong => congrArg _ (funext fun txId =>
        congrArg _ (funext fun command => ?_)))
      cases command with
      | none => rfl
      | some command =>
        dsimp only
        cases underscoreToComma latlong with
        | none => rfl
        | some latlong => rfl
    | _ => rfl

theorem processControl_eq : processControl y = runRequest y scanControl := by
  refine congrArg _ (funext fun action => ?_)
  dsimp only
  generalize findCmd action = word
  cases word with
  | none => rfl
  | some word =>
    cases word with
    | iteminterface =>
      unfold controlAction
      refine congrArg (strtokNext comma >>= ·) (funext fun arg => ?_)
      show _ = (parseControl (some .iteminterface) arg).prog y
      unfold parseControl
      dsimp only
      generalize findCmd arg = query
      cases query with
      | none => rfl
      | some query => cases query <;> rfl
    | _ => rfl

theorem dispatch_eq (verb : Option Commands) :
    dispatch y verb = runRequest y (scanDispatch verb) := by
  unfold dispatch
  split
  · rfl
  · exact processDbCmds_eq y
  · exact processLogCmd_eq y
  · exact processRpcCmd_eq y
  · exact processControl_eq y
  · next hauth hdb hlog hrpc hcontrol =>
    have hno : scanDispatch verb = .done .invalid := by
      unfold scanDispatch
      split <;> first | rfl | contradiction
    rw [hno]
    rfl

/-- **A command takes its fields and runs its request**; the position is where the last
call of `strtok` left it. -/
theorem processCmd_scan (cmd : Str) (w : World) :
    (processCmd y cmd).run w = (((scanCmd cmd).result cmd).prog y).run
      { w with saved := if (scanCmd cmd).tokens cmd = [] then w.saved else (scanCmd cmd).rest cmd } := by
  unfold processCmd scanCmd
  split
  · rfl
  · split
    · have hrun : (strtokFirst cmd comma >>= fun verb => dispatch y (findCmd verb)).run w
          = (runRequest y (.take comma fun verb => scanDispatch (findCmd verb))).run
            { w with saved := cmd } := by
        rw [runRequest, runScan]
        simp only [dispatch_eq]
        rfl
      rw [hrun, run_runScan]
      rfl
    · rfl

/-! ## The result of the scan is the request -/

theorem result_takes {α : Type} (cmd : Str) : ∀ (m n : Nat) (k : (Nat → Option Str) → Scan α)
    (r : α), (∀ f : Nat → Option Str, (∀ i < m, f i = field cmd (n + i)) →
      (k f).result (strtokRest comma (n + m) cmd) = r) →
    (Scan.takes comma m k).result (strtokRest comma n cmd) = r
  | 0, _, _, _, h => h _ fun _ hi => absurd hi (Nat.not_lt_zero _)
  | m + 1, n, k, r, h => by
    rw [Scan.takes, Scan.result_take]
    refine result_takes cmd m (n + 1) _ r fun f hf => ?_
    rw [show n + 1 + m = n + (m + 1) by omega]
    refine h _ fun i hi => ?_
    cases i with
    | zero => rfl
    | succ i => exact (hf i (by omega)).trans (congrArg (field cmd) (by omega))

/-- A request on a table looks at the fields it takes. -/
theorem parseTable_congr {action : Commands} {table : Option Commands} {f g : Nat → Option Str}
    (h : ∀ i < tableFields action table, f i = g i) :
    parseTable (some action) table f = parseTable (some action) table g := by
  unfold tableFields at h
  unfold parseTable
  split <;> simp_all

theorem result_scanTable (cmd : Str) (action : Commands) :
    (scanTable action).result (strtokRest comma 2 cmd) =
      parseTable (some action) (findCmd (field cmd 2)) fun n => field cmd (n + 3) := by
  unfold scanTable
  rw [Scan.result_take]
  refine result_takes cmd _ 3 _ _ fun f hf => ?_
  show parseTable _ _ f = _
  exact parseTable_congr fun i hi => (hf i hi).trans (congrArg (field cmd) (Nat.add_comm _ _))

theorem result_scanDb (cmd : Str) :
    scanDb.result (strtokRest comma 1 cmd) =
      parseTable (findCmd (field cmd 1)) (findCmd (field cmd 2)) fun n => field cmd (n + 3) := by
  unfold scanDb
  rw [Scan.result_take]
  show Scan.result (match findCmd (field cmd 1) with
    | some .add => scanTable .add
    | some .del => scanTable .del
    | some .update => scanTable .update
    | some .getimage => scanTable .getimage
    | some .getlist => scanTable .getlist
    | _ => .done .dbInvalid) _ = _
  generalize findCmd (field cmd 1) = action
  split
  · exact result_scanTable cmd _
  · exact result_scanTable cmd _
  · exact result_scanTable cmd _
  · exact result_scanTable cmd _
  · exact result_scanTable cmd _
  · unfold parseTable
    split <;> first | rfl | contradiction

theorem result_scanLogCmd (cmd : Str) :
    (scanDispatch (some .logcmd)).result (strtokRest comma 1 cmd)
      = parseLogCmd fun n => field cmd (n + 1) := by
  show (Scan.takes comma 4 fun f => .done (parseLogCmd f)).result _ = _
  refine result_takes cmd 4 1 _ _ fun f hf => ?_
  show parseLogCmd f = _
  unfold parseLogCmd
  rw [hf 0 (by decide), hf 1 (by decide), hf 2 (by decide), hf 3 (by decide)]

theorem result_scanRpcCmd (cmd : Str) :
    scanRpcCmd.result (strtokRest comma 1 cmd) = parseRpcCmd cmd (findCmd (field cmd 1)) := by
  unfold scanRpcCmd parseRpcCmd
  rw [Scan.result_take]
  show Scan.result (match findCmd (field cmd 1) with
    | some .clinode => _
    | some .superuser => _
    | _ => _) _ = _
  split
  · rw [Scan.result_take, Scan.result_take]
    rfl
  · rw [Scan.result_take]
    rfl
  · rfl

theorem result_scanControl (cmd : Str) :
    scanControl.result (strtokRest comma 1 cmd)
      = parseControl (findCmd (field cmd 1)) (field cmd 2) := by
  unfold scanControl
  rw [Scan.result_take]
  show Scan.result (match findCmd (field cmd 1) with
    | some .setlogginglevel => _
    | some .iteminterface => _
    | action => _) _ = _
  split
  · next heq =>
    rw [Scan.result_take, heq]
    rfl
  · next heq =>
    rw [Scan.result_take, heq]
    rfl
  · next hset hitem =>
    show parseControl _ none = _
    unfold parseControl
    split <;> first | rfl | contradiction

theorem result_scanCmd (cmd : Str) : (scanCmd cmd).result cmd = parseRequest cmd := by
  unfold scanCmd parseRequest
  split
  · rfl
  · split
    · refine (Scan.result_take comma cmd 0 _).trans ?_
      show (scanDispatch (findCmd (field cmd 0))).result (strtokRest comma 1 cmd) = _
      generalize findCmd (field cmd 0) = verb
      split
      · rfl
      · exact result_scanDb cmd
      · exact result_scanLogCmd cmd
      · exact result_scanRpcCmd cmd
      · exact result_scanControl cmd
      · have hno : scanDispatch verb = .done .invalid := by
          unfold scanDispatch
          split <;> first | rfl | contradiction
        rw [hno]
        rfl
    · rfl

/-- **A command is its request.** -/
theorem processCmd_run (cmd : Str) (w : World) :
    ∃ s, (processCmd y cmd).run w = ((parseRequest cmd).prog y).run { w with saved := s } :=
  ⟨_, result_scanCmd cmd ▸ processCmd_scan y cmd w⟩

end Thor
