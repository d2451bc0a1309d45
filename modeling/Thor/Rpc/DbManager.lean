import Thor.Rpc.Clight

/-!
# Database commands (rpc/db_manager.c)

`db,<action>,<table>,...` is a switch on the action, then on the table, then on
the action again inside the table's handler. A leaf takes its fields with
`strtok`, tests its function pointer and calls through it (`guarded`), and
answers.
-/

namespace Thor

open CLib Sql Prog

/-- `if (op) { if (op(...) == 0) ok; else err; } else refused;` -/
def guarded (op : Op) (args : List (Option Str)) (call : M Int) (ok err refused : M Unit) :
    M Unit := do
  if ← isSet op then
    let result ← callPtr op args call
    if result = 0 then ok else err
  else refused

/-! ## Replies -/

def reply (text : String) : M Unit := sendResponse "%s" [txt (lit text)]

/-- The result, or `dflt` when there is none. -/
def replyValue (dflt : String) : M Unit := do
  let value ← valueOr dflt
  sendResponse "resp,ok,0,response,%s" [value]

/-- The error message, or `dflt` when there is none. -/
def replyError (dflt : String) : M Unit := do
  let response ← responseOr dflt
  sendResponse "resp,fail,reason,%s" [response]

variable (y : Sys)

/-! ## Items -/

/-- The switch of `__process_db_items_cmds`. -/
def dbItemsAction : Commands → M Unit
  | .add => do
    let name ← strtokNext comma
    let quantity ← strtokNext comma
    let price ← strtokNext comma
    let extra ← strtokNext comma
    guarded .addItem [name, quantity, price, extra] (addItems y name quantity price extra)
      (sendResponse "resp,status,%s" [txt (lit "success")])
      (do
        let response ← responseOr "db error"
        sendResponse "resp,status,fail,reason,%s" [response])
      (reply "resp,status,fail,reason,unauthorized")
  | .del => do
    let name ← strtokNext comma
    guarded .dltItem [name] (deleteItem y name)
      (sendResponse "resp,status,%s" [txt (lit "success")])
      (do
        let response ← responseOr "db error"
        sendResponse "resp,status,fail,reason,%s" [response])
      (reply "resp,status,fail,reason,unauthorized")
  | .update => do
    let name ← strtokNext comma
    let key ← strtokNext comma
    let value ← strtokNext comma
    guarded .updateItem [name, key, value] (updateItemsInfo y name (findCmd key) value)
      (replyValue "success") (replyError "db error")
      (reply "resp,status,fail,reason,unauthorized")
  | .getlist =>
    guarded .getAllItems [] (getAllItems y) (replyValue "Resource Busy")
      (replyError "db-error") (reply "resp,fail,reason,unauthorized")
  | _ => pure ()

/-- `__process_db_items_cmds`. -/
def processDbItemsCmds (action : Commands) : M Unit := do
  dbItemsAction y action
  freeValue
  -- cleared, and not released: the message is lost
  setResponse none

/-! ## Users -/

/-- `__process_db_user_cmds`. -/
def processDbUserCmds : Commands → M Unit
  | .add => do
    let name ← strtokNext comma
    let pass ← strtokNext comma
    let mode ← strtokNext comma
    let mode ← deref mode
    guarded .creatUsr [name, pass, some mode] (createUsrTable y name pass (atoi mode))
      (replyValue "success") (replyError "db error") (reply "resp,fail,reason,unauthorized")
  | .del => do
    let name ← strtokNext comma
    let pass ← strtokNext comma
    guarded .dltUsr [name, pass] dltUsrInfo
      (replyValue "success") (replyError "db error") (reply "resp,fail,reason,unauthorized")
  | .update => do
    let name ← strtokNext comma
    let key ← strtokNext comma
    let value ← strtokNext comma
    -- the one without an answer when the pointer is not set
    guarded .updateUsr [name, key, value] (updateUserInfo y name (findCmd key) value)
      (replyValue "success") (replyError "db error") (pure ())
  | .getlist => do
    guarded .getAllUsers [] (getAllUsers y) (replyValue "Resource Busy")
      (reply "resp,fail,reason,unauthorized") (reply "resp,fail,reason,unauthorized")
    freeValue
  | _ => pure ()

/-! ## Images -/

/-- `__process_db_item_image_cmds`. -/
def processDbItemImageCmds : Commands → M Unit
  | .getimage => do
    let upc ← strtokNext comma
    guarded .getImage [upc] (getImageForUpc y upc) (replyValue "Resource Busy")
      (reply "resp,fail,reason,unauthorized") (reply "resp,fail,reason,unauthorized")
    freeValue
  | .add => do
    let upc ← strtokNext comma
    let image ← strtokNext comma
    guarded .addImage [upc, image] (addImage y upc image)
      (replyValue "success") (replyError "db error") (reply "resp,fail,reason,unauthorized")
  | .update => do
    let upc ← strtokNext comma
    let key ← strtokNext comma
    let value ← strtokNext comma
    -- as for users, no answer when the pointer is not set
    guarded .updateImage [upc, key, value] (updateItemImage y upc (findCmd key) value)
      (replyValue "success") (replyError "db error") (pure ())
  | .del => do
    let upc ← strtokNext comma
    guarded .deleteImage [upc] (deleteImage y upc)
      (replyValue "success") (replyError "db error") (reply "resp,fail,reason,unauthorized")
  | .getlist => do
    guarded .getAllImages [] (getAllImageUpc y) (replyValue "Resource Busy")
      (reply "resp,fail,reason,unauthorized") (reply "resp,fail,reason,unauthorized")
    freeValue
  | _ => pure ()

/-! ## The switch on action and table -/

/-- The inner switch of `__process_db_cmds`. -/
def dbTable (action : Commands) : Option Commands → M Unit
  | some .user => processDbUserCmds y action
  | some .items => processDbItemsCmds y action
  | some .images => processDbItemImageCmds y action
  | _ => reply "resp,fail,reason,invalid command"

/-- The inner switch for `get-image`. -/
def dbGetImage : Option Commands → M Unit
  | some .images => processDbItemImageCmds y .getimage
  | _ => reply "resp,fail,reason,invalid command"

/-- The outer switch of `__process_db_cmds`. -/
def dbAction : Option Commands → M Unit
  | some .add => do
    let table ← strtokNext comma
    dbTable y .add (findCmd table)
  | some .del => do
    let table ← strtokNext comma
    dbTable y .del (findCmd table)
  | some .update => do
    let table ← strtokNext comma
    dbTable y .update (findCmd table)
  | some .getimage => do
    let table ← strtokNext comma
    dbGetImage y (findCmd table)
  | some .getlist => do
    let table ← strtokNext comma
    dbTable y .getlist (findCmd table)
  | _ => reply "resp,fail,reason,invalid command"

/-- `if (response) { sqlite3_free(response); response = NULL; }` -/
def freeResponse : M Unit := do
  match ← gets fun w => w.sess.response with
  | some b => do
    emit (.free b.id)
    setResponse none
  | none => pure ()

/-- `__process_db_cmds`. -/
def processDbCmds : M Unit := do
  let action ← strtokNext comma
  dbAction y (findCmd action)
  freeResponse

end Thor
