import Thor.Core.World

/-!
# Tables and statement texts

The schema `__init_sqlite3_instance` creates and, for every function of
`database/` that builds a statement, the text it builds. The table macros are
those of the file the function stands in: `usr_info_db.c` writes the table name
with a blank on either side.
-/

namespace Thor

open CLib Sql

/-! ## The schema (database/thor_db.c) -/

/-- A column of `__init_sqlite3_instance`. -/
def textColumn (name : String) : Column := ⟨lit name, .text, true⟩

def userTable : Str := lit "UserInformation"
def itemTable : Str := lit "ItemsInformation"
def logsTable : Str := lit "TransactionLogs"
def imagesTable : Str := lit "ItemImages"

def userInformation : Schema where
  name := userTable
  key := lit "ID"
  cols := [⟨lit "ID", .integer, true⟩, textColumn "UserName", textColumn "UserPsswd",
    ⟨lit "PrivMode", .integer, true⟩, ⟨lit "IsLogged", .integer, true⟩,
    ⟨lit "AdditionalInfo", .text, false⟩]
  unique := [[lit "UserName", lit "PrivMode"]]

def itemsInformation : Schema where
  name := itemTable
  key := lit "ID"
  cols := [⟨lit "ID", .integer, true⟩, textColumn "UPC", textColumn "Quantity",
    textColumn "Price", ⟨lit "Name", .text, false⟩]
  unique := [[lit "Name"]]

def transactionLogs : Schema where
  name := logsTable
  key := lit "ID"
  cols := [⟨lit "ID", .integer, true⟩, textColumn "User", textColumn "UserId",
    textColumn "Epoch", textColumn "Process", textColumn "LogType", textColumn "LatLong",
    textColumn "TxId", textColumn "StackTrace"]
  unique := []

def itemImages : Schema where
  name := imagesTable
  key := lit "ID"
  cols := [⟨lit "ID", .integer, true⟩, textColumn "UPC", ⟨lit "Image", .blob, true⟩,
    ⟨lit "Extra", .text, false⟩]
  unique := [[lit "UPC"]]

def catalog : Catalog := [userInformation, itemsInformation, transactionLogs, itemImages]

def userNameCol : Str := lit "UserName"
def userPsswdCol : Str := lit "UserPsswd"
def privModeCol : Str := lit "PrivMode"

/-! ## Users as rows -/

/-- A row of the users table. -/
def userRow (id : Int) (name pswd : Str) (mode logged : Int) : Row := fun c =>
  if c = lit "ID" then .int id
  else if c = userNameCol then .text name
  else if c = userPsswdCol then .text pswd
  else if c = privModeCol then .int mode
  else if c = lit "IsLogged" then .int logged
  else if c = lit "AdditionalInfo" then .text []
  else .null

/-- A database with these users and nothing else. -/
def usersDb (rows : List Row) : Db := fun t =>
  if t = userTable then ⟨rows, rows.length⟩ else ⟨[], 0⟩

/-- The row of the built-in user `admin`. -/
def adminRow : Row := userRow 1 (lit "admin") (md5 (lit "admin")) rootUsr 1

/-! ## database/thor_db.c -/

/-- `__is_logged`. -/
def isLoggedSql (name : Str) : Str :=
  sprintf (lit "SELECT IsLogged from %s where UserName='%s' ") [userTable, name]

/-- `__get_usr_role`. -/
def getUsrRoleSql (name pswd : Str) : Str :=
  lit "SELECT PrivMode FROM UserInformation WHERE " ++
    sprintf (lit " UserName = '%s' AND UserPsswd = '%s' ;") [name, pswd]

/-! ## database/usr_info_db.c -/

/-- `USER_TABLE` of `usr_info_db.c`. -/
def userTableSpaced : Str := lit " UserInformation "

/-- `__update_user_info`. -/
def updateUserInfoSql (colName qual hashed : Str) : Str :=
  sprintf (lit "UPDATE %s SET %s='%s' where ID=(SELECT ID FROM %s where UserName='%s' );")
    [userTableSpaced, colName, hashed, userTableSpaced, qual]

/-- `__create_usr_table`. -/
def createUsrTableSql (uname psswd : Str) (role : Int) : Str :=
  lit "INSERT INTO " ++ userTableSpaced ++
    lit " (UserName,UserPsswd,PrivMode,IsLogged,AdditionalInfo) VALUES( " ++
    sprintf (lit "'%s','%s',%d,%d,''); ") [uname, psswd, fmtD role, fmtD 1]

/-- `__get_all_users`. -/
def getAllUsersSql : Str := lit "select * from " ++ userTableSpaced ++ lit ";"

/-! ## database/items_info_db.c -/

/-- `__update_items_info`. -/
def updateItemsInfoSql (colName qual updated : Str) : Str :=
  sprintf (lit "UPDATE %s SET %s='%s' where ID=(SELECT ID FROM %s where UPC='%s' );")
    [itemTable, colName, updated, itemTable, qual]

/-- `__add_items`. -/
def addItemsSql (upc quantity price name : Str) : Str :=
  lit "INSERT INTO ItemsInformation (UPC,Quantity,Price,Name) VALUES( " ++
    sprintf (lit "'%s','%s','%s','%s'); ") [upc, quantity, price, name]

/-- `__get_all_items`. -/
def getAllItemsSql : Str := lit "select UPC, Quantity, Price, Name from ItemsInformation;"

/-- `__delete_item`. -/
def deleteItemSql (name : Str) : Str :=
  lit "DELETE FROM ItemsInformation where UPC= " ++ sprintf (lit "'%s'; ") [name]

/-! ## database/items_images.c -/

/-- `__update_item_image`. -/
def updateItemImageSql (colName qual updated : Str) : Str :=
  sprintf (lit "UPDATE %s SET %s='%s' where ID=(SELECT ID FROM %s where UPC='%s' );")
    [imagesTable, colName, updated, imagesTable, qual]

/-- `__add_image`. -/
def addImageSql (upc image : Str) : Str :=
  sprintf (lit "INSERT INTO ItemImages (UPC,Image,Extra) VALUES( '%s','%s',' '); ") [upc, image]

/-- `__delete_image`. -/
def deleteImageSql (upc : Str) : Str :=
  lit "DELETE FROM ItemImages where UPC= " ++ sprintf (lit "'%s'; ") [upc]

/-- `__get_all_image_upc`. -/
def getAllImageUpcSql : Str := lit "SELECT UPC FROM ItemImages ;"

/-- `__get_image_for_upc`. -/
def getImageForUpcSql (upc : Str) : Str :=
  sprintf (lit "SELECT IMAGE FROM ItemImages WHERE UPC='%s' ;") [upc]

/-! ## database/rpc_log_db.c -/

/-- The type of a log entry: `REQD` or `AUTO`. -/
inductive LogType where
  | reqd | auto
  deriving DecidableEq

/-- The text `__log_rpc_command` stores for it. -/
def LogType.text : LogType → Str
  | .reqd => lit "Requested"
  | .auto => lit "AUTO"

/-- `__log_rpc_command`, for the client `ip:port` with the id `uid` at the time `now`. -/
def logRpcCommandSql (ip : Str) (port : Int) (uid now : Nat) (type : LogType)
    (process command latlong txId : Str) : Str :=
  lit "INSERT INTO TransactionLogs " ++
    lit "(User,UserId,Epoch,Process,LogType,LatLong,TxId,StackTrace) VALUES( " ++
    sprintf (lit "'%s:%d','%d',%ld,'%s','%s','%s','%s','%s'); ")
      [ip, fmtD port, fmtD (toInt32 uid), fmtD now, process, type.text, latlong, txId, command]

end Thor
