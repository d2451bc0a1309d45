import Thor.Database.Builders

/-!
# The functions of `database/`

Each builds one text and hands it to `sqlite3_exec`. Most of them leave the
error message in the session's result slot (`runStatement`); the listings also
leave a text in it (`listInto`), which they collect through a stream that is
buffered in an array of their own.

- `sqlite3Exec`, `storeMessage`: one call of the engine, and what becomes of its
  message pointer.
- `runStatement`: the functions that write, and `__log_rpc_command`.
- `Stream`, `renderRow`, `listInto`: the functions that list.
- `getUsrRole`, `isLogged`: the two queries of the login, which run on the server
  object and keep their message to themselves.
-/

namespace Thor

open CLib Sql Prog

variable (y : Sys)

/-! ## The engine -/

/-- A result row as a callback receives it: column names with texts. -/
abbrev RowText := List (Str × Option Str)

/-- `sqlite3_exec`: the callback runs once a row. `none` is `SQLITE_OK`. -/
def sqlite3Exec {β : Type} (sql : Str) (callback : β → RowText → Except Crash β) (data : β) :
    M (β × Option Fault) := do
  emit (.exec sql)
  let t ← nextTick
  match y.fault t with
  | some f => pure (data, some f)
  | none =>
    let db ← gets fun w => w.srv.db
    let r := y.engine.exec catalog sql db
    modify fun w => { w with srv := { w.srv with db := r.db } }
    let data ← lift (r.rows.foldlM callback data)
    pure (data, r.err.map fun msg => .error (some msg))

/-- A callback that never stops runs through all rows. -/
theorem foldlM_ok {β ρ : Type} (f : β → ρ → β) : ∀ (rows : List ρ) (b : β),
    rows.foldlM (m := Except Crash) (fun b r => .ok (f b r)) b = .ok (rows.foldl f b)
  | [], _ => rfl
  | r :: rows, b => foldlM_ok f rows (f b r)

/-- A call with a callback that never stops. -/
theorem run_sqlite3Exec {β : Type} (sql : Str) (f : β → RowText → β) (b : β) (w : World) :
    (sqlite3Exec y sql (fun b r => .ok (f b r)) b).run w =
      match y.fault w.tick with
      | some flt => ⟨.ok (b, some flt), { w with tick := w.tick + 1 }, [.exec sql]⟩
      | none =>
        ⟨.ok ((y.engine.exec catalog sql w.srv.db).rows.foldl f b,
            (y.engine.exec catalog sql w.srv.db).err.map fun msg => .error (some msg)),
          { w with
            tick := w.tick + 1
            srv := { w.srv with db := (y.engine.exec catalog sql w.srv.db).db } }, [.exec sql]⟩ := by
  unfold sqlite3Exec
  cases hf : y.fault w.tick with
  | some flt => simp [run_bind, hf]
  | none => simp [run_bind, hf, foldlM_ok]

/-- The message pointer `&rpc.return_value.response` after a call. -/
def storeMessage : Option Fault → M Unit
  | none => setResponse none
  | some .misuse => pure ()
  | some (.error none) => setResponse none
  | some (.error (some msg)) => do
    let b ← allocBuf msg
    setResponse (some b)

/-- Whatever becomes of the message, the function goes on. -/
theorem run_storeMessage (fault : Option Fault) (w : World) :
    ((storeMessage fault).run w).val = .ok () ∧ ((storeMessage fault).run w).state.tick = w.tick ∧
      ((storeMessage fault).run w).state.srv = w.srv ∧
      ((storeMessage fault).run w).state.sess.ops = w.sess.ops := by
  match fault with
  | none => exact ⟨rfl, rfl, rfl, rfl⟩
  | some .misuse => exact ⟨rfl, rfl, rfl, rfl⟩
  | some (.error none) => exact ⟨rfl, rfl, rfl, rfl⟩
  | some (.error (some msg)) => exact ⟨rfl, rfl, rfl, rfl⟩

/-- `rt == SQLITE_OK ? 0 : -1`. -/
def status : Option Fault → Int
  | none => 0
  | some _ => -1

/-- Build a statement in an array of `cap` bytes and run it. -/
def runStatement (cap : Nat) (text : Str) : M Int := do
  let sql ← sprintfInto cap text
  let r ← sqlite3Exec y sql (fun u _ => .ok u) ()
  storeMessage r.2
  pure (status r.2)

/-- `__compute_hash`, called through the session. -/
def computeHash (key : Option Str) : M Str :=
  callPtr .hash [key] do
    let key ← deref key
    pure (y.hash key)

theorem run_computeHash {w : World} (hhash : w.sess.ops .hash = true) (key : Str) :
    (computeHash y (some key)).run w = ⟨.ok (y.hash key), w, [.invoke .hash [some key]]⟩ := by
  unfold computeHash
  rw [run_callPtr, if_pos hhash]
  rfl

/-! ## Functions that write -/

/-- `hashed` of `__update_user_info`: a password is hashed, anything else goes in as it is. -/
def hashedValue (key : Option Commands) (updated : Option Str) : M Str :=
  if key = some .userpass then computeHash y updated else pure (fmtS updated)

/-- `__update_user_info`. -/
def updateUserInfo (qual : Option Str) (key : Option Commands) (updated : Option Str) :
    M Int := do
  let hashed ← hashedValue y key updated
  match getMapping key with
  | none => pure (-1)
  | some colName => runStatement y 256 (updateUserInfoSql colName (fmtS qual) hashed)

/-- `__create_usr_table`. -/
def createUsrTable (uname upsswd : Option Str) (role : Int) : M Int := do
  let psswd ← computeHash y upsswd
  runStatement y 256 (createUsrTableSql (fmtS uname) psswd role)

/-- `__dlt_usr_info`. -/
def dltUsrInfo : M Int := pure 0

/-- `__update_items_info`. -/
def updateItemsInfo (qual : Option Str) (key : Option Commands) (updated : Option Str) : M Int :=
  match getMapping key with
  | none => pure (-1)
  | some colName => runStatement y 256 (updateItemsInfoSql colName (fmtS qual) (fmtS updated))

/-- `__add_items`. -/
def addItems (upc quantity price name : Option Str) : M Int :=
  runStatement y 256 (addItemsSql (fmtS upc) (fmtS quantity) (fmtS price) (fmtS name))

/-- `__delete_item`. -/
def deleteItem (name : Option Str) : M Int := runStatement y 256 (deleteItemSql (fmtS name))

/-- `__update_item_image`. -/
def updateItemImage (qual : Option Str) (key : Option Commands) (updated : Option Str) : M Int :=
  match getMapping key with
  | none => pure (-1)
  | some colName => runStatement y (mb 12) (updateItemImageSql colName (fmtS qual) (fmtS updated))

/-- `__add_image`. -/
def addImage (upc image : Option Str) : M Int :=
  runStatement y (mb 12) (addImageSql (fmtS upc) (fmtS image))

/-- `__delete_image`. -/
def deleteImage (upc : Option Str) : M Int := runStatement y 256 (deleteImageSql (fmtS upc))

/-- The text `__log_rpc_command` builds in the world `w`. -/
def logSql (w : World) (type : LogType) (process command latlong txId : Option Str) : Str :=
  logRpcCommandSql w.sess.ip w.sess.port w.sess.uid (y.time w.tick) type (fmtS process)
    (fmtS command) (fmtS latlong) (fmtS txId)

/-- `__log_rpc_command`. -/
def logRpcCommand (type : LogType) (process command latlong txId : Option Str) : M Int := do
  let t ← nextTick
  let s ← gets World.sess
  runStatement y 8000 (logRpcCommandSql s.ip s.port s.uid (y.time t) type (fmtS process)
    (fmtS command) (fmtS latlong) (fmtS txId))

/-- The insert is one statement. -/
theorem run_logRpcCommand (type : LogType) (process command latlong txId : Option Str)
    (w : World) :
    (logRpcCommand y type process command latlong txId).run w =
      (runStatement y 8000 (logSql y w type process command latlong txId)).run
        { w with tick := w.tick + 1 } := by
  unfold logRpcCommand logSql
  rw [run_bind_of_ok (a := w.tick) rfl, run_nextTick, run_bind_of_ok (a := w.sess) rfl, run_gets]
  simp only [List.nil_append]

/-! ## Functions that list -/

/-- A fully buffered stream: the caller's buffer up to the last byte ever written
to it, and the offset of the next byte. -/
structure Stream where
  buf : Str
  pos : Nat

/-- One byte more. A full buffer goes to the file and is filled from its start. -/
def Stream.putc (size : Nat) (st : Stream) (c : Char) : Stream :=
  let pos := if st.pos = size then 0 else st.pos
  ⟨st.buf.take pos ++ c :: st.buf.drop (pos + 1), pos + 1⟩

/-- `fprintf(fp, "%s", s)`. -/
def Stream.puts (size : Nat) (st : Stream) (s : Str) : Stream := s.foldl (Stream.putc size) st

/-- The text a row callback writes for a row. -/
def renderRow (row : RowText) : Str :=
  (lit "\x7b " ++ (row.map fun p =>
    sprintf (lit "\"%s\" : \"%s\",") [p.1, p.2.getD (lit "NULL")]).flatten).dropLast ++ lit "\x7d,"

/-- A row callback: `rowCap` is the size of its array, `size` that of the stream's buffer. -/
def listRow (rowCap size : Nat) (st : Stream) (row : RowText) : Except Crash Stream :=
  if fits rowCap (renderRow row) then .ok (st.puts size (renderRow row)) else .error .overflow

/-- The sizes a listing works with: the callback's array, the `setvbuf` size, the
stream's array, the result. -/
structure Sizes where
  row : Nat
  stream : Nat
  stbuf : Nat
  value : Nat

/-- A listing. The last byte of the result, a comma or a blank, becomes `]`. -/
def listInto (sz : Sizes) (opening sql : Str) : M Int := do
  let b ← allocBuf opening
  setValue (some b)
  let r ← sqlite3Exec y sql (listRow sz.row sz.stream) ⟨[], 0⟩
  storeMessage r.2
  if r.2.isNone then
    -- an array that is full to its end has no terminator
    let stbuf ← sprintfInto sz.stbuf r.1.buf
    let value ← sprintfInto sz.value (sprintf (lit "[ %s") [stbuf])
    setValue (some ⟨b.id, value.dropLast ++ lit "]"⟩)
  pure (status r.2)

/-- `BUFSIZ`. -/
def bufsiz : Nat := 8192

/-- `__get_all_users`. -/
def getAllUsers : M Int :=
  listInto y ⟨10000, bufsiz, mb 2, mb 1⟩ (lit "[ ") getAllUsersSql

/-- `__get_all_items`. -/
def getAllItems : M Int :=
  listInto y ⟨5 * 1000, bufsiz, mb 5, 5 * 1000 * 1000⟩ (lit "[ ") getAllItemsSql

/-- `__get_all_image_upc`. -/
def getAllImageUpc : M Int :=
  listInto y ⟨mb 2, mb 3, mb 14, mb 3⟩ [] getAllImageUpcSql

/-- `__get_image_for_upc`. -/
def getImageForUpc (upc : Option Str) : M Int := do
  let sql ← sprintfInto 1024 (getImageForUpcSql (fmtS upc))
  listInto y ⟨mb 12, mb 14, mb 14, mb 15⟩ [] sql

/-! ## Queries of the login -/

/-- `get_user_mode_from_db` and `get_user_logging_mode_from_db`: the last column
that is not `NULL`. -/
def lastInt (mode : Int) (row : RowText) : Int :=
  row.foldl (fun m p => (p.2.map atoi).getD m) mode

/-- `__get_usr_role`. -/
def getUsrRole (name pass : Str) : M Int := do
  let pswd ← computeHash y (some pass)
  let sql ← sprintfInto 256 (getUsrRoleSql name pswd)
  let r ← sqlite3Exec y sql (fun mode row => .ok (lastInt mode row)) (-1)
  -- what the callback has got is dropped when the call fails
  pure (if r.2.isNone then r.1 else -1)

/-- `__is_logged`; the result is cut to a byte. -/
def isLogged (name : Option Str) : M Nat := do
  let sql ← sprintfInto 128 (isLoggedSql (fmtS name))
  let r ← sqlite3Exec y sql (fun mode row => .ok (lastInt mode row)) 1
  pure (if r.2.isNone then (r.1 % 256).toNat else 1)

end Thor
