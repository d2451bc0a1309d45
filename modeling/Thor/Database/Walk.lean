import Thor.Rpc.Request

/-!
# Properties of every database function

The functions of `database/` a command can call are made of a few blocks, and the
blocks of a few primitive operations. So a property of programs that is kept by
sequencing holds of all these functions as soon as it holds of the parts.

- `StmtJudgment`: the blocks of the functions that run one statement and leave the
  result alone.
- `DbJudgment`: besides, the listings. `DbJudgment.call` is about every function a
  request on the database calls.
- `LocalJudgment`, `PrimJudgment`: the primitive operations; `PrimJudgment.db` puts
  the blocks together.
-/

namespace Thor

open CLib Sql Prog

/-! ## Functions that run a statement -/

/-- A property of programs that is kept by sequencing and that the blocks of a
function that runs a statement have. -/
structure StmtJudgment (y : Sys) (Φ : {α : Type} → M α → Prop) : Prop where
  pure : ∀ {α : Type} (a : α), Φ (pure a)
  bind : ∀ {α β : Type} {m : M α} {f : α → M β}, Φ m → (∀ a, Φ (f a)) → Φ (m >>= f)
  gets : ∀ {α : Type} (f : World → α), Φ (gets f)
  tick : Φ nextTick
  sprintfInto : ∀ cap text, Φ (sprintfInto cap text)
  exec : ∀ {β : Type} (sql : Str) (callback : β → RowText → Except Crash β) (data : β),
    Φ (sqlite3Exec y sql callback data)
  store : ∀ fault, Φ (storeMessage fault)
  hash : ∀ key, Φ (computeHash y key)

/-- The leaves that leave a text in the result slot. -/
def DbLeaf.lists : DbLeaf → Bool
  | getAllItems | getAllUsers | getImage _ | getAllImages => true
  | _ => false

section Statements

variable {y : Sys} {Φ : {α : Type} → M α → Prop} (h : StmtJudgment y Φ)

include h

theorem StmtJudgment.runStatement (cap : Nat) (text : Str) : Φ (runStatement y cap text) :=
  h.bind (h.sprintfInto cap text) fun _ =>
    h.bind (h.exec _ _ _) fun _ => h.bind (h.store _) fun _ => h.pure _

/-- The updates by key: a key without a column builds no statement. -/
theorem StmtJudgment.mapped (key : Option Commands) (cap : Nat) (text : Str → Str) :
    Φ (match getMapping key with
      | none => Pure.pure (-1)
      | some colName => Thor.runStatement y cap (text colName)) := by
  cases getMapping key with
  | none => exact h.pure _
  | some colName => exact h.runStatement _ _

theorem StmtJudgment.updateUserInfo (qual : Option Str) (key : Option Commands)
    (updated : Option Str) : Φ (updateUserInfo y qual key updated) := by
  refine h.bind ?_ fun hashed => h.mapped key 256 fun c => updateUserInfoSql c (fmtS qual) hashed
  unfold hashedValue
  split
  · exact h.hash _
  · exact h.pure _

theorem StmtJudgment.logRpcCommand (type : LogType) (process command latlong txId : Option Str) :
    Φ (logRpcCommand y type process command latlong txId) :=
  h.bind h.tick fun _ => h.bind (h.gets _) fun _ => h.runStatement _ _

theorem StmtJudgment.call {l : DbLeaf} (hl : l.lists = false) : Φ (l.call y) := by
  cases l with
  | addItem | dltItem | addImage | deleteImage => exact h.runStatement _ _
  | updateItem | updateImage => exact h.mapped _ _ _
  | creatUsr name pass mode => exact h.bind (h.hash _) fun _ => h.runStatement _ _
  | dltUsr name pass => exact h.pure _
  | updateUsr name key value => exact h.updateUserInfo _ _ _
  | getAllItems | getAllUsers | getImage | getAllImages => cases hl

end Statements

/-! ## All of them -/

/-- Besides, the listings have the property. -/
structure DbJudgment (y : Sys) (Φ : {α : Type} → M α → Prop) : Prop extends StmtJudgment y Φ where
  listing : ∀ sz opening sql, Φ (listInto y sz opening sql)

/-- Every function a database request calls. -/
theorem DbJudgment.call {y : Sys} {Φ : {α : Type} → M α → Prop} (h : DbJudgment y Φ)
    (l : DbLeaf) : Φ (l.call y) := by
  cases hl : l.lists with
  | false => exact h.toStmtJudgment.call hl
  | true =>
    cases l with
    | getImage upc => exact h.bind (h.sprintfInto _ _) fun _ => h.listing _ _ _
    | getAllItems | getAllUsers | getAllImages => exact h.listing _ _ _
    | _ => cases hl

/-! ## Primitive operations -/

/-- A property of programs that is kept by sequencing and that the primitive
operations on a session have. -/
structure LocalJudgment (Φ : {α : Type} → M α → Prop) : Prop where
  pure : ∀ {α : Type} (a : α), Φ (pure a)
  bind : ∀ {α β : Type} {m : M α} {f : α → M β}, Φ m → (∀ a, Φ (f a)) → Φ (m >>= f)
  gets : ∀ {α : Type} (f : World → α), Φ (gets f)
  fail : ∀ {α : Type} (c : Crash), Φ (fail c : M α)
  tick : Φ nextTick
  alloc : ∀ text, Φ (allocBuf text)
  emitFree : ∀ b, Φ (emit (.free b))
  setValue : ∀ b, Φ (setValue b)
  setResponse : ∀ b, Φ (setResponse b)
  callHash : ∀ {key : Option Str} {body : M Str}, Φ body → Φ (callPtr .hash [key] body)

/-- Besides, the two that make up a call of the engine. -/
structure PrimJudgment (Φ : {α : Type} → M α → Prop) : Prop extends LocalJudgment Φ where
  emitExec : ∀ sql, Φ (emit (.exec sql))
  setDb : ∀ db, Φ (modify fun w => { w with srv := { w.srv with db := db } })

namespace LocalJudgment

variable {Φ : {α : Type} → M α → Prop} (h : LocalJudgment Φ)

include h

theorem sprintfInto (cap : Nat) (text : Str) : Φ (sprintfInto cap text) := by
  unfold Thor.sprintfInto
  split
  · exact h.pure _
  · exact h.fail _

theorem lift {α : Type} (x : Except Crash α) : Φ (lift x) := by
  cases x with
  | ok a => exact h.pure a
  | error c => exact h.fail c

theorem deref (s : Option Str) : Φ (deref s) := by
  cases s with
  | none => exact h.fail _
  | some s => exact h.pure s

theorem storeMessage (fault : Option Fault) : Φ (storeMessage fault) := by
  match fault with
  | none => exact h.setResponse none
  | some .misuse => exact h.pure ()
  | some (.error none) => exact h.setResponse none
  | some (.error (some msg)) => exact h.bind (h.alloc msg) fun b => h.setResponse (some b)

theorem freeValue : Φ freeValue := by
  refine h.bind (h.gets _) fun v => ?_
  cases v with
  | none => exact h.setValue none
  | some b => exact h.bind (h.emitFree b.id) fun _ => h.setValue none

theorem freeResponse : Φ freeResponse := by
  refine h.bind (h.gets _) fun v => ?_
  cases v with
  | none => exact h.pure ()
  | some b => exact h.bind (h.emitFree b.id) fun _ => h.setResponse none

theorem cleanup (l : DbLeaf) : Φ l.cleanup := by
  cases l with
  | addItem | dltItem | updateItem | getAllItems =>
    exact h.bind h.freeValue fun _ => h.setResponse none
  | getAllUsers | getImage | getAllImages => exact h.freeValue
  | _ => exact h.pure ()

theorem computeHash (y : Sys) (key : Option Str) : Φ (computeHash y key) :=
  h.callHash (h.bind (h.deref key) fun _ => h.pure _)

/-! Replies, for a property that sending a response has too. -/

section Replies

variable (hsend : ∀ fmt args, Φ (sendResponse fmt args))

include hsend

theorem replyValue (dflt : String) : Φ (replyValue dflt) :=
  h.bind (h.gets _) fun _ => hsend _ _

theorem replyError (dflt : String) : Φ (replyError dflt) :=
  h.bind (h.gets _) fun _ => hsend _ _

theorem leafOk (l : DbLeaf) : Φ l.ok := by
  cases l with
  | addItem | dltItem => exact hsend _ _
  | _ => exact h.replyValue hsend _

theorem leafErr (l : DbLeaf) : Φ l.err := by
  cases l with
  | addItem | dltItem => exact h.bind (h.gets _) fun _ => hsend _ _
  | getAllUsers | getImage | getAllImages => exact hsend _ _
  | _ => exact h.replyError hsend _

theorem leafRefused (l : DbLeaf) : Φ l.refused := by
  cases l with
  | updateUsr | updateImage => exact h.pure ()
  | _ => exact hsend _ _

end Replies

end LocalJudgment

namespace PrimJudgment

variable {Φ : {α : Type} → M α → Prop} (h : PrimJudgment Φ)

include h

variable (y : Sys)

theorem sqlite3Exec {β : Type} (sql : Str) (callback : β → RowText → Except Crash β) (data : β) :
    Φ (sqlite3Exec y sql callback data) := by
  refine h.bind (h.emitExec sql) fun _ => h.bind h.tick fun t => ?_
  cases y.fault t with
  | some fault => exact h.pure _
  | none =>
    exact h.bind (h.gets _) fun db => h.bind (h.setDb _) fun _ =>
      h.bind (h.lift _) fun _ => h.pure _

theorem listInto (sz : Sizes) (opening sql : Str) : Φ (listInto y sz opening sql) := by
  refine h.bind (h.alloc opening) fun b => h.bind (h.setValue (some b)) fun _ =>
    h.bind (h.sqlite3Exec y _ _ _) fun r => h.bind (h.storeMessage _) fun _ => ?_
  split
  · exact h.bind (h.sprintfInto _ _) fun _ => h.bind (h.sprintfInto _ _) fun _ =>
      h.bind (h.setValue _) fun _ => h.pure _
  · exact h.pure _

theorem db : DbJudgment y Φ where
  pure := h.pure
  bind := h.bind
  gets := h.gets
  tick := h.tick
  sprintfInto := h.sprintfInto
  exec := h.sqlite3Exec y
  store := h.storeMessage
  hash := h.computeHash y
  listing := h.listInto y

end PrimJudgment

end Thor
