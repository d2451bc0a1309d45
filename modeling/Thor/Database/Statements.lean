import Thor.Database.Role

/-!
# The statements behind the texts

What a text of `database/` is to the engine. `Built.stmt` is the statement that a builder
is meant to build, and `Built.exec_eq` says that its text is run as that statement when no
field that goes in as it came has a quote. So a text that is not about a table leaves it
alone (`Built.exec_frame`).
-/

namespace Thor

open CLib Sql

/-- `UPDATE t SET col='value' where ID=(SELECT ID FROM t where key='qual' );` -/
def updateStmt (u : UpdateTable) (col value qual : Str) : Stmt :=
  .update u.name col (.str value) (.eq (.col (lit "ID"))
    (.sub (lit "ID") u.name (.eq (.col u.keyCol) (.lit (.str qual)))))

variable (y : Sys)

/-- The statement a builder is meant to build. -/
def Built.stmt : Built → Stmt
  | addItems upc quantity price name =>
    .insert itemTable [lit "UPC", lit "Quantity", lit "Price", lit "Name"]
      [.str upc, .str quantity, .str price, .str name]
  | updateItemsInfo qual key updated => updateStmt .items key.column updated qual
  | deleteItem name => .delete itemTable (.eq (.col (lit "UPC")) (.lit (.str name)))
  | createUsrTable uname upsswd role =>
    .insert userTable
      [userNameCol, userPsswdCol, privModeCol, lit "IsLogged", lit "AdditionalInfo"]
      [.str uname, .str (y.hash upsswd), .int role, .int 1, .str []]
  | updateUserInfo qual key updated =>
    updateStmt .users key.column (storedValue y key updated) qual
  | addImage upc image =>
    .insert imagesTable [lit "UPC", lit "Image", lit "Extra"] [.str upc, .str image, .str (lit " ")]
  | updateItemImage qual key updated => updateStmt .images key.column updated qual
  | deleteImage upc => .delete imagesTable (.eq (.col (lit "UPC")) (.lit (.str upc)))
  | getImageForUpc upc =>
    .select (some [lit "IMAGE"]) imagesTable (.eq (.col (lit "UPC")) (.lit (.str upc)))
  | logRpcCommand ip port uid now type process command latlong txId =>
    .insert logsTable
      [lit "User", lit "UserId", lit "Epoch", lit "Process", lit "LogType", lit "LatLong",
        lit "TxId", lit "StackTrace"]
      [.str (ip ++ lit ":" ++ fmtD port), .str (fmtD (toInt32 uid)), .int now, .str process,
        .str type.text, .str latlong, .str txId, .str command]
  | isLogged name =>
    .select (some [lit "IsLogged"]) userTable (.eq (.col userNameCol) (.lit (.str name)))
  | getUsrRole name pass => getUsrRoleStmt name (y.hash pass)

/-- The numbers a builder writes. -/
def Built.numbers : Built → List Int
  | createUsrTable _ _ role => [role]
  | logRpcCommand _ _ _ now .. => [(now : Int)]
  | _ => []

/-- A number is read back, with its sign. -/
theorem parseLit_intTokens {i : Int} (h : intLit i = some (.int i)) (ts : List Token) :
    parseLit (intTokens i ++ ts) = some (.int i, ts) := by
  cases i with
  | ofNat n =>
    show (intLit (digitsVal (Nat.toDigits 10 n))).map (·, ts) = _
    rw [digitsVal_toDigits, show ((n : Nat) : Int) = Int.ofNat n from rfl, h]
    rfl
  | negSucc n =>
    show (intLit (-(digitsVal (Nat.toDigits 10 (n + 1)) : Int))).map (·, ts) = _
    rw [digitsVal_toDigits, show -((n + 1 : Nat) : Int) = Int.negSucc n from rfl, h]
    rfl

/-- The text of a builder, without quotes in its fields, is its statement. -/
theorem Built.parse_toks {b : Built} (h : ∀ i ∈ b.numbers, intLit i = some (.int i)) :
    parse (b.template.toks (b.literals y)) = some [b.stmt y] := by
  cases b with
  | createUsrTable uname upsswd role =>
    have hrole := parseLit_intTokens (h role (List.mem_singleton_self _))
    have hone (ts : List Token) : parseLit (.num (lit "1") :: ts) = some (.int 1, ts) :=
      parseLit_intTokens (i := 1) (by decide +kernel) ts
    have hlits (n : Nat) : parseLits (n + 5) (.str uname :: .comma :: .str (y.hash upsswd) ::
        .comma :: ((intTokens role ++ [.comma, .num (lit "1"), .comma, .str [], .rparen, .semi]) ++
          [])) =
        some ([.str uname, .str (y.hash upsswd), .int role, .int 1, .str []], [.rparen, .semi]) := by
      rw [List.append_nil, parseLits_cons (parseLit_str _ _), parseLits_cons (parseLit_str _ _),
        parseLits_cons (hrole _), parseLits_cons (hone _)]
      rfl
    exact parse_insert rfl hlits (Nat.le_of_ble_eq_true rfl)
  | logRpcCommand ip port uid now type process command latlong txId =>
    have hnow := parseLit_intTokens (h now (List.mem_singleton_self _))
    have hlits (n : Nat) : parseLits (n + 8) (.str (ip.1 ++ lit ":" ++ fmtD port) :: .comma ::
        .str (fmtD (toInt32 uid)) :: .comma :: (intTokens now ++ .comma :: .str process :: .comma ::
          .str type.text :: .comma :: .str latlong :: .comma :: .str txId :: .comma ::
          [.str command, .rparen, .semi])) =
        some ([.str (ip.1 ++ lit ":" ++ fmtD port), .str (fmtD (toInt32 uid)), .int now,
          .str process, .str type.text, .str latlong, .str txId, .str command],
          [.rparen, .semi]) := by
      rw [parseLits_cons (parseLit_str _ _), parseLits_cons (parseLit_str _ _),
        parseLits_cons (hnow _)]
      rfl
    exact parse_insert rfl hlits (Nat.le_of_ble_eq_true rfl)
  | _ => rfl

/-! ## Running them -/

/-- The columns that keys name are no keys of tables. -/
theorem checkStmt_update (u : UpdateTable) {col : Str} (h : col ∈ mappedColumns)
    (value qual : Str) : checkStmt catalog (updateStmt u col value qual) ≠ .unsupported := by
  have hall : ∀ c ∈ mappedColumns, checkStmt catalog (updateStmt u c [] []) ≠ .unsupported := by
    cases u <;> decide +kernel
  exact hall col h

theorem Built.checkStmt_stmt (b : Built) : checkStmt catalog (b.stmt y) ≠ .unsupported := by
  cases b with
  | updateItemsInfo _ key _ | updateUserInfo _ key _ | updateItemImage _ key _ =>
    exact checkStmt_update _ key.column_mem _ _
  | _ =>
    rw [show checkStmt catalog (Built.stmt y _) = .ok from rfl]
    exact nofun

/-- **A text is its statement** to the engine, when no field that goes in as it came has a
quote. -/
theorem Built.exec_eq {b : Built} (hq : ∀ f ∈ b.asGiven, QuoteFree f)
    (hn : ∀ i ∈ b.numbers, intLit i = some (.int i)) (db : Db) :
    y.engine.exec catalog (b.text y) db = y.engine.execStmt catalog (b.stmt y) db :=
  Engine.exec_of_parse (by rw [b.tokenize_eq y hq, b.parse_toks y hn]) (b.checkStmt_stmt y) db

/-- The tables are declared under the names the statements use for them. -/
theorem Built.find_table {b : Built} {sch : Schema}
    (h : catalog.find (b.stmt y).table = some sch) : sch.name = (b.stmt y).table := by
  have hall : ∀ t ∈ [userTable, itemTable, logsTable, imagesTable],
      (catalog.find t).all (fun sch => sch.name == t) = true := by decide +kernel
  have hmem : (b.stmt y).table ∈ [userTable, itemTable, logsTable, imagesTable] := by
    cases b <;> simp [Built.stmt, updateStmt, getUsrRoleStmt, Stmt.table, UpdateTable.name]
  have hname := hall _ hmem
  rw [h] at hname
  exact eq_of_beq hname

/-- **Frame.** A text that is not about a table leaves it alone. -/
theorem Built.exec_frame {b : Built} (hq : ∀ f ∈ b.asGiven, QuoteFree f)
    (hn : ∀ i ∈ b.numbers, intLit i = some (.int i)) {t : Str} (ht : (b.stmt y).table ≠ t)
    (db : Db) : (y.engine.exec catalog (b.text y) db).db t = db t := by
  rw [b.exec_eq y hq hn]
  exact Engine.execStmt_frame fun sch hsch => (Built.find_table y hsch).symm ▸ ht

end Thor
