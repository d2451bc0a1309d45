import Thor.Database.Ops
import Thor.Sql.Template

/-!
# What the built texts are to the tokeniser

Every statement text of `database/` is a `Template` of `Sql.Template` filled with
strings: the client's fields as they came, hashed passwords, and the server's own
texts. `Built` lists the builders with their arguments, and
`Built.staysData_iff` says when a text they build is one statement with its
fields as literals: when no field that goes in as it came has a quote.
-/

namespace Thor

open CLib Sql

/-! ## Templates -/

/-- A key that names a column. -/
abbrev MappedKey := { key : Commands // (getMapping (some key)).isSome = true }

def MappedKey.column (key : MappedKey) : Str := (getMapping (some key.1)).get key.2

/-- The columns keys can name. -/
def mappedColumns : List Str := userInfoTable.map Prod.snd

theorem mem_userInfoTable {k : Commands} {c : Str} (h : getMapping (some k) = some c) :
    (k, c) ∈ userInfoTable := by
  obtain ⟨l₁, l₂, hl, -⟩ := List.lookup_eq_some_iff.mp h
  exact hl ▸ List.mem_append_right _ (List.mem_cons_self ..)

theorem getMapping_mem {key : Option Commands} {c : Str} (h : getMapping key = some c) :
    c ∈ mappedColumns := by
  obtain ⟨k, rfl, hk⟩ := Option.bind_eq_some_iff.mp h
  exact List.mem_map.mpr ⟨(k, c), mem_userInfoTable h, rfl⟩

theorem MappedKey.column_mem (key : MappedKey) : key.column ∈ mappedColumns :=
  getMapping_mem (Option.some_get key.2).symm

/-- The three tables with an update by key. -/
inductive UpdateTable where
  | users | items | images

/-- The table macro of the file. -/
def UpdateTable.spelled : UpdateTable → Str
  | .users => userTableSpaced
  | .items => itemTable
  | .images => imagesTable

def UpdateTable.name : UpdateTable → Str
  | .users => userTable
  | .items => itemTable
  | .images => imagesTable

/-- The column that selects the row. -/
def UpdateTable.keyCol : UpdateTable → Str
  | .users => lit "UserName"
  | .items | .images => lit "UPC"

def updateHead (u : UpdateTable) (col : Str) : Str :=
  lit "UPDATE " ++ u.spelled ++ lit " SET " ++ col ++ lit "='"

theorem updateHead_ok (u : UpdateTable) : ∀ col ∈ mappedColumns,
    lexer.run .start (updateHead u col)
      = ([.kw .UPDATE, .id u.name, .kw .SET, .id col, .eq], .str []) := by
  cases u <;> decide +kernel

/-- `UPDATE t SET col='...' where ID=(SELECT ID FROM t where key='...' );` -/
def updateTemplate (u : UpdateTable) {col : Str} (h : col ∈ mappedColumns) : Template where
  head := updateHead u col
  headToks := [.kw .UPDATE, .id u.name, .kw .SET, .id col, .eq]
  gaps :=
    [⟨lit " where ID=(SELECT ID FROM " ++ u.spelled ++ lit " where " ++ u.keyCol ++ lit "='",
      [.kw .WHERE, .id (lit "ID"), .eq, .lparen, .kw .SELECT, .id (lit "ID"), .kw .FROM,
        .id u.name, .kw .WHERE, .id u.keyCol, .eq]⟩,
     ⟨lit " );", [.rparen, .semi]⟩]
  head_ok := updateHead_ok u col h
  gaps_ok := by cases u <;> decide +kernel

def addItemsTemplate : Template where
  head := lit "INSERT INTO ItemsInformation (UPC,Quantity,Price,Name) VALUES( '"
  headToks := [.kw .INSERT, .kw .INTO, .id itemTable, .lparen, .id (lit "UPC"), .comma,
    .id (lit "Quantity"), .comma, .id (lit "Price"), .comma, .id (lit "Name"), .rparen,
    .kw .VALUES, .lparen]
  gaps := [⟨lit ",'", [.comma]⟩, ⟨lit ",'", [.comma]⟩, ⟨lit ",'", [.comma]⟩,
    ⟨lit "); ", [.rparen, .semi]⟩]
  head_ok := by decide +kernel
  gaps_ok := by decide +kernel

def deleteItemTemplate : Template where
  head := lit "DELETE FROM ItemsInformation where UPC= '"
  headToks := [.kw .DELETE, .kw .FROM, .id itemTable, .kw .WHERE, .id (lit "UPC"), .eq]
  gaps := [⟨lit "; ", [.semi]⟩]
  head_ok := by decide +kernel
  gaps_ok := by decide +kernel

def addImageTemplate : Template where
  head := lit "INSERT INTO ItemImages (UPC,Image,Extra) VALUES( '"
  headToks := [.kw .INSERT, .kw .INTO, .id imagesTable, .lparen, .id (lit "UPC"), .comma,
    .id (lit "Image"), .comma, .id (lit "Extra"), .rparen, .kw .VALUES, .lparen]
  gaps := [⟨lit ",'", [.comma]⟩,
    ⟨lit ",' '); ", [.comma, .str (lit " "), .rparen, .semi]⟩]
  head_ok := by decide +kernel
  gaps_ok := by decide +kernel

def deleteImageTemplate : Template where
  head := lit "DELETE FROM ItemImages where UPC= '"
  headToks := [.kw .DELETE, .kw .FROM, .id imagesTable, .kw .WHERE, .id (lit "UPC"), .eq]
  gaps := [⟨lit "; ", [.semi]⟩]
  head_ok := by decide +kernel
  gaps_ok := by decide +kernel

def getImageTemplate : Template where
  head := lit "SELECT IMAGE FROM ItemImages WHERE UPC='"
  headToks := [.kw .SELECT, .id (lit "IMAGE"), .kw .FROM, .id imagesTable, .kw .WHERE,
    .id (lit "UPC"), .eq]
  gaps := [⟨lit " ;", [.semi]⟩]
  head_ok := by decide +kernel
  gaps_ok := by decide +kernel

def isLoggedTemplate : Template where
  head := lit "SELECT IsLogged from UserInformation where UserName='"
  headToks := [.kw .SELECT, .id (lit "IsLogged"), .kw .FROM, .id userTable, .kw .WHERE,
    .id (lit "UserName"), .eq]
  gaps := [⟨lit " ", []⟩]
  head_ok := by decide +kernel
  gaps_ok := by decide +kernel

def getUsrRoleTemplate : Template where
  head := lit "SELECT PrivMode FROM UserInformation WHERE  UserName = '"
  headToks := [.kw .SELECT, .id (lit "PrivMode"), .kw .FROM, .id userTable, .kw .WHERE,
    .id (lit "UserName"), .eq]
  gaps := [⟨lit " AND UserPsswd = '", [.kw .AND, .id (lit "UserPsswd"), .eq]⟩,
    ⟨lit " ;", [.semi]⟩]
  head_ok := by decide +kernel
  gaps_ok := by decide +kernel

/-- A number between two commas. -/
theorem run_comma_fmtD (i : Int) (t : Str) :
    lexer.run .start (lit "," ++ fmtD i ++ lit "," ++ t)
      = (.comma :: (intTokens i ++ .comma :: (lexer.run .start t).1), (lexer.run .start t).2) := by
  have hcomma (s : Str) : lexer.run .start (',' :: s)
      = (.comma :: (lexer.run .start s).1, (lexer.run .start s).2) := rfl
  have hnum : lexer.run .start (fmtD i ++ ([','] ++ t)) = _ := run_fmtD i (by decide) t
  show lexer.run .start (',' :: ((fmtD i ++ [',']) ++ t)) = _
  rw [hcomma, List.append_assoc, hnum, hcomma]

def createUsrTemplate (role : Int) : Template where
  head := lit "INSERT INTO  UserInformation  " ++
    lit "(UserName,UserPsswd,PrivMode,IsLogged,AdditionalInfo) VALUES( '"
  headToks := [.kw .INSERT, .kw .INTO, .id userTable, .lparen, .id (lit "UserName"), .comma,
    .id (lit "UserPsswd"), .comma, .id (lit "PrivMode"), .comma, .id (lit "IsLogged"), .comma,
    .id (lit "AdditionalInfo"), .rparen, .kw .VALUES, .lparen]
  gaps := [⟨lit ",'", [.comma]⟩,
    ⟨lit "," ++ fmtD role ++ lit "," ++ lit "1,''); ", .comma :: (intTokens role ++
      [.comma, .num (lit "1"), .comma, .str [], .rparen, .semi])⟩]
  head_ok := by decide +kernel
  gaps_ok := by
    refine ⟨by decide, by decide, rfl, ?_⟩
    have hrest : lexer.run .start (lit "1,''); ")
        = ([.num (lit "1"), .comma, .str [], .rparen, .semi], .start) := by decide +kernel
    rw [Machine.all, run_comma_fmtD, hrest]
    simp [lexer, lexFlush]

def logTemplate (now : Nat) : Template where
  head := lit "INSERT INTO TransactionLogs " ++
    lit "(User,UserId,Epoch,Process,LogType,LatLong,TxId,StackTrace) VALUES( '"
  headToks := [.kw .INSERT, .kw .INTO, .id logsTable, .lparen, .id (lit "User"), .comma,
    .id (lit "UserId"), .comma, .id (lit "Epoch"), .comma, .id (lit "Process"), .comma,
    .id (lit "LogType"), .comma, .id (lit "LatLong"), .comma, .id (lit "TxId"), .comma,
    .id (lit "StackTrace"), .rparen, .kw .VALUES, .lparen]
  gaps := [⟨lit ",'", [.comma]⟩,
    ⟨lit "," ++ fmtD now ++ lit "," ++ lit "'", .comma :: (intTokens now ++ [.comma])⟩,
    ⟨lit ",'", [.comma]⟩, ⟨lit ",'", [.comma]⟩, ⟨lit ",'", [.comma]⟩, ⟨lit ",'", [.comma]⟩,
    ⟨lit "); ", [.rparen, .semi]⟩]
  head_ok := by decide +kernel
  gaps_ok := by
    refine ⟨by decide, by decide, rfl, ?_, by decide +kernel⟩
    rw [run_comma_fmtD]
    rfl

/-! ## Builders -/

/-- A statement builder of `database/` with its arguments. -/
inductive Built where
  | addItems (upc quantity price name : Str)
  | updateItemsInfo (qual : Str) (key : MappedKey) (updated : Str)
  | deleteItem (name : Str)
  | createUsrTable (uname upsswd : Str) (role : Int)
  | updateUserInfo (qual : Str) (key : MappedKey) (updated : Str)
  | addImage (upc image : Str)
  | updateItemImage (qual : Str) (key : MappedKey) (updated : Str)
  | deleteImage (upc : Str)
  | getImageForUpc (upc : Str)
  | logRpcCommand (ip : IpText) (port : Int) (uid now : Nat) (type : LogType)
      (process command latlong txId : Str)
  | isLogged (name : Str)
  | getUsrRole (name pass : Str)

variable (y : Sys)

/-- What `__update_user_info` stores: a password is hashed. -/
def storedValue (key : MappedKey) (updated : Str) : Str :=
  if key.1 = .userpass then y.hash updated else updated

/-- The text that is built. -/
def Built.text : Built → Str
  | addItems upc quantity price name => addItemsSql upc quantity price name
  | updateItemsInfo qual key updated => updateItemsInfoSql key.column qual updated
  | deleteItem name => deleteItemSql name
  | createUsrTable uname upsswd role => createUsrTableSql uname (y.hash upsswd) role
  | updateUserInfo qual key updated =>
    updateUserInfoSql key.column qual (storedValue y key updated)
  | addImage upc image => addImageSql upc image
  | updateItemImage qual key updated => updateItemImageSql key.column qual updated
  | deleteImage upc => deleteImageSql upc
  | getImageForUpc upc => getImageForUpcSql upc
  | logRpcCommand ip port uid now type process command latlong txId =>
    logRpcCommandSql ip port uid now type process command latlong txId
  | isLogged name => isLoggedSql name
  | getUsrRole name pass => getUsrRoleSql name (y.hash pass)

/-- The statement it is meant to be. -/
def Built.template : Built → Template
  | addItems .. => addItemsTemplate
  | updateItemsInfo _ key _ => updateTemplate .items key.column_mem
  | deleteItem _ => deleteItemTemplate
  | createUsrTable _ _ role => createUsrTemplate role
  | updateUserInfo _ key _ => updateTemplate .users key.column_mem
  | addImage .. => addImageTemplate
  | updateItemImage _ key _ => updateTemplate .images key.column_mem
  | deleteImage _ => deleteImageTemplate
  | getImageForUpc _ => getImageTemplate
  | logRpcCommand _ _ _ now .. => logTemplate now
  | isLogged _ => isLoggedTemplate
  | getUsrRole .. => getUsrRoleTemplate

/-- The values its string literals are meant to have, in the order of the text. -/
def Built.literals : Built → List Str
  | addItems upc quantity price name => [upc, quantity, price, name]
  | updateItemsInfo qual _ updated => [updated, qual]
  | deleteItem name => [name]
  | createUsrTable uname upsswd _ => [uname, y.hash upsswd]
  | updateUserInfo qual key updated => [storedValue y key updated, qual]
  | addImage upc image => [upc, image]
  | updateItemImage qual _ updated => [updated, qual]
  | deleteImage upc => [upc]
  | getImageForUpc upc => [upc]
  | logRpcCommand ip port uid _ type process command latlong txId =>
    [ip ++ lit ":" ++ fmtD port, fmtD (toInt32 uid), process, type.text, latlong, txId, command]
  | isLogged name => [name]
  | getUsrRole name pass => [name, y.hash pass]

/-- The arguments that go into the text as they come. -/
def Built.asGiven : Built → List Str
  | addItems upc quantity price name => [upc, quantity, price, name]
  | updateItemsInfo qual _ updated => [updated, qual]
  | deleteItem name => [name]
  | createUsrTable uname _ _ => [uname]
  | updateUserInfo qual key updated => if key.1 = .userpass then [qual] else [updated, qual]
  | addImage upc image => [upc, image]
  | updateItemImage qual _ updated => [updated, qual]
  | deleteImage upc => [upc]
  | getImageForUpc upc => [upc]
  | logRpcCommand _ _ _ _ _ process command latlong txId => [process, latlong, txId, command]
  | isLogged name => [name]
  | getUsrRole name _ => [name]

/-- A list of tokens that is one statement: a semicolon stands at its end only. -/
def OneStatement (ts : List Token) : Prop := Token.semi ∉ ts.dropLast

/-- The text is one statement with the tokens of its template, each field being one
literal with that field as value. -/
def Built.StaysData (b : Built) : Prop :=
  tokenize (b.text y) = b.template.toks (b.literals y) ∧
    OneStatement (tokenize (b.text y))

theorem Built.length_literals (b : Built) :
    (b.literals y).length = b.template.gaps.length := by
  cases b <;>
    simp [Built.literals, Built.template, addItemsTemplate, updateTemplate, deleteItemTemplate,
      createUsrTemplate, addImageTemplate, deleteImageTemplate, getImageTemplate, logTemplate,
      isLoggedTemplate, getUsrRoleTemplate]

/-- The text is its template, filled. -/
theorem Built.text_eq (b : Built) : b.text y = b.template.fill (b.literals y) := by
  cases b with
  | createUsrTable uname upsswd role =>
    have hone : fmtD 1 = lit "1" := by decide
    simp only [hone, Built.text, createUsrTableSql, Built.template, createUsrTemplate, Built.literals,
      Template.fill, fillText, userTableSpaced, List.append_assoc]
    repeat rw [lit_ofList]
    rfl
  | logRpcCommand ip port uid now type process command latlong txId =>
    simp only [Built.text, logRpcCommandSql, Built.template, logTemplate, Built.literals,
      Template.fill, fillText, List.append_assoc]
    repeat rw [lit_ofList]
    simp only [List.cons_append, List.nil_append]
    rfl
  | _ =>
    simp only [Built.text, addItemsSql, updateItemsInfoSql, deleteItemSql, updateUserInfoSql,
      addImageSql, updateItemImageSql, deleteImageSql, getImageForUpcSql, isLoggedSql,
      getUsrRoleSql, Built.template, Built.literals, addItemsTemplate, updateTemplate, updateHead,
      deleteItemTemplate, addImageTemplate, deleteImageTemplate, getImageTemplate,
      isLoggedTemplate, getUsrRoleTemplate, Template.fill, fillText, UpdateTable.spelled,
      UpdateTable.keyCol, userTable, userTableSpaced, itemTable, imagesTable, List.append_assoc]
    repeat rw [lit_ofList]
    rfl

/-! ## Texts without quotes -/

theorem quoteFree_hash (s : Str) : QuoteFree (y.hash s) := fun h =>
  absurd (y.hash_hex s _ h) (by decide)

theorem quoteFree_fmtD (i : Int) : QuoteFree (fmtD i) := fun h => by
  rcases mem_fmtD h with h | h
  · exact absurd h (by decide)
  · exact absurd h (by decide)

theorem quoteFree_ip (ip : IpText) : QuoteFree ip.1 := fun h => by
  rcases ip.2 _ h with h | h
  · exact absurd h (by decide)
  · exact absurd h (by decide)

theorem quoteFree_client (ip : IpText) (port : Int) : QuoteFree (ip.1 ++ lit ":" ++ fmtD port) :=
  ((quoteFree_ip ip).append (by decide)).append (quoteFree_fmtD port)

theorem quoteFree_logType (type : LogType) : QuoteFree type.text := by
  cases type <;> decide

/-- What the server adds of its own has no quote. -/
theorem Built.quoteFree_literals_iff (b : Built) :
    (∀ f ∈ b.literals y, QuoteFree f) ↔ ∀ f ∈ b.asGiven, QuoteFree f := by
  cases b with
  | createUsrTable uname upsswd role =>
    simp [Built.literals, Built.asGiven, quoteFree_hash]
  | updateUserInfo qual key updated =>
    by_cases hkey : key.1 = .userpass <;>
      simp [Built.literals, Built.asGiven, storedValue, hkey, quoteFree_hash]
  | logRpcCommand ip port uid now type process command latlong txId =>
    simp only [Built.literals, Built.asGiven, List.forall_mem_cons, quoteFree_client,
      quoteFree_fmtD, quoteFree_logType, true_and]
  | getUsrRole name pass => simp [Built.literals, Built.asGiven, quoteFree_hash]
  | _ => rfl

theorem Built.oneStatement (b : Built) :
    OneStatement (b.template.toks (b.literals y)) := by
  cases b with
  | createUsrTable uname upsswd role =>
    cases role <;>
      simp [OneStatement, Built.literals, Built.template, Template.toks, fillToks, createUsrTemplate]
  | _ =>
    simp [OneStatement, Built.literals, Built.template, Template.toks, fillToks,
      addItemsTemplate, updateTemplate, deleteItemTemplate, addImageTemplate,
      deleteImageTemplate, getImageTemplate, logTemplate, isLoggedTemplate, getUsrRoleTemplate]

/-- **Field text stays data** in the statements the server builds if and only if no
argument that goes in as it comes has a quote. -/
theorem Built.staysData_iff (b : Built) :
    b.StaysData y ↔ ∀ f ∈ b.asGiven, QuoteFree f := by
  have hfill := b.template.tokenize_fill_iff (b.length_literals y)
  rw [← b.text_eq, b.quoteFree_literals_iff] at hfill
  rw [← hfill]
  constructor
  · exact And.left
  · intro h
    exact ⟨h, h ▸ b.oneStatement y⟩

/-- A quote in a field ends its literal: the rest of the field is SQL. -/
theorem not_staysData :
    ¬ ∀ (y : Sys) (b : Built), (∀ f ∈ b.asGiven, ',' ∉ f) → b.StaysData y :=
  fun h => absurd (h quietSys (.deleteItem (lit "1' OR '1'='1")) (by decide)).1 (by decide +kernel)

end Thor
