import Thor.Database.Templates

/-!
# How long the texts are

Every builder of `database/` writes its text into an array of a size of its own, with no
limit on what it puts between the quotes.

- `Built.cap`: the array.
- `Built.size`: the bytes that are put into the text.
- `Built.room`: the bytes the array has left for them.
- `Built.fits_iff`: a text fits if and only if what is put into it does.
-/

namespace Thor

open CLib Sql

/-- The array a text is built in. -/
def Built.cap : Built → Nat
  | isLogged _ => 128
  | getImageForUpc _ => 1024
  | logRpcCommand .. => 8000
  | addImage .. | updateItemImage .. => mb 12
  | _ => 256

/-- The bytes put into a text; a password goes in as its digest. -/
def Built.size : Built → Nat
  | addItems upc quantity price name =>
    upc.length + quantity.length + price.length + name.length
  | updateItemsInfo qual key updated => key.column.length + updated.length + qual.length
  | deleteItem name => name.length
  | createUsrTable uname _ role => uname.length + 32 + (fmtD role).length
  | updateUserInfo qual key updated =>
    key.column.length + (if key.1 = .userpass then 32 else updated.length) + qual.length
  | addImage upc image => upc.length + image.length
  | updateItemImage qual key updated => key.column.length + updated.length + qual.length
  | deleteImage upc => upc.length
  | getImageForUpc upc => upc.length
  | logRpcCommand ip port uid now type process command latlong txId =>
    ip.1.length + (fmtD port).length + (fmtD (toInt32 uid)).length + (fmtD now).length +
      process.length + type.text.length + latlong.length + txId.length + command.length
  | isLogged name => name.length
  | getUsrRole name _ => name.length + 32

/-- The bytes the array has for them, its terminator and the rest of the text apart. -/
def Built.room : Built → Nat
  | addItems .. => 178
  | updateItemsInfo .. => 166
  | deleteItem _ => 211
  | createUsrTable .. => 149
  | updateUserInfo .. => 159
  | addImage .. => 11999938
  | updateItemImage .. => 11999922
  | deleteImage _ => 217
  | getImageForUpc _ => 980
  | logRpcCommand .. => 7878
  | isLogged _ => 72
  | getUsrRole .. => 177

/-! ## The fixed parts -/

theorem fixed_updateTemplate (u : UpdateTable) {col : Str} (h : col ∈ mappedColumns) :
    (updateTemplate u h).fixed = col.length + 2 * u.spelled.length + u.keyCol.length + 54 := by
  have h1 : (lit "UPDATE ").length = 7 := by decide
  have h2 : (lit " SET ").length = 5 := by decide
  have h3 : (lit "='").length = 2 := by decide
  have h4 : (lit " where ID=(SELECT ID FROM ").length = 26 := by decide
  have h5 : (lit " where ").length = 7 := by decide
  have h6 : (lit " );").length = 3 := by decide
  simp only [Template.fixed, Template.fill, fillText, updateTemplate, updateHead, List.map_cons,
    List.map_nil, List.nil_append, List.append_nil, List.length_append, List.length_cons,
    h1, h2, h3, h4, h5, h6]
  omega

theorem fixed_createUsrTemplate (role : Int) :
    (createUsrTemplate role).fixed = 106 + (fmtD role).length := by
  have hhead : (createUsrTemplate role).head.length = 93 :=
    show (lit "INSERT INTO  UserInformation  " ++
      lit "(UserName,UserPsswd,PrivMode,IsLogged,AdditionalInfo) VALUES( '").length = 93 by
      decide +kernel
  have h1 : (lit ",'").length = 2 := by decide
  have h2 : (lit ",").length = 1 := by decide
  have h3 : (lit "1,''); ").length = 7 := by decide
  rw [Template.fixed, Template.fill, List.length_append, hhead]
  simp only [createUsrTemplate, fillText, List.map_cons, List.map_nil, List.nil_append,
    List.length_append, List.length_cons, List.length_nil, h1, h2, h3]
  omega

theorem fixed_logTemplate (now : Nat) :
    (logTemplate now).fixed = 120 + (fmtD now).length := by
  have hhead : (logTemplate now).head.length = 97 :=
    show (lit "INSERT INTO TransactionLogs " ++
      lit "(User,UserId,Epoch,Process,LogType,LatLong,TxId,StackTrace) VALUES( '").length = 97 by
      decide +kernel
  have h1 : (lit ",'").length = 2 := by decide
  have h2 : (lit ",").length = 1 := by decide
  have h3 : (lit "'").length = 1 := by decide
  have h4 : (lit "); ").length = 3 := by decide
  rw [Template.fixed, Template.fill, List.length_append, hhead]
  simp only [logTemplate, fillText, List.map_cons, List.map_nil, List.nil_append,
    List.length_append, List.length_cons, List.length_nil, h1, h2, h3, h4]
  omega

/-- The other templates have no number and no column in them. -/
theorem fixed_templates :
    addItemsTemplate.fixed = 77 ∧ deleteItemTemplate.fixed = 44 ∧ addImageTemplate.fixed = 61 ∧
      deleteImageTemplate.fixed = 38 ∧ getImageTemplate.fixed = 43 ∧ isLoggedTemplate.fixed = 55 ∧
      getUsrRoleTemplate.fixed = 78 := by
  decide +kernel

theorem length_spelled : (UpdateTable.spelled .users).length = 17 ∧
    (UpdateTable.spelled .items).length = 16 ∧ (UpdateTable.spelled .images).length = 10 := by
  decide

theorem length_keyCol : (UpdateTable.keyCol .users).length = 8 ∧
    (UpdateTable.keyCol .items).length = 3 ∧ (UpdateTable.keyCol .images).length = 3 := by
  decide

/-! ## The whole text -/

variable {y : Sys}

theorem length_storedValue (hdigest : ∀ s, (y.hash s).length = 32) (key : MappedKey)
    (updated : Str) :
    (storedValue y key updated).length = if key.1 = .userpass then 32 else updated.length := by
  unfold storedValue
  split
  · exact hdigest updated
  · rfl

theorem length_md5 (s : Str) : (md5 s).length = 32 := by
  unfold md5
  split
  · decide
  · decide

/-- **How long a text is.** -/
theorem Built.length_text (hdigest : ∀ s, (y.hash s).length = 32) (b : Built) :
    (b.text y).length + b.room + 1 = b.cap + b.size := by
  obtain ⟨hadd, hdel, hadd', hdel', hget, hlogged, hrole⟩ := fixed_templates
  rw [b.text_eq, Template.length_fill _ (b.length_literals y)]
  cases b with
  | updateItemsInfo qual key updated | updateItemImage qual key updated =>
    simp only [Built.template, fixed_updateTemplate, Built.literals, List.flatten_cons, List.flatten_nil,
      List.length_append, List.length_nil, Built.room, Built.cap, Built.size, mb, length_spelled,
      length_keyCol]
    omega
  | updateUserInfo qual key updated =>
    simp only [Built.template, fixed_updateTemplate, Built.literals, List.flatten_cons, List.flatten_nil,
      List.length_append, List.length_nil, Built.room, Built.cap, Built.size, length_spelled,
      length_keyCol, length_storedValue hdigest]
    omega
  | createUsrTable uname upsswd role =>
    simp only [Built.template, fixed_createUsrTemplate, Built.literals, List.flatten_cons,
      List.flatten_nil, List.length_append, List.length_nil, Built.room, Built.cap, Built.size, hdigest]
    omega
  | logRpcCommand ip port uid now type process command latlong txId =>
    have hcolon : (lit ":").length = 1 := by decide
    -- the numbers stay names here: the kernel would compute them
    have hflat (a b c d e f g : Str) : [a, b, c, d, e, f, g].flatten.length
        = a.length + b.length + c.length + d.length + e.length + f.length + g.length := by
      simp only [List.flatten_cons, List.flatten_nil, List.length_append, List.length_nil]
      omega
    show (logTemplate now).fixed + [ip.1 ++ lit ":" ++ fmtD port, fmtD (toInt32 uid), process,
      type.text, latlong, txId, command].flatten.length + 7878 + 1 = 8000 + Built.size _
    rw [fixed_logTemplate, hflat, List.length_append, List.length_append, hcolon, Built.size]
    omega
  | getUsrRole name pass =>
    simp only [Built.template, hrole, Built.literals, List.flatten_cons, List.flatten_nil, List.length_append,
      List.length_nil, Built.room, Built.cap, Built.size, hdigest]
    omega
  | _ =>
    simp only [Built.template, hadd, hdel, hadd', hdel', hget, hlogged, Built.literals,
      List.flatten_cons, List.flatten_nil, List.length_append, List.length_nil, Built.room, Built.cap, Built.size,
      mb]
    omega

/-- **A text fits** if and only if the bytes put into it do. -/
theorem Built.fits_iff (hdigest : ∀ s, (y.hash s).length = 32) (b : Built) :
    (b.text y).length < b.cap ↔ b.size ≤ b.room := by
  have hlen := b.length_text hdigest
  omega

end Thor
