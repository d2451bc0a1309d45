import Thor.Database.Lengths
import Thor.Rpc.Replies
import Thor.Security.AuthMessage

/-!
# Texts that have to fit

The texts that the message of a login and the commands behind it make the server build. A
builder that finds no room stops the process (`Tried`), and the bytes it puts into the text
are those the peer has sent.

- `Request.Builds`, `AuthMessage.Builds`: which texts are built.
- `Request.tried`: each of them gets to the engine, or has no room.
- `textsFit_iff`: when all of them have room.
-/

namespace Thor

open CLib Sql Prog

variable {y : Sys}

/-! ## A text that is tried -/

/-- The text gets to the engine if it fits an array of `cap` bytes; if it does not, the
program stops there. -/
structure Tried {α : Type} (cap : Nat) (text : Str) (o : Outcome World Crash Event α) : Prop where
  reaches : text.length < cap → .exec text ∈ o.out
  stops : ¬ text.length < cap → o.val = .error .overflow

section Tried

variable {α β : Type} {m : M α} {f : α → M β} {cap : Nat} {text : Str} {w : World}

theorem Tried.bind (h : Tried cap text (m.run w)) (f : α → M β) :
    Tried cap text ((m >>= f).run w) where
  reaches hlen := mem_out_left (h.reaches hlen) f
  stops hlen := by rw [run_bind_of_error (h.stops hlen)]

theorem Tried.after {a : α} (hm : (m.run w).val = .ok a)
    (h : Tried cap text ((f a).run (m.run w).state)) : Tried cap text ((m >>= f).run w) where
  reaches hlen := mem_out_right hm (h.reaches hlen)
  stops hlen := by
    rw [run_bind_of_ok hm]
    exact h.stops hlen

theorem Tried.callPtr {op : Op} {args : List (Option Str)} (hset : w.sess.ops op = true)
    (h : Tried cap text (m.run w)) : Tried cap text ((callPtr op args m).run w) := by
  rw [run_callPtr, if_pos hset]
  exact ⟨fun hlen => List.mem_cons_of_mem _ (h.reaches hlen), h.stops⟩

theorem exec_sqlite3Exec (callback : β → RowText → Except Crash β) (data : β) :
    Event.exec text ∈ ((sqlite3Exec y text callback data).run w).out :=
  mem_out_left (List.mem_singleton_self _) _

/-- A text that is built, and goes to the engine. -/
theorem tried_sprintfInto {f : Str → M α} (h : .exec text ∈ ((f text).run w).out) :
    Tried cap text ((sprintfInto cap text >>= f).run w) where
  reaches hlen := by
    rw [run_bind_of_run (run_sprintfInto_of_fits hlen w)]
    exact h
  stops hlen := by
    rw [run_bind_of_error (e := .overflow) (by rw [run_sprintfInto, if_neg hlen])]

theorem tried_runStatement : Tried cap text ((runStatement y cap text).run w) := by
  unfold runStatement
  exact tried_sprintfInto (mem_out_left (exec_sqlite3Exec _ _) _)

theorem tried_getImageForUpc (upc : Option Str) :
    Tried 1024 (getImageForUpcSql (fmtS upc)) ((getImageForUpc y upc).run w) := by
  unfold getImageForUpc
  refine tried_sprintfInto ?_
  unfold listInto
  exact mem_out_right rfl (mem_out_right rfl (mem_out_left (exec_sqlite3Exec _ _) _))

theorem tried_isLogged (name : Str) :
    Tried 128 (isLoggedSql name) ((isLogged y (some name)).run w) := by
  unfold isLogged
  rw [fmtS_some]
  exact tried_sprintfInto (mem_out_left (exec_sqlite3Exec _ _) _)

theorem tried_getUsrRole (name pass : Str) (hhash : w.sess.ops .hash = true) :
    Tried 256 (getUsrRoleSql name (y.hash pass)) ((getUsrRole y name pass).run w) := by
  have hrun := run_computeHash y hhash pass
  refine Tried.after (congrArg Outcome.val hrun) ?_
  rw [hrun]
  exact tried_sprintfInto (mem_out_left (exec_sqlite3Exec _ _) _)

theorem tried_logRpcCommand (type : LogType) (process command latlong txId : Option Str) :
    Tried 8000 (logSql y w type process command latlong txId)
      ((logRpcCommand y type process command latlong txId).run w) := by
  rw [run_logRpcCommand]
  exact tried_runStatement

/-- An update by a key that names a column. -/
theorem tried_mapped {key : Option Str} {k : MappedKey} {text : Str → Str} {s : Str}
    (hk : mappedKey key = some k) (htext : text k.column = s) :
    Tried cap s ((match getMapping (findCmd key) with
      | none => pure (-1)
      | some colName => runStatement y cap (text colName) : M Int).run w) := by
  rw [getMapping_findCmd, hk]
  show Tried cap s ((runStatement y cap (text k.column)).run w)
  rw [htext]
  exact tried_runStatement

end Tried

/-! ## The texts of a command -/

/-- What a leaf does before it builds its text goes through: there is a password to hash. -/
def DbLeaf.Hashes (ops : Op → Bool) : DbLeaf → Prop
  | creatUsr _ pass _ => ops .hash = true ∧ pass ≠ none
  | updateUsr _ key value => findCmd key = some .userpass → ops .hash = true ∧ value ≠ none
  | _ => True

/-- The entry `__log_rpc_command` makes in the world `w`. -/
def logBuilt (y : Sys) (w : World) (type : LogType) (process command latlong txId : Option Str) :
    Built :=
  .logRpcCommand w.sess.ip w.sess.port w.sess.uid (y.time w.tick) type (fmtS process)
    (fmtS command) (fmtS latlong) (fmtS txId)

theorem text_logBuilt (w : World) (type : LogType) (process command latlong txId : Option Str) :
    (logBuilt y w type process command latlong txId).text y
      = logSql y w type process command latlong txId := by
  rw [logBuilt, Built.text, logSql]

/-- The texts a request builds from its fields. -/
inductive Request.Builds (y : Sys) (w : World) : Request → Built → Prop
  | db {leaf : DbLeaf} {b : Built} : w.sess.ops leaf.op = true → leaf.Hashes w.sess.ops →
      b ∈ leaf.built → Builds y w (.db leaf) b
  | logCmd {process txId command : Option Str} {latlong : Str} : w.sess.ops .logCmd = true →
      Builds y w (.logCmd process latlong txId command)
        (logBuilt y w .reqd process command (some latlong) txId)
  | cliNode {process txId : Option Str} {latlong command : Str} : w.sess.ops .logCmd = true →
      w.sess.isLogged ≠ 0 → Builds y w (.cliNode process latlong txId command)
        (logBuilt y w .auto process (some command) (some latlong) txId)

variable {w : World}

theorem Request.Builds.saved {r : Request} {b : Built} (h : r.Builds y w b) (s : Str) :
    r.Builds y { w with saved := s } b := by
  cases h with
  | db hset hhash hb => exact .db hset hhash hb
  | logCmd hset => exact .logCmd hset
  | cliNode hset hlogged => exact .cliNode hset hlogged

theorem DbLeaf.tried_call {l : DbLeaf} {b : Built} (hhash : l.Hashes w.sess.ops) (hb : b ∈ l.built) :
    Tried b.cap (b.text y) ((l.call y).run w) := by
  cases l with
  | addItem | dltItem | addImage | deleteImage =>
    cases hb
    simp only [DbLeaf.call, addItems, deleteItem, Thor.addImage, Thor.deleteImage, Built.text,
      Built.cap]
    exact tried_runStatement
  | getImage upc =>
    cases hb
    simp only [DbLeaf.call, Built.text, Built.cap]
    exact tried_getImageForUpc upc
  | dltUsr | getAllItems | getAllUsers | getAllImages => cases hb
  | creatUsr name pass mode =>
    cases hb
    obtain ⟨hset, hpass⟩ := hhash
    obtain ⟨pass, rfl⟩ := Option.ne_none_iff_exists'.mp hpass
    have hrun := run_computeHash y hset pass
    refine Tried.after (congrArg Outcome.val hrun) ?_
    rw [hrun]
    simp only [Built.text, Built.cap]
    exact tried_runStatement
  | updateItem name key value | updateImage upc key value =>
    obtain ⟨k, hk, rfl⟩ := Option.map_eq_some_iff.mp hb
    simp only [DbLeaf.call, updateItemsInfo, updateItemImage, Built.text, Built.cap]
    exact tried_mapped hk rfl
  | updateUsr name key value =>
    obtain ⟨k, hk, rfl⟩ := Option.map_eq_some_iff.mp hb
    -- a new password is hashed first, any other value is taken as it is
    obtain ⟨o, hrun⟩ : ∃ o, (hashedValue y (findCmd key) value).run w
        = ⟨.ok (storedValue y k (fmtS value)), w, o⟩ := by
      by_cases hpass : findCmd key = some .userpass
      · exact run_hashedValue_mapped hk (hhash hpass).1 (hhash hpass).2
      · refine ⟨[], ?_⟩
        unfold hashedValue storedValue
        rw [if_neg hpass, if_neg fun h => hpass (by rw [findCmd_of_mappedKey hk, h])]
        rfl
    refine Tried.after (congrArg Outcome.val hrun) ?_
    rw [hrun]
    simp only [Built.text, Built.cap]
    exact tried_mapped hk rfl

/-- **Every text a request builds** gets to the engine, or has no room. -/
theorem Request.tried {r : Request} {b : Built} (h : r.Builds y w b) :
    Tried b.cap (b.text y) ((r.prog y).run w) := by
  cases h with
  | @db leaf _ hset hhash hb =>
    refine Tried.bind ?_ _
    unfold guarded
    rw [run_bind_of_run (run_isSet leaf.op w), hset]
    exact (Tried.callPtr hset (leaf.tried_call hhash hb)).bind _
  | logCmd hset =>
    rw [text_logBuilt]
    exact (Tried.callPtr hset (tried_logRpcCommand _ _ _ _ _)).bind _
  | cliNode hset hlogged =>
    refine Tried.after (a := w.sess.isLogged) rfl ?_
    rw [if_pos hlogged, text_logBuilt]
    exact (Tried.callPtr hset (tried_logRpcCommand _ _ _ _ _)).bind _

/-! ## The texts of a login -/

/-- The texts `__auth` builds from a message, the database being open or not. -/
inductive AuthMessage.Builds (isOpen : Bool) (ops : Op → Bool) : AuthMessage → Built → Prop
  | isLogged {name pass : Str} :
      Builds isOpen ops (.named name pass) (.isLogged (removeEscape name))
  | getUsrRole {name pass : Str} : isOpen = true → ops .hash = true → removeEscape name ≠ [] →
      removeEscape pass ≠ [] → Builds isOpen ops (.named name pass)
        (.getUsrRole (removeEscape name) (removeEscape pass))

/-- The query of `__is_logged`. -/
theorem tried_auth_isLogged {isOpen : Bool} {buf name pass : Str}
    (h : authMessage buf = .named name pass) :
    Tried 128 (isLoggedSql (removeEscape name)) ((auth y isOpen buf).run w) := by
  obtain ⟨saved, hrun⟩ := authParse_run y buf w
  rw [h] at hrun
  have hparse : Tried 128 (isLoggedSql (removeEscape name)) ((authParse y buf).run w) := by
    rw [hrun]
    exact (tried_isLogged _).bind _
  rw [authParse_eq]
  exact hparse.bind _

/-- The query of `__get_usr_role`, behind it. -/
theorem tried_auth_getUsrRole {buf name pass : Str} (h : authMessage buf = .named name pass)
    (hlogged : (isLoggedSql (removeEscape name)).length < 128) (hhash : w.sess.ops .hash = true)
    (hname : removeEscape name ≠ []) (hpass : removeEscape pass ≠ []) :
    Tried 256 (getUsrRoleSql (removeEscape name) (y.hash (removeEscape pass)))
      ((auth y true buf).run w) := by
  obtain ⟨saved, hrun⟩ := authParse_run y buf w
  rw [h] at hrun
  obtain ⟨logBit, hbit, hsess⟩ := isLogged_ok y hlogged { w with saved := saved }
  have hparse : (authParse y buf).run w = (authNamed y (removeEscape name) (removeEscape pass)).run
      { w with saved := saved } := hrun
  unfold authNamed at hparse
  rw [run_bind_of_ok hbit, if_pos ⟨hname, hpass⟩] at hparse
  rw [authParse_eq]
  refine Tried.after (congrArg Outcome.val hparse) ?_
  rw [hparse]
  exact (tried_getUsrRole _ _ (by rw [← hhash]; exact congrFun (congrArg Session.ops hsess) _)).bind _

/-! ## When all texts fit -/

/-- The text fits its array, terminator included, and has got to the engine. -/
def Built.Fits {α : Type} (y : Sys) (b : Built) (o : Outcome World Crash Event α) : Prop :=
  (b.text y).length < b.cap ∧ .exec (b.text y) ∈ o.out

/-- Every text the message makes `__auth` build fits. -/
def MessageFits (y : Sys) (isOpen : Bool) (buf : Str) (w : World) : Prop :=
  ∀ b, (authMessage buf).Builds isOpen w.sess.ops b → b.Fits y ((auth y isOpen buf).run w)

/-- Every text the command makes the server build fits. -/
def CommandFits (y : Sys) (cmd : Str) (w : World) : Prop :=
  ∀ b, (parseRequest cmd).Builds y w b → b.Fits y ((processCmd y cmd).run w)

/-- The name is not longer than the array of `__is_logged` has room for. -/
def ShortName (buf : Str) : Prop :=
  ∀ name pass, authMessage buf = .named name pass → (removeEscape name).length ≤ 72

/-- What the command puts into a text is not longer than its array has room for. -/
def ShortFields (y : Sys) (cmd : Str) (w : World) : Prop :=
  ∀ b, (parseRequest cmd).Builds y w b → b.size ≤ b.room

theorem messageFits_iff (hdigest : ∀ s, (y.hash s).length = 32) {isOpen : Bool} {buf : Str} :
    MessageFits y isOpen buf w ↔ ShortName buf := by
  constructor
  · intro h name pass hmessage
    have hfits := (h (.isLogged (removeEscape name)) (hmessage ▸ .isLogged)).1
    exact (Built.fits_iff hdigest _).mp hfits
  · intro h b hb
    generalize hmessage : authMessage buf = message at hb
    cases hb with
    | @isLogged name pass =>
      have hfits := (Built.fits_iff hdigest (.isLogged (removeEscape name))).mpr (h _ _ hmessage)
      exact ⟨hfits, (tried_auth_isLogged hmessage).reaches hfits⟩
    | @getUsrRole name pass hopen hhash hname hpass =>
      have hlogged := (Built.fits_iff hdigest (.isLogged (removeEscape name))).mpr (h _ _ hmessage)
      have hfits := (Built.fits_iff hdigest (.getUsrRole (removeEscape name) (removeEscape pass))).mpr
        (by have := h _ _ hmessage; simp only [Built.size, Built.room]; omega)
      subst hopen
      exact ⟨hfits, (tried_auth_getUsrRole hmessage hlogged hhash hname hpass).reaches hfits⟩

theorem commandFits_iff (hdigest : ∀ s, (y.hash s).length = 32) {cmd : Str} :
    CommandFits y cmd w ↔ ShortFields y cmd w := by
  constructor
  · intro h b hb
    exact (b.fits_iff hdigest).mp (h b hb).1
  · intro h b hb
    have hfits := (b.fits_iff hdigest).mpr (h b hb)
    obtain ⟨saved, hrun⟩ := processCmd_run y cmd w
    rw [Built.Fits, hrun]
    exact ⟨hfits, (Request.tried (hb.saved saved)).reaches hfits⟩

/-- **Every text fits** its array if and only if the name of the message is short, and so is
what the command puts into its text. -/
theorem textsFit_iff (hdigest : ∀ s, (y.hash s).length = 32) (isOpen : Bool) (buf cmd : Str)
    (w w' : World) :
    (MessageFits y isOpen buf w ↔ ShortName buf) ∧ (CommandFits y cmd w' ↔ ShortFields y cmd w') :=
  ⟨messageFits_iff hdigest, commandFits_iff hdigest⟩

/-- The login of `admin`, and the deletion of an item. -/
theorem textsFit_admin :
    MessageFits quietSys true (lit "auth,admin,admin") (.before initDataRoot (usersDb [adminRow])) ∧
      CommandFits quietSys (lit "db,del,items,4006381333931,<$#EOT#$>")
        (.before initDataRoot (usersDb [adminRow])) := by
  have hfits := @textsFit_iff quietSys length_md5 true (lit "auth,admin,admin")
    (lit "db,del,items,4006381333931,<$#EOT#$>") (.before initDataRoot (usersDb [adminRow]))
    (.before initDataRoot (usersDb [adminRow]))
  refine ⟨hfits.1.mpr fun name pass h => ?_, hfits.2.mpr fun b hb => ?_⟩
  · have hmessage : authMessage (lit "auth,admin,admin") = .named (lit "admin") (lit "admin") := by
      decide +kernel
    cases hmessage.symm.trans h
    decide
  · have hrequest : parseRequest (lit "db,del,items,4006381333931,<$#EOT#$>")
        = .db (.dltItem (some (lit "4006381333931"))) := by decide +kernel
    rw [hrequest] at hb
    cases hb with
    | db _ _ hb =>
      cases hb
      decide

/-- A name of 73 bytes is too long for the query of `__is_logged`. -/
theorem not_textsFit :
    ¬ ∀ (y : Sys) (isOpen : Bool) (w w' : World), (∀ s, (y.hash s).length = 32) →
      (∀ buf : Str, buf.length ≤ 1024 → MessageFits y isOpen buf w) ∧
        ∀ cmd : Str, cmd.length ≤ mb 15 → CommandFits y cmd w' := by
  intro h
  have hfits := (h quietSys true (.before initDataRoot (usersDb [adminRow]))
    (.before initDataRoot (usersDb [adminRow])) length_md5).1
    (lit "auth," ++ List.replicate 73 'a' ++ lit ",a") (by decide)
  have hmessage : authMessage (lit "auth," ++ List.replicate 73 'a' ++ lit ",a")
      = .named (List.replicate 73 'a') (lit "a") := by decide +kernel
  exact absurd ((messageFits_iff length_md5).mp hfits _ _ hmessage) (by decide)

end Thor
