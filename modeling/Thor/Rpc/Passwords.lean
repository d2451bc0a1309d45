import Thor.CLib.Steps
import Thor.Database.Users
import Thor.Rpc.Escalation
import Thor.Rpc.Replies
import Thor.Security.Authorize

/-!
# Changing a password

The users table has a row for each name and role, `__update_user_info` changes one row of a
name, and `__get_usr_role` takes any. So an old password stays good in the other rows of
the name.

- `registered`: the server after `register_users` on an empty database, `UserCommand`: a
  command that adds or updates a user. `keyed_registered`, `keyed_processed`: the keys that
  hold a row apart from the others are there in every run.
- `credentialRows_changed`: what the login query finds after the password has been changed.
- `revokes_iff`: the old passwords are gone exactly when the other rows of the name admit
  none of them.
-/

namespace Thor

open CLib Sql Prog

variable (y : Sys)

/-! ## Runs of commands on users -/

/-- The server after `register_users` on an empty database. -/
def registered : World := ((registerUsers y).run (.before initDataRoot .empty)).state

/-- A command that adds or updates a user, without quotes in the fields that go into the
text as they came. -/
def UserCommand (cmd : Str) : Prop :=
  ∃ l, parseRequest cmd = .db l ∧ (l.op = .creatUsr ∨ l.op = .updateUsr) ∧
    ∀ b ∈ l.built, ∀ f ∈ b.asGiven, QuoteFree f

/-- A command processed in a session, with whatever the commands before have left. -/
def commanded (w : World) (s : Session) (cmd : Str) : Outcome World Crash Event Unit :=
  (processCmd y cmd).run { w with sess := s }

variable {y}

theorem runSteps_commanded (w : World) (s : Session) (cmd : Str) :
    runSteps (processed y) w [(s, cmd)] = some (commanded y w s cmd).state := rfl

/-- A plain request on the database that is granted, with room for its text. -/
theorem commanded_db {w : World} {s : Session} {cmd : Str} {l : DbLeaf} {b : Built}
    (hreq : parseRequest cmd = .db l) (hl : l.lists = false) (hb : b ∈ l.built)
    (hplain : ∀ f ∈ b.asGiven, QuoteFree f) (hset : s.ops l.op = true) (hhash : s.ops .hash = true)
    (hargs : none ∉ l.args) (hlen : (b.text y).length < b.cap) (hfault : y.fault w.tick = none) :
    (commanded y w s cmd).state.srv.db
      = (y.engine.execStmt catalog (b.stmt y) w.srv.db).db := by
  obtain ⟨saved, hrun⟩ := processCmd_run y cmd { w with sess := s }
  unfold commanded
  rw [hrun, hreq]
  exact DbLeaf.runs (w := { w with saved, sess := s }) hl hb hplain hset hhash hargs hlen hfault

/-- The keys of all tables stay keys. -/
def KeysKept (w : World) (_ : List Event) (w' : World) : Prop :=
  w.srv.db.Keyed catalog → w'.srv.db.Keyed catalog

theorem KeysKept.composable : Composable KeysKept where
  refl _ := id
  trans h h' := h' ∘ h

theorem keysKept_createUsrTable {uname : Str} (hq : QuoteFree uname) (upsswd : Str) {role : Int}
    (hrole : IsInt32 role) : Always (createUsrTable y (some uname) (some upsswd) role) KeysKept := by
  intro w hw hkeyed
  rcases executes_createUsrTable y (some uname) (some upsswd) role w hw with h | ⟨s, hs, h⟩
  · rw [h]
    exact hkeyed
  · cases hs
    rw [h, (Built.createUsrTable (fmtS (some uname)) (fmtS (some upsswd)) role).exec_eq y]
    · exact Engine.execStmt_keyed catalog_names hkeyed
    · intro f hf
      rw [List.mem_singleton.mp hf]
      exact hq
    · intro i hi
      obtain rfl := List.mem_singleton.mp hi
      obtain ⟨hlo, hhi⟩ := hrole
      exact if_pos (by omega)

theorem keysKept_registerUsers : Always (registerUsers y) KeysKept := by
  have hbuiltin : ∀ u ∈ validUsers, QuoteFree u.name ∧ IsInt32 u.mode := by decide
  refine RelOn.forM KeysKept.composable fun u hu => ?_
  obtain ⟨hq, hrole⟩ := hbuiltin u hu
  exact RelOn.seq KeysKept.composable
    (always_callPtr KeysKept.composable (fun _ _ => id) (keysKept_createUsrTable hq _ hrole))
    fun _ => RelOn.pure KeysKept.composable

theorem keyed_registered : (registered y).srv.db.Keyed catalog :=
  keysKept_registerUsers _ trivial (Db.keyed_empty catalog)

theorem keyed_processed {w w' : World} {c : Session × Str} (hc : UserCommand c.2)
    (hkeyed : w.srv.db.Keyed catalog) (h : processed y w c = some w') :
    w'.srv.db.Keyed catalog := by
  obtain ⟨l, hreq, -, hplain⟩ := hc
  obtain ⟨saved, hrun⟩ := processCmd_run y c.2 { w with sess := c.1 }
  obtain rfl := Option.some.inj h
  rw [hrun, hreq]
  exact DbLeaf.keyed_prog (w := { w with saved, sess := c.1 }) hplain hkeyed

/-- The tables of a run are keyed. -/
theorem keyed_run {w : World} {cs : List (Session × Str)} (hcs : ∀ c ∈ cs, UserCommand c.2)
    (hrun : runSteps (processed y) (registered y) cs = some w) : w.srv.db.Keyed catalog := by
  have hsteps := @AllSteps.of_forall _ _ (processed y) (fun c => UserCommand c.2) cs (registered y) hcs
  exact (EveryState.of_allSteps (fun _ _ _ hv hc hstep => keyed_processed hc hv hstep)
    keyed_registered hsteps).last hrun

/-! ## Logins -/

variable (y)

/-- `__get_usr_role` of the server object returns a role. -/
def LogsIn (w : World) (name pass : Str) : Prop :=
  ∃ role, ((getUsrRole y name pass).run { w with sess := initDataRoot }).val = .ok role ∧ role ≠ -1

variable {y}

theorem logsIn_iff {w : World} {name pass : Str} (hq : QuoteFree name) :
    LogsIn y w name pass ↔ (getUsrRoleSql name (y.hash pass)).length < 256 ∧
      y.fault w.tick = none ∧ roleOf (credentialRows y w.srv.db name (y.hash pass)) ≠ -1 := by
  unfold LogsIn
  rw [getUsrRole_run y hq, if_neg (show ¬ initDataRoot.ops .hash = false by decide)]
  by_cases hlen : (getUsrRoleSql name (y.hash pass)).length < 256
  · rw [if_neg (Nat.not_le.mpr hlen)]
    cases hfault : y.fault w.tick with
    | some fault => simp
    | none => simp [hlen]
  · rw [if_pos (Nat.not_lt.mp hlen)]
    simp [hlen]

/-! ## What is left of a password -/

variable (y)

/-- The rows that an update of the name does not reach. -/
def otherRows (db : Db) (name : Str) : List Row :=
  match updatedRow y .users db name with
  | none => (db userTable).rows
  | some r₀ => (db userTable).rows.filter fun r => decide (r idCol ≠ r₀ idCol)

/-- In the rows that an update of the name does not reach, the login query finds a role for
the name with some password of another hash than that of `pass`. -/
def OthersAdmit (db : Db) (name pass : Str) : Prop :=
  ∃ old, y.hash old ≠ y.hash pass ∧ (getUsrRoleSql name (y.hash old)).length < 256 ∧
    roleOf (y.engine.scan userInformation (getUsrRoleStmt name (y.hash old))
      ((otherRows y db name).filter (holds name (y.hash old)))) ≠ -1

variable {y}

/-- The rows of a password that has been replaced. -/
theorem credentialRows_changed {db db' : Db} {name pass pswd : Str} {key : MappedKey}
    (hkey : key.1 = .userpass) (hkeyed : (db userTable).Keyed idCol)
    (herr : (y.engine.execStmt catalog (Built.stmt y (.updateUserInfo name key pass)) db).err = none)
    (hdb : db' = (y.engine.execStmt catalog (Built.stmt y (.updateUserInfo name key pass)) db).db)
    (hne : pswd ≠ y.hash pass) :
    credentialRows y db' name pswd = y.engine.scan userInformation (getUsrRoleStmt name pswd)
      ((otherRows y db name).filter (holds name pswd)) := by
  obtain ⟨col, hcol, hnone | ⟨r₀, hrow, hset⟩⟩ := execStmt_updateUsr hkeyed herr
  · obtain ⟨hrow, hkept⟩ := hnone
    rw [credentialRows, hdb, hkept, otherRows, hrow]
  · obtain rfl : textColumn "UserPsswd" = col := by
      obtain ⟨k, hk⟩ := key
      obtain rfl : k = .userpass := hkey
      exact Option.some.inj hcol
    -- the row changed has the new digest, and no login with another one finds it
    have hrows : ((db userTable).setRow idCol r₀
        (updatedUser y (textColumn "UserPsswd") key pass)).rows.filter (holds name pswd)
          = ((db userTable).rows.filter fun r => decide (r idCol ≠ r₀ idCol)).filter
            (holds name pswd) := by
      refine Table.filter_setRow fun r _ _ => ?_
      have hstored : updatedUser y (textColumn "UserPsswd") key pass r userPsswdCol
          = .text (y.hash pass) := by
        unfold updatedUser storedValue
        rw [if_pos hkey]
        exact Function.update_self ..
      refine decide_eq_false fun h => hne ?_
      exact (Value.text.inj (hstored.symm.trans h.2)).symm
    rw [credentialRows, hdb, hset, Function.update_self, hrows, otherRows, hrow]

/-- Without other rows of the name nothing is left. -/
theorem not_othersAdmit_of_sole {db : Db} {name pass : Str}
    (h : ∀ r ∈ (db userTable).rows, ∀ r' ∈ (db userTable).rows, r userNameCol = .text name →
      r' userNameCol = .text name → r idCol = r' idCol) : ¬ OthersAdmit y db name pass := by
  rintro ⟨old, -, -, hrole⟩
  have hnil : (otherRows y db name).filter (holds name (y.hash old)) = [] := by
    refine List.filter_eq_nil_iff.mpr fun r hr hholds => ?_
    obtain ⟨hname, -⟩ := of_decide_eq_true hholds
    unfold otherRows at hr
    cases hrow : updatedRow y .users db name with
    | none =>
      rw [hrow] at hr
      exact updatedRow_eq_none_iff.mp hrow r hr hname
    | some r₀ =>
      rw [hrow] at hr
      obtain ⟨hmem, hid⟩ := List.mem_filter.mp hr
      obtain ⟨hmem₀, hname₀⟩ := updatedRow_mem hrow
      exact of_decide_eq_true hid (h r hmem r₀ hmem₀ hname hname₀)
  rw [hnil, List.perm_nil.mp (y.engine.scan_perm ..)] at hrole
  exact hrole rfl

/-- **Old passwords** are gone after a change answered `resp,ok` if and only if the rows of
the name that the update has not reached admit none (or the login gets no answer from the
database). -/
theorem revokes_iff {w : World} {cs : List (Session × Str)} (hcs : ∀ c ∈ cs, UserCommand c.2)
    (hrun : runSteps (processed y) (registered y) cs = some w) {s : Session}
    {cmd name pass : Str} (hcmd : parseRequest cmd =
      .db (.updateUsr (some name) (some (lit "userpass")) (some pass))) (hq : QuoteFree name)
    (hok : Answered (lit "resp,ok") (commanded y w s cmd).out) :
    (∀ old, LogsIn y (commanded y w s cmd).state name old →
        y.hash old = y.hash pass) ↔
      (y.fault (commanded y w s cmd).state.tick = none →
        ¬ OthersAdmit y w.srv.db name pass) := by
  have hkeyed : (w.srv.db userTable).Keyed idCol :=
    keyed_run hcs hrun userInformation (by simp [catalog])
  obtain ⟨saved, hprog⟩ := processCmd_run y cmd { w with sess := s }
  unfold commanded at hok ⊢
  rw [hprog, hcmd] at hok ⊢
  have hbuilt : (DbLeaf.updateUsr (some name) (some (lit "userpass")) (some pass)).built
      = some (.updateUserInfo name ⟨.userpass, rfl⟩ pass) := rfl
  have hplain : ∀ b ∈ (DbLeaf.updateUsr (some name) (some (lit "userpass")) (some pass)).built,
      ∀ f ∈ b.asGiven, QuoteFree f := by
    rw [hbuilt]
    rintro b ⟨⟩
    exact quoteFree_updateUsr.mpr ⟨hq, fun h => absurd rfl h⟩
  obtain ⟨b, hb, herr, hdb⟩ := @DbLeaf.of_ok y { w with saved, sess := s }
    (.updateUsr (some name) (some (lit "userpass")) (some pass)) rfl
    (show Op.updateUsr ≠ .dltUsr by decide) hplain hok
  rw [hbuilt] at hb
  cases hb
  have hrows {old : Str} (hne : y.hash old ≠ y.hash pass) :=
    @credentialRows_changed y w.srv.db _ name pass (y.hash old) _ rfl hkeyed herr hdb hne
  constructor
  · rintro h hfault ⟨old, hne, hlen, hrole⟩
    refine hne (h old ((logsIn_iff hq).mpr ⟨hlen, hfault, ?_⟩))
    rw [← hrows hne] at hrole
    exact hrole
  · intro h old hold
    obtain ⟨hlen, hfault, hrole⟩ := (logsIn_iff hq).mp hold
    by_contra hne
    refine h hfault ⟨old, hne, hlen, ?_⟩
    rw [← hrows hne]
    exact hrole

/-- The role that a login gets. -/
def LogsInAs (y : Sys) (w : World) (name pass : Str) (role : Int) : Prop :=
  ((getUsrRole y name pass).run { w with sess := initDataRoot }).val = .ok role

instance (y : Sys) (w : World) (name pass : Str) (role : Int) :
    Decidable (LogsInAs y w name pass role) := inferInstanceAs (Decidable (_ = _))

/-- The built-in users, and `bob`. -/
def bobAdded : World := (commanded quietSys (registered quietSys) initDataRoot
  (lit "db,add,user,bob,pw,1000,<$#EOT#$>")).state

theorem userCommand_bob : UserCommand (lit "db,add,user,bob,pw,1000,<$#EOT#$>") := by
  have hreq : parseRequest (lit "db,add,user,bob,pw,1000,<$#EOT#$>")
      = .db (.creatUsr (some (lit "bob")) (some (lit "pw")) (lit "1000")) := by decide +kernel
  refine ⟨_, hreq, .inl rfl, fun b hb f hf => ?_⟩
  obtain rfl := Option.some.inj hb
  obtain rfl := List.mem_singleton.mp hf
  decide

/-- `bob` is added and gets a new password, and logs in with no other. -/
theorem revokes_bob :
    (∀ old, LogsIn quietSys (commanded quietSys bobAdded initDataRoot
        (lit "db,update,user,bob,userpass,admin,<$#EOT#$>")).state (lit "bob") old →
          md5 old = md5 (lit "admin")) ∧
      LogsIn quietSys (commanded quietSys bobAdded initDataRoot
        (lit "db,update,user,bob,userpass,admin,<$#EOT#$>")).state (lit "bob") (lit "admin") := by
  -- one evaluation of the commands for all that is read off their world
  have hworld : Answered (lit "resp,ok") (commanded quietSys bobAdded initDataRoot
        (lit "db,update,user,bob,userpass,admin,<$#EOT#$>")).out ∧
      (∀ r ∈ (bobAdded.srv.db userTable).rows, ∀ r' ∈ (bobAdded.srv.db userTable).rows,
        r userNameCol = .text (lit "bob") → r' userNameCol = .text (lit "bob") →
          r idCol = r' idCol) ∧
      LogsInAs quietSys (commanded quietSys bobAdded initDataRoot
        (lit "db,update,user,bob,userpass,admin,<$#EOT#$>")).state (lit "bob") (lit "admin")
          elvtUsr := by decide +kernel
  obtain ⟨hok, hsole, hlogs⟩ := hworld
  constructor
  · refine (@revokes_iff quietSys bobAdded
      [(initDataRoot, lit "db,add,user,bob,pw,1000,<$#EOT#$>")] ?_ (runSteps_commanded ..)
      initDataRoot (lit "db,update,user,bob,userpass,admin,<$#EOT#$>") (lit "bob") (lit "admin")
      (by decide +kernel) (by decide) hok).mpr ?_
    · intro c hc
      rw [List.mem_singleton.mp hc]
      exact userCommand_bob
    · exact fun _ => not_othersAdmit_of_sole hsole
  · exact ⟨elvtUsr, hlogs, by decide⟩

/-- The built-in users, and a second row of the name `user`, with another role. -/
def userTwice : World := (commanded quietSys (registered quietSys) initDataRoot
  (lit "db,add,user,user,admin,1000,<$#EOT#$>")).state

/-- A second row of a name, with a role of its own, keeps its password. -/
theorem not_revokes :
    ¬ ∀ (y : Sys) (w : World) (cs : List (Session × Str)) (s : Session) (cmd name pass : Str),
      (∀ c ∈ cs, UserCommand c.2) → runSteps (processed y) (registered y) cs = some w →
      parseRequest cmd = .db (.updateUsr (some name) (some (lit "userpass")) (some pass)) →
      QuoteFree name → QuoteFree pass →
      Answered (lit "resp,ok") (commanded y w s cmd).out →
      ∀ old, LogsIn y (commanded y w s cmd).state name old → y.hash old = y.hash pass := by
  intro h
  have hreq : parseRequest (lit "db,add,user,user,admin,1000,<$#EOT#$>")
      = .db (.creatUsr (some (lit "user")) (some (lit "admin")) (lit "1000")) := by decide +kernel
  have hadd : UserCommand (lit "db,add,user,user,admin,1000,<$#EOT#$>") := by
    refine ⟨_, hreq, .inl rfl, fun b hb f hf => ?_⟩
    obtain rfl := Option.some.inj hb
    obtain rfl := List.mem_singleton.mp hf
    decide
  have hworld : Answered (lit "resp,ok") (commanded quietSys userTwice initDataRoot
        (lit "db,update,user,user,userpass,new,<$#EOT#$>")).out ∧
      LogsInAs quietSys (commanded quietSys userTwice initDataRoot
        (lit "db,update,user,user,userpass,new,<$#EOT#$>")).state (lit "user") (lit "admin")
          1000 := by decide +kernel
  have hhash := h quietSys userTwice
    [(initDataRoot, lit "db,add,user,user,admin,1000,<$#EOT#$>")]
    initDataRoot (lit "db,update,user,user,userpass,new,<$#EOT#$>") (lit "user") (lit "new")
    (fun c hc => by rw [List.mem_singleton.mp hc]; exact hadd) (runSteps_commanded ..)
    (by decide +kernel) (by decide) (by decide) hworld.1 (lit "admin") ⟨1000, hworld.2, by decide⟩
  exact absurd hhash (by decide)

end Thor
