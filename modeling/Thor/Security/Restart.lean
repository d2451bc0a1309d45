import Thor.Database.Lengths
import Thor.Rpc.Passwords

/-!
# Starting again

`main` calls `init_db` and `register_users` at every start, on whatever the database file
holds: the tables are created if they do not exist, and each of the built-in accounts is
inserted, which the constraint on name and role refuses if the pair still has a row.

- `missing`: the built-in accounts whose pair has no row.
- `insertAll_spec`: a start adds a row for each of them, and changes nothing else.
- `restarts`: so it changes nothing exactly when none is missing, and whoever
  authenticates after it did before, or is such an account with its default password.
-/

namespace Thor

open CLib Sql Prog

/-! ## `__init_sqlite3_instance` -/

/-- A table, its columns and constraints as in the text. -/
def createTable (table cols : Str) : Str := lit "create table if not exists " ++ (table ++ cols)

/-- The four tables. -/
def createTables : List Str :=
  [createTable userTable (lit " ( ID INTEGER PRIMARY KEY AUTOINCREMENT  NOT NULL, " ++
      lit "UserName TEXT NOT NULL, UserPsswd TEXT NOT NULL, PrivMode INTEGER NOT NULL, " ++
      lit "IsLogged INTEGER NOT NULL, AdditionalInfo TEXT, UNIQUE(UserName, PrivMode));"),
    createTable itemTable (lit " ( ID INTEGER PRIMARY KEY AUTOINCREMENT  NOT NULL, " ++
      lit "UPC TEXT NOT NULL, Quantity TEXT NOT NULL, Price TEXT NOT NULL, Name TEXT, " ++
      lit "UNIQUE(Name));"),
    createTable logsTable (lit " ( ID INTEGER PRIMARY KEY AUTOINCREMENT  NOT NULL, " ++
      lit "User TEXT NOT NULL, UserId TEXT NOT NULL, Epoch TEXT NOT NULL, " ++
      lit "Process TEXT NOT NULL, LogType TEXT NOT NULL,LatLong TEXT NOT NULL," ++
      lit "TxId TEXT NOT NULL,StackTrace TEXT NOT NULL );"),
    createTable imagesTable (lit " ( ID INTEGER PRIMARY KEY AUTOINCREMENT  NOT NULL, " ++
      lit "UPC TEXT NOT NULL, Image BLOB NOT NULL, Extra TEXT, UNIQUE(UPC));")]

/-- Such a text is none of the statements of the fragment. -/
theorem parse_createTable (table cols : Str) : parse (tokenize (createTable table cols)) = none := by
  have hhead : lexer.run .start (lit "create table if not exists ")
      = ([.reserved (lit "create"), .reserved (lit "table"), .reserved (lit "if"),
        .reserved (lit "not"), .reserved (lit "exists")], .start) := by decide +kernel
  unfold tokenize createTable
  rw [Machine.all_append, hhead]
  exact parse_reserved ..

variable (y : Sys)

/-- `__init_sqlite3_instance` on a file that can be opened. An error is printed. -/
def initSqlite3Instance : M Int := do
  createTables.forM fun sql => do
    let _ ← sqlite3Exec y sql (fun (u : Unit) _ => .ok u) ()
  pure 0

/-- What `main` does before `server.up`. -/
def startUp : M Unit := do
  let _ ← initSqlite3Instance y
  registerUsers y

/-- The server object after a start on the database of `w`. -/
def restarted (w : World) : World := ((startUp y).run { w with sess := initDataRoot }).state

/-- Creating a table that exists changes nothing. -/
def CreatesOnce : Prop := ∀ sql ∈ createTables, ∀ db, (y.engine.other sql db).db = db

/-! ## What a start does to the database -/

variable {y}

/-- The pointers of the session stay as they are. -/
def OpsKept (w : World) (_ : List Event) (w' : World) : Prop := w'.sess.ops = w.sess.ops

theorem OpsKept.composable : Composable OpsKept where
  refl _ := rfl
  trans h h' := h'.trans h

theorem opsKept_callPtr {α : Type} {op : Op} {args : List (Option Str)} {body : M α}
    (h : Always body OpsKept) : Always (callPtr op args body) OpsKept :=
  always_callPtr OpsKept.composable (fun _ _ => rfl) h

theorem opsKept_prim : PrimJudgment fun m => Always m OpsKept where
  pure _ := RelOn.pure OpsKept.composable
  bind hm hf := RelOn.seq OpsKept.composable hm hf
  gets _ := RelOn.gets OpsKept.composable
  fail _ := RelOn.fail OpsKept.composable
  tick _ _ := rfl
  emitExec _ _ _ := rfl
  setDb _ _ _ := rfl
  alloc _ _ _ := rfl
  emitFree _ _ _ := rfl
  setValue _ _ _ := rfl
  setResponse _ _ _ := rfl
  callHash := opsKept_callPtr

/-- The tables that exist are left alone. -/
theorem run_initSqlite3Instance (hcreate : CreatesOnce y) (w : World) :
    ((initSqlite3Instance y).run w).val = .ok 0 ∧
      ((initSqlite3Instance y).run w).state.srv.db = w.srv.db ∧
      ((initSqlite3Instance y).run w).state.sess.ops = w.sess.ops := by
  -- `CREATE TABLE` is outside the fragment: what it does is up to the engine
  have hother : ∀ sql ∈ createTables, parse (tokenize sql) = none := by
    simp only [createTables, List.forall_mem_cons, parse_createTable, true_and]
    exact fun _ h => nomatch h
  have hloop := @run_forM World Crash Event Str Db (fun v => v.sess.ops = w.sess.ops)
    (fun v => v.srv.db) (fun db _ => db)
    (fun sql => do let _ ← sqlite3Exec y sql (fun (u : Unit) _ => .ok u) ()) createTables ?_ w rfl
  · obtain ⟨hval, hops, hdb⟩ := hloop
    have hfold : ∀ (l : List Str) (db : Db), l.foldl (fun db _ => db) db = db := by
      intro l
      induction l with
      | nil => exact fun _ => rfl
      | cons sql l ih => exact ih
    unfold initSqlite3Instance
    rw [run_bind_of_ok hval]
    exact ⟨rfl, hdb.trans (hfold _ _), hops⟩
  · intro sql hsql v hv
    have hexec := run_sqlite3Exec y sql (fun (u : Unit) _ => u) () v
    have hkept : (y.engine.exec catalog sql v.srv.db).db = v.srv.db := by
      unfold Engine.exec
      rw [hother sql hsql]
      exact hcreate sql hsql _
    cases hfault : y.fault v.tick with
    | some fault =>
      rw [hfault] at hexec
      rw [run_bind_of_run hexec]
      exact ⟨rfl, hv, rfl⟩
    | none =>
      rw [hfault] at hexec
      rw [run_bind_of_run hexec]
      exact ⟨rfl, hv, hkept⟩

/-- The database after the inserts of these accounts. -/
def insertAll (y : Sys) (us : List ValidUser) (db : Db) : Db :=
  us.foldl (fun db u =>
    (y.engine.execStmt catalog (Built.stmt y (.createUsrTable u.name u.pass u.mode)) db).db) db

theorem builtin_spec : ∀ u ∈ validUsers, QuoteFree u.name ∧ IsInt32 u.mode ∧
    (createUsrTableSql u.name [] u.mode).length < 200 := by
  decide +kernel

theorem length_createUsrTableSql (name pswd : Str) (role : Int) :
    (createUsrTableSql name pswd role).length
      = (createUsrTableSql name [] role).length + pswd.length := by
  simp [createUsrTableSql, sprintf, lit]
  omega

/-- `register_users` inserts the built-in accounts. -/
theorem registerUsers_db (hfault : ∀ t, y.fault t = none) (hdigest : ∀ s, (y.hash s).length ≤ 32)
    {w : World} (hops : w.sess.ops = initDataRoot.ops) :
    ((registerUsers y).run w).state.srv.db = insertAll y validUsers w.srv.db := by
  have hloop := @run_forM World Crash Event ValidUser Db (fun v => v.sess.ops = initDataRoot.ops)
    (fun v => v.srv.db) (fun db u =>
      (y.engine.execStmt catalog (Built.stmt y (.createUsrTable u.name u.pass u.mode)) db).db)
    (fun u => do
      let _ ← callPtr .creatUsr [some u.name, some u.pass]
        (createUsrTable y (some u.name) (some u.pass) u.mode)) validUsers ?_ w hops
  · exact hloop.2.2
  · intro u hu v hv
    obtain ⟨hq, hrole, hlen⟩ := builtin_spec u hu
    -- there is room for each of the accounts, whatever the digests are
    have hfits : (createUsrTableSql u.name (y.hash u.pass) u.mode).length < 256 := by
      rw [length_createUsrTableSql]
      have := hdigest u.pass
      omega
    have hhash : v.sess.ops .hash = true := by
      rw [hv]
      rfl
    obtain ⟨hret, hsrv⟩ := run_createUsrTable hhash hq hrole hfits (hfault v.tick)
    have hcall : (callPtr .creatUsr [some u.name, some u.pass]
        (createUsrTable y (some u.name) (some u.pass) u.mode)).run v = _ := run_callPtr ..
    rw [if_pos (show v.sess.ops .creatUsr = true by rw [hv]; rfl)] at hcall
    have hkeeps : ((createUsrTable y (some u.name) (some u.pass) u.mode).run v).state.sess.ops
        = v.sess.ops := by
      have hprim := opsKept_prim
      exact (hprim.bind (hprim.computeHash y _) fun _ => (hprim.db y).runStatement _ _) v trivial
    rw [run_bind_of_ok (by rw [hcall, hret])]
    rw [hcall]
    exact ⟨rfl, hkeeps.trans hv, congrArg Server.db hsrv⟩

/-- **A start** inserts the built-in accounts. -/
theorem restarted_db (hcreate : CreatesOnce y) (hfault : ∀ t, y.fault t = none)
    (hdigest : ∀ s, (y.hash s).length ≤ 32) (w : World) :
    (restarted y w).srv.db = insertAll y validUsers w.srv.db := by
  obtain ⟨hval, hdb, hops⟩ := run_initSqlite3Instance hcreate { w with sess := initDataRoot }
  unfold restarted startUp
  rw [run_bind_of_ok hval]
  exact (registerUsers_db hfault hdigest hops).trans (congrArg (insertAll y validUsers) hdb)

/-! ## The accounts that come back -/

/-- The built-in accounts whose name and role have no row. -/
def missing (db : Db) : List ValidUser := validUsers.filter fun u => !decide (HasAccount db u.name u.mode)

/-- The row is that of a new user with these data. -/
def IsAccountOf (y : Sys) (r : Row) (u : ValidUser) : Prop :=
  ∃ key, r = newUser y key u.name u.pass u.mode

/-- Another account is there after an insert if it was before. -/
theorem hasAccount_append {db : Db} {key role role' seq : Int} {name name' pass : Str}
    (hne : (name', role') ≠ (name, role)) :
    HasAccount (Function.update db userTable
        ⟨(db userTable).rows ++ [newUser y key name pass role], seq⟩) name' role' ↔
      HasAccount db name' role' := by
  unfold HasAccount
  rw [Function.update_self]
  constructor
  · rintro ⟨r, hr, hname, hmode⟩
    rcases List.mem_append.mp hr with hr | hr
    · exact ⟨r, hr, hname, hmode⟩
    · rw [List.mem_singleton.mp hr, newUser_name] at hname
      rw [List.mem_singleton.mp hr, newUser_mode] at hmode
      exact absurd (Prod.ext (Value.text.inj hname).symm (Value.int.inj hmode).symm) hne
  · rintro ⟨r, hr, h⟩
    exact ⟨r, List.mem_append_left _ hr, h⟩

/-- What the inserts add. -/
theorem insertAll_spec {us : List ValidUser} (hdistinct : (us.map fun u => (u.name, u.mode)).Nodup)
    (db : Db) :
    ∃ added, ((insertAll y us db) userTable).rows = (db userTable).rows ++ added ∧
      List.Forall₂ (IsAccountOf y) added
        (us.filter fun u => !decide (HasAccount db u.name u.mode)) ∧
      (added = [] → insertAll y us db = db) ∧
      ∀ t, t ≠ userTable → (insertAll y us db) t = db t := by
  induction us generalizing db with
  | nil => exact ⟨[], (List.append_nil _).symm, .nil, fun _ => rfl, fun _ _ => rfl⟩
  | cons u us ih =>
    obtain ⟨hnew, hdistinct⟩ := List.nodup_cons.mp hdistinct
    have hcons : insertAll y (u :: us) db = insertAll y us
        (y.engine.execStmt catalog (Built.stmt y (.createUsrTable u.name u.pass u.mode)) db).db := rfl
    rw [hcons, execStmt_createUsr]
    by_cases h : HasAccount db u.name u.mode
    · -- refused by the constraint
      obtain ⟨added, hrows, hadded, hnone, hother⟩ := ih hdistinct db
      rw [if_pos h]
      refine ⟨added, hrows, ?_, hnone, hother⟩
      rwa [List.filter_cons_of_neg (by simp [h])]
    · rw [if_neg h]
      obtain ⟨added, hrows, hadded, -, hother⟩ := ih hdistinct (Function.update db userTable
        ⟨(db userTable).rows ++ [newUser y ((db userTable).nextKey idCol) u.name u.pass u.mode],
          (db userTable).nextKey idCol⟩)
      rw [Function.update_self] at hrows
      refine ⟨_ :: added, hrows.trans (List.append_assoc ..), ?_, nofun, fun t ht => ?_⟩
      · rw [List.filter_cons_of_pos (by simp [h])]
        refine .cons ⟨_, rfl⟩ ?_
        have hsame : ∀ u' ∈ us, HasAccount (Function.update db userTable
            ⟨(db userTable).rows ++ [newUser y ((db userTable).nextKey idCol) u.name u.pass u.mode],
              (db userTable).nextKey idCol⟩) u'.name u'.mode ↔ HasAccount db u'.name u'.mode :=
          fun u' hu' => hasAccount_append fun heq =>
            hnew (List.mem_map.mpr ⟨u', hu', heq⟩)
        rwa [List.filter_congr fun u' hu' => by rw [decide_eq_decide.mpr (hsame u' hu')]] at hadded
      · rw [hother t ht, Function.update_of_ne ht]

/-- A login asks the database, and nothing else. -/
theorem logsIn_congr {w w' : World} (hdb : w'.srv.db = w.srv.db)
    (hfault : y.fault w'.tick = y.fault w.tick) {name pass : Str} :
    LogsIn y w' name pass ↔ LogsIn y w name pass := by
  have hval : ((getUsrRole y name pass).run { w' with sess := initDataRoot }).val
      = ((getUsrRole y name pass).run { w with sess := initDataRoot }).val := by
    unfold getUsrRole computeHash
    simp only [run_bind, run_callPtr, run_deref_some, run_pure, run_sprintfInto, run_sqlite3Exec, hdb,
      hfault, show initDataRoot.ops .hash = true from rfl, if_true]
    split
    · cases y.fault w.tick <;> rfl
    · rfl
  unfold LogsIn
  rw [hval]

theorem exists_of_forall₂ {α β : Type} {R : α → β → Prop} {l : List α} {l' : List β}
    (h : List.Forall₂ R l l') {a : α} (ha : a ∈ l) : ∃ b ∈ l', R a b := by
  induction h with
  | nil => cases ha
  | cons hab _ ih =>
    rcases List.mem_cons.mp ha with rfl | ha
    · exact ⟨_, List.mem_cons_self .., hab⟩
    · obtain ⟨b, hb, hR⟩ := ih ha
      exact ⟨b, List.mem_cons_of_mem _ hb, hR⟩

/-- **What a start does** to the accounts. -/
structure Restarts (y : Sys) (w w' : World) : Prop where
  /-- a row is added for each account missing, and nothing else is changed -/
  rows : ∃ added, (w'.srv.db userTable).rows = (w.srv.db userTable).rows ++ added ∧
    List.Forall₂ (IsAccountOf y) added (missing w.srv.db)
  others : ∀ t, t ≠ userTable → w'.srv.db t = w.srv.db t
  unchanged_iff : w'.srv.db = w.srv.db ↔ missing w.srv.db = []
  /-- whoever authenticates did before, or comes back with its default password -/
  logins : ∀ name pass, QuoteFree name ∨ missing w.srv.db = [] → LogsIn y w' name pass →
    LogsIn y w name pass ∨ ∃ u ∈ missing w.srv.db, name = u.name ∧ y.hash pass = y.hash u.pass

theorem restarts (hcreate : CreatesOnce y) (hfault : ∀ t, y.fault t = none)
    (hdigest : ∀ s, (y.hash s).length ≤ 32) (w : World) : Restarts y w (restarted y w) := by
  have hdb := restarted_db hcreate hfault hdigest w
  obtain ⟨added, hrows, hadded, hnone, hother⟩ :=
    @insertAll_spec y validUsers (by decide) w.srv.db
  have hadded : List.Forall₂ (IsAccountOf y) added (missing w.srv.db) := hadded
  rw [← hdb] at hrows hother hnone
  have hunchanged : (restarted y w).srv.db = w.srv.db ↔ missing w.srv.db = [] := by
    constructor
    · intro h
      rw [h, List.self_eq_append_right] at hrows
      exact List.forall₂_nil_left_iff.mp (hrows ▸ hadded)
    · intro h
      exact hnone (List.forall₂_nil_right_iff.mp (h ▸ hadded))
  refine ⟨⟨added, hrows, hadded⟩, hother, hunchanged, fun name pass hname hlogs => ?_⟩
  have hsame (h : (restarted y w).srv.db = w.srv.db) : LogsIn y w name pass :=
    (logsIn_congr h (by rw [hfault, hfault])).mp hlogs
  rcases hname with hq | hmissing
  -- a row that has been added lets the pair in, or one that was there before
  · by_cases hnew : ∃ r ∈ added, holds name (y.hash pass) r = true
    · obtain ⟨r, hr, hholds⟩ := hnew
      obtain ⟨hn, hp⟩ := of_decide_eq_true hholds
      obtain ⟨u, hu, key, rfl⟩ := exists_of_forall₂ hadded hr
      rw [newUser_name] at hn
      rw [newUser_psswd] at hp
      exact .inr ⟨u, hu, (Value.text.inj hn).symm, (Value.text.inj hp).symm⟩
    · left
      obtain ⟨hlen, hf, hrole⟩ := (logsIn_iff hq).mp hlogs
      refine (logsIn_iff hq).mpr ⟨hlen, hfault _, ?_⟩
      have hnil : added.filter (holds name (y.hash pass)) = [] :=
        List.filter_eq_nil_iff.mpr fun r hr hholds => hnew ⟨r, hr, hholds⟩
      unfold credentialRows at hrole ⊢
      rwa [hrows, List.filter_append, hnil, List.append_nil] at hrole
  · exact .inl (hsame (hunchanged.mpr hmissing))

/-- A start on a table with `admin` only, which misses all the others. -/
theorem restarts_admin_only :
    (missing (usersDb [adminRow])).map ValidUser.name = validUsers.tail.map ValidUser.name ∧
      Restarts quietSys (.before initDataRoot (usersDb [adminRow]))
        (restarted quietSys (.before initDataRoot (usersDb [adminRow]))) :=
  ⟨by decide +kernel, restarts (fun _ _ _ => rfl) (fun _ => rfl) (fun s => (length_md5 s).le) _⟩

/-- A command that adds, updates or deletes a user, without quotes in the fields that go
into the text as they came. -/
def AccountCommand (cmd : Str) : Prop :=
  ∃ l, parseRequest cmd = .db l ∧ (l.op = .creatUsr ∨ l.op = .updateUsr ∨ l.op = .dltUsr) ∧
    ∀ b ∈ l.built, ∀ f ∈ b.asGiven, QuoteFree f

/-- The first start, and `admin` renamed behind it. -/
def adminRenamed : World := (commanded quietSys (restarted quietSys (.before initDataRoot .empty))
  initDataRoot (lit "db,update,user,admin,userid,boss,<$#EOT#$>")).state

/-- A built-in account that has been renamed comes back with its default password. -/
theorem not_unchanged :
    ¬ ∀ (y : Sys) (w : World) (cs : List (Session × Str)), CreatesOnce y →
      (∀ t, y.fault t = none) → (∀ s, (y.hash s).length ≤ 32) → (∀ c ∈ cs, AccountCommand c.2) →
      runSteps (processed y) (restarted y (.before initDataRoot .empty)) cs = some w →
      (restarted y w).srv.db userTable = w.srv.db userTable ∧
        ∀ name pass, LogsIn y (restarted y w) name pass → LogsIn y w name pass := by
  intro h
  have hreq : parseRequest (lit "db,update,user,admin,userid,boss,<$#EOT#$>") = .db (.updateUsr
      (some (lit "admin")) (some (lit "userid")) (some (lit "boss"))) := by decide +kernel
  have hbuilt : (DbLeaf.updateUsr (some (lit "admin")) (some (lit "userid"))
      (some (lit "boss"))).built
        = some (.updateUserInfo (lit "admin") ⟨.userid, rfl⟩ (lit "boss")) := rfl
  have hcmd : AccountCommand (lit "db,update,user,admin,userid,boss,<$#EOT#$>") := by
    refine ⟨_, hreq, .inr (.inl rfl), ?_⟩
    rw [hbuilt]
    rintro b ⟨⟩
    decide
  obtain ⟨hsame, -⟩ := h quietSys adminRenamed
    [(initDataRoot, lit "db,update,user,admin,userid,boss,<$#EOT#$>")] (fun _ _ _ => rfl)
    (fun _ => rfl) (fun s => (length_md5 s).le)
    (fun c hc => by rw [List.mem_singleton.mp hc]; exact hcmd) (runSteps_commanded ..)
  -- what the two starts and the update have done
  have hstarted := @restarted_db quietSys (fun _ _ _ => rfl) (fun _ => rfl)
    (fun s => (length_md5 s).le)
  have hfirst := hstarted (.before initDataRoot .empty)
  have hlast := hstarted adminRenamed
  have hrename : adminRenamed.srv.db = (quietSys.engine.execStmt catalog (Built.stmt quietSys
      (.updateUserInfo (lit "admin") ⟨.userid, rfl⟩ (lit "boss")))
        (insertAll quietSys validUsers .empty)).db := by
    unfold adminRenamed
    rw [commanded_db hreq rfl hbuilt (by decide) rfl rfl (by decide +kernel) (by decide +kernel)
      rfl, hfirst]
    rfl
  rw [hlast, hrename] at hsame
  have hlength := congrArg (fun t : Table => t.rows.length) hsame
  revert hlength
  decide +kernel

end Thor
