import Thor.Comm.Deletion
import Thor.Comm.Sessions
import Thor.Rpc.Escalation

/-!
# A server without ROOT (comm/server.c, security/authorize.c)

Logins look at a table that the commands of earlier sessions have changed, and the sessions
they make change it further. This goes round in a circle, and it never gets to ROOT.

- `roleGiven`: the role that a login gets for a name and a password (`role_of_authRun`).
- `Unprivileged`: the steps of people who do not know the credentials of a ROOT user, put no
  quote into a text, and leave the name and the password of ROOT users alone.
- `rootless`: in a run of such steps no session is one of ROOT, and the accounts and their
  roles stay what they were.
-/

namespace Thor

open CLib Sql Prog

variable {y : Sys} {db db' : Db} {s s' : System} {a : Action}

/-! ## The role of a login -/

/-- The role that the table, or the built-in one, has for a name and a password. -/
def roleGiven (y : Sys) (isOpen : Bool) (db : Db) (id pass : Str) : Int :=
  if isOpen then roleOf (credentialRows y db id (y.hash pass))
  else builtinMode id pass id.length pass.length

theorem getUserMode_val {isOpen : Bool} {id pass : Str} (hq : QuoteFree id) {w : World} {mode : Int}
    (h : ((getUserMode y isOpen id pass id.length pass.length).run w).val = .ok mode)
    (hmode : mode ≠ -1) : mode = roleGiven y isOpen w.srv.db id pass := by
  unfold getUserMode at h
  unfold roleGiven
  cases isOpen with
  | false => exact (Except.ok.inj h).symm
  | true =>
    rw [if_pos rfl, getUsrRole_run y hq] at h
    rw [if_pos rfl]
    split_ifs at h with _ _ hfault
    · exact absurd (Except.ok.inj h).symm hmode
    · exact (Except.ok.inj h).symm

/-- The query for the logging byte leaves the tables alone. -/
theorem dbKept_named {name : Str} (hq : QuoteFree name) (pass : Str) :
    Always (authNamed y name pass) DbKept := by
  refine dbKept_reply.bind (dbKept_isLogged hq) fun logBit => ?_
  split
  · exact dbKept_reply.pure _
  · exact dbKept_reply.pure _

theorem role_of_named {isOpen : Bool} {name pass : Str} (hq : QuoteFree name) {w : World}
    {mode : Int} {bit : Option Nat}
    (h : ((authNamed y name pass >>= authRole y isOpen).run w).val = .ok (mode, bit))
    (hmode : mode ≠ -1) : mode = roleGiven y isOpen w.srv.db name pass := by
  obtain ⟨found, hfound, hrole⟩ := bind_val_ok h
  have hkept : ((authNamed y name pass).run w).state.srv.db = w.srv.db :=
    dbKept_named hq pass w trivial
  obtain ⟨logBit, -, hsecond⟩ := bind_val_ok hfound
  split at hsecond
  · cases hsecond
    obtain ⟨mode', hmode', hpure⟩ := bind_val_ok hrole
    cases hpure
    rw [getUserMode_val hq hmode' hmode, hkept]
  · cases hsecond
    cases hrole
    exact absurd rfl hmode

/-- **A login gets the role of its name and password**, as the tables stand. -/
theorem role_of_authRun {buf : Str} {mode : Int} {bit : Option Nat}
    (hq : ∀ id pass, authMessage buf = .named id pass → QuoteFree (removeEscape id))
    (h : (s.authRun y buf).val = .ok (mode, bit)) (hmode : mode ≠ -1) :
    ∃ id pass, authMessage buf = .named id pass ∧
      mode = roleGiven y s.isOpen s.srv.db (removeEscape id) (removeEscape pass) := by
  obtain ⟨saved, hparse⟩ := authParse_run y buf (s.world initDataRoot)
  have hrun : s.authRun y buf = ((authMessage buf).prog y >>= authRole y s.isOpen).run
      { s.world initDataRoot with saved } := by
    unfold System.authRun
    rw [authParse_eq, run_bind, run_bind, hparse]
  rw [hrun] at h
  cases hmsg : authMessage buf with
  | ignored =>
    rw [hmsg] at h
    cases h
    exact absurd rfl hmode
  | noToken =>
    rw [hmsg] at h
    cases h
  | named id pass =>
    rw [hmsg] at h
    exact ⟨id, pass, rfl, role_of_named (hq id pass hmsg) h hmode⟩

/-! ## Accounts -/

/-- The accounts of the users table: their keys, with their roles. -/
def accounts (db : Db) : List (Value × Value) :=
  (db userTable).rows.map fun r => (r (lit "ID"), r privModeCol)

theorem accounts_congr (h : db' userTable = db userTable) : accounts db' = accounts db := by
  rw [accounts, h, accounts]

/-- An update of a user changes neither keys nor roles. -/
theorem accounts_updateUserInfo (qual updated : Str) (key : MappedKey) :
    accounts (y.engine.execStmt catalog (Built.stmt y (.updateUserInfo qual key updated)) db).db =
      accounts db := by
  rcases @Engine.execStmt_update y.engine catalog db userTable key.column
    (.str (storedValue y key updated)) (rowOf qual) with h | ⟨sch, col, hsch, hcol, h⟩
  · exact accounts_congr (congrFun h userTable)
  · obtain rfl : userInformation = sch := Option.some.inj hsch
    obtain ⟨hid, hmode, -⟩ := key.userColumn hcol
    have hrows : ((y.engine.execStmt catalog (Built.stmt y (.updateUserInfo qual key updated))
        db).db userTable).rows = (db userTable).rows.map fun r =>
          if y.engine.hits catalog db userInformation (rowOf qual) r then
            Function.update r col.name
              (y.engine.convert col.aff (.text (storedValue y key updated))) else r :=
      congrArg Table.rows ((congrFun h userTable).trans (Function.update_self ..))
    rw [accounts, hrows, List.map_map]
    refine List.map_congr_left fun r _ => ?_
    dsimp only [Function.comp_apply]
    split
    · rw [Function.update_of_ne hid.symm, Function.update_of_ne hmode.symm]
    · rfl

/-- **Clients without the role ROOT** open no account, and give nobody another role. -/
theorem accounts_prog (hchild : ChildrenKeepUsers y) {r : Request} {w : World}
    (hclient : IsClient w.sess) (hplain : r.Plain w.sess.ops) :
    accounts ((r.prog y).run w).state.srv.db = accounts w.srv.db := by
  rcases Request.table_cases (t := userTable) hchild (by decide) hplain with
    h | ⟨leaf, rfl, hset, b, hb, ht, h⟩
  · exact accounts_congr h
  · have hop : leaf.op ≠ .creatUsr := by
      intro heq
      rw [heq, hclient.creatUsr] at hset
      cases hset
    obtain ⟨qual, key, updated, rfl⟩ := DbLeaf.updates_users hop hb ht
    rw [h, accounts_updateUserInfo]

/-! ## Runs -/

/-- A step of people without the credentials of a ROOT user of the table `db`: a message with
a quote-free name, and none of these credentials; or a tame command. -/
def Unprivileged (y : Sys) (isOpen : Bool) (db : Db) (s : System) : Action → Prop
  | .authenticate buf => ∀ id pass, authMessage buf = .named id pass →
      QuoteFree (removeEscape id) ∧
        roleGiven y isOpen db (removeEscape id) (removeEscape pass) ≠ rootUsr
  | .command cmd => ∀ k c, s.serving = .serving k → s.clients[k]? = some c →
      (parseRequest cmd).Tame s.srv.db c.sess.ops
  | _ => True

/-- The session is one of a client without the role ROOT. -/
def Identity.Unprivileged (i : Identity) : Prop :=
  i.mode ≠ rootUsr ∧ ∀ s : Session, s.ops = i.ops → IsClient s

/-- What holds in every state of such a run. -/
structure Rootless (y : Sys) (isOpen : Bool) (db : Db) (s : System) : Prop where
  isOpen : s.isOpen = isOpen
  unraised : Unraised y db s.srv.db
  accounts : accounts s.srv.db = accounts db
  sessions : ∀ i ∈ s.roster, i.Unprivileged

theorem roleGiven_of_unraised {isOpen : Bool} (hkeyed : Keyed db) (h : Unraised y db db')
    {id pass : Str} (hroot : roleGiven y isOpen db' id pass = rootUsr) :
    roleGiven y isOpen db id pass = rootUsr := by
  unfold roleGiven at *
  cases isOpen with
  | false => exact hroot
  | true => exact (h hkeyed).2 id (y.hash pass) hroot

/-- A session that such a login makes. -/
theorem Makes.unprivileged {isOpen : Bool} (hkeyed : Keyed db) (hs : Rootless y isOpen db s)
    {buf : Str} (ha : Unprivileged y isOpen db s (.authenticate buf)) {i : Identity}
    (hi : Makes y s buf i) : i.Unprivileged := by
  obtain ⟨bit, hval⟩ := hi.role
  obtain ⟨sess, hmk, hops⟩ := hi.template
  have hnot : i.mode ≠ rootUsr := by
    intro hroot
    obtain ⟨id, pass, hmsg, hgiven⟩ :=
      role_of_authRun (fun id pass hmsg => (ha id pass hmsg).1) hval (by rw [hroot]; decide)
    rw [hroot, hs.isOpen] at hgiven
    -- the pair would have been one of ROOT to begin with
    exact (ha id pass hmsg).2 (roleGiven_of_unraised hkeyed hs.unraised hgiven.symm)
  refine ⟨hnot, fun t ht => ⟨i.mode, s.uid, sess, ?_, hmk, ht.trans hops⟩⟩
  rcases mknod_cases hmk with ⟨hmode, -⟩ | ⟨hmode, -⟩ | ⟨hmode, -⟩
  · exact .inl hmode
  · exact .inr hmode
  · exact absurd hmode hnot

/-- What a step has left, apart from the sessions. -/
theorem Rootless.roster_kept {isOpen : Bool} (hs : Rootless y isOpen db s)
    (hopen : s'.isOpen = s.isOpen) (hroster : s'.roster = s.roster)
    (hraised : Unraised y s.srv.db s'.srv.db) (haccounts : Thor.accounts s'.srv.db = Thor.accounts s.srv.db) :
    Rootless y isOpen db s' :=
  ⟨hopen.trans hs.isOpen, hs.unraised.trans hraised, haccounts.trans hs.accounts,
    fun i hi => hs.sessions i (hroster ▸ hi)⟩

/-- **One step.** -/
theorem Rootless.step (hchild : ChildrenKeepUsers y) {isOpen : Bool} (hkeyed : Keyed db)
    (hs : Rootless y isOpen db s) (ha : Unprivileged y isOpen db s a) (h : step y s a = some s') :
    Rootless y isOpen db s' := by
  -- what becomes of the tables
  have hdb : Unraised y s.srv.db s'.srv.db ∧ Thor.accounts s'.srv.db = Thor.accounts s.srv.db := by
    rcases step_db h with hdb | ⟨cmd, k, c, rfl, hserving, hc, hsrv⟩ | ⟨buf, rfl, hsrv⟩
    · rw [hdb]
      exact ⟨.of_eq rfl, rfl⟩
    · have htame := ha k c hserving hc
      have hclient : IsClient c.sess :=
        (hs.sessions c.sess.identity (List.mem_append_left _
          (List.mem_map_of_mem (List.mem_of_getElem? hc)))).2 c.sess rfl
      obtain ⟨saved, hrun⟩ := processCmd_run y cmd (s.world c.sess)
      rw [hsrv, hrun]
      exact ⟨noneRaised_prog hchild (w := { s.world c.sess with saved }) hclient htame,
        accounts_prog hchild (w := { s.world c.sess with saved }) hclient htame.plain⟩
    · rw [hsrv, s.authRun_db fun id pass hmsg => (ha id pass hmsg).1]
      exact ⟨.of_eq rfl, rfl⟩
  have hopen := step_isOpen h
  rcases step_roster h with ⟨hroster, -⟩ | ⟨buf, i, rfl, hi, hroster, -⟩
  · exact hs.roster_kept hopen hroster hdb.1 hdb.2
  · refine ⟨hopen.trans hs.isOpen, hs.unraised.trans hdb.1, hdb.2.trans hs.accounts, fun j hj => ?_⟩
    rw [hroster] at hj
    rcases List.mem_append.mp hj with hj | hj
    · exact hs.sessions j hj
    · rw [List.mem_singleton.mp hj]
      exact hi.unprivileged hkeyed hs ha

/-- **No ROOT without ROOT.** Take people who do not have the name and the password of a ROOT
user when the server starts, and who inject nothing. However they log in, work on any number
of sessions, change the table that later logins look at, and leave: no session is ever one
of ROOT, and no account comes, goes or gets another role. -/
theorem rootless (hchild : ChildrenKeepUsers y) {isOpen : Bool} {sock : Int} {acts : List Action}
    (hkeyed : Keyed db)
    (hacts : AllSteps (step y) (Unprivileged y isOpen db) (.start db isOpen sock) acts) :
    EveryState (step y) (fun s => (∀ c ∈ s.clients, c.sess.mode ≠ rootUsr) ∧
      accounts s.srv.db = accounts db) (.start db isOpen sock) acts := by
  have hstart : Rootless y isOpen db (.start db isOpen sock) := ⟨rfl, .of_eq rfl, rfl, nofun⟩
  have hevery := EveryState.of_allSteps
    (fun _ _ _ hs ha hstep => hs.step hchild hkeyed ha hstep) hstart hacts
  refine hevery.mono fun s hs => ⟨fun c hc => ?_, hs.accounts⟩
  exact (hs.sessions c.sess.identity
    (List.mem_append_left _ (List.mem_map_of_mem (f := fun c => c.sess.identity) hc))).1

/-! ## An elevated user -/

/-- The users `admin` and `audit`, who has the role `ELVT_USR`. -/
def auditDb : Db := usersDb [adminRow, userRow 2 (lit "audit") (md5 (lit "audit")) elvtUsr 1]

/-- `audit` logs in and changes the column `IsLogged` of the own row. -/
theorem rootless_audit :
    EveryState (step quietSys) (fun s => (∀ c ∈ s.clients, c.sess.mode ≠ rootUsr) ∧
      accounts s.srv.db = accounts auditDb) (.start auditDb true 3)
      (login localClient (lit "auth,audit,audit") ++
        [.visit 0, .command (lit "db,update,user,audit,userlogged,1,<$#EOT#$>")]) := by
  have hmsg : authMessage (lit "auth,audit,audit") = .named (lit "audit") (lit "audit") := by
    decide +kernel
  have hreq : parseRequest (lit "db,update,user,audit,userlogged,1,<$#EOT#$>") = .db (.updateUsr
      (some (lit "audit")) (some (lit "userlogged")) (some (lit "1"))) := by decide +kernel
  have hkey : (mappedKey (some (lit "userlogged"))).map Subtype.val = some .userlogged := by
    decide +kernel
  refine rootless (fun _ _ _ => rfl) (by decide +kernel) fun _ _ => ⟨trivial, fun _ _ =>
    ⟨trivial, fun _ _ => ⟨?_, fun _ _ => ⟨trivial, fun _ _ => ⟨trivial, fun _ _ =>
      ⟨trivial, fun _ _ => ⟨?_, trivial⟩⟩⟩⟩⟩⟩⟩
  · intro id pass h
    obtain ⟨rfl, rfl⟩ := AuthMessage.named.inj (hmsg.symm.trans h)
    decide +kernel
  · intro k c _ _
    rw [hreq]
    intro _ b hb
    rw [DbLeaf.built] at hb
    obtain ⟨key, hmapped, rfl⟩ := Option.map_eq_some_iff.mp hb
    rw [hmapped] at hkey
    have hlogged : key.1 = .userlogged := Option.some.inj hkey
    refine ⟨?_, fun hlogin => ?_⟩
    · rw [Built.asGiven, hlogged]
      decide +kernel
    · rw [hlogged] at hlogin
      exact absurd hlogin (by decide)

end Thor
