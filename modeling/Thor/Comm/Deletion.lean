import Thor.Comm.Shutdown
import Thor.Rpc.Passwords
import Thor.Security.AuthMessage

/-!
# Deleting a user

`db,del,user` is answered `resp,ok`, and `__dlt_usr_info` is `return 0;`. Whoever could log
in before can do so afterwards.

- `Roleless`: the login query finds no role under the name.
- `step_db`: a step of the server changes the tables only by a command or a login, and a
  login changes nothing (`authRun_db`).
- `stays_deleted`: a user without a role stays without one, as long as nobody brings the
  name back.
-/

namespace Thor

open CLib Sql Prog

/-! ## Users without a role -/

/-- No row of the name gives the login query a role. -/
def Roleless (db : Db) (name : Str) : Prop :=
  ∀ r ∈ (db userTable).rows, r userNameCol = .text name → (rowRole r).getD (-1) = -1

instance (db : Db) (name : Str) : Decidable (Roleless db name) :=
  inferInstanceAs (Decidable (∀ r ∈ (db userTable).rows, _))

/-- The text adds the user, or renames one to it. -/
def Built.Readmits (name : Str) : Built → Prop
  | createUsrTable uname _ _ => uname = name
  | updateUserInfo _ key updated => key.1 = .userid ∧ updated = name
  | _ => False

instance (name : Str) : ∀ b : Built, Decidable (b.Readmits name)
  | .createUsrTable uname _ _ => inferInstanceAs (Decidable (uname = name))
  | .updateUserInfo _ key updated => inferInstanceAs (Decidable (key.1 = .userid ∧ updated = name))
  | .addItems .. | .updateItemsInfo .. | .deleteItem .. | .addImage .. | .updateItemImage ..
  | .deleteImage .. | .getImageForUpc .. | .logRpcCommand .. | .isLogged .. | .getUsrRole .. =>
    inferInstanceAs (Decidable False)

variable {y : Sys} {db : Db} {name : Str}

theorem not_logsIn_of_roleless {w : World} (hq : QuoteFree name) (h : Roleless w.srv.db name)
    (pass : Str) : ¬ LogsIn y w name pass := by
  intro hlogs
  obtain ⟨-, -, hne⟩ := (logsIn_iff hq).mp hlogs
  obtain ⟨r, hr, hrole⟩ := exists_of_roleOf_ne hne
  obtain ⟨hmem, hname, -⟩ := (mem_credentialRows y).mp hr
  have hnone := h r hmem hname
  rw [hrole] at hnone
  exact hne hnone

/-- A login on the server object, as it stands. -/
theorem logsIn_world {s : System} {pass : Str} {role : Int}
    (h : ((getUsrRole y name pass).run (s.world initDataRoot)).val = .ok role) (hrole : role ≠ -1) :
    LogsIn y (s.world initDataRoot) name pass := ⟨role, h, hrole⟩

theorem Roleless.of_eq {db' : Db} (h : Roleless db name) (heq : db' userTable = db userTable) :
    Roleless db' name := by
  unfold Roleless
  rw [heq]
  exact h

/-! ## Statements about users -/

theorem Roleless.createUsr {uname pass : Str} {role : Int} (h : Roleless db name)
    (hne : uname ≠ name) : Roleless
      (y.engine.execStmt catalog (Built.stmt y (.createUsrTable uname pass role)) db).db name := by
  rw [execStmt_createUsr]
  split
  · exact h
  · intro r hr hname
    simp only [Function.update_self] at hr
    rcases List.mem_append.mp hr with hr | hr
    · exact h r hr hname
    · rw [List.mem_singleton.mp hr, newUser_name] at hname
      exact absurd (Value.text.inj hname) hne

/-- The column of names is reached by the key `userid` alone, and holds texts. -/
theorem MappedKey.nameColumn {key : MappedKey} {col : Column}
    (hcol : userInformation.find key.column = some col) (hname : col.name = userNameCol) :
    key.1 = .userid ∧ col.aff = .text := by
  obtain ⟨k, hk⟩ := key
  have hdoc := find_mapped (k := k) (c := (getMapping (some k)).get hk) (Option.some_get hk).symm
  rw [show userInformation.find ((getMapping (some k)).get hk) = some col from hcol] at hdoc
  split at hdoc
  · cases hdoc
  · have hother : ∀ c ∈ [userPsswdCol, lit "IsLogged", privModeCol], c ≠ userNameCol := by decide
    cases k with
    | userid =>
      cases hdoc
      exact ⟨rfl, rfl⟩
    | userpass | userlogged | usermode =>
      cases hdoc
      exact absurd hname (hother _ (by decide))
    | _ => cases hdoc

theorem Roleless.updateUsr {qual updated : Str} {key : MappedKey} (h : Roleless db name)
    (hne : ¬ (key.1 = .userid ∧ updated = name)) : Roleless
      (y.engine.execStmt catalog (Built.stmt y (.updateUserInfo qual key updated)) db).db name := by
  rcases @Engine.execStmt_update y.engine catalog db userTable key.column
    (.str (storedValue y key updated)) (rowOf qual) with hdb | ⟨sch, col, hsch, hcol, hdb⟩
  · exact h.of_eq (congrFun hdb userTable)
  · obtain rfl : userInformation = sch := Option.some.inj hsch
    obtain ⟨-, hmode, -⟩ := key.userColumn hcol
    intro r hr hname
    have hr := (congrFun hdb userTable ▸ hr : r ∈ (Function.update db userTable _ userTable).rows)
    rw [Function.update_self] at hr
    obtain ⟨r₀, hr₀, rfl⟩ := List.mem_map.mp hr
    split at hname
    · -- the row that has been changed
      next hhit =>
      rw [if_pos hhit]
      have hrole : rowRole (Function.update r₀ col.name (y.engine.convert col.aff
          (Lit.str (storedValue y key updated)).value)) = rowRole r₀ :=
        congrArg (fun v : Value => v.render.map atoi) (Function.update_of_ne hmode.symm _ _)
      -- only a new name could bring the user back
      by_cases hcolName : col.name = userNameCol
      · obtain ⟨hkey, haff⟩ := key.nameColumn hcol hcolName
        have hstored : storedValue y key updated = updated := by
          unfold storedValue
          rw [hkey, if_neg (by decide)]
        rw [hcolName, Function.update_self, haff, hstored] at hname
        exact absurd ⟨hkey, Value.text.inj hname⟩ hne
      · rw [Function.update_of_ne (Ne.symm hcolName)] at hname
        exact (congrArg (Option.getD · (-1)) hrole).trans (h r₀ hr₀ hname)
    · next hmiss =>
      rw [if_neg hmiss]
      exact h r₀ hr₀ hname

/-- **Requests** that do not bring the user back. -/
theorem Roleless.request (hchild : ChildrenKeep y userTable) {r : Request} {w : World}
    (hplain : r.Plain w.sess.ops) (hne : ∀ l, r = .db l → ∀ b ∈ l.built, ¬ b.Readmits name)
    (h : Roleless w.srv.db name) : Roleless ((r.prog y).run w).state.srv.db name := by
  rcases Request.table_cases hchild (by decide) hplain with hdb | ⟨l, rfl, -, b, hb, ht, hdb⟩
  · exact h.of_eq hdb
  · have hback := hne l rfl b hb
    rw [hdb]
    cases l with
    | creatUsr uname pass mode =>
      cases hb
      exact h.createUsr hback
    | _ =>
      obtain ⟨qual, key, updated, rfl⟩ := DbLeaf.updates_users (by exact nofun) hb ht
      exact h.updateUsr hback

/-! ## Logins -/

theorem dbKept_isLogged (hq : QuoteFree name) : Always (isLogged y (some name)) DbKept := by
  refine @dbKept_of_executes y _ _ (isLoggedSql name) (fun db => ?_) ?_
  · have hexec := (Built.isLogged name).exec_eq y (by simpa [Built.asGiven] using hq)
      (fun _ => nofun) db
    exact (congrArg Result.db hexec).trans Engine.execStmt_select_db
  · exact executes_sprintfInto (executes_before (executes_sqlite3Exec _ _)
      fun _ => dbKept_reply.pure _)

theorem dbKept_getUsrRole (hq : QuoteFree name) (pass : Str) :
    Always (getUsrRole y name pass) DbKept := by
  refine @dbKept_of_executes y _ _ (getUsrRoleSql name (y.hash pass)) (fun db => ?_) ?_
  · rw [exec_getUsrRole y hq]
  · refine executes_after (dbKept_reply.session.computeHash y _) fun a w ha => ?_
    rw [computeHash_val y ha]
    exact executes_sprintfInto (executes_before (executes_sqlite3Exec _ _)
      fun _ => dbKept_reply.pure _)

/-- The two halves of a login, for a name without a quote. -/
theorem dbKept_authNamed (hq : QuoteFree name) (pass : Str) (isOpen : Bool) :
    Always (authNamed y name pass >>= authRole y isOpen) DbKept := by
  have hkept := dbKept_reply
  unfold authNamed
  rw [Prog.bind_assoc]
  refine hkept.bind (dbKept_isLogged hq) fun logBit => ?_
  split
  · rw [Prog.pure_bind]
    refine hkept.bind ?_ fun _ => hkept.pure _
    unfold getUserMode
    split
    · exact dbKept_getUsrRole hq pass
    · exact hkept.pure _
  · rw [Prog.pure_bind]
    exact hkept.pure _

/-- **A login** changes no table, for a name without a quote. -/
theorem System.authRun_db (s : System) {buf : Str}
    (hbuf : ∀ id pass, authMessage buf = .named id pass → QuoteFree (removeEscape id)) :
    (s.authRun y buf).state.srv.db = s.srv.db := by
  obtain ⟨saved, hparse⟩ := authParse_run y buf (s.world initDataRoot)
  have hrun : s.authRun y buf = ((authMessage buf).prog y >>= authRole y s.isOpen).run
      { s.world initDataRoot with saved } := by
    unfold System.authRun
    rw [authParse_eq, run_bind, run_bind, hparse]
  rw [hrun]
  cases hmsg : authMessage buf with
  | ignored => rfl
  | noToken => rfl
  | named id pass => exact dbKept_authNamed (hbuf id pass hmsg) _ _ _ trivial

/-! ## Runs -/

/-- **What a step does to the tables.** -/
theorem step_db {s s' : System} {a : Action} (h : step y s a = some s') :
    s'.srv.db = s.srv.db ∨
      (∃ cmd k c, a = .command cmd ∧ s.serving = .serving k ∧ s.clients[k]? = some c ∧
        s'.srv = ((processCmd y cmd).run (s.world c.sess)).state.srv) ∨
      ∃ buf, a = .authenticate buf ∧ s'.srv = (s.authRun y buf).state.srv := by
  cases a with
  | connect p =>
    obtain ⟨-, -, rfl⟩ := System.connect_some h
    exact .inl rfl
  | check =>
    obtain ⟨p, -, ⟨-, rfl⟩ | ⟨-, rfl⟩⟩ := System.check_some h
    · exact .inl rfl
    · exact .inl rfl
  | join =>
    obtain ⟨p, -, -, rfl⟩ := System.join_some h
    exact .inl rfl
  | authenticate buf =>
    obtain ⟨p, logBit, -, ⟨mode, sess, -, -, rfl⟩ | ⟨-, rfl⟩⟩ := System.authenticate_some h
    · exact .inr (.inr ⟨buf, rfl, rfl⟩)
    · exact .inr (.inr ⟨buf, rfl, rfl⟩)
  | insert =>
    obtain ⟨c, -, rfl⟩ := System.insert_some h
    exact .inl rfl
  | setRun =>
    obtain ⟨-, rfl⟩ := System.setRun_some h
    exact .inl rfl
  | leaveLoop =>
    obtain ⟨-, -, rfl⟩ := System.leaveLoop_some h
    exact .inl rfl
  | visit k =>
    obtain ⟨c, -, -, -, rfl⟩ := System.visit_some h
    exact .inl rfl
  | command cmd =>
    obtain ⟨k, c, hserving, hc, -, rfl⟩ := System.command_some h
    exact .inr (.inl ⟨cmd, k, c, rfl, hserving, hc, (System.processed y s k c cmd).srv⟩)
  | disconnect =>
    obtain ⟨k, -, rfl⟩ := System.disconnect_some h
    exact .inl rfl
  | timeout =>
    obtain ⟨k, -, rfl⟩ := System.timeout_some h
    exact .inl rfl
  | stop =>
    obtain ⟨-, -, rfl⟩ := System.stop_some h
    exact .inl rfl
  | down =>
    cases h
    exact .inl rfl

/-- A step that does not bring the user back, and puts no quote into a text. -/
def StaysAway (name : Str) (s : System) : Action → Prop
  | .command cmd => ∀ k c, s.serving = .serving k → s.clients[k]? = some c →
      (parseRequest cmd).Plain c.sess.ops ∧
        ∀ l, parseRequest cmd = .db l → ∀ b ∈ l.built, ¬ b.Readmits name
  | .authenticate buf => ∀ id pass, authMessage buf = .named id pass → QuoteFree (removeEscape id)
  | _ => True

/-- **One step** leaves a user without a role. -/
theorem Roleless.step (hchild : ChildrenKeep y userTable) {s s' : System} {a : Action}
    (hs : Roleless s.srv.db name) (ha : StaysAway name s a) (h : step y s a = some s') :
    Roleless s'.srv.db name := by
  rcases step_db h with hdb | ⟨cmd, k, c, rfl, hserving, hc, hsrv⟩ | ⟨buf, rfl, hsrv⟩
  · rwa [hdb]
  · obtain ⟨hplain, hne⟩ := ha k c hserving hc
    obtain ⟨saved, hrun⟩ := processCmd_run y cmd (s.world c.sess)
    rw [hsrv, hrun]
    exact Roleless.request hchild hplain hne hs
  · rw [hsrv, s.authRun_db ha]
    exact hs

/-- `db,del,user` changes no table. -/
theorem step_deleteUser {s s' : System} {cmd : Str} {id pass : Option Str}
    (hcmd : parseRequest cmd = .db (.dltUsr id pass)) (h : step y s (.command cmd) = some s') :
    s'.srv.db = s.srv.db := by
  rcases step_db h with hdb | ⟨_, k, c, heq, -, -, hsrv⟩ | ⟨_, hbuf, -⟩
  · exact hdb
  · cases heq
    obtain ⟨saved, hrun⟩ := processCmd_run y cmd (s.world c.sess)
    rw [hsrv, hrun, hcmd]
    rcases DbLeaf.executes_prog y (.dltUsr id pass) { s.world c.sess with saved } trivial with
      hdb | ⟨_, hnone, -⟩
    · exact hdb
    · cases hnone
  · cases hbuf

/-- **A deleted user stays out**, if it had no role to begin with: no password gets a role
under the name in any state behind the command, as long as no step brings the name back. -/
theorem stays_deleted (hchild : ChildrenKeep y userTable) {s₀ s₁ : System} {cmd : Str}
    {pass : Option Str} {acts : List Action}
    (hcmd : parseRequest cmd = .db (.dltUsr (some name) pass))
    (hdel : step y s₀ (.command cmd) = some s₁) (hq : QuoteFree name)
    (hroleless : Roleless s₀.srv.db name) (hacts : AllSteps (step y) (StaysAway name) s₁ acts) :
    EveryState (step y) (fun s => ∀ pass, ¬ LogsIn y (s.world initDataRoot) name pass) s₁ acts := by
  have hs₁ : Roleless s₁.srv.db name := by
    rw [step_deleteUser hcmd hdel]
    exact hroleless
  have hevery := EveryState.of_allSteps (P := fun s : System => Roleless s.srv.db name)
    (fun _ _ _ hs ha hstep => hs.step hchild ha hstep) hs₁ hacts
  exact hevery.mono fun s hs => not_logsIn_of_roleless (w := s.world initDataRoot) hq hs

/-- `admin` is logged in and being served. -/
def rootServed : Option System := rootServer.bind fun s => s.visit 0

/-- `bob`, whom nobody has added, is deleted, and `admin` logs in once more. -/
theorem stays_deleted_bob : ∃ s₀ s₁, rootServed = some s₀ ∧
    step quietSys s₀ (.command (lit "db,del,user,bob,<$#EOT#$>")) = some s₁ ∧
      EveryState (step quietSys)
        (fun s => ∀ pass, ¬ LogsIn quietSys (s.world initDataRoot) (lit "bob") pass) s₁
        (login localClient (lit "auth,admin,admin")) := by
  have hexists : (rootServed.bind fun s₀ =>
      (step quietSys s₀ (.command (lit "db,del,user,bob,<$#EOT#$>"))).map fun _ =>
        decide (Roleless s₀.srv.db (lit "bob"))) = some true := by decide +kernel
  obtain ⟨s₀, hs₀, hnext⟩ := Option.bind_eq_some_iff.mp hexists
  obtain ⟨s₁, hs₁, hroleless⟩ := Option.map_eq_some_iff.mp hnext
  have hmsg : authMessage (lit "auth,admin,admin") = .named (lit "admin") (lit "admin") := by
    decide +kernel
  refine ⟨s₀, s₁, hs₀, hs₁, stays_deleted (fun _ _ _ => rfl)
    (show parseRequest _ = .db (.dltUsr (some (lit "bob")) (some marker)) by decide +kernel) hs₁
    (by decide) (of_decide_eq_true hroleless) fun _ _ => ⟨trivial, fun _ _ => ⟨trivial, fun _ _ =>
      ⟨?_, fun _ _ => ⟨trivial, fun _ _ => ⟨trivial, trivial⟩⟩⟩⟩⟩⟩
  intro id pass h
  obtain ⟨rfl, rfl⟩ := AuthMessage.named.inj (hmsg.symm.trans h)
  decide

/-- `admin` is deleted, and logs in with the old password. -/
theorem not_deleted :
    ¬ ∀ (y : Sys) (s₀ s₁ s₂ : System) (k : Nat) (c : Client) (cmd name : Str) (p : Option Str)
      (acts : List Action), ChildrenKeep y userTable → s₀.serving = .serving k →
      s₀.clients[k]? = some c → c.sess.mode = rootUsr →
      parseRequest cmd = .db (.dltUsr (some name) p) → QuoteFree name →
      step y s₀ (.command cmd) = some s₁ →
      Answered (lit "resp,ok") ((processCmd y cmd).run (s₀.world c.sess)).out →
      AllSteps (step y) (StaysAway name) s₁ acts → run y s₁ acts = some s₂ →
      ∀ pass, ¬ LogsIn y (s₂.world initDataRoot) name pass := by
  intro h
  have hexists : (rootServed.bind fun s₀ => s₀.clients[0]?.bind fun c =>
      (step quietSys s₀ (.command (lit "db,del,user,admin,<$#EOT#$>"))).map fun s₁ =>
        (decide (s₀.serving = .serving 0), c.sess.mode, decide (Answered (lit "resp,ok")
          ((processCmd quietSys (lit "db,del,user,admin,<$#EOT#$>")).run (s₀.world c.sess)).out),
          ((getUsrRole quietSys (lit "admin") (lit "admin")).run (s₁.world initDataRoot)).val))
      = some (true, rootUsr, true, .ok 0) := by decide +kernel
  obtain ⟨s₀, hs₀, hnext⟩ := Option.bind_eq_some_iff.mp hexists
  obtain ⟨c, hc, hnext⟩ := Option.bind_eq_some_iff.mp hnext
  obtain ⟨s₁, hs₁, hvals⟩ := Option.map_eq_some_iff.mp hnext
  simp only [Prod.mk.injEq, decide_eq_true_eq] at hvals
  obtain ⟨hserving, hmode, hok, hrole⟩ := hvals
  refine h quietSys s₀ s₁ s₁ 0 c (lit "db,del,user,admin,<$#EOT#$>") (lit "admin") (some marker) []
    (fun _ _ _ => rfl) hserving hc hmode (by decide +kernel) (by decide) hs₁ hok trivial rfl
    (lit "admin") (logsIn_world hrole (by decide))

end Thor
