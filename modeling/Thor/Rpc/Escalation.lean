import Thor.CLib.Steps
import Thor.Database.Credentials
import Thor.Rpc.Texts

/-!
# No ROOT without ROOT

What the commands of clients without the role ROOT can do about the pairs that log in as
ROOT.

- `Request.Tame`: no field that goes into a text as it came has a quote, and the name and
  the password of a user with a ROOT row are not updated.
- `noEscalation`: in a run of tame commands of clients without the role no pair becomes a
  ROOT pair. The pointer to `__update_user_info` that the template of `ELVT_USR` sets is
  why tameness has to be asked for.
-/

namespace Thor

open CLib Sql Prog

variable (y : Sys)

/-! ## Tame requests -/

/-- A text without quotes in its fields that does not change the name or the password of a
user with a ROOT row. -/
def Built.Tame (db : Db) (b : Built) : Prop :=
  (∀ f ∈ b.asGiven, QuoteFree f) ∧
    match b with
    | updateUserInfo qual key _ => key.1 = .userid ∨ key.1 = .userpass → Spares qual db
    | _ => True

/-- The texts a request builds, when its pointer is set, are tame. -/
def Request.Tame (now : Db) (ops : Op → Bool) : Request → Prop
  | db leaf => ops leaf.op = true → ∀ b ∈ leaf.built, b.Tame now
  | logCmd process latlong txId command =>
    ∀ f ∈ [fmtS process, latlong, fmtS txId, fmtS command], QuoteFree f
  | cliNode process latlong txId command =>
    ∀ f ∈ [fmtS process, latlong, fmtS txId, command], QuoteFree f
  | _ => True

instance (qual : Str) (db : Db) : Decidable (Spares qual db) :=
  inferInstanceAs (Decidable (∀ r ∈ (db userTable).rows, r userNameCol = .text qual →
    isRootRow r = false))

instance (db : Db) (b : Built) : Decidable (b.Tame db) := by
  unfold Built.Tame QuoteFree
  cases b <;> infer_instance

/-- Child processes leave the users table alone. -/
def ChildrenKeepUsers : Prop := ∀ t line db, (y.popen t line db).2 userTable = db userTable

/-- No pair has become a ROOT pair. -/
def NoneRaised (w : World) (_ : List Event) (w' : World) : Prop :=
  Unraised y w.srv.db w'.srv.db

variable {y}

theorem Request.Tame.plain {now : Db} {ops : Op → Bool} {r : Request} (h : r.Tame now ops) :
    r.Plain ops := by
  cases r with
  | db leaf => exact fun hset b hb => (h hset b hb).1
  | logCmd | cliNode => exact h
  | _ => trivial

/-- The statements on users of the leaves other than `db,add,user`. -/
theorem DbLeaf.updates_users {l : DbLeaf} (hop : l.op ≠ .creatUsr) {b : Built} (hb : b ∈ l.built)
    (ht : (b.stmt y).table = userTable) : ∃ qual key updated, b = .updateUserInfo qual key updated := by
  have hitems : itemTable ≠ userTable := by decide
  have himages : imagesTable ≠ userTable := by decide
  cases l with
  | creatUsr => exact absurd rfl hop
  | addItem | dltItem =>
    cases hb
    exact absurd ht hitems
  | addImage | deleteImage | getImage =>
    cases hb
    exact absurd ht himages
  | updateItem =>
    obtain ⟨k, -, rfl⟩ := Option.map_eq_some_iff.mp hb
    exact absurd ht hitems
  | updateImage =>
    obtain ⟨k, -, rfl⟩ := Option.map_eq_some_iff.mp hb
    exact absurd ht himages
  | updateUsr =>
    obtain ⟨k, -, rfl⟩ := Option.map_eq_some_iff.mp hb
    exact ⟨_, _, _, rfl⟩
  | dltUsr | getAllItems | getAllUsers | getAllImages => cases hb

/-! ## Clients without the role ROOT -/

/-- A session with the pointers that `__mknod` gives a client without the role ROOT. -/
def IsClient (s : Session) : Prop :=
  ∃ role uid s₀, (role = dflUsr ∨ role = elvtUsr) ∧ mknod role uid = some s₀ ∧ s.ops = s₀.ops

/-- Such a client creates no users. -/
theorem IsClient.creatUsr {s : Session} (h : IsClient s) : s.ops .creatUsr = false := by
  obtain ⟨role, uid, s₀, hrole, hmk, hops⟩ := h
  rw [hops]
  rcases mknod_cases hmk with ⟨-, rfl⟩ | ⟨-, rfl⟩ | ⟨rfl, -⟩
  · rfl
  · rfl
  · exact absurd hrole (by decide)

/-- **A tame request of such a client raises no pair.** -/
theorem noneRaised_prog (hchild : ChildrenKeepUsers y) {r : Request} {w : World}
    (hclient : IsClient w.sess) (htame : r.Tame w.srv.db w.sess.ops) :
    NoneRaised y w ((r.prog y).run w).out ((r.prog y).run w).state := by
  unfold NoneRaised
  rcases Request.table_cases (t := userTable) hchild (by decide) htame.plain with
    h | ⟨leaf, rfl, hset, b, hb, ht, h⟩
  · exact .of_eq h
  -- only an update of a user is left, since the session has no pointer to create one
  · have hop : leaf.op ≠ .creatUsr := by
      intro heq
      rw [heq, hclient.creatUsr] at hset
      cases hset
    obtain ⟨qual, key, updated, rfl⟩ := DbLeaf.updates_users hop hb ht
    rw [h]
    exact unraised_updateUserInfo (htame hset _ hb).2

/-! ## Runs -/

variable (y)

/-- A command processed in a session, with whatever the commands before have left in it. -/
def processed (w : World) (c : Session × Str) : Option World :=
  some ((processCmd y c.2).run { w with sess := c.1 }).state

/-- `__get_usr_role` of the server object returns `ROOT_USR`. -/
def LogsInAsRoot (w : World) (name pass : Str) : Prop :=
  ((getUsrRole y name pass).run { w with sess := initDataRoot }).val = .ok rootUsr

instance (w : World) (name pass : Str) : Decidable (LogsInAsRoot y w name pass) :=
  inferInstanceAs (Decidable (_ = _))

/-- A tame command of a client without the role ROOT. -/
def TameStep (w : World) (c : Session × Str) : Prop :=
  IsClient c.1 ∧ (parseRequest c.2).Tame w.srv.db c.1.ops

variable {y}

theorem unraised_processed (hchild : ChildrenKeepUsers y) {w w' : World} {c : Session × Str}
    (hstep : TameStep w c) (h : processed y w c = some w') :
    Unraised y w.srv.db w'.srv.db := by
  obtain ⟨hclient, htame⟩ := hstep
  obtain ⟨saved, hrun⟩ := processCmd_run y c.2 { w with sess := c.1 }
  obtain rfl := Option.some.inj h
  rw [hrun]
  exact noneRaised_prog hchild (w := { w with saved, sess := c.1 }) hclient htame

/-- The login query, as a statement about the table. -/
theorem rootPair_of_logsIn {w : World} {name pass : Str} (hq : QuoteFree name)
    (h : LogsInAsRoot y w name pass) :
    (getUsrRoleSql name (y.hash pass)).length < 256 ∧ RootPair y w.srv.db name (y.hash pass) := by
  unfold LogsInAsRoot at h
  rw [getUsrRole_run y hq, if_neg (show ¬ initDataRoot.ops .hash = false by decide)] at h
  split at h
  · cases h
  · next hlen =>
    refine ⟨Nat.not_le.mp hlen, ?_⟩
    split at h
    · cases h
    · exact Except.ok.inj h

theorem logsIn_of_rootPair {w : World} {name pass : Str} (hq : QuoteFree name)
    (hfault : y.fault w.tick = none) (hlen : (getUsrRoleSql name (y.hash pass)).length < 256)
    (h : RootPair y w.srv.db name (y.hash pass)) : LogsInAsRoot y w name pass := by
  unfold LogsInAsRoot
  rw [getUsrRole_run y hq, if_neg (show ¬ initDataRoot.ops .hash = false by decide),
    if_neg (Nat.not_le.mpr hlen), hfault]
  exact congrArg Except.ok h

/-- **No escalation.** After a run of tame commands of clients without the role ROOT, only
those log in as ROOT who did before. -/
theorem noEscalation (hchild : ChildrenKeepUsers y) {w w' : World} {cs : List (Session × Str)}
    (hkeyed : Keyed w.srv.db) (htame : AllSteps (processed y) TameStep w cs)
    (hrun : runSteps (processed y) w cs = some w') {name pass : Str} (hq : QuoteFree name)
    (hfault : y.fault w.tick = none) (hroot : LogsInAsRoot y w' name pass) :
    LogsInAsRoot y w name pass := by
  have hevery : EveryState (processed y) (fun t => Unraised y w.srv.db t.srv.db) w cs :=
    EveryState.of_allSteps (fun _ _ _ ht hc hstep => ht.trans (unraised_processed hchild hc hstep))
      (.of_eq rfl) htame
  obtain ⟨hlen, hpair⟩ := rootPair_of_logsIn hq hroot
  obtain ⟨-, hpairs⟩ := hevery.last hrun hkeyed
  exact logsIn_of_rootPair hq hfault hlen (hpairs name (y.hash pass) hpair)

/-! ## Two commands of an elevated user -/

/-- The users `admin` and `bob`, who has the role `DFL_USR`. -/
def adminAndBob : World :=
  .before initDataRoot (usersDb [adminRow, userRow 2 (lit "bob") (md5 (lit "bob")) dflUsr 1])

/-- The session of an elevated user. -/
def elvtSession : Session := { initDataElvt with uid := 1 }

theorem isClient_elvtSession : IsClient elvtSession := ⟨elvtUsr, 0, _, .inr rfl, rfl, rfl⟩

/-- `bob` gets a new password, and `admin` stays the one who logs in as ROOT. -/
theorem noEscalation_bob : LogsInAsRoot quietSys adminAndBob (lit "admin") (lit "admin") := by
  have hreq : parseRequest (lit "db,update,user,bob,userpass,x,<$#EOT#$>") = .db (.updateUsr
      (some (lit "bob")) (some (lit "userpass")) (some (lit "x"))) := by decide +kernel
  have htame : TameStep adminAndBob (elvtSession, lit "db,update,user,bob,userpass,x,<$#EOT#$>") := by
    refine ⟨isClient_elvtSession, ?_⟩
    rw [hreq]
    intro _
    decide +kernel
  exact @noEscalation quietSys (fun _ _ _ => rfl) adminAndBob _
    [(elvtSession, lit "db,update,user,bob,userpass,x,<$#EOT#$>")] (by decide +kernel)
    (fun _ _ => ⟨htame, trivial⟩) rfl (lit "admin") (lit "admin") (by decide) rfl
    (by decide +kernel)

/-- `admin` gets a new password, and whoever knows it logs in as ROOT. -/
theorem not_noEscalation :
    ¬ ∀ (y : Sys) (w w' : World) (cs : List (Session × Str)), ChildrenKeepUsers y →
      Keyed w.srv.db → (∀ c ∈ cs, IsClient c.1) → runSteps (processed y) w cs = some w' →
      (∀ t, y.fault t = none) → ∀ name pass, QuoteFree name → LogsInAsRoot y w' name pass →
        LogsInAsRoot y w name pass := by
  intro h
  have hbefore : ¬ LogsInAsRoot quietSys adminAndBob (lit "admin") (lit "x") := by decide +kernel
  exact hbefore (h quietSys adminAndBob _
    [(elvtSession, lit "db,update,user,admin,userpass,x,<$#EOT#$>")] (fun _ _ _ => rfl)
    (by decide +kernel) (fun c hc => by rw [List.mem_singleton.mp hc]; exact isClient_elvtSession)
    rfl (fun _ => rfl) (lit "admin") (lit "x") (by decide) (by decide +kernel))

end Thor
