import Thor.Database.Templates

/-!
# The query behind a login

`__get_usr_role` as a function of the users table. For a name without a quote the
text it builds is one query with two conditions, and the result is the role in
the last of the rows that meet both (`getUsrRole_run`): such a result is backed
by a row (`getUsrRole_sound`).
-/

namespace Thor

open CLib Sql Prog

variable (y : Sys)

/-- A text of a template, its fields without quotes, has the template's tokens. -/
theorem Built.tokenize_eq {b : Built} (h : ∀ f ∈ b.asGiven, QuoteFree f) :
    tokenize (b.text y) = b.template.toks (b.literals y) := by
  rw [b.text_eq]
  exact (b.template.tokenize_fill_iff (b.length_literals y)).mpr
    ((b.quoteFree_literals_iff y).mpr h)

/-! ## The query -/

def getUsrRoleStmt (name pswd : Str) : Stmt :=
  .select (some [privModeCol]) userTable
    (.and (.eq (.col userNameCol) (.lit (.str name))) (.eq (.col userPsswdCol) (.lit (.str pswd))))

theorem parse_getUsrRole (name pswd : Str) :
    parse (getUsrRoleTemplate.toks [name, pswd]) = some [getUsrRoleStmt name pswd] := rfl

theorem check_getUsrRole (name pswd : Str) :
    checkStmt catalog (getUsrRoleStmt name pswd) = .ok := rfl

/-- The row holds this name and this hash. -/
def holds (name pswd : Str) (r : Row) : Bool :=
  decide (r userNameCol = .text name ∧ r userPsswdCol = .text pswd)

/-- The rows the query shows, in the order it visits them. -/
def credentialRows (db : Db) (name pswd : Str) : List Row :=
  y.engine.scan userInformation (getUsrRoleStmt name pswd)
    ((db userTable).rows.filter (holds name pswd))

theorem hits_getUsrRole {db : Db} {name pswd : Str} :
    y.engine.hits catalog db userInformation
      (.and (.eq (.col userNameCol) (.lit (.str name))) (.eq (.col userPsswdCol) (.lit (.str pswd))))
      = holds name pswd := by
  funext r
  have hname : y.engine.hits catalog db userInformation (.eq (.col userNameCol) (.lit (.str name))) r
      = true ↔ r (textColumn "UserName").name = .text name := Engine.hits_text rfl rfl
  have hpswd : y.engine.hits catalog db userInformation
      (.eq (.col userPsswdCol) (.lit (.str pswd))) r = true ↔
        r (textColumn "UserPsswd").name = .text pswd := Engine.hits_text rfl rfl
  rw [Engine.hits_and, Bool.eq_iff_iff, Bool.and_eq_true, hname, hpswd, holds,
    decide_eq_true_iff]
  rfl

/-- A role as the callback reads it. -/
def rowRole (r : Row) : Option Int := (r privModeCol).render.map atoi

/-- The role in the last row that has one. -/
def roleOf (rows : List Row) : Int := rows.foldl (fun m r => (rowRole r).getD m) (-1)

theorem exec_getUsrRole {name pass : Str} (hq : QuoteFree name) (db : Db) :
    y.engine.exec catalog (getUsrRoleSql name (y.hash pass)) db =
      ⟨db, (credentialRows y db name (y.hash pass)).map
        fun r => [(privModeCol, (r privModeCol).render)], none⟩ := by
  have htok : tokenize (getUsrRoleSql name (y.hash pass))
      = getUsrRoleTemplate.toks [name, y.hash pass] :=
    Built.tokenize_eq y (b := .getUsrRole name pass) (by simpa [Built.asGiven] using hq)
  have hcheck := check_getUsrRole name (y.hash pass)
  rw [Engine.exec_of_parse (by rw [htok, parse_getUsrRole]) (by rw [hcheck]; decide)]
  unfold Engine.execStmt
  rw [hcheck]
  show Engine.effect y.engine catalog db userInformation (getUsrRoleStmt name (y.hash pass)) = _
  rw [getUsrRoleStmt, Engine.effect, hits_getUsrRole]
  rfl

theorem foldl_lastInt (c : Str) : ∀ (rows : List Row) (m : Int),
    (rows.map fun r => [(c, (r c).render)]).foldl lastInt m
      = rows.foldl (fun m r => ((r c).render.map atoi).getD m) m
  | [], _ => rfl
  | _ :: rows, _ => foldl_lastInt c rows _

/-- **The login query.** -/
theorem getUsrRole_run {name pass : Str} (hq : QuoteFree name) (w : World) :
    ((getUsrRole y name pass).run w).val =
      if w.sess.ops .hash = false then .error .unsetPointer
      else if 256 ≤ (getUsrRoleSql name (y.hash pass)).length then .error .overflow
      else .ok (if (y.fault w.tick).isSome then -1
        else roleOf (credentialRows y w.srv.db name (y.hash pass))) := by
  unfold getUsrRole
  cases hset : w.sess.ops .hash with
  | false => simp [run_bind, computeHash, run_callPtr, hset]
  | true =>
    by_cases hlen : 256 ≤ (getUsrRoleSql name (y.hash pass)).length
    · simp [run_bind, computeHash, run_callPtr, hset, hlen, Nat.not_lt.mpr hlen]
    · have hexec := congrArg Outcome.val
        (run_sqlite3Exec y (getUsrRoleSql name (y.hash pass)) lastInt (-1) w)
      rw [exec_getUsrRole y hq] at hexec
      simp only [run_bind, computeHash, run_callPtr, hset, run_deref_some, run_pure,
        run_sprintfInto, Nat.not_le.mp hlen, if_true, hexec, hlen, if_false]
      cases y.fault w.tick with
      | some flt => rfl
      | none => exact congrArg Except.ok (foldl_lastInt privModeCol _ _)

/-! ## Soundness -/

theorem roleOf_append_singleton (rows : List Row) (r : Row) :
    roleOf (rows ++ [r]) = (rowRole r).getD (roleOf rows) := by
  simp [roleOf, List.foldl_append]

/-- A role other than `-1` stands in one of the rows. -/
theorem exists_of_roleOf_ne {rows : List Row} (h : roleOf rows ≠ -1) :
    ∃ r ∈ rows, rowRole r = some (roleOf rows) := by
  induction rows using List.reverseRecOn with
  | nil => exact absurd rfl h
  | append_singleton rows r ih =>
    rw [roleOf_append_singleton] at h ⊢
    cases hr : rowRole r with
    | some m => exact ⟨r, by simp, hr⟩
    | none =>
      rw [hr] at h
      obtain ⟨r', hmem, hr'⟩ := ih h
      exact ⟨r', List.mem_append_left _ hmem, hr'⟩

theorem mem_credentialRows {db : Db} {name pswd : Str} {r : Row} :
    r ∈ credentialRows y db name pswd ↔
      r ∈ (db userTable).rows ∧ r userNameCol = .text name ∧ r userPsswdCol = .text pswd := by
  rw [credentialRows, (y.engine.scan_perm ..).mem_iff, List.mem_filter, holds, decide_eq_true_iff]

/-- The roles of the rows with this name and hash are integers in the range of an `int`. -/
def RolesAreInts (rows : List Row) (name pswd : Str) : Prop :=
  ∀ r ∈ rows, holds name pswd r = true → ∃ i, r privModeCol = .int i ∧ IsInt32 i

/-- **A login is backed by a row**, for a name without a quote and roles that are
integers. -/
theorem getUsrRole_sound {name pass : Str} {w : World} {r : Int} (hq : QuoteFree name)
    (hroles : RolesAreInts (w.srv.db userTable).rows name (y.hash pass))
    (h : ((getUsrRole y name pass).run w).val = .ok r) (hr : r ≠ -1) :
    ∃ row ∈ (w.srv.db userTable).rows, row userNameCol = .text name ∧
      row userPsswdCol = .text (y.hash pass) ∧ row privModeCol = .int r := by
  rw [getUsrRole_run y hq] at h
  split at h
  · cases h
  · split at h
    · cases h
    · split at h
      · cases h
        exact absurd rfl hr
      · obtain rfl := Except.ok.inj h
        obtain ⟨row, hmem, hrole⟩ := exists_of_roleOf_ne hr
        obtain ⟨hrow, hname, hpswd⟩ := (mem_credentialRows y).mp hmem
        obtain ⟨i, hi, hrange⟩ := hroles row hrow (by simp [holds, hname, hpswd])
        refine ⟨row, hrow, hname, hpswd, ?_⟩
        rw [rowRole, hi, Value.render, Option.map_some, atoi_fmtD hrange] at hrole
        rw [hi, Option.some.inj hrole]

end Thor
