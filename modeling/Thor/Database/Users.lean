import Thor.Database.Updates

/-!
# Users as rows

What `__create_usr_table` and `__update_user_info` do to the users table.

- `execStmt_createUsr`: a row of its own for each name and role.
- `execStmt_updateUsr`: one row of the name is changed, whatever the number of its rows.
- `updatesAsNamed_iff`: which of the documented keys of `__update_user_info` work, for a
  name with a single row.
-/

namespace Thor

open CLib Sql Prog

variable (y : Sys)

/-! ## New users -/

/-- The row that `__create_usr_table` makes. -/
def newUser (key : Int) (name pass : Str) (role : Int) : Row :=
  y.engine.newRow userInformation key
    [userNameCol, userPsswdCol, privModeCol, lit "IsLogged", lit "AdditionalInfo"]
    [.str name, .str (y.hash pass), .int role, .int 1, .str []]

section NewUser

variable (key role : Int) (name pass : Str)

@[simp] theorem newUser_name : newUser y key name pass role userNameCol = .text name := rfl

@[simp] theorem newUser_psswd : newUser y key name pass role userPsswdCol = .text (y.hash pass) := rfl

@[simp] theorem newUser_mode : newUser y key name pass role privModeCol = .int role := rfl

@[simp] theorem newUser_id : newUser y key name pass role idCol = .int key := rfl

theorem newUser_lacks : userInformation.lacks (newUser y key name pass role) = false := rfl

end NewUser

/-- The name has a row of this role. -/
def HasAccount (db : Db) (name : Str) (role : Int) : Prop :=
  ∃ r ∈ (db userTable).rows, r userNameCol = .text name ∧ r privModeCol = .int role

instance (db : Db) (name : Str) (role : Int) : Decidable (HasAccount db name role) :=
  inferInstanceAs (Decidable (∃ r ∈ (db userTable).rows, _))

/-- The constraint of the users table, for a row with a name and a role. -/
theorem clash_user {r r' : Row} {name : Str} {role : Int} (hname : r userNameCol = .text name)
    (hmode : r privModeCol = .int role) :
    userInformation.clash r r' = true ↔ r' userNameCol = .text name ∧ r' privModeCol = .int role := by
  show (([[userNameCol, privModeCol]] : List (List Str)).any fun u => u.all fun c =>
    decide (r c ≠ .null ∧ r c = r' c)) = true ↔ _
  simp only [List.any_cons, List.any_nil, List.all_cons, List.all_nil, Bool.or_false, Bool.and_true,
    Bool.and_eq_true, decide_eq_true_iff, hname, hmode]
  constructor
  · rintro ⟨⟨-, hn⟩, -, hm⟩
    exact ⟨hn.symm, hm.symm⟩
  · rintro ⟨hn, hm⟩
    exact ⟨⟨Value.noConfusion, hn.symm⟩, Value.noConfusion, hm.symm⟩

variable {y} {db : Db}

/-- **A user is created** unless the name has the role already. -/
theorem execStmt_createUsr (name pass : Str) (role : Int) :
    y.engine.execStmt catalog (Built.stmt y (.createUsrTable name pass role)) db =
      if HasAccount db name role then ⟨db, [], some uniqueFailed⟩
      else ⟨Function.update db userTable
        ⟨(db userTable).rows ++ [newUser y ((db userTable).nextKey idCol) name pass role],
          (db userTable).nextKey idCol⟩, [], none⟩ := by
  have hclash : (db userTable).rows.any (userInformation.clash
      (newUser y ((db userTable).nextKey idCol) name pass role)) = true
        ↔ HasAccount db name role := by
    rw [List.any_eq_true]
    exact exists_congr fun r => and_congr_right fun _ =>
      clash_user (newUser_name ..) (newUser_mode ..)
  have hinsert := @Engine.execStmt_insert y.engine catalog db userInformation userTable
    [userNameCol, userPsswdCol, privModeCol, lit "IsLogged", lit "AdditionalInfo"]
    [.str name, .str (y.hash pass), .int role, .int 1, .str []] rfl rfl (newUser_lacks ..)
  refine hinsert.trans ?_
  by_cases h : HasAccount db name role
  · rw [if_pos h]
    exact if_pos (hclash.mpr h)
  · rw [if_neg h]
    exact if_neg fun hany => h (hclash.mp hany)

/-- `__create_usr_table`, with room for its text. -/
theorem run_createUsrTable {w : World} {name pass : Str} {role : Int}
    (hhash : w.sess.ops .hash = true) (hq : QuoteFree name) (hrole : IsInt32 role)
    (hlen : (createUsrTableSql name (y.hash pass) role).length < 256)
    (hfault : y.fault w.tick = none) :
    ((createUsrTable y (some name) (some pass) role).run w).val
        = .ok (if HasAccount w.srv.db name role then -1 else 0) ∧
      ((createUsrTable y (some name) (some pass) role).run w).state.srv = { w.srv with
        db := (y.engine.execStmt catalog (Built.stmt y (.createUsrTable name pass role))
          w.srv.db).db } := by
  have hexec : y.engine.exec catalog (createUsrTableSql name (y.hash pass) role) w.srv.db
      = y.engine.execStmt catalog (Built.stmt y (.createUsrTable name pass role)) w.srv.db := by
    refine (Built.createUsrTable name pass role).exec_eq y (fun f hf => ?_) (fun i hi => ?_) w.srv.db
    · rw [List.mem_singleton.mp hf]
      exact hq
    · rw [List.mem_singleton.mp hi]
      obtain ⟨hlo, hhi⟩ := hrole
      exact if_pos (by omega)
  unfold createUsrTable
  rw [run_bind_of_run (run_computeHash y hhash pass), fmtS_some]
  obtain ⟨hval, hsrv⟩ := run_runStatement (y := y) (w := w) hlen
  rw [if_pos hfault, hexec] at hsrv
  refine ⟨?_, hsrv⟩
  dsimp only
  have hruns : Runs y 256 (createUsrTableSql name (y.hash pass) role) w
      ↔ ¬ HasAccount w.srv.db name role := by
    unfold Runs
    rw [hexec, execStmt_createUsr]
    by_cases h : HasAccount w.srv.db name role
    · simp [h]
    · simp [h, hlen, hfault]
  rw [hruns] at hval
  by_cases h : HasAccount w.srv.db name role
  · rw [if_pos h]
    exact hval.elim (fun hok => absurd h hok.2) And.left
  · rw [if_neg h]
    exact hval.elim And.left fun hneg => absurd h hneg.2

/-! ## Users updated -/

/-- What an update makes of the row it reaches. -/
def updatedUser (y : Sys) (col : Column) (key : MappedKey) (updated : Str) : Row → Row :=
  y.engine.setCol col (.str (storedValue y key updated))

/-- **An update of a user that goes through** has set a column of one row, or there is no
row of the name. -/
theorem execStmt_updateUsr {name updated : Str} {key : MappedKey}
    (hkeyed : (db userTable).Keyed idCol)
    (herr : (y.engine.execStmt catalog (Built.stmt y (.updateUserInfo name key updated)) db).err
      = none) :
    ∃ col, userInformation.find key.column = some col ∧
      (updatedRow y .users db name = none ∧
        (y.engine.execStmt catalog (Built.stmt y (.updateUserInfo name key updated)) db).db = db ∨
      ∃ r₀, updatedRow y .users db name = some r₀ ∧
        (y.engine.execStmt catalog (Built.stmt y (.updateUserInfo name key updated)) db).db =
          Function.update db userTable
            ((db userTable).setRow idCol r₀ (updatedUser y col key updated))) :=
  execStmt_update_cases (u := .users) key.column_mem hkeyed herr

/-! ## `__update_user_info` and its keys -/

variable (y)

/-- What is stored for a value under a key. -/
def valueFor (key : Option Commands) (value : Str) : Str :=
  if key = some .userpass then y.hash value else value

/-- The column a key is about, for the keys documented for users. -/
def documentedColumn : Commands → Option Column
  | .userid => some (textColumn "UserName")
  | .userpass => some (textColumn "UserPsswd")
  | .usermode => some ⟨lit "PrivMode", .integer, true⟩
  | .userlogged => some ⟨lit "IsLogged", .integer, true⟩
  | _ => none

/-- The row `r₀` with the value in the column of the documented key. -/
def asDocumented (col : Column) (key : Option Commands) (value : Str) : Row → Row :=
  y.engine.setCol col (.str (valueFor y key value))

/-- Under a documented key the update returns `0` and changes the column in this row and
nothing else; under any other key it returns `-1` and changes nothing. -/
def UpdatesAsNamed (w : World) (name : Str) (r₀ : Row) (key : Option Commands) (value : Str) : Prop :=
  let o := (updateUserInfo y (some name) key (some value)).run w
  (∀ col ∈ key.bind documentedColumn, o.val = .ok 0 ∧
    o.state.srv.db = Function.update w.srv.db userTable
      ((w.srv.db userTable).setRow idCol r₀ (asDocumented y col key value))) ∧
  (key.bind documentedColumn = none → o.val = .ok (-1) ∧ o.state.srv.db = w.srv.db)

variable {y} {w : World}

theorem run_hashedValue (hhash : w.sess.ops .hash = true) (key : Option Commands) (value : Str) :
    ∃ o, (hashedValue y key (some value)).run w = ⟨.ok (valueFor y key value), w, o⟩ := by
  unfold hashedValue valueFor
  split
  · exact ⟨_, run_computeHash y hhash value⟩
  · exact ⟨[], rfl⟩

theorem run_updateUserInfo (hhash : w.sess.ops .hash = true) (name : Str) (key : Option Commands)
    (value : Str) :
    ((updateUserInfo y (some name) key (some value)).run w).val
        = ((match getMapping key with
          | none => pure (-1)
          | some c => runStatement y 256 (updateUserInfoSql c name (valueFor y key value)) :
            M Int).run w).val ∧
      ((updateUserInfo y (some name) key (some value)).run w).state
        = ((match getMapping key with
          | none => pure (-1)
          | some c => runStatement y 256 (updateUserInfoSql c name (valueFor y key value)) :
            M Int).run w).state := by
  obtain ⟨o, ho⟩ := run_hashedValue (y := y) hhash key value
  unfold updateUserInfo
  rw [run_bind_of_run ho]
  exact ⟨rfl, rfl⟩

/-- The column under a key that names one: it is the documented one, or the users table
has none of that name. -/
theorem find_mapped {k : Commands} {c : Str} (hc : getMapping (some k) = some c) :
    userInformation.find c = if k = .usermode then none else documentedColumn k := by
  have hall : ∀ p ∈ userInfoTable, userInformation.find p.2
      = if p.1 = .usermode then none else documentedColumn p.1 := by
    simp only [userInfoTable, List.forall_mem_cons]
    exact ⟨rfl, rfl, rfl, rfl, rfl, rfl, rfl, rfl, rfl, rfl, fun _ h => nomatch h⟩
  exact hall _ (mem_userInfoTable hc)

theorem quoteFree_updateUsr {name value : Str} {key : MappedKey} :
    (∀ f ∈ (Built.updateUserInfo name key value).asGiven, QuoteFree f) ↔
      QuoteFree name ∧ (key.1 ≠ .userpass → QuoteFree value) := by
  show (∀ f ∈ if key.1 = .userpass then [name] else [value, name], QuoteFree f) ↔ _
  by_cases hkey : key.1 = .userpass
  · simp [hkey]
  · simp [hkey, and_comm]

/-- The statement runs on the row of the name, if its column is there. -/
theorem exec_updateUsr_sole {name value c : Str} {k : Commands} {r₀ : Row} {db : Db}
    (hc : getMapping (some k) = some c) (hq : QuoteFree name) (hv : k ≠ .userpass → QuoteFree value)
    (hkeyed : (db userTable).Keyed idCol) (hrow : updatedRow y .users db name = some r₀)
    (hfree : ∀ col ∈ documentedColumn k, (db userTable).obstructs userInformation
      (asDocumented y col (some k) value r₀) = false) :
    y.engine.exec catalog (updateUserInfoSql c name (valueFor y (some k) value)) db =
      match userInformation.find c with
      | none => ⟨db, [], some (noColumn c)⟩
      | some col => ⟨Function.update db userTable
          ((db userTable).setRow idCol r₀ (asDocumented y col (some k) value)), [], none⟩ := by
  obtain ⟨key, hkey⟩ : ∃ key : MappedKey, key.1 = k :=
    ⟨⟨k, by rw [hc]; rfl⟩, rfl⟩
  obtain rfl : key.column = c := Option.some.inj ((Option.some_get key.2).trans (hkey ▸ hc))
  have hstored : valueFor y (some k) value = storedValue y key value := by
    unfold valueFor storedValue
    rw [← hkey]
    simp
  have hasGiven : ∀ f ∈ (Built.updateUserInfo name key value).asGiven, QuoteFree f :=
    quoteFree_updateUsr.mpr ⟨hq, fun hpass => hv (hkey ▸ hpass)⟩
  have hexec := (Built.updateUserInfo name key value).exec_eq y hasGiven (fun _ => nofun) db
  rw [hstored]
  refine hexec.trans ?_
  show y.engine.execStmt catalog (updateStmt .users key.column (storedValue y key value) name) db = _
  cases hfind : userInformation.find key.column with
  | none => exact execStmt_update_unknown (u := .users) key.column_mem hfind
  | some col =>
    have hdoc : documentedColumn k = some col := by
      have h := find_mapped hc
      rw [hfind] at h
      split at h
      · cases h
      · exact h.symm
    have hclash := hfree col hdoc
    unfold asDocumented at hclash
    rw [hstored] at hclash
    refine (@execStmt_update_some y .users db name key.column (storedValue y key value)
      key.column_mem col hfind hkeyed r₀ hrow).trans ?_
    have hne : ¬ (db userTable).obstructs userInformation
        (y.engine.setCol col (.str (storedValue y key value)) r₀) = true := by simp [hclash]
    refine (if_neg hne).trans ?_
    unfold asDocumented
    rw [hstored]
    rfl

/-- A key without a column is no documented one. -/
theorem undocumented_of_unmapped {key : Option Commands} (hc : getMapping key = none) :
    key ≠ some .usermode ∧ key.bind documentedColumn = none := by
  cases key with
  | none => exact ⟨nofun, rfl⟩
  | some k =>
    have hall : getMapping (some k) = none → k ≠ .usermode ∧ documentedColumn k = none := by
      cases k <;> decide
    obtain ⟨hmode, hdoc⟩ := hall hc
    exact ⟨fun h => hmode (Option.some.inj h), hdoc⟩

/-- **Which keys work**: all of them but `usermode`, whose column the users table does not
have, as long as the statement fits its array. -/
theorem updatesAsNamed_iff {name value : Str} {key : Option Commands} {r₀ : Row}
    (hhash : w.sess.ops .hash = true) (hfault : y.fault w.tick = none)
    (hkeyed : (w.srv.db userTable).Keyed idCol) (hr₀ : r₀ ∈ (w.srv.db userTable).rows)
    (hsole : ∀ r ∈ (w.srv.db userTable).rows, r userNameCol = .text name ↔ r = r₀)
    (hq : QuoteFree name) (hv : QuoteFree value)
    (hfree : ∀ col ∈ key.bind documentedColumn, (w.srv.db userTable).obstructs userInformation
      (asDocumented y col key value r₀) = false) :
    UpdatesAsNamed y w name r₀ key value ↔ key ≠ some .usermode ∧ ∀ c ∈ getMapping key,
      (updateUserInfoSql c name (valueFor y key value)).length < 256 := by
  obtain ⟨r, hrow⟩ : ∃ r, updatedRow y .users w.srv.db name = some r :=
    exists_updatedRow (u := .users) hr₀ ((hsole r₀ hr₀).mpr rfl)
  obtain ⟨hmem, hname⟩ := updatedRow_mem hrow
  obtain rfl : r = r₀ := (hsole r hmem).mp hname
  obtain ⟨hval, hstate⟩ := run_updateUserInfo (y := y) hhash name key value
  unfold UpdatesAsNamed
  dsimp only
  rw [hval, hstate]
  cases hc : getMapping key with
  | none =>
    -- no column: the code returns -1, and no text is built
    obtain ⟨hmode, hnone⟩ := undocumented_of_unmapped hc
    refine iff_of_true ⟨fun col hcol => ?_, fun _ => ⟨rfl, rfl⟩⟩ ⟨hmode, fun _ => nofun⟩
    rw [hnone] at hcol
    cases hcol
  | some c =>
    obtain ⟨k, rfl⟩ : ∃ k, key = some k := by
      cases key with
      | none => cases hc
      | some k => exact ⟨k, rfl⟩
    dsimp only
    by_cases hlen : (updateUserInfoSql c name (valueFor y (some k) value)).length < 256
    · have hfits : ∀ c' ∈ some c, (updateUserInfoSql c' name (valueFor y (some k) value)).length
          < 256 := by
        rintro c' ⟨⟩
        exact hlen
      obtain ⟨hret, hdb⟩ := run_runStatement_of_exec hlen hfault
        (exec_updateUsr_sole hc hq (fun _ => hv) hkeyed hrow hfree)
      rw [find_mapped hc] at hret hdb
      by_cases hmode : k = .usermode
      · -- the column the mapping names is not there
        rw [if_pos hmode] at hret
        subst hmode
        refine iff_of_false (fun h => ?_) fun h => h.1 rfl
        exact nomatch hret.symm.trans (h.1 _ rfl).1
      · rw [if_neg hmode] at hret hdb
        refine iff_of_true ?_ ⟨fun h => hmode (Option.some.inj h), hfits⟩
        show (∀ col ∈ documentedColumn k, _) ∧ (documentedColumn k = none → _)
        cases hdoc : documentedColumn k with
        | none =>
          rw [hdoc] at hret hdb
          exact ⟨fun _ => nofun, fun _ => ⟨hret, hdb⟩⟩
        | some col =>
          rw [hdoc] at hret hdb
          refine ⟨?_, nofun⟩
          rintro col' ⟨⟩
          exact ⟨hret, hdb⟩
    -- the text does not fit its array, and the run stops there
    · refine iff_of_false (fun h => ?_) fun h => hlen (h.2 c rfl)
      rw [run_runStatement_overflow (y := y) (w := w) hlen] at h
      cases hdoc : documentedColumn k with
      | none => exact nomatch (h.2 hdoc).1
      | some col => exact nomatch (h.1 col hdoc).1

/-- `admin` is not logged any more. -/
theorem updatesAsNamed_logged : UpdatesAsNamed quietSys (.before initDataRoot (usersDb [adminRow]))
    (lit "admin") adminRow (some .userlogged) (lit "0") :=
  (updatesAsNamed_iff rfl rfl (.of_ids [1] rfl (by decide)) (List.mem_singleton_self _)
    (fun r hr => by rw [List.mem_singleton.mp hr]; exact iff_of_true rfl rfl) (by decide)
    (by decide) (by rintro col ⟨⟩; decide +kernel)).mpr ⟨nofun, by decide +kernel⟩

/-- `usermode` is mapped to a column `UserMode`, and the column is called `PrivMode`. -/
theorem not_updatesAsNamed :
    ¬ ∀ (y : Sys) (w : World) (name value : Str) (key : Option Commands) (r₀ : Row),
      w.sess.ops .hash = true → y.fault w.tick = none → (w.srv.db userTable).Keyed idCol →
      r₀ ∈ (w.srv.db userTable).rows →
      (∀ r ∈ (w.srv.db userTable).rows, r userNameCol = .text name ↔ r = r₀) →
      QuoteFree value → (∀ col ∈ key.bind documentedColumn,
        (w.srv.db userTable).obstructs userInformation (asDocumented y col key value r₀) = false) →
      UpdatesAsNamed y w name r₀ key value := by
  intro h
  have hmode := h quietSys (.before initDataRoot (usersDb [adminRow])) (lit "admin") (lit "1000")
    (some .usermode) adminRow rfl rfl (.of_ids [1] rfl (by decide))
    (List.mem_singleton_self _)
    (fun r hr => by rw [List.mem_singleton.mp hr]; exact iff_of_true rfl rfl) (by decide)
    (by rintro col ⟨⟩; decide +kernel)
  have hval : ((updateUserInfo quietSys (some (lit "admin")) (some .usermode)
      (some (lit "1000"))).run (.before initDataRoot (usersDb [adminRow]))).val = .ok (-1) := by
    decide +kernel
  exact nomatch hval.symm.trans (hmode.1 _ rfl).1

end Thor
