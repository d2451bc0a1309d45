import Thor.Database.Statements
import Mathlib.Data.List.Nodup

/-!
# Root credentials

Which names and passwords log in as ROOT, and what an update of the users table can do
about it.

- `RootPair`: the login query finds the role ROOT for a name and a hash.
- `Unraised`: no pair has become a ROOT pair. A statement about another table raises none
  (`Unraised.of_eq`).
- `unraised_updateUserInfo`: neither does `__update_user_info`, as long as it does not
  change the name or the password of a user with a ROOT row.
-/

namespace Thor

open CLib Sql

variable (y : Sys)

/-- Every row of the users table has a key of its own. -/
def Keyed (db : Db) : Prop := ((db userTable).rows.map fun r => r (lit "ID")).Nodup

instance (db : Db) : Decidable (Keyed db) := inferInstanceAs (Decidable (List.Nodup _))

/-- The row gives the role ROOT. -/
def isRootRow (r : Row) : Bool := rowRole r == some rootUsr

/-- A login with this name and this hash is a login as ROOT. -/
def RootPair (db : Db) (name pswd : Str) : Prop :=
  roleOf (credentialRows y db name pswd) = rootUsr

/-- No user of this name has a ROOT row. -/
def Spares (qual : Str) (db : Db) : Prop :=
  ∀ r ∈ (db userTable).rows, r userNameCol = .text qual → isRootRow r = false

/-- From `db` to `db'` no pair has become a ROOT pair. -/
def Unraised (db db' : Db) : Prop :=
  Keyed db → Keyed db' ∧ ∀ name pswd, RootPair y db' name pswd → RootPair y db name pswd

variable {y} {db db' db'' : Db}

theorem Unraised.of_eq (h : db' userTable = db userTable) : Unraised y db db' := by
  intro hkeyed
  unfold Keyed RootPair credentialRows at *
  rw [h]
  exact ⟨hkeyed, fun _ _ => id⟩

theorem Unraised.trans (h : Unraised y db db') (h' : Unraised y db' db'') :
    Unraised y db db'' := by
  intro hkeyed
  obtain ⟨hkeyed', hpair⟩ := h hkeyed
  obtain ⟨hkeyed'', hpair'⟩ := h' hkeyed'
  exact ⟨hkeyed'', fun name pswd hroot => hpair name pswd (hpair' name pswd hroot)⟩

/-! ## The last role -/

/-- The role is ROOT when the last role found is. -/
theorem roleOf_eq_root_iff {rows : List Row} :
    roleOf rows = rootUsr ↔ (rows.filterMap rowRole).getLast? = some rootUsr := by
  induction rows using List.reverseRecOn with
  | nil => decide
  | append_singleton rows r ih =>
    rw [roleOf_append_singleton, List.filterMap_append]
    cases hr : rowRole r with
    | none => simpa [hr] using ih
    | some m => simp [hr]

/-- A list that ends in `a`, and a part of it that has every `a`. -/
theorem getLast?_of_sublist {α : Type} [DecidableEq α] {a : α} {l l' : List α}
    (hsub : l.Sublist l') (hcount : l.count a = l'.count a) (hlast : l'.getLast? = some a) :
    l.getLast? = some a := by
  obtain ⟨xs, rfl⟩ := List.getLast?_eq_some_iff.mp hlast
  obtain ⟨l₁, l₂, rfl, hl₁, hl₂⟩ := List.sublist_append_iff.mp hsub
  rcases List.sublist_singleton.mp hl₂ with rfl | rfl
  · -- the last `a` would be missing
    have hle : l₁.count a ≤ xs.count a := hl₁.count_le a
    rw [List.append_nil, List.count_append, List.count_singleton_self] at hcount
    omega
  · exact List.getLast?_concat

theorem count_root {rows : List Row} :
    (rows.filterMap rowRole).count rootUsr = rows.countP isRootRow := by
  induction rows with
  | nil => rfl
  | cons r rows ih =>
    cases hr : rowRole r with
    | none => simpa [hr, isRootRow, List.countP_cons] using ih
    | some m => simpa [hr, isRootRow, List.countP_cons, List.count_cons] using ih

/-- The ROOT rows among those of a pair. -/
theorem count_credentialRows (name pswd : Str) :
    ((credentialRows y db name pswd).filterMap rowRole).count rootUsr
      = (db userTable).rows.countP fun r => isRootRow r && holds name pswd r := by
  rw [count_root, credentialRows, (y.engine.scan_perm ..).countP_eq, List.countP_filter]

/-! ## Rows changed where they stand -/

/-- The columns a login looks at, and the key. -/
def loginColumns : List Str := [lit "ID", userNameCol, userPsswdCol, privModeCol]

theorem keyed_of_map {f : Row → Row} (hrows : (db' userTable).rows = (db userTable).rows.map f)
    (hid : ∀ r, f r (lit "ID") = r (lit "ID")) (h : Keyed db) : Keyed db' := by
  unfold Keyed at h ⊢
  rw [hrows, List.map_map]
  exact (congrArg List.Nodup (List.map_congr_left fun r _ => hid r)).mpr h

/-- A change of columns a login does not look at. -/
theorem unraised_of_frame {f : Row → Row}
    (hrows : (db' userTable).rows = (db userTable).rows.map f)
    (hframe : ∀ r, ∀ c ∈ loginColumns, f r c = r c) : Unraised y db db' := by
  intro hkeyed
  refine ⟨keyed_of_map hrows (fun r => hframe r _ (by decide)) hkeyed, fun name pswd hroot => ?_⟩
  have hrole : rowRole ∘ f = rowRole := funext fun r =>
    congrArg (fun v => v.render.map atoi) (hframe r privModeCol (by decide))
  have hholds : holds name pswd ∘ f = holds name pswd := funext fun r => by
    simp only [Function.comp_apply, holds, hframe r userNameCol (by decide),
      hframe r userPsswdCol (by decide)]
  have hindexed (r : Row) (c : Str) (hc : c ∈ userInformation.indexed) : f r c = r c :=
    hframe r c ((show ∀ c ∈ userInformation.indexed, c ∈ loginColumns by decide) c hc)
  rw [RootPair, roleOf_eq_root_iff] at hroot ⊢
  have hscan : credentialRows y db' name pswd = (credentialRows y db name pswd).map f := by
    rw [credentialRows, hrows, List.filter_map, hholds]
    exact y.engine.scan_map _ _ f _ fun r _ => hindexed r
  rwa [hscan, List.filterMap_map, hrole] at hroot

/-- A change of the rows of one user, who has no ROOT row, that leaves the roles alone. -/
theorem unraised_of_spares {f : Row → Row} {qual : Str}
    (hrows : (db' userTable).rows = (db userTable).rows.map f) (hspares : Spares qual db)
    (hid : ∀ r, f r (lit "ID") = r (lit "ID")) (hmode : ∀ r, f r privModeCol = r privModeCol)
    (hother : ∀ r ∈ (db userTable).rows, r userNameCol ≠ .text qual → f r = r) :
    Unraised y db db' := by
  intro hkeyed
  refine ⟨keyed_of_map hrows hid hkeyed, fun name pswd hroot => ?_⟩
  rw [RootPair, roleOf_eq_root_iff] at hroot ⊢
  -- no ROOT row comes or goes
  have hcount : ((credentialRows y db name pswd).filterMap rowRole).count rootUsr
      = ((credentialRows y db' name pswd).filterMap rowRole).count rootUsr := by
    rw [count_credentialRows, count_credentialRows, hrows, List.countP_map]
    refine List.countP_congr fun r hr => ?_
    by_cases hname : r userNameCol = .text qual
    · have hrole : isRootRow (f r) = isRootRow r :=
        congrArg (fun v => v.render.map atoi == some rootUsr) (hmode r)
      simp [hrole, hspares r hr hname]
    · simp [hother r hr hname]
  -- so the pair has one already, and is not about the user changed
  have hpos : 0 < ((credentialRows y db name pswd).filterMap rowRole).count rootUsr := by
    rw [hcount]
    exact List.count_pos_iff.mpr (List.mem_of_mem_getLast? hroot)
  rw [count_credentialRows, List.countP_pos_iff] at hpos
  obtain ⟨r, hr, hpair⟩ := hpos
  obtain ⟨hroot', hholds⟩ := (Bool.and_eq_true _ _).mp hpair
  obtain ⟨hname, -⟩ := of_decide_eq_true hholds
  have hne : Value.text name ≠ .text qual := by
    intro heq
    rw [hspares r hr (hname.trans heq)] at hroot'
    cases hroot'
  -- and its rows stay
  have hsub : ((db userTable).rows.filter (holds name pswd)).Sublist
      ((db' userTable).rows.filter (holds name pswd)) := by
    have hself : ((db userTable).rows.filter (holds name pswd)).map f
        = (db userTable).rows.filter (holds name pswd) := by
      refine (List.map_congr_left fun r hr => ?_).trans (List.map_id _)
      obtain ⟨hmem, hr⟩ := List.mem_filter.mp hr
      exact hother r hmem fun h => hne ((of_decide_eq_true hr).1.symm.trans h)
    have hmap : ((db userTable).rows.filter (holds name pswd)).Sublist (db' userTable).rows := by
      rw [← hself, hrows]
      exact List.filter_sublist.map f
    have hfilter := hmap.filter (holds name pswd)
    rwa [List.filter_filter, show (fun r => holds name pswd r && holds name pswd r)
      = holds name pswd from funext fun r => Bool.and_self _] at hfilter
  exact getLast?_of_sublist ((y.engine.scan_sublist _ _ hsub).filterMap rowRole) hcount hroot

/-! ## The update of a user -/

theorem MappedKey.mem (key : MappedKey) : (key.1, key.column) ∈ userInfoTable := by
  have h : userInfoTable.lookup key.1 = some key.column := (Option.some_get key.2).symm
  obtain ⟨l₁, l₂, hl, -⟩ := List.lookup_eq_some_iff.mp h
  exact hl ▸ List.mem_append_right _ (List.mem_cons_self ..)

/-- The columns of the users table that keys name: none is the key or the role, and the
name and the password are under keys of their own. -/
theorem MappedKey.userColumn {key : MappedKey} {col : Column}
    (h : userInformation.find key.column = some col) :
    col.name ≠ lit "ID" ∧ col.name ≠ privModeCol ∧
      (key.1 ≠ .userid → key.1 ≠ .userpass → col.name ∉ loginColumns) := by
  have hall : ∀ p ∈ userInfoTable, (userInformation.find p.2).all (fun col =>
      col.name ≠ lit "ID" ∧ col.name ≠ privModeCol ∧
        (p.1 ≠ .userid → p.1 ≠ .userpass → col.name ∉ loginColumns)) = true := by decide +kernel
  have hkey := hall _ key.mem
  rw [h] at hkey
  exact of_decide_eq_true hkey

/-- `ID=(SELECT ID FROM UserInformation where UserName='qual' )` -/
def rowOf (qual : Str) : Expr :=
  .eq (.col (lit "ID")) (.sub (lit "ID") userTable (.eq (.col userNameCol) (.lit (.str qual))))

/-- The rows hit by an update of a user are rows of that user. -/
theorem name_of_hits {qual : Str} (hkeyed : Keyed db) {r : Row} (hr : r ∈ (db userTable).rows)
    (h : y.engine.hits catalog db userInformation (rowOf qual) r = true) :
    r userNameCol = .text qual := by
  obtain ⟨r₀, hr₀, hname, hid⟩ :=
    Engine.hits_eq_sub (show catalog.find userTable = some userInformation from rfl)
      (show userInformation.find (lit "ID") = some ⟨lit "ID", .integer, true⟩ from rfl) h
  have heq : r = r₀ := List.inj_on_of_nodup_map hkeyed hr hr₀ hid
  rw [heq]
  exact (Engine.hits_text
    (show userInformation.find userNameCol = some (textColumn "UserName") from rfl) rfl).mp hname

/-- **`__update_user_info` raises no pair**, unless it changes the name or the password of a
user with a ROOT row. -/
theorem unraised_updateUserInfo {qual updated : Str} {key : MappedKey}
    (hspares : key.1 = .userid ∨ key.1 = .userpass → Spares qual db) :
    Unraised y db
      (y.engine.execStmt catalog (Built.stmt y (.updateUserInfo qual key updated)) db).db := by
  rcases @Engine.execStmt_update y.engine catalog db userTable key.column
    (.str (storedValue y key updated)) (rowOf qual) with h | h
  · exact .of_eq (congrFun h userTable)
  · obtain ⟨sch, col, hsch, hcol, h⟩ := h
    obtain rfl : userInformation = sch := Option.some.inj hsch
    obtain ⟨hid, hmode, hlogin⟩ := key.userColumn hcol
    intro hkeyed
    refine (?_ : Unraised y db _) hkeyed
    have hrows : ((y.engine.execStmt catalog (Built.stmt y (.updateUserInfo qual key updated))
        db).db userTable).rows = (db userTable).rows.map fun r =>
          if y.engine.hits catalog db userInformation (rowOf qual) r then
            Function.update r col.name
              (y.engine.convert col.aff (.text (storedValue y key updated))) else r :=
      congrArg Table.rows ((congrFun h userTable).trans (Function.update_self ..))
    -- a new name or password may make a pair, any other column cannot
    by_cases hkey : key.1 = .userid ∨ key.1 = .userpass
    · refine unraised_of_spares hrows (hspares hkey) (fun r => ?_) (fun r => ?_) fun r hr hne => ?_
      · split
        · exact Function.update_of_ne hid.symm _ _
        · rfl
      · split
        · exact Function.update_of_ne hmode.symm _ _
        · rfl
      · exact if_neg fun hit => hne (name_of_hits hkeyed hr hit)
    · obtain ⟨huserid, huserpass⟩ := not_or.mp hkey
      refine unraised_of_frame hrows fun r c hc => ?_
      have hne : c ≠ col.name := by
        rintro rfl
        exact hlogin huserid huserpass hc
      split
      · exact Function.update_of_ne hne _ _
      · rfl

end Thor
