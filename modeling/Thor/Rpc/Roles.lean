import Thor.Database.Users
import Thor.Rpc.Replies

/-!
# The role of a new user

`db,add,user` reads the role with `atoi` from whatever token comes third behind the words,
the marker of the frame included, and `ROOT_USR` is `0`. `strtok` takes an empty name or
password for none, and then the third token is not the third field.

- `createdRole`: the role in the row of the user created.
- `spellsRole_iff`: it is what the third field spells exactly when the field is a decimal
  number that fits an `int` and is the one that is read.
-/

namespace Thor

open CLib Sql Prog

variable {y : Sys}

/-- `db,add,user` with whatever behind it. -/
def IsAddUser (cmd : Str) : Prop :=
  findCmd (field cmd 0) = some .db ∧ findCmd (field cmd 1) = some .add ∧
    findCmd (field cmd 2) = some .user

instance (cmd : Str) : Decidable (IsAddUser cmd) := inferInstanceAs (Decidable (_ ∧ _))

/-- What such a command asks for. -/
theorem IsAddUser.request {cmd : Str} (h : IsAddUser cmd) :
    parseRequest cmd ∈ [.bye, .malformed, .crash] ∨
      ∃ mode, field cmd 5 = some mode ∧
        parseRequest cmd = .db (.creatUsr (field cmd 3) (field cmd 4) mode) := by
  obtain ⟨hdb, hadd, huser⟩ := h
  unfold parseRequest
  split
  · exact .inl (by simp)
  · split
    · rw [hdb]
      dsimp only
      rw [hadd, huser]
      unfold parseTable
      dsimp only [Nat.zero_add]
      cases hmode : field cmd (2 + 3) with
      | none => exact .inl (by simp)
      | some mode => exact .inr ⟨mode, rfl, rfl⟩
    · exact .inl (by simp)

/-- The command adds the row to the users table. -/
def Creates (y : Sys) (w : World) (cmd : Str) (r : Row) : Prop :=
  (((processCmd y cmd).run w).state.srv.db userTable).rows = (w.srv.db userTable).rows ++ [r]

/-- **The role in the row** is what `atoi` makes of the field. -/
theorem createdRole {w : World} {cmd : Str} {r : Row} (hcmd : IsAddUser cmd)
    (hq : QuoteFree (fmtS (field cmd 3))) (h : Creates y w cmd r) :
    ∃ mode, field cmd 5 = some mode ∧ r privModeCol = .int (atoi mode) := by
  obtain ⟨saved, hrun⟩ := processCmd_run y cmd w
  unfold Creates at h
  rw [hrun] at h
  -- a row has been added, so the table has not been left alone
  have hadded {db : Db} (heq : db userTable = w.srv.db userTable) :
      ¬ (db userTable).rows = (w.srv.db userTable).rows ++ [r] := by
    rw [heq, List.self_eq_append_right]
    exact List.cons_ne_nil _ _
  rcases hcmd.request with hreq | ⟨mode, hmode, hreq⟩
  · have hkept := dbKept_reply
    have hreqkept : Always ((parseRequest cmd).prog y) DbKept := by
      simp only [List.mem_cons, List.not_mem_nil, or_false] at hreq
      rcases hreq with hreq | hreq | hreq
      · rw [hreq]
        exact dbKept_bye
      · rw [hreq]
        exact hkept.reply _
      · rw [hreq]
        exact hkept.fail _
    exact absurd h (hadded (congrFun (hreqkept { w with saved } trivial) userTable))
  · refine ⟨mode, hmode, ?_⟩
    rw [hreq] at h
    have hplain : ∀ b ∈ (DbLeaf.creatUsr (field cmd 3) (field cmd 4) mode).built,
        ∀ f ∈ b.asGiven, QuoteFree f := by
      rintro b ⟨⟩ f hf
      rw [List.mem_singleton.mp hf]
      exact hq
    rcases DbLeaf.table_cases (y := y) (w := { w with saved }) userTable fun _ => hplain with
      hkept | ⟨-, b, hb, -, hexec⟩
    · exact absurd h (hadded hkept)
    · cases hb
      have hdb : (((DbLeaf.creatUsr (field cmd 3) (field cmd 4) mode).prog y).run
          { w with saved }).state.srv.db = _ := hexec
      rw [execStmt_createUsr] at hdb
      change ((((DbLeaf.creatUsr (field cmd 3) (field cmd 4) mode).prog y).run
          { w with saved }).state.srv.db userTable).rows = _ at h
      rw [hdb] at h
      split at h
      · exact absurd h (hadded rfl)
      · dsimp only at h
        rw [Function.update_self] at h
        have hrow := List.singleton_inj.mp (List.append_cancel_left h)
        rw [← hrow]
        exact newUser_mode ..

/-- A user of its own role, and the row it gets. -/
theorem creates_newUser {w : World} {cmd name pass mode : Str}
    (hreq : parseRequest cmd = .db (.creatUsr (some name) (some pass) mode))
    (hset : w.sess.ops .creatUsr = true) (hhash : w.sess.ops .hash = true) (hq : QuoteFree name)
    (hlen : (createUsrTableSql name (y.hash pass) (atoi mode)).length < 256)
    (hfault : y.fault w.tick = none) (hnew : ¬ HasAccount w.srv.db name (atoi mode)) :
    Creates y w cmd (newUser y ((w.srv.db userTable).nextKey idCol) name pass (atoi mode)) := by
  obtain ⟨saved, hrun⟩ := processCmd_run y cmd w
  have hplain : ∀ f ∈ (Built.createUsrTable name pass (atoi mode)).asGiven, QuoteFree f := by
    intro f hf
    rw [List.mem_singleton.mp hf]
    exact hq
  have hdb : (((DbLeaf.creatUsr (some name) (some pass) mode).prog y).run
      { w with saved }).state.srv.db = (y.engine.execStmt catalog
        ((Built.createUsrTable name pass (atoi mode)).stmt y) w.srv.db).db :=
    DbLeaf.runs rfl rfl hplain hset hhash (by simp [DbLeaf.args]) hlen hfault
  rw [execStmt_createUsr, if_neg hnew] at hdb
  unfold Creates
  rw [hrun, hreq]
  show ((((DbLeaf.creatUsr (some name) (some pass) mode).prog y).run
    { w with saved }).state.srv.db userTable).rows = _
  rw [hdb]
  dsimp only
  rw [Function.update_self]

/-! ## Numbers spelled in decimal -/

/-- The field is a decimal number that fits an `int`. -/
def SpellsInt (s : Str) : Prop :=
  s ≠ [] ∧ (∀ c ∈ s, c.isDigit = true) ∧ digitsVal s < 2 ^ 31

instance (s : Str) : Decidable (SpellsInt s) := inferInstanceAs (Decidable (_ ∧ _))

/-- The command that creates a user, with any text behind the comma of its second field. -/
def addUserCommand (name pass rest : Str) : Str :=
  lit "db,add,user," ++ (name ++ ',' :: (pass ++ ',' :: rest))

/-- The third field: the text behind its comma, up to the next one. -/
def roleField (rest : Str) : Str := rest.takeWhile (· ≠ ',')

section Command

variable {name pass : Str} (rest : Str)

theorem strtokRest_addUser (name pass rest : Str) :
    findCmd (field (addUserCommand name pass rest) 0) = some .db ∧
      findCmd (field (addUserCommand name pass rest) 1) = some .add ∧
      findCmd (field (addUserCommand name pass rest) 2) = some .user ∧
      strtokRest comma 3 (addUserCommand name pass rest) =
        name ++ ',' :: (pass ++ ',' :: rest) := by
  have hcomma : ',' ∈ comma := by decide
  have hdb := strtokRest_field (d := comma) (n := 0) (f := lit "db")
    (s := addUserCommand name pass rest) rfl (by decide) (by decide) hcomma
  have hadd := strtokRest_field (f := lit "add") hdb.2 (by decide) (by decide) hcomma
  have huser := strtokRest_field (f := lit "user") hadd.2 (by decide) (by decide) hcomma
  refine ⟨?_, ?_, ?_, huser.2⟩
  · rw [field, hdb.1]
    decide +kernel
  · rw [field, hadd.1]
    decide +kernel
  · rw [field, huser.1]
    decide +kernel

theorem isAddUser_command (name pass : Str) : IsAddUser (addUserCommand name pass rest) := by
  obtain ⟨hdb, hadd, huser, -⟩ := strtokRest_addUser name pass rest
  exact ⟨hdb, hadd, huser⟩

/-- Behind a name and a password the role is read from the third field. -/
theorem field_role (hname : name ≠ []) (hname' : ',' ∉ name) (hpass : pass ≠ [])
    (hpass' : ',' ∉ pass) (hrole : roleField rest ≠ []) :
    field (addUserCommand name pass rest) 5 = some (roleField rest) := by
  have hcomma : ',' ∈ comma := by decide
  have hfree {s : Str} (h : ',' ∉ s) : ∀ x ∈ s, x ∉ comma := by
    rintro x hx hmem
    obtain rfl : x = ',' := List.mem_singleton.mp hmem
    exact h hx
  have h3 := strtokRest_field (strtokRest_addUser name pass rest).2.2.2 hname (hfree hname') hcomma
  have h4 := strtokRest_field h3.2 hpass (hfree hpass') hcomma
  rw [field, ← strtok_strtokRest, h4.2]
  exact strtok_takeWhile hrole

end Command

/-- The role of the new row is the number that the third field spells, so it is `ROOT_USR`
for zeros only. -/
def SpellsRole (rest : Str) (r : Row) : Prop :=
  SpellsInt (roleField rest) ∧ r privModeCol = .int (digitsVal (roleField rest)) ∧
    (r privModeCol = .int rootUsr → ∀ c ∈ roleField rest, c = '0')

/-- The server reads the role where the third field stands: no field in front of it is
empty, so that none moves up; or the one that moves into its place starts with its number. -/
def RoleInPlace (name pass rest : Str) : Prop :=
  name ≠ [] ∧ pass ≠ [] ∨
    ∃ moved ∈ field (addUserCommand name pass rest) 5, atoi moved = digitsVal (roleField rest)

-- without a password the marker moves into the place of the role
example : field (addUserCommand (lit "bob") [] (lit "5,<$#EOT#$>")) 5 = some marker := by
  decide +kernel

/-- **No role by accident**: a user is created with the role its third field spells if and
only if that field is a decimal number that fits an `int`, and is the one read. -/
theorem spellsRole_iff {w : World} {name pass rest : Str} {r : Row} (hname : ',' ∉ name)
    (hpass : ',' ∉ pass) (hq : QuoteFree (fmtS (field (addUserCommand name pass rest) 3)))
    (h : Creates y w (addUserCommand name pass rest) r) :
    SpellsRole rest r ↔ SpellsInt (roleField rest) ∧ RoleInPlace name pass rest := by
  obtain ⟨mode, hmode, hrole⟩ := createdRole (isAddUser_command rest name pass) hq h
  constructor
  · rintro ⟨hspells, hvalue, -⟩
    exact ⟨hspells, .inr ⟨mode, hmode, Value.int.inj (hrole.symm.trans hvalue)⟩⟩
  · rintro ⟨hspells, hplace⟩
    obtain ⟨hne, hdigits, hlt⟩ := hspells
    have hread : atoi mode = digitsVal (roleField rest) := by
      rcases hplace with ⟨hn, hp⟩ | ⟨moved, hmoved, hread⟩
      · have hthird := field_role rest hn hname hp hpass hne
        obtain rfl : mode = roleField rest := Option.some.inj (hmode.symm.trans hthird)
        exact atoi_digits hne hdigits hlt
      · obtain rfl : mode = moved := Option.some.inj (hmode.symm.trans hmoved)
        exact hread
    rw [hread] at hrole
    refine ⟨⟨hne, hdigits, hlt⟩, hrole, fun hroot => ?_⟩
    have hzero : (digitsVal (roleField rest) : Int) = 0 := Value.int.inj (hrole.symm.trans hroot)
    rw [digitsVal_of_digits hdigits] at hzero
    exact (eq_zero_of_ofDigitChars hdigits (Int.ofNat_eq_zero.mp hzero)).2

/-- A user of the role `1000`. -/
theorem spellsRole_elevated :
    SpellsRole (lit "1000,<$#EOT#$>") (newUser quietSys 2 (lit "bob") (lit "pw") 1000) := by
  have hreq : parseRequest (addUserCommand (lit "bob") (lit "pw") (lit "1000,<$#EOT#$>")) =
      .db (.creatUsr (some (lit "bob")) (some (lit "pw")) (lit "1000")) := by decide +kernel
  exact (@spellsRole_iff quietSys (.before initDataRoot (usersDb [adminRow])) _ _ _ _
    (by decide) (by decide) (by decide +kernel)
    (creates_newUser hreq rfl rfl (by decide) (by decide +kernel) rfl (by decide +kernel))).mpr
    ⟨by decide +kernel, .inl (by decide)⟩

/-- Without a role the marker is read as one, and it is read as that of `ROOT_USR`. -/
theorem not_spellsRole :
    ¬ ∀ (y : Sys) (w : World) (name pass rest : Str) (r : Row), ',' ∉ name → ',' ∉ pass →
      Creates y w (addUserCommand name pass rest) r → SpellsRole rest r := by
  intro h
  have hreq : parseRequest (addUserCommand (lit "bob") (lit "pw") marker) =
      .db (.creatUsr (some (lit "bob")) (some (lit "pw")) marker) := by decide +kernel
  obtain ⟨⟨-, hdigits, -⟩, -⟩ := h quietSys (.before initDataRoot (usersDb [adminRow])) (lit "bob")
    (lit "pw") marker _ (by decide) (by decide)
    (creates_newUser hreq rfl rfl (by decide) (by decide +kernel) rfl (by decide +kernel))
  exact absurd hdigits (by decide)

end Thor
