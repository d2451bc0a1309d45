import Thor.Security.Authorize
import Thor.Database.Role

/-!
# Logins

`getUserMode_sound`: with the database open, `get_user_mode` grants a role only
for a name and a password that stand in the table with it, as long as the name
has no quote. The name is the one string of the query an unauthenticated client
chooses freely; the password is hashed first.
-/

namespace Thor

open CLib Sql Prog

/-- **Logins are sound** for names without a quote. -/
theorem getUserMode_sound (y : Sys) {w : World} {name pass : Str} {ilen plen : Nat} {r : Int}
    (hq : QuoteFree name) (hroles : RolesAreInts (w.srv.db userTable).rows name (y.hash pass))
    (h : ((getUserMode y true name pass ilen plen).run w).val = .ok r) (hr : r ≠ -1) :
    ∃ row ∈ (w.srv.db userTable).rows, row userNameCol = .text name ∧
      row userPsswdCol = .text (y.hash pass) ∧ row privModeCol = .int r :=
  getUsrRole_sound y hq hroles h hr

/-- `admin` logs in. -/
theorem getUserMode_sound_admin :
    ∃ row ∈ [adminRow], row userNameCol = .text (lit "admin") ∧
      row userPsswdCol = .text (md5 (lit "admin")) ∧ row privModeCol = .int 0 :=
  getUserMode_sound quietSys (w := .before initDataRoot (usersDb [adminRow])) (by decide)
    (fun _ h _ => ⟨0, by rw [List.mem_singleton.mp h]; decide, by decide⟩)
    (show ((getUserMode quietSys true (lit "admin") (lit "admin") 5 5).run _).val = .ok 0 by
      decide +kernel) (by decide)

/-- A name that closes its literal and comments the rest out logs in with any password. -/
theorem not_getUserMode_sound :
    ¬ ∀ (y : Sys) (w : World) (name pass : Str) (r : Int), name ≠ [] → pass ≠ [] →
      (∀ c ∈ name ++ pass, c ≠ ',' ∧ c ≠ '\r' ∧ c ≠ '\n') →
      ((getUserMode y true name pass name.length pass.length).run w).val = .ok r → r ≠ -1 →
      ∃ row ∈ (w.srv.db userTable).rows, row userNameCol = .text name ∧
        row userPsswdCol = .text (y.hash pass) ∧ row privModeCol = .int r := by
  intro h
  obtain ⟨row, hrow, hname, -⟩ := h quietSys (.before initDataRoot (usersDb [adminRow]))
    (lit "admin' --") (lit "x") 0 (by decide) (by decide) (by decide) (by decide +kernel)
    (by decide)
  rw [List.mem_singleton.mp hrow] at hname
  exact absurd hname (by decide)

end Thor
