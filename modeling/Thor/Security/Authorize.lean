import Thor.Database.Ops

/-!
# The login (security/authorize.c)

The TLS branch of `__auth` cuts a name and a password out of the client's first
message and asks `get_user_mode` for a role: the database if it is open, the
built-in table if it is not. It runs on the server object, which is the session
of the `World` here.
-/

namespace Thor

open CLib Sql Prog

/-- `remove_escape` on a string and its length: everything from the first line
break on is cut off. -/
def removeEscape (s : Str) : Str := s.takeWhile fun c => c != '\n' && c != '\r'

/-- An entry of `valid_users`. -/
structure ValidUser where
  name : Str
  pass : Str
  plen : Nat
  mode : Int

/-- `valid_users`; `sizeof` counts the terminator of the name. -/
def validUsers : List ValidUser :=
  [⟨lit "admin", lit "admin", 6, rootUsr⟩,
   ⟨lit "user", lit "user", 5, dflUsr⟩,
   ⟨lit "audit", lit "audit", 6, elvtUsr⟩,
   ⟨lit "admin@admin.com", lit "admin123", 16, rootUsr⟩,
   ⟨lit "merchant@merchant.com", lit "merchant123", 22, elvtUsr⟩,
   ⟨lit "checkoutuser", lit "user123", 13, dflUsr⟩]

/-- `memcmp(a, b, n) == 0` on strings of which `a` has at least `n` bytes. -/
def memcmpEq (a b : Str) (n : Nat) : Bool := a.take n == b.take n

/-- The search of `get_user_mode` through the built-in table. -/
def builtinMode (id pas : Str) (ilen plen : Nat) : Int :=
  match validUsers.find? fun u => ilen == u.plen && plen == u.plen &&
      memcmpEq id u.name (ilen - 1) && memcmpEq pas u.pass (ilen - 1) with
  | some u => u.mode
  | none => -1

variable (y : Sys)

/-- `get_user_mode`, the database being open or not. -/
def getUserMode (isOpen : Bool) (id pas : Str) (ilen plen : Nat) : M Int :=
  if isOpen then getUsrRole y id pas else pure (builtinMode id pas ilen plen)

/-- `register_users`, called on the server object. -/
def registerUsers : M Unit :=
  validUsers.forM fun u => do
    let _ ← callPtr .creatUsr [some u.name, some u.pass]
      (createUsrTable y (some u.name) (some u.pass) u.mode)

/-- The TLS branch of `__auth` on the message received: the role, and the
logging bit it stores. -/
def auth (isOpen : Bool) (buf : Str) : M (Int × Option Nat) := do
  if buf ≠ [] ∧ strstr buf comma then
    let cmd ← strtokFirst buf comma
    let name ← strtokNext comma
    let pass ← strtokNext comma
    let cmd ← deref cmd
    -- four bytes are compared, so that `authors` is as good as `auth`
    if !strncmpEq cmd (lit "auth") 4 then pure (-1, none)
    else
      let name ← deref name
      let pass ← deref pass
      let name := removeEscape name
      let pass := removeEscape pass
      -- the first query comes before the lengths are looked at
      let logBit ← isLogged y (some name)
      if name ≠ [] ∧ pass ≠ [] then
        let mode ← getUserMode y isOpen name pass name.length pass.length
        pure (mode, some logBit)
      else pure (-1, some logBit)
  else pure (-1, none)

end Thor
