import Thor.Rpc.Request
import Thor.Security.Authorize

/-!
# The message of a login

`__auth` in two halves: taking the name and the password out of the message
(`authParse`), and asking `get_user_mode` for their role. The first half runs on a
text nobody has vouched for.

- `authParse_eq`: the two halves make up `__auth`.
- `authParse_scan`, `authParse_run`: the first half, by the tokens of the message.
- `survives_iff`: when it uses no token that is not there, and when it comes to an
  end at all. The second takes more: the query of `__is_logged` has to fit its array.
-/

namespace Thor

open CLib Sql Prog

variable (y : Sys)

/-- The end of the first half, a name and a password at hand. -/
def authNamed (name pass : Str) : M (Option (Str × Str) × Option Nat) := do
  let logBit ← isLogged y (some name)
  if name ≠ [] ∧ pass ≠ [] then pure (some (name, pass), some logBit)
  else pure (none, some logBit)

/-- `__auth` up to `get_user_mode`: the name and the password to call it with, if it
is called, and the logging bit. -/
def authParse (buf : Str) : M (Option (Str × Str) × Option Nat) := do
  if buf ≠ [] ∧ strstr buf comma then
    let cmd ← strtokFirst buf comma
    let name ← strtokNext comma
    let pass ← strtokNext comma
    let cmd ← deref cmd
    if !strncmpEq cmd (lit "auth") 4 then pure (none, none)
    else
      let name ← deref name
      let pass ← deref pass
      authNamed y (removeEscape name) (removeEscape pass)
  else pure (none, none)

/-- The role of what the first half found, `-1` when it found nothing. -/
def authRole (isOpen : Bool) : Option (Str × Str) × Option Nat → M (Int × Option Nat)
  | (some (name, pass), logBit) => do
    let mode ← getUserMode y isOpen name pass name.length pass.length
    pure (mode, logBit)
  | (none, logBit) => pure (-1, logBit)

theorem authParse_eq (isOpen : Bool) (buf : Str) :
    auth y isOpen buf = authParse y buf >>= authRole y isOpen := by
  unfold auth authParse
  split
  · simp only [Prog.bind_assoc]
    refine congrArg _ (funext fun cmd => congrArg _ (funext fun name => congrArg _ (funext fun pass =>
      congrArg _ (funext fun cmd => ?_))))
    split
    · rfl
    · simp only [authNamed, Prog.bind_assoc]
      refine congrArg _ (funext fun name => congrArg _ (funext fun pass =>
        congrArg _ (funext fun logBit => ?_)))
      split <;> rfl
  · rfl

/-! ## The first half, by its tokens -/

/-- What a message is, as far as its tokens go. -/
inductive AuthMessage where
  /-- no comma, or a first word other than `auth` -/
  | ignored
  /-- a token is used that is not there -/
  | noToken
  | named (name pass : Str)
  deriving DecidableEq

def authMessage (buf : Str) : AuthMessage :=
  if strstr buf comma then
    match field buf 0 with
    | none => .noToken
    | some cmd =>
      if strncmpEq cmd (lit "auth") 4 then
        match field buf 1, field buf 2 with
        | some name, some pass => .named name pass
        | _, _ => .noToken
      else .ignored
  else .ignored

def AuthMessage.prog : AuthMessage → M (Option (Str × Str) × Option Nat)
  | ignored => pure (none, none)
  | noToken => fail .nullDeref
  | named name pass => authNamed y (removeEscape name) (removeEscape pass)

/-- The message the tokens make up. -/
def tokensMessage (f : Nat → Option Str) : AuthMessage :=
  match f 0 with
  | none => .noToken
  | some cmd =>
    if strncmpEq cmd (lit "auth") 4 then
      match f 1, f 2 with
      | some name, some pass => .named name pass
      | _, _ => .noToken
    else .ignored

/-- The tokens a message of a login takes: three, before it looks at any of them. -/
def scanAuth (buf : Str) : Scan AuthMessage :=
  if strstr buf comma then .takes comma 3 fun f => .done (tokensMessage f) else .done .ignored

theorem result_scanAuth (buf : Str) : (scanAuth buf).result buf = authMessage buf := by
  unfold scanAuth authMessage
  split
  · refine result_takes buf 3 0 _ _ fun f hf => ?_
    show tokensMessage f = _
    unfold tokensMessage
    rw [hf 0 (by decide), hf 1 (by decide), hf 2 (by decide)]
  · rfl

/-- The end of the first half, all three tokens at hand. -/
theorem tokensMessage_prog (cmd name pass : Option Str) :
    (do
      let cmd ← deref cmd
      if !strncmpEq cmd (lit "auth") 4 then pure (none, none)
      else
        let name ← deref name
        let pass ← deref pass
        authNamed y (removeEscape name) (removeEscape pass))
      = (tokensMessage fun n => [cmd, name, pass][n]?.join).prog y := by
  unfold tokensMessage
  cases cmd with
  | none => rfl
  | some cmd =>
    rw [deref_some_bind]
    by_cases hauth : strncmpEq cmd (lit "auth") 4 = true
    · simp only [List.getElem?_cons_zero, List.getElem?_cons_succ, Option.join_some, hauth,
        Bool.not_true, Bool.false_eq_true, if_false, if_true]
      cases name with
      | none => rfl
      | some name =>
        cases pass with
        | none => rfl
        | some pass =>
          rw [deref_some_bind, deref_some_bind]
          have hprog : (AuthMessage.named name pass).prog y
              = authNamed y (removeEscape name) (removeEscape pass) := rfl
          exact hprog.symm
    · simp only [List.getElem?_cons_zero, Option.join_some, hauth, Bool.not_false,
        Bool.false_eq_true, if_false, if_true]
      rfl

/-- The first half takes its tokens and goes on with the message they make up. -/
theorem authParse_scan (buf : Str) (w : World) :
    (authParse y buf).run w = (((scanAuth buf).result buf).prog y).run
      { w with saved := if (scanAuth buf).tokens buf = [] then w.saved else (scanAuth buf).rest buf } := by
  unfold authParse scanAuth
  by_cases hcomma : strstr buf comma = true
  · have hne : buf ≠ [] := by
      rintro rfl
      exact absurd hcomma (by decide)
    rw [if_pos ⟨hne, hcomma⟩, if_pos hcomma]
    refine Eq.trans ?_ (run_runScan (fun message : AuthMessage => message.prog y) _
      { w with saved := buf })
    simp only [tokensMessage_prog]
    rfl
  · rw [if_neg (fun h => hcomma h.2), if_neg hcomma]
    rfl

theorem authParse_run (buf : Str) (w : World) :
    ∃ s, (authParse y buf).run w = ((authMessage buf).prog y).run { w with saved := s } :=
  ⟨_, result_scanAuth buf ▸ authParse_scan y buf w⟩

/-! ## When it comes to an end -/

theorem isLogged_ok {name : Str} (h : (isLoggedSql name).length < 128) (w : World) :
    ∃ logBit, ((isLogged y (some name)).run w).val = .ok logBit ∧
      ((isLogged y (some name)).run w).state.sess = w.sess := by
  unfold isLogged
  rw [fmtS_some, run_bind_of_run (run_sprintfInto_of_fits h w), run_bind, run_sqlite3Exec]
  cases y.fault w.tick with
  | some flt => exact ⟨_, rfl, rfl⟩
  | none => exact ⟨_, rfl, rfl⟩

theorem isLogged_overflow {name : Str} (h : ¬ (isLoggedSql name).length < 128) (w : World) :
    ((isLogged y (some name)).run w).val = .error .overflow := by
  have hover : ((sprintfInto 128 (isLoggedSql name)).run w).val = .error .overflow := by
    rw [run_sprintfInto, if_neg h]
  unfold isLogged
  rw [fmtS_some, run_bind_of_error hover]

/-- With the logging bit at hand, what is left to call `get_user_mode` with is not empty. -/
theorem authNamed_ok {name pass : Str} {w : World} {logBit : Nat}
    (h : ((isLogged y (some name)).run w).val = .ok logBit) :
    ∃ found, ((authNamed y name pass).run w).val = .ok (found, some logBit) ∧
      ∀ n p, found = some (n, p) → n ≠ [] ∧ p ≠ [] := by
  unfold authNamed
  rw [run_bind_of_ok h]
  dsimp only
  split
  · next hne =>
    refine ⟨some (name, pass), rfl, ?_⟩
    rintro _ _ ⟨⟩
    exact hne
  · exact ⟨none, rfl, nofun⟩

/-- The parse uses no token that is not there. -/
def NoNullToken (buf : Str) (w : World) : Prop :=
  ((authParse y buf).run w).val ≠ .error .nullDeref

/-- The parse ends: with `-1`, or with two strings for `get_user_mode` that are not empty. -/
def ParseEnds (buf : Str) (w : World) : Prop :=
  ∃ found logBit, ((authParse y buf).run w).val = .ok (found, logBit) ∧
    ∀ name pass, found = some (name, pass) → name ≠ [] ∧ pass ≠ []

/-- **Messages of a login.** The parse uses no token that is not there if and only if the
message has the tokens it is asked for; and it ends if and only if, besides, the query
of `__is_logged` on its name fits. -/
theorem survives_iff (buf : Str) (w : World) :
    (NoNullToken y buf w ↔ authMessage buf ≠ .noToken) ∧
    (ParseEnds y buf w ↔ authMessage buf ≠ .noToken ∧ ∀ name pass, authMessage buf = .named name pass →
      (isLoggedSql (removeEscape name)).length < 128) := by
  obtain ⟨s, hrun⟩ := authParse_run y buf w
  unfold NoNullToken ParseEnds
  rw [hrun]
  cases authMessage buf with
  | ignored =>
    exact ⟨⟨fun _ => nofun, fun _ => nofun⟩,
      ⟨fun _ => ⟨nofun, nofun⟩, fun _ => ⟨none, none, rfl, nofun⟩⟩⟩
  | noToken =>
    exact ⟨⟨fun h => absurd rfl h, fun h => absurd rfl h⟩,
      ⟨fun ⟨_, _, h, _⟩ => (nomatch h), fun h => absurd rfl h.1⟩⟩
  | named name pass =>
    have hrun : ((AuthMessage.named name pass).prog y).run { w with saved := s }
        = (authNamed y (removeEscape name) (removeEscape pass)).run { w with saved := s } := rfl
    rw [hrun]
    by_cases hfits : (isLoggedSql (removeEscape name)).length < 128
    · obtain ⟨logBit, hbit, -⟩ := isLogged_ok y hfits { w with saved := s }
      obtain ⟨found, hval, hfound⟩ := authNamed_ok y hbit
      rw [hval]
      refine ⟨⟨fun _ => nofun, fun _ => nofun⟩, ⟨fun _ => ⟨nofun, ?_⟩, fun _ => ⟨found, _, rfl, hfound⟩⟩⟩
      rintro _ _ ⟨⟩
      exact hfits
    · have hval : ((authNamed y (removeEscape name) (removeEscape pass)).run
          { w with saved := s }).val = .error .overflow := by
        unfold authNamed
        rw [run_bind_of_error (isLogged_overflow y hfits _)]
      rw [hval]
      exact ⟨⟨fun _ => nofun, fun _ => nofun⟩,
        ⟨fun ⟨_, _, h, _⟩ => (nomatch h), fun h => absurd (h.2 name pass rfl) hfits⟩⟩

/-- A message of one word and a comma is fatal. -/
theorem not_survives :
    ¬ ∀ (y : Sys) (w : World) (buf : Str), buf.length ≤ 1024 →
      NoNullToken y buf w ∧ ParseEnds y buf w := by
  intro h
  have hnull := (h quietSys (.before initDataRoot (usersDb [])) (lit "auth,") (by decide)).1
  have hmsg : authMessage (lit "auth,") = .noToken := by decide +kernel
  obtain ⟨saved, hrun⟩ := authParse_run quietSys (lit "auth,") (.before initDataRoot (usersDb []))
  rw [hmsg] at hrun
  refine hnull ?_
  rw [hrun]
  rfl

end Thor
