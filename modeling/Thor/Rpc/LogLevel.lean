import Thor.Rpc.Tokens

/-!
# The log level (src/logger.c, headers/logger.h)

`set_logging_level` looks a name up with `strncmp` and the length of what it was given, and
stores what the search returns. `get_loggin_level` and the eight log functions read it.

- `strToLoglvl_of_begins`: the search finds the name that begins with the string.
- `levelExact_iff`: when the command does what it says, or nothing.
-/

namespace Thor

open CLib Prog

/-! ## The log functions -/

/-- A log function of this severity writes its message. -/
def enabled (severity level : Nat) : Bool := !decide (level < severity)

def logf : Nat → Bool := enabled 1
def loge : Nat → Bool := enabled 2
def logc : Nat → Bool := enabled 3
def logw : Nat → Bool := enabled 4
def loga : Nat → Bool := enabled 5
def logi : Nat → Bool := enabled 6
def logd : Nat → Bool := enabled 7
def logv : Nat → Bool := enabled 8

/-- The functions of `log`, each with its severity. -/
def logFunctions : List (Nat × (Nat → Bool)) :=
  [(1, logf), (2, loge), (3, logc), (4, logw), (5, loga), (6, logi), (7, logd), (8, logv)]

theorem enabled_iff {severity level : Nat} : enabled severity level = true ↔ severity ≤ level := by
  simp [enabled]

theorem logFunctions_iff {p : Nat × (Nat → Bool)} (hp : p ∈ logFunctions) (level : Nat) :
    p.2 level = true ↔ p.1 ≤ level := by
  simp only [logFunctions, List.mem_cons, List.not_mem_nil, or_false] at hp
  rcases hp with rfl | rfl | rfl | rfl | rfl | rfl | rfl | rfl <;> exact enabled_iff

/-! ## The search -/

/-- Compared is a beginning, the names being shorter than the 15 bytes looked at. -/
theorem strncmpEq_name {s name : Str} (hname : name.length < 15) :
    strncmpEq s name (strnlen s 15) = decide (s <+: name) := by
  rw [Bool.eq_iff_iff, decide_eq_true_iff, strncmpEq, beq_iff_eq, strnlen]
  by_cases hs : s.length ≤ 15
  · rw [Nat.min_eq_left hs, List.take_length]
    exact ⟨fun h => h ▸ List.take_prefix _ _, fun h => List.prefix_iff_eq_take.mp h⟩
  · have hlong : min s.length 15 = 15 := Nat.min_eq_right (by omega)
    rw [hlong, List.take_of_length_le (Nat.le_of_lt hname)]
    constructor
    · intro h
      have hlen := congrArg List.length h
      rw [List.length_take] at hlen
      omega
    · intro h
      have hlen := h.length_le
      omega

theorem strncmpEq_loglevel (s : Str) {p : Nat × Str} (hp : p ∈ loglevels) :
    strncmpEq s p.2 (strnlen s 15) = true ↔ s <+: p.2 := by
  have hshort : ∀ p ∈ loglevels, p.2.length < 15 := by decide
  rw [strncmpEq_name (hshort p hp), decide_eq_true_iff]

/-- No two names begin with the same letter. -/
theorem loglevels_unique {p q : Nat × Str} (hp : p ∈ loglevels) (hq : q ∈ loglevels) {s : Str}
    (hne : s ≠ []) (hsp : s <+: p.2) (hsq : s <+: q.2) : p = q := by
  have hhead : ∀ p ∈ loglevels, ∀ q ∈ loglevels, p.2.head? = q.2.head? → p = q := by decide
  obtain ⟨c, t, rfl⟩ := List.exists_cons_of_ne_nil hne
  obtain ⟨_, hsp⟩ := hsp
  obtain ⟨_, hsq⟩ := hsq
  refine hhead p hp q hq ?_
  rw [← hsp, ← hsq]
  rfl

theorem strToLoglvl_of_begins {s : Str} (hne : s ≠ []) {p : Nat × Str} (hp : p ∈ loglevels)
    (hs : s <+: p.2) : strToLoglvl s (strnlen s 15) = p.1 := by
  unfold strToLoglvl
  cases hfind : loglevels.find? fun p => strncmpEq s p.2 (strnlen s 15) with
  | none => exact absurd ((strncmpEq_loglevel s hp).mpr hs) (List.find?_eq_none.mp hfind p hp)
  | some q =>
    have hq := List.mem_of_find?_eq_some hfind
    have hsq := (strncmpEq_loglevel s hq).mp (List.find?_some hfind :)
    rw [loglevels_unique hq hp hne hsq hs]

theorem strToLoglvl_of_none {s : Str} (hnone : ∀ p ∈ loglevels, ¬ s <+: p.2) :
    strToLoglvl s (strnlen s 15) = 2 ^ 32 - 1 := by
  have hfind : (loglevels.find? fun p => strncmpEq s p.2 (strnlen s 15)) = none :=
    List.find?_eq_none.mpr fun p hp => fun h => hnone p hp ((strncmpEq_loglevel s hp).mp h)
  rw [strToLoglvl, hfind]

/-- The name of a level is found again by its key. -/
theorem loglvlToStr_of_mem {p : Nat × Str} (hp : p ∈ loglevels) : loglvlToStr p.1 = p.2 := by
  have hall : ∀ p ∈ loglevels, loglvlToStr p.1 = p.2 := by decide
  exact hall p hp

/-! ## The command -/

variable (y : Sys)

/-- `control,get-logging` answers with this name. -/
def Reports (w : World) (name : Str) : Prop :=
  ∀ cmd, parseRequest cmd = .getLogging →
    .send (lit "resp,ok,0,response," ++ name) [] ∈ ((processCmd y cmd).run w).out

/-- What `control,set-logging` does with a string: it sets the level of that name, and
leaves the level alone when there is none. -/
structure LevelExact (w w' : World) (s : Str) : Prop where
  named : ∀ p ∈ loglevels, p.2 = s →
    Reports y w' s ∧ ∀ f ∈ logFunctions, f.2 w'.srv.level = true ↔ f.1 ≤ p.1
  unnamed : (∀ p ∈ loglevels, p.2 ≠ s) → w'.srv.level = w.srv.level

/-- The string is a name; or it is the beginning of the name of the level there is; or it
is the beginning of no name, and no name belongs to the level there is. -/
def LevelKept (prior : Nat) (s : Str) : Prop :=
  (∃ p ∈ loglevels, p.2 = s) ∨ (∃ p ∈ loglevels, s <+: p.2 ∧ p.1 = prior) ∨
    ((∀ p ∈ loglevels, ¬ s <+: p.2) ∧ prior = 2 ^ 32 - 1)

theorem run_controlled {op : Op} {granted : M Unit} {w : World} (hset : w.sess.ops op = true) :
    (controlled op granted).run w = granted.run w := by
  have hrun : (isSet op).run w = ⟨.ok true, w, []⟩ := by rw [run_isSet, hset]
  show (isSet op >>= fun b => if b = true then granted else _).run w = _
  rw [run_bind_of_run hrun]
  rfl

/-- A session with the pointers of a ROOT session. -/
def IsRoot (s : Session) : Prop := ∃ uid s₀, mknod rootUsr uid = some s₀ ∧ s.ops = s₀.ops

theorem IsRoot.ops {s : Session} (h : IsRoot s) : s.ops = initDataRoot.ops := by
  obtain ⟨uid, s₀, hmk, hops⟩ := h
  rw [hops]
  rcases mknod_cases hmk with ⟨hrole, -⟩ | ⟨hrole, -⟩ | ⟨-, rfl⟩
  · exact absurd hrole (by decide)
  · exact absurd hrole (by decide)
  · rfl

/-- The level is what the search returns, the answer is always the same. -/
theorem run_setLogging {w : World} (hroot : IsRoot w.sess) (s : Str) :
    (((Request.setLogging (some s)).prog y).run w).state
      = { w with srv := { w.srv with level := strToLoglvl s (strnlen s 15) } } := by
  have hset : w.sess.ops .setMode = true := by rw [hroot.ops]; rfl
  have hcall : (callPtr .setMode [some s] (setLoggingLevel (some s))).run w
      = ⟨.ok (), { w with srv := { w.srv with level := strToLoglvl s (strnlen s 15) } },
        [.invoke .setMode [some s]]⟩ := by
    rw [run_callPtr, if_pos hset]
    rfl
  obtain ⟨w', hw'⟩ : ∃ w', { w with srv := { w.srv with level := strToLoglvl s (strnlen s 15) } }
      = w' := ⟨_, rfl⟩
  have hwrite : w'.sess.ops .write = true := by
    rw [← hw', hroot.ops]
    rfl
  rw [hw'] at hcall ⊢
  show ((controlled .setMode _).run w).state = _
  rw [run_controlled hset, run_bind_of_run hcall, run_sendResponse (by decide) hwrite]

/-- The string given is a token. -/
theorem ne_nil_of_setLogging {cmd s : Str} (h : parseRequest cmd = .setLogging (some s)) :
    s ≠ [] := by
  have hread := h ▸ parseRequest_readFrom cmd
  exact field_ne_nil hread.symm

theorem processCmd_setLogging {w : World} (hroot : IsRoot w.sess) {cmd s : Str}
    (hcmd : parseRequest cmd = .setLogging (some s)) :
    ((processCmd y cmd).run w).state.srv.level = strToLoglvl s (strnlen s 15) ∧
      ((processCmd y cmd).run w).state.sess = w.sess := by
  obtain ⟨saved, hrun⟩ := processCmd_run y cmd w
  rw [hrun, hcmd, run_setLogging y (w := { w with saved }) hroot]
  exact ⟨rfl, rfl⟩

theorem send_getLogging {w : World} (hroot : IsRoot w.sess) {p : Nat × Str} (hp : p ∈ loglevels)
    (hlevel : w.srv.level = p.1) :
    .send (lit "resp,ok,0,response," ++ p.2) [] ∈ ((Request.getLogging.prog y).run w).out := by
  have hset : w.sess.ops .getMode = true := by rw [hroot.ops]; rfl
  have hwrite : w.sess.ops .write = true := by rw [hroot.ops]; rfl
  have hcall : (callPtr .getMode [] getLogginLevel).run w
      = ⟨.ok p.2, w, [.invoke .getMode []]⟩ := by
    rw [run_callPtr, if_pos hset]
    show Outcome.mk (.ok (loglvlToStr w.srv.level)) _ _ = _
    rw [hlevel, loglvlToStr_of_mem hp]
    rfl
  have htext : sprintf (lit "resp,ok,0,response,%s") [p.2] = lit "resp,ok,0,response," ++ p.2 := by
    simp [lit, sprintf]
  have hfit : (lit "resp,ok,0,response," ++ p.2).length < mb 15 := by
    have hall : ∀ p ∈ loglevels, (lit "resp,ok,0,response," ++ p.2).length < mb 15 := by decide
    exact hall p hp
  show _ ∈ ((controlled .getMode _).run w).out
  rw [run_controlled hset, run_bind_of_run hcall,
    run_sendResponse (by rw [← htext] at hfit; exact hfit) hwrite]
  show _ ∈ [_, _, Event.send (sprintf (lit "resp,ok,0,response,%s") [p.2]) []]
  rw [htext]
  simp

theorem reports_level {w : World} (hroot : IsRoot w.sess) {p : Nat × Str} (hp : p ∈ loglevels)
    (hlevel : w.srv.level = p.1) : Reports y w p.2 := by
  intro cmd hcmd
  obtain ⟨saved, hrun⟩ := processCmd_run y cmd w
  rw [hrun, hcmd]
  exact send_getLogging y (w := { w with saved }) hroot hp hlevel

/-- **The log level.** `control,set-logging` from a ROOT session sets the level that is
named, and no other string changes it, if and only if the string is a name, or the search
happens to return the level there is. -/
theorem levelExact_iff {w : World} (hroot : IsRoot w.sess) {cmd s : Str}
    (hcmd : parseRequest cmd = .setLogging (some s)) :
    LevelExact y w ((processCmd y cmd).run w).state s ↔ LevelKept w.srv.level s := by
  have hne := ne_nil_of_setLogging hcmd
  obtain ⟨hlevel, hsess⟩ := processCmd_setLogging y hroot hcmd
  generalize ((processCmd y cmd).run w).state = w' at hlevel hsess ⊢
  by_cases hname : ∃ p ∈ loglevels, p.2 = s
  · obtain ⟨p, hp, rfl⟩ := hname
    rw [strToLoglvl_of_begins hne hp (List.prefix_refl _)] at hlevel
    refine iff_of_true ⟨?_, fun hnone => absurd rfl (hnone p hp)⟩ (.inl ⟨p, hp, rfl⟩)
    intro q hq hqs
    obtain rfl := loglevels_unique hq hp hne (hqs ▸ List.prefix_refl _) (List.prefix_refl _)
    refine ⟨reports_level y (hsess ▸ hroot) hq hlevel, fun f hf => ?_⟩
    rw [logFunctions_iff hf, hlevel]
  · -- no name is the string, so the level has to stay
    have hother : ∀ p ∈ loglevels, p.2 ≠ s := fun p hp heq => hname ⟨p, hp, heq⟩
    have hexact : LevelExact y w w' s ↔ w'.srv.level = w.srv.level :=
      ⟨fun h => h.unnamed hother, fun h => ⟨fun p hp heq => absurd heq (hother p hp), fun _ => h⟩⟩
    rw [hexact, hlevel]
    by_cases hbegins : ∃ p ∈ loglevels, s <+: p.2
    · obtain ⟨p, hp, hs⟩ := hbegins
      rw [strToLoglvl_of_begins hne hp hs]
      constructor
      · intro heq
        exact .inr (.inl ⟨p, hp, hs, heq⟩)
      · rintro (hexact | ⟨q, hq, hsq, heq⟩ | ⟨hnone, -⟩)
        · exact absurd hexact hname
        · rw [loglevels_unique hp hq hne hs hsq, heq]
        · exact absurd hs (hnone p hp)
    · have hnone : ∀ p ∈ loglevels, ¬ s <+: p.2 := fun p hp hs => hbegins ⟨p, hp, hs⟩
      rw [strToLoglvl_of_none hnone]
      constructor
      · intro heq
        exact .inr (.inr ⟨hnone, heq.symm⟩)
      · rintro (hexact | ⟨q, hq, hsq, -⟩ | ⟨-, heq⟩)
        · exact absurd hexact hname
        · exact absurd ⟨q, hq, hsq⟩ hbegins
        · exact heq.symm

/-- A ROOT session on a server that has just started. -/
def rootWorld : World := .before { initDataRoot with uid := 1 } fun _ => ⟨[], 0⟩

theorem isRoot_rootWorld : IsRoot rootWorld.sess := ⟨0, _, rfl, rfl⟩

/-- Its level becomes `info`. -/
theorem levelExact_info : LevelExact quietSys rootWorld
    ((processCmd quietSys (lit "control,set-logging,info,<$#EOT#$>")).run rootWorld).state
    (lit "info") :=
  (levelExact_iff quietSys isRoot_rootWorld (by decide +kernel)).mpr
    (.inl ⟨(6, lit "info"), by decide, rfl⟩)

/-- A name that is misspelt sets a level without a name, at which everything is written. -/
theorem not_levelExact :
    ¬ ∀ (y : Sys) (w : World) (cmd s : Str), IsRoot w.sess →
      parseRequest cmd = .setLogging (some s) →
      LevelExact y w ((processCmd y cmd).run w).state s := by
  intro h
  have hcmd : parseRequest (lit "control,set-logging,inf0,<$#EOT#$>")
      = .setLogging (some (lit "inf0")) := by decide +kernel
  have hexact := h quietSys rootWorld _ _ isRoot_rootWorld hcmd
  have hlevel := (processCmd_setLogging quietSys isRoot_rootWorld hcmd).1
  rw [hexact.unnamed (by decide), strToLoglvl_of_none (by decide)] at hlevel
  exact absurd hlevel (by decide)

end Thor
