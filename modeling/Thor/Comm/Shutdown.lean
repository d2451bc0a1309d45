import Thor.Comm.Server
import Thor.Rpc.Closing

/-!
# Shutting down

`control,shutdown` calls `server.down` with the session's own record, a copy of a
template whose list of clients is empty and whose listening descriptor is `0`. The one
thing the two records share is the state of the process, and the accepting thread sets
it back to `STATE_RUN` behind every login.

- `not_shutsDown_process`: no session is closed by it, in any state.
- `processCmd_state`: which commands change the state of the process.
- `staysShut_of_timely`: when `STATE_CLOSE` is final.
-/

namespace Thor

open CLib Prog

/-! ## What a shutdown closes -/

/-- The descriptors closed between two states. -/
def closedBetween (s s' : System) : List Int := s'.closed.drop s.closed.length

/-- Every connected session is closed, the listening socket is closed, and nothing else. -/
structure ShutsDown (s s' : System) : Prop where
  clients : ∀ (k : Nat) (c : Client), s.clients[k]? = some c → c.sess.isConnected = true →
    c.fd ∈ closedBetween s s' ∧ ∃ c', s'.clients[k]? = some c' ∧ c'.sess.isConnected = false
  sock : s.sock ∈ closedBetween s s'
  only : ∀ fd ∈ closedBetween s s', fd = s.sock ∨
    ∃ c ∈ s.clients, c.sess.isConnected = true ∧ fd = c.fd

/-- **`control,shutdown` shuts nothing down**: the session it comes from stays connected. -/
theorem not_shutsDown_process (y : Sys) {s : System} {k : Nat} {c : Client} {cmd : Str}
    (hc : s.clients[k]? = some c) (hconn : c.sess.isConnected = true)
    (hcmd : parseRequest cmd = .shutdown) : ¬ ShutsDown s (s.process y k c cmd) := by
  intro h
  obtain ⟨-, c', hc', hclosed⟩ := h.clients k c hc hconn
  obtain ⟨saved, hrun⟩ := processCmd_run y cmd (s.world c.sess)
  rw [hcmd] at hrun
  have hstays := Request.staysOpen y (r := .shutdown) nofun { s.world c.sess with saved } trivial
  have hsess : some c'.sess = some ((processCmd y cmd).run (s.world c.sess)).state.sess := by
    rw [← Option.map_some, ← hc', ← List.getElem?_map, (System.processed y s k c cmd).sessions,
      List.getElem?_modify_eq, List.getElem?_map, hc]
    rfl
  rw [Option.some.inj hsess, hrun, hstays.isConnected] at hclosed
  exact absurd hclosed (by simp [System.world, hconn])

/-- A client from the local network. -/
def localClient : Incoming := ⟨7, ⟨lit "10.0.0.1", by decide⟩, 4000⟩

/-- `admin` is logged in. -/
def rootServer : Option System :=
  run quietSys (.start (usersDb [adminRow]) true 3) (login localClient (lit "auth,admin,admin"))

/-- `admin` shuts the server down, and is still connected. -/
theorem not_shutsDown_admin : ∃ s c, rootServer = some s ∧ s.clients[0]? = some c ∧
    ¬ ShutsDown s (s.process quietSys 0 c (lit "control,shutdown,<$#EOT#$>")) := by
  have hconn : rootServer.bind (fun s => s.clients[0]?.map fun c => c.sess.isConnected)
      = some true := by decide +kernel
  obtain ⟨s, hs, hfirst⟩ := Option.bind_eq_some_iff.mp hconn
  obtain ⟨c, hc, hconn⟩ := Option.map_eq_some_iff.mp hfirst
  exact ⟨s, c, hs, hc, not_shutsDown_process quietSys hc hconn (by decide +kernel)⟩

/-- The listening socket is 3, and the descriptor that is closed is 0. -/
theorem not_shutsDown :
    ¬ ∀ (y : Sys) (db : Sql.Db) (isOpen : Bool) (sock : Int) (acts : List Action) (s : System)
      (k : Nat) (c : Client) (cmd : Str), run y (.start db isOpen sock) acts = some s →
      s.clients[k]? = some c → c.sess.isConnected = true → c.sess.mode = rootUsr →
      parseRequest cmd = .shutdown → ShutsDown s (s.process y k c cmd) := by
  intro h
  have hroot : rootServer.bind (fun s => s.clients[0]?.map fun c =>
      (s.sock, c.sess.isConnected, c.sess.mode,
        closedBetween s (s.process quietSys 0 c (lit "control,shutdown,<$#EOT#$>"))))
      = some (3, true, rootUsr, [0]) := by decide +kernel
  obtain ⟨s, hs, hfirst⟩ := Option.bind_eq_some_iff.mp hroot
  obtain ⟨c, hc, hclient⟩ := Option.map_eq_some_iff.mp hfirst
  simp only [Prod.mk.injEq] at hclient
  obtain ⟨hsock, hconn, hmode, hclosed⟩ := hclient
  have hdown := h quietSys _ _ _ _ s 0 c (lit "control,shutdown,<$#EOT#$>") hs hc hconn hmode
    (by decide +kernel)
  have hmem := hdown.sock
  rw [hclosed, hsock] at hmem
  exact absurd hmem (by decide)

/-! ## The state of the process -/

def StateKept (w : World) (_ : List Event) (w' : World) : Prop := w'.srv.state = w.srv.state

theorem StateKept.composable : Composable StateKept where
  refl _ := rfl
  trans h h' := h'.trans h

theorem stateKept_callPtr {α : Type} {op : Op} {args : List (Option Str)} {body : M α}
    (h : Always body StateKept) : Always (callPtr op args body) StateKept :=
  always_callPtr StateKept.composable (fun _ _ => rfl) h

theorem stateKept_cmd : CmdJudgment fun m => Always m StateKept where
  pure _ := RelOn.pure StateKept.composable
  bind hm hf := RelOn.seq StateKept.composable hm hf
  gets _ := RelOn.gets StateKept.composable
  fail _ := RelOn.fail StateKept.composable
  tick _ _ := rfl
  alloc _ _ _ := rfl
  setValue _ _ _ := rfl
  setResponse _ _ _ := rfl
  setDb _ _ _ := rfl
  setLevel _ _ _ := rfl
  emit _ _ _ _ := rfl
  call _ := stateKept_callPtr

theorem Request.stateKept (y : Sys) {r : Request} (h : r ≠ .shutdown) :
    Always (r.prog y) StateKept :=
  stateKept_cmd.prog y
    (fun _ => stateKept_cmd.bind
      (stateKept_callPtr (stateKept_cmd.bind (fun _ _ => rfl) fun _ _ _ => rfl)) fun _ _ _ => rfl)
    (fun hr => absurd hr h) (fun _ _ _ _ _ _ _ => rfl) (fun _ _ _ _ => rfl)

/-- The state is kept, or the process is closed. -/
def KeptOrClosed (w : World) (_ : List Event) (w' : World) : Prop :=
  w'.srv.state = w.srv.state ∨ w'.srv.state = stateClose

theorem KeptOrClosed.composable : Composable KeptOrClosed where
  refl _ := .inl rfl
  trans h h' := by
    rcases h' with h' | h'
    · rw [KeptOrClosed, h']
      exact h
    · exact .inr h'

theorem keptOrClosed_down (y : Sys) : Always (down y) KeptOrClosed := by
  refine RelOn.seq KeptOrClosed.composable (fun _ _ => .inr rfl) fun _ =>
    RelOn.seq KeptOrClosed.composable (fun _ _ => .inl rfl) fun _ => ?_
  split
  · exact RelOn.pure KeptOrClosed.composable
  · exact RelOn.fail KeptOrClosed.composable

/-- **The state of the process** is changed by a shutdown the session may call, and by no
other command. -/
theorem processCmd_state (y : Sys) (cmd : Str) (w : World) :
    ((processCmd y cmd).run w).state.srv.state = w.srv.state ∨
      parseRequest cmd = .shutdown ∧ w.sess.ops .down = true ∧
        ((processCmd y cmd).run w).state.srv.state = stateClose := by
  obtain ⟨saved, hrun⟩ := processCmd_run y cmd w
  rw [hrun]
  by_cases hcmd : parseRequest cmd = .shutdown
  · rw [hcmd]
    have hsend (fmt : String) (args : List Arg) : Always (sendResponse fmt args) KeptOrClosed :=
      fun w hw => .inl (stateKept_cmd.sendResponse fmt args w hw)
    have hshutdown : Always (do
        sendResponse "resp,ok,0,response,successful" []
        callPtr .down [] (down y)) KeptOrClosed := by
      exact RelOn.seq KeptOrClosed.composable (hsend _ _) fun _ =>
        always_callPtr KeptOrClosed.composable (fun _ _ => .inl rfl) (keptOrClosed_down y)
    show ((controlled _ _).run { w with saved }).state.srv.state = _ ∨ _ ∧ _ ∧
      ((controlled _ _).run { w with saved }).state.srv.state = _
    rw [controlled, run_tested]
    split
    · next hset =>
      exact (hshutdown { w with saved } trivial).imp id fun h => ⟨rfl, hset, h⟩
    · exact .inl (stateKept_cmd.reply _ { w with saved } trivial)
  · exact .inl ((parseRequest cmd).stateKept y hcmd { w with saved } trivial)

/-! ## When it is final -/

/-- A login is between its authentication and `set_state(STATE_RUN)`. -/
def System.midLogin (s : System) : Prop := s.accepting = .inserted ∨ ∃ c, s.accepting = .granted c

/-- The command is a shutdown that the session being served may call. -/
def System.shutsDown (s : System) (cmd : Str) : Prop :=
  parseRequest cmd = .shutdown ∧
    ∃ k c, s.serving = .serving k ∧ s.clients[k]? = some c ∧ c.sess.ops .down = true

/-- A shutdown comes while no login is under way, and whoever authenticates after it is
not one of the server's users. -/
def Timely (y : Sys) (s : System) : Action → Prop
  | .command cmd => s.shutsDown cmd → ¬ s.midLogin
  | .down => ¬ s.midLogin
  | .authenticate buf => s.srv.state = stateClose → ¬ s.admits y buf
  | _ => True

/-- After `STATE_CLOSE` the process does not run again, and nobody is authenticated (a
session made) or inserted into the list. -/
def StaysShut (s s' : System) : Prop :=
  s.srv.state = stateClose →
    s'.srv.state ≠ stateRun ∧ s'.uid = s.uid ∧ s'.clients.length = s.clients.length

/-- The state a closed process stays in. -/
def Shut (s s' : System) : Prop :=
  s.srv.state = stateClose →
    s'.srv.state = stateClose ∧ s'.uid = s.uid ∧ s'.clients.length = s.clients.length

theorem shut_refl (s : System) : Shut s s := fun h => ⟨h, rfl, rfl⟩

theorem Shut.trans {s t u : System} (h : Shut s t) (h' : Shut t u) : Shut s u := fun hs =>
  have ht := h hs
  have hu := h' ht.1
  ⟨hu.1, hu.2.1.trans ht.2.1, hu.2.2.trans ht.2.2⟩

/-- No login is under way in a closed process. -/
def Settled (s : System) : Prop := s.srv.state = stateClose → ¬ s.midLogin

theorem not_midLogin {s : System} (hinserted : s.accepting ≠ .inserted)
    (hgranted : ∀ c, s.accepting ≠ .granted c) : ¬ s.midLogin :=
  fun h => h.elim hinserted fun ⟨c, hc⟩ => hgranted c hc

theorem midLogin_congr {s s' : System} (h : s'.accepting = s.accepting) :
    s'.midLogin ↔ s.midLogin := by
  rw [System.midLogin, System.midLogin, h]

variable {y : Sys}

theorem System.command_shut {s s' : System} {cmd : Str} (hs : Settled s)
    (hcmd : s.shutsDown cmd → ¬ s.midLogin) (h : s.command y cmd = some s') :
    Settled s' ∧ Shut s s' := by
  obtain ⟨k, c, hserving, hc, -, rfl⟩ := System.command_some h
  have hp := System.processed y s k c cmd
  have hlength : (s.process y k c cmd).clients.length = s.clients.length := by
    have := congrArg List.length hp.sessions
    simpa using this
  have hstate : (s.process y k c cmd).srv.state = s.srv.state ∨
      s.shutsDown cmd ∧ (s.process y k c cmd).srv.state = stateClose := by
    rw [hp.srv]
    exact (processCmd_state y cmd (s.world c.sess)).imp id fun h =>
      ⟨⟨h.1, k, c, hserving, hc, h.2.1⟩, h.2.2⟩
  have hmid : System.midLogin { s.process y k c cmd with serving := .idle } ↔ s.midLogin :=
    midLogin_congr hp.accepting
  refine ⟨fun hclose => ?_, fun hclose => ⟨?_, hp.uid, hlength⟩⟩
  · rw [hmid]
    rcases hstate with hkept | ⟨hdown, -⟩
    · exact hs (hkept.symm.trans hclose)
    · exact hcmd hdown
  · exact hstate.elim (fun hkept => hkept.trans hclose) And.right

/-- A login leaves the state of the process alone. -/
theorem stateKept_auth (y : Sys) (isOpen : Bool) (buf : Str) :
    Always (auth y isOpen buf) StateKept := by
  have hp : PrimJudgment fun m => Always m StateKept := stateKept_cmd.prim
  have hmode (name pass : Str) (ilen plen : Nat) :
      Always (getUserMode y isOpen name pass ilen plen) StateKept := by
    unfold getUserMode
    split
    · exact hp.bind (hp.computeHash y _) fun _ => hp.bind (hp.sprintfInto _ _) fun _ =>
        hp.bind (hp.sqlite3Exec y _ _ _) fun _ => hp.pure _
    · exact hp.pure _
  have hlogged (name : Str) : Always (isLogged y (some name)) StateKept :=
    hp.bind (hp.sprintfInto _ _) fun _ => hp.bind (hp.sqlite3Exec y _ _ _) fun _ => hp.pure _
  unfold auth
  split
  · refine hp.bind (fun _ _ => rfl) fun cmd => hp.bind (fun _ _ => rfl) fun name =>
      hp.bind (fun _ _ => rfl) fun pass => hp.bind (hp.deref _) fun cmd => ?_
    split
    · exact hp.pure _
    · refine hp.bind (hp.deref _) fun name => hp.bind (hp.deref _) fun pass =>
        hp.bind (hlogged _) fun logBit => ?_
      split
      · exact hp.bind (hmode _ _ _ _) fun _ => hp.pure _
      · exact hp.pure _
  · exact hp.pure _

theorem System.authRun_state (s : System) (buf : Str) :
    (s.authRun y buf).state.srv.state = s.srv.state :=
  stateKept_auth y s.isOpen buf (s.world initDataRoot) trivial

/-- One step of either thread, or a call of `server.down`. -/
theorem step_shut {s s' : System} {a : Action} (hs : Settled s) (ha : Timely y s a)
    (h : step y s a = some s') : Settled s' ∧ Shut s s' := by
  cases a with
  | connect p =>
    obtain ⟨-, -, rfl⟩ := System.connect_some h
    exact ⟨fun _ => not_midLogin nofun nofun, shut_refl s⟩
  | check =>
    obtain ⟨p, -, ⟨hclose, rfl⟩ | ⟨hclose, rfl⟩⟩ := System.check_some h
    · exact ⟨fun _ => not_midLogin nofun nofun, fun _ => ⟨rfl, rfl, by simp [System.down]⟩⟩
    · exact ⟨fun _ => not_midLogin nofun nofun, shut_refl s⟩
  | join =>
    obtain ⟨p, -, -, rfl⟩ := System.join_some h
    exact ⟨fun _ => not_midLogin nofun nofun, shut_refl s⟩
  | authenticate buf =>
    obtain ⟨p, logBit, -, ⟨mode, sess, hadmits, -, rfl⟩ | ⟨-, rfl⟩⟩ := System.authenticate_some h
    · -- the process is not closed, and authentication does not close it
      have hrun : s.srv.state ≠ stateClose := fun hclose => ha hclose hadmits
      exact ⟨fun hclose => absurd ((s.authRun_state buf).symm.trans hclose) hrun,
        fun hclose => absurd hclose hrun⟩
    · exact ⟨fun _ => not_midLogin nofun nofun,
        fun hclose => ⟨(s.authRun_state buf).trans hclose, rfl, rfl⟩⟩
  | insert =>
    obtain ⟨c, hat, rfl⟩ := System.insert_some h
    have hrun : s.srv.state ≠ stateClose := fun hclose => hs hclose (.inr ⟨c, hat⟩)
    exact ⟨fun hclose => absurd hclose hrun, fun hclose => absurd hclose hrun⟩
  | setRun =>
    obtain ⟨hat, rfl⟩ := System.setRun_some h
    have hrun : s.srv.state ≠ stateClose := fun hclose => hs hclose (.inl hat)
    exact ⟨fun _ => not_midLogin nofun nofun, fun hclose => absurd hclose hrun⟩
  | leaveLoop =>
    obtain ⟨-, -, rfl⟩ := System.leaveLoop_some h
    exact ⟨fun _ => not_midLogin nofun nofun,
      fun _ => ⟨rfl, rfl, by simp [System.down, System.list]⟩⟩
  | visit k =>
    obtain ⟨c, -, -, hrun, rfl⟩ := System.visit_some h
    have hclose : s.srv.state ≠ stateClose := by
      rw [hrun]
      decide
    exact ⟨fun h => absurd h hclose, fun h => absurd h hclose⟩
  | command cmd => exact System.command_shut hs ha h
  | disconnect =>
    obtain ⟨k, -, rfl⟩ := System.disconnect_some h
    exact ⟨hs, fun hclose => ⟨hclose, rfl, by simp [System.modifyClient]⟩⟩
  | timeout =>
    obtain ⟨k, -, rfl⟩ := System.timeout_some h
    exact ⟨hs, fun hclose => ⟨hclose, rfl, by simp [System.modifyClient]⟩⟩
  | stop =>
    obtain ⟨-, -, rfl⟩ := System.stop_some h
    exact ⟨hs, shut_refl s⟩
  | down =>
    cases h
    exact ⟨fun _ => (midLogin_congr rfl).not.mpr ha, fun _ => ⟨rfl, rfl, by simp [System.down]⟩⟩

/-- **Shutdown is final** in every run in which it comes between two logins and no user of
the server tries to log in after it. -/
theorem staysShut_of_timely (db : Sql.Db) (isOpen : Bool) (sock : Int) (acts : List Action)
    (h : AllSteps (step y) (Timely y) (.start db isOpen sock) acts) :
    EveryPair (step y) StaysShut (.start db isOpen sock) acts :=
  (EveryPair.of_allSteps shut_refl (fun _ _ _ => Shut.trans) (fun _ _ _ => step_shut)
    (show Settled (.start db isOpen sock) from fun _ => not_midLogin nofun nofun) h).mono
      fun _ _ hshut hclose => (hshut hclose).imp_left fun h => by rw [h]; decide

/-- Surroundings in which the `pthread_join` of a thread that was never created returns. -/
def joiningSys : Sys := { quietSys with joinNull := true }

/-- `admin` logs in, and shuts the process down. -/
def loginThenShutdown : List Action :=
  login localClient (lit "auth,admin,admin") ++
    [.visit 0, .command (lit "control,shutdown,<$#EOT#$>"), .stop]

/-- A shutdown by the only user, while nobody else logs in. -/
theorem staysShut_admin :
    EveryPair (step joiningSys) StaysShut (.start (usersDb [adminRow]) true 3) loginThenShutdown := by
  refine staysShut_of_timely _ _ _ _ fun s₁ h₁ => ⟨trivial, fun s₂ h₂ => ⟨trivial, fun _ _ =>
    ⟨?_, fun s₄ _ => ⟨trivial, fun s₅ h₅ => ⟨trivial, fun s₆ h₆ => ⟨trivial, fun _ _ =>
      ⟨fun _ => ?_, fun _ _ => ⟨trivial, trivial⟩⟩⟩⟩⟩⟩⟩⟩
  · -- nothing has closed the process yet
    have hconnect : (System.start (usersDb [adminRow]) true 3).connect localClient = some s₁ := h₁
    have hcheck : s₁.check = some s₂ := h₂
    obtain ⟨-, -, rfl⟩ := System.connect_some hconnect
    obtain ⟨p, -, ⟨hclose, rfl⟩ | ⟨-, rfl⟩⟩ := System.check_some hcheck
    · exact absurd hclose (show stateRun ≠ stateClose by decide)
    · exact fun hclose => absurd hclose (show stateRun ≠ stateClose by decide)
  · -- the login is over
    have hset : s₄.setRun = some s₅ := h₅
    have hvisit : s₅.visit 0 = some s₆ := h₆
    obtain ⟨-, rfl⟩ := System.setRun_some hset
    obtain ⟨c, -, -, -, rfl⟩ := System.visit_some hvisit
    exact not_midLogin nofun nofun

/-- A shutdown while somebody else is between authentication and `set_state(STATE_RUN)`. -/
theorem not_staysShut :
    ¬ ∀ (y : Sys) (db : Sql.Db) (isOpen : Bool) (sock : Int) (acts : List Action),
      EveryPair (step y) StaysShut (.start db isOpen sock) acts := by
  intro h
  let acts := login localClient (lit "auth,admin,admin") ++
    [.connect localClient, .check, .authenticate (lit "auth,admin,admin"),
      .visit 0, .command (lit "control,shutdown,<$#EOT#$>")]
  have hclose : (run joiningSys (.start (usersDb [adminRow]) true 3) acts).map
      (fun s => s.srv.state) = some stateClose := by decide +kernel
  have hrun : ((run joiningSys (.start (usersDb [adminRow]) true 3) acts).bind fun s =>
      (run joiningSys s [.insert, .setRun]).map fun s => s.srv.state) = some stateRun := by
    decide +kernel
  obtain ⟨t, ht, htstate⟩ := Option.map_eq_some_iff.mp hclose
  rw [ht] at hrun
  obtain ⟨u, hu, hustate⟩ := Option.map_eq_some_iff.mp hrun
  exact ((h _ _ _ _ (acts ++ [.insert, .setRun])).related ht hu htstate).1 hustate

end Thor
