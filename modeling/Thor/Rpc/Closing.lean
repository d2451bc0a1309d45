import Thor.Rpc.Walk

/-!
# What ends a session

`__process_cmd` looks for `bye` before it looks at fields, and it looks for it
anywhere in the text; and a command that crashes takes the server down with all its
sessions. So a session stays connected through a command exactly when those three
letters do not occur in it and it does not crash. What the session was made with stays
as it is (`Request.sessionKept`).
-/

namespace Thor

open CLib Sql Prog

/-- The session is not closed, and is as connected as it was. -/
structure StaysOpen (w : World) (o : List Event) (w' : World) : Prop where
  closed : ∀ args, .invoke .close args ∉ o
  isConnected : w'.sess.isConnected = w.sess.isConnected

theorem StaysOpen.composable : Composable StaysOpen where
  refl w := ⟨by simp, rfl⟩
  trans h h' :=
    ⟨fun args hm => (List.mem_append.mp hm).elim (h.closed args) (h'.closed args),
      h'.isConnected.trans h.isConnected⟩

/-- No primitive operation but the two on the client itself ends the session. -/
theorem staysOpen_cmd : CmdJudgment fun m => Always m StaysOpen where
  pure _ := RelOn.pure StaysOpen.composable
  bind hm hf := RelOn.seq StaysOpen.composable hm hf
  gets _ := RelOn.gets StaysOpen.composable
  fail _ := RelOn.fail StaysOpen.composable
  tick _ _ := ⟨by simp, rfl⟩
  alloc _ _ _ := ⟨fun _ h => (nomatch List.mem_singleton.mp h), rfl⟩
  setValue _ _ _ := ⟨by simp [Thor.setValue], rfl⟩
  setResponse _ _ _ := ⟨by simp [Thor.setResponse], rfl⟩
  setDb _ _ _ := ⟨by simp, rfl⟩
  setLevel _ _ _ := ⟨by simp, rfl⟩
  emit _ hinvoke _ _ := ⟨fun args h => hinvoke .close args (List.mem_singleton.mp h).symm, rfl⟩
  call hop := always_callPtr StaysOpen.composable <| RelOn.emit fun _ _ =>
    ⟨fun _ hm => hop (Event.invoke.inj (List.mem_singleton.mp hm)).1.symm, rfl⟩

/-- `server.down` on a session is about the server and its descriptor `0`. -/
theorem staysOpen_down (y : Sys) : Always (down y) StaysOpen := by
  refine staysOpen_cmd.bind (fun _ _ => ⟨by simp, rfl⟩) fun _ =>
    staysOpen_cmd.bind (staysOpen_cmd.emit rfl fun _ _ => nofun) fun _ => ?_
  split
  · exact staysOpen_cmd.pure _
  · exact staysOpen_cmd.fail _

theorem Request.staysOpen (y : Sys) {r : Request} (hbye : r ≠ .bye) : Always (r.prog y) StaysOpen :=
  staysOpen_cmd.prog y (fun h => absurd h hbye) (fun _ => staysOpen_down y)
    (fun _ _ _ _ _ _ _ => ⟨by simp, rfl⟩) (fun _ _ _ _ => ⟨by simp, rfl⟩)

/-! ## What a session is made with -/

/-- What `__accept` makes a session with. -/
structure Identity where
  ops : Op → Bool
  mode : Int
  uid : Nat
  isLogged : Nat
  ip : IpText
  port : Int

def Session.identity (s : Session) : Identity := ⟨s.ops, s.mode, s.uid, s.isLogged, s.ip, s.port⟩

def SessionKept (w : World) (_ : List Event) (w' : World) : Prop :=
  w'.sess.identity = w.sess.identity

namespace SessionKept

variable {w w' : World} {o : List Event}

theorem composable : Composable SessionKept where
  refl _ := rfl
  trans h h' := h'.trans h

theorem ops (h : SessionKept w o w') : w'.sess.ops = w.sess.ops := congrArg Identity.ops h

theorem isLogged (h : SessionKept w o w') : w'.sess.isLogged = w.sess.isLogged :=
  congrArg Identity.isLogged h

end SessionKept

theorem sessionKept_cmd : CmdJudgment fun m => Always m SessionKept where
  pure _ := RelOn.pure SessionKept.composable
  bind hm hf := RelOn.seq SessionKept.composable hm hf
  gets _ := RelOn.gets SessionKept.composable
  fail _ := RelOn.fail SessionKept.composable
  tick _ _ := rfl
  alloc _ _ _ := rfl
  setValue _ _ _ := rfl
  setResponse _ _ _ := rfl
  setDb _ _ _ := rfl
  setLevel _ _ _ := rfl
  emit _ _ _ _ := rfl
  call _ h := always_callPtr SessionKept.composable (fun _ _ => rfl) h

/-- No command changes it. -/
theorem Request.sessionKept (y : Sys) (r : Request) : Always (r.prog y) SessionKept := by
  refine sessionKept_cmd.prog y (fun _ => ?_) (fun _ => ?_) (fun _ _ _ _ _ _ _ => rfl)
    fun _ _ _ _ => rfl
  · refine RelOn.seq SessionKept.composable ?_ fun _ _ _ => rfl
    refine always_callPtr SessionKept.composable (fun _ _ => rfl) ?_
    exact RelOn.seq SessionKept.composable (fun _ _ => rfl) fun _ _ _ => rfl
  · refine sessionKept_cmd.bind (fun _ _ => rfl) fun _ =>
      sessionKept_cmd.bind (fun _ _ => rfl) fun _ => ?_
    split
    · exact sessionKept_cmd.pure _
    · exact sessionKept_cmd.fail _

/-! ## Commands -/

/-- What `signal_handler` (main.c) makes of a session: `server.down` of the server object
closes every client in its list. -/
def World.takenDown (w : World) : World :=
  { w with
    srv := { w.srv with state := stateClose }
    sess := { w.sess with isConnected := false } }

/-- The world that a command leaves; a crash runs into the handler. -/
def leftBy (y : Sys) (cmd : Str) (w : World) : World :=
  match ((processCmd y cmd).run w).val with
  | .ok _ => ((processCmd y cmd).run w).state
  | .error _ => ((processCmd y cmd).run w).state.takenDown

/-- Processing a command leaves the session connected. -/
def StaysConnected (y : Sys) (cmd : Str) (w : World) : Prop :=
  (∀ args, .invoke .close args ∉ ((processCmd y cmd).run w).out) ∧
    (leftBy y cmd w).sess.isConnected = true

theorem parseRequest_of_bye {cmd : Str} (h : lit "bye" <:+: cmd) : parseRequest cmd = .bye :=
  if_pos (strstr_iff.mpr h)

theorem parseRequest_ne_bye {cmd : Str} (h : ¬ lit "bye" <:+: cmd) : parseRequest cmd ≠ .bye := by
  intro hbye
  have hread := hbye ▸ parseRequest_readFrom cmd
  exact h (strstr_iff.mp hread)

/-- A command with `bye` calls `ssl_tls.close`, whether the session has it or not. -/
theorem close_called {y : Sys} {cmd : Str} (h : lit "bye" <:+: cmd) (w : World) :
    .invoke .close [] ∈ ((processCmd y cmd).run w).out := by
  obtain ⟨saved, hrun⟩ := processCmd_run y cmd w
  rw [hrun, parseRequest_of_bye h]
  have hcall : .invoke .close [] ∈ ((callPtr .close [] closeClient).run { w with saved }).out := by
    rw [run_callPtr]
    split <;> exact List.mem_cons_self ..
  show _ ∈ ((callPtr .close [] closeClient >>= fun _ => emit .freeIp).run { w with saved }).out
  rw [run_bind]
  split
  · exact List.mem_append_left _ hcall
  · exact hcall

/-- **Sessions stay connected** through exactly the commands without `bye` in their text
that do not crash, whatever their first field is. -/
theorem staysConnected_iff (y : Sys) (cmd : Str) {w : World} (hconn : w.sess.isConnected = true) :
    StaysConnected y cmd w ↔
      ¬ lit "bye" <:+: cmd ∧ ∀ c, ((processCmd y cmd).run w).val ≠ .error c := by
  obtain ⟨saved, hrun⟩ := processCmd_run y cmd w
  constructor
  · rintro ⟨hclosed, hleft⟩
    refine ⟨fun hbye => hclosed [] (close_called hbye w), fun c hcrash => ?_⟩
    unfold leftBy at hleft
    rw [hcrash] at hleft
    cases hleft
  · rintro ⟨hbye, hval⟩
    have hstays := Request.staysOpen y (parseRequest_ne_bye hbye) { w with saved } trivial
    rw [← hrun] at hstays
    refine ⟨hstays.closed, ?_⟩
    rw [leftBy]
    cases hout : ((processCmd y cmd).run w).val with
    | ok _ => exact hstays.isConnected.trans hconn
    | error c => exact absurd hout (hval c)

/-- An item is added to the list. -/
theorem staysConnected_add :
    StaysConnected quietSys (lit "db,add,items,1,2,3,tea,<$#EOT#$>")
      (.before { initDataRoot with isConnected := true } (usersDb [])) := by
  refine (staysConnected_iff quietSys _ rfl).mpr ⟨by decide +kernel, fun c hcrash => ?_⟩
  have hok : ((processCmd quietSys (lit "db,add,items,1,2,3,tea,<$#EOT#$>")).run
      (.before { initDataRoot with isConnected := true } (usersDb []))).val.isOk = true := by
    decide +kernel
  rw [hcrash] at hok
  exact Bool.false_ne_true hok

/-- An item whose name says goodbye ends the session that adds it. -/
theorem not_staysConnected :
    ¬ ∀ (y : Sys) (cmd : Str) (w : World), w.sess.isConnected = true →
      findCmd (field cmd 0) ∈ [some .auth, some .db, some .logcmd, some .rpccmd, some .control] →
      parseRequest cmd ≠ .shutdown → strstr cmd marker = true → StaysConnected y cmd w := by
  intro h
  have hconn := h quietSys (lit "db,add,items,1,1,1,goodbye card,<$#EOT#$>")
    (.before { initDataRoot with isConnected := true } (usersDb [])) rfl (by decide +kernel)
    (by decide +kernel) (by decide)
  exact hconn.1 [] (close_called (strstr_iff.mp (by decide +kernel)) _)

end Thor
