import Thor.Comm.Shutdown

/-!
# A full server

The loop in `__accept` goes on while `actv_client_count` is below `max_count`. The counter
counts logins, and nothing counts them back when a session leaves.

- `Counted`, `step_counted`: the counter is the length of the list, and each step changes
  the number of connected sessions by what it inserts and what leaves.
- `full_iff`: the loop ends with all sessions connected exactly when nobody has left.
-/

namespace Thor

open CLib Prog

/-- The number of connected sessions. -/
def System.connected (s : System) : Nat := (s.clients.map Client.sess).countP Session.isConnected

/-- The guard of the loop in `__accept` fails. -/
def System.LoopEnds (s : System) : Prop := s.accepting = .guard ∧ ¬ s.count < maxCount

/-- A session leaves: by a command with `bye`, or by closing its connection. -/
def Action.departs : Action → Bool
  | .command cmd => strstr cmd (lit "bye")
  | .disconnect => true
  | _ => false

/-- Somebody commands a shutdown. -/
def Action.commandsShutdown : Action → Prop
  | .command cmd => parseRequest cmd = .shutdown
  | .down => True
  | _ => False

/-! ## One step -/

theorem countP_modify {α : Type} {p : α → Bool} {f : α → α} : ∀ {l : List α} {k : Nat} {a : α},
    l[k]? = some a → (l.modify k f).countP p + (p a).toNat = l.countP p + (p (f a)).toNat
  | [], _, _, h => by simp at h
  | b :: l, 0, a, h => by
    obtain rfl : b = a := by simpa using h
    simp only [List.modify_zero_cons, List.countP_cons]
    cases p b <;> cases p (f b) <;> simp
  | b :: l, k + 1, a, h => by
    have ih := countP_modify (p := p) (f := f) (l := l) (k := k) (a := a) (by simpa using h)
    simp only [List.modify_succ_cons, List.countP_cons]
    omega

/-- `bye`, on a session whose `server.close` is set. -/
theorem run_bye (y : Sys) {w : World} {u : Unit} (h : ((Request.bye.prog y).run w).val = .ok u) :
    (Request.bye.prog y).run w =
      ⟨.ok (), { w with sess := { w.sess with isConnected := false } },
        [.invoke .close [], .closeClient, .freeIp]⟩ := by
  obtain ⟨_, hcall, -⟩ := bind_val_ok h
  show (callPtr .close [] closeClient >>= fun _ => emit .freeIp).run w = _
  rw [run_bind_of_ok hcall]
  rw [run_callPtr] at hcall ⊢
  split at hcall
  · next hset =>
    rw [if_pos hset]
    rfl
  · cases hcall

/-- What a command leaves of the connection. -/
theorem processCmd_isConnected (y : Sys) {cmd : Str} {w : World} {u : Unit}
    (h : ((processCmd y cmd).run w).val = .ok u) (hconn : w.sess.isConnected = true) :
    ((processCmd y cmd).run w).state.sess.isConnected = !strstr cmd (lit "bye") := by
  obtain ⟨saved, hrun⟩ := processCmd_run y cmd w
  rw [hrun] at h ⊢
  cases hbye : strstr cmd (lit "bye") with
  | true =>
    rw [parseRequest_of_bye (strstr_iff.mp hbye)] at h ⊢
    rw [run_bye y h]
    rfl
  | false =>
    have hne : parseRequest cmd ≠ .bye := parseRequest_ne_bye fun h => by
      rw [strstr_iff.mpr h] at hbye
      cases hbye
    exact ((parseRequest cmd).staysOpen y hne { w with saved } trivial).isConnected.trans hconn

/-- What holds while nobody has commanded a shutdown and the loop has not ended. -/
structure Counted (s : System) : Prop where
  state : s.srv.state = stateRun
  serving : ∀ k, s.serving = .serving k → ∃ c, s.clients[k]? = some c ∧ c.sess.isConnected = true
  count : s.count = s.clients.length
  granted : ∀ c, s.accepting = .granted c → c.sess.isConnected = true
  room : s.accepting = .guard ∨ s.accepting = .inserted ∨ s.count < maxCount
  bound : s.count ≤ maxCount

theorem counted_start (db : Sql.Db) (isOpen : Bool) (sock : Int) : Counted (.start db isOpen sock) :=
  ⟨rfl, nofun, rfl, nofun, .inl rfl, Nat.zero_le _⟩

variable {y : Sys} {s s' : System}

theorem not_serving_of_idle {P : Nat → Prop} (h : s.serving = .idle) :
    ∀ k, s.serving = .serving k → P k :=
  fun _ hk => nomatch h.symm.trans hk

/-- What a step adds to the connected sessions, and what it takes away. -/
def Balanced (a : Action) (s s' : System) : Prop :=
  s'.connected + a.departs.toNat + s.clients.length = s.connected + s'.clients.length

theorem balanced_of_sessions {a : Action} (ha : a.departs = false)
    (h : s'.clients.map Client.sess = s.clients.map Client.sess) : Balanced a s s' := by
  have hlength := congrArg List.length h
  rw [List.length_map, List.length_map] at hlength
  rw [Balanced, System.connected, System.connected, h, ha, hlength]
  rfl

/-- A session that is being served leaves, or stays. -/
theorem balanced_of_modify {a : Action} {k : Nat} {c : Client} {f : Session → Session}
    (hc : s.clients[k]? = some c) (hconn : c.sess.isConnected = true)
    (hf : (f c.sess).isConnected = !a.departs)
    (h : s'.clients.map Client.sess = (s.clients.map Client.sess).modify k f) : Balanced a s s' := by
  have hlength := congrArg List.length h
  rw [List.length_map, List.length_modify, List.length_map] at hlength
  have hsess : (s.clients.map Client.sess)[k]? = some c.sess := by rw [List.getElem?_map, hc]; rfl
  have hcount := countP_modify (p := Session.isConnected) (f := f) hsess
  rw [hconn, hf, ← h] at hcount
  rw [Balanced, System.connected, System.connected, hlength]
  cases hdeparts : a.departs with
  | true =>
    rw [hdeparts] at hcount
    simp only [Bool.toNat_true, Bool.not_true, Bool.toNat_false] at hcount ⊢
    omega
  | false =>
    rw [hdeparts] at hcount
    simp only [Bool.toNat_true, Bool.not_false, Bool.toNat_false] at hcount ⊢
    omega

theorem System.command_counted {cmd : Str} (hs : Counted s) (hcmd : parseRequest cmd ≠ .shutdown)
    (h : s.command y cmd = some s') : Counted s' ∧ Balanced (.command cmd) s s' := by
  obtain ⟨k, c, hserving, hc, ⟨u, hok⟩, rfl⟩ := System.command_some h
  have hp := System.processed y s k c cmd
  obtain ⟨c', hc', hconn⟩ := hs.serving k hserving
  obtain rfl : c = c' := Option.some.inj (hc.symm.trans hc')
  have hlength : (s.process y k c cmd).clients.length = s.clients.length := by
    have := congrArg List.length hp.sessions
    simpa using this
  have hstate : (s.process y k c cmd).srv.state = stateRun := by
    rw [hp.srv]
    rcases processCmd_state y cmd (s.world c.sess) with hkept | ⟨hshut, -⟩
    · exact hkept.trans hs.state
    · exact absurd hshut hcmd
  refine ⟨⟨hstate, not_serving_of_idle rfl, ?_, ?_, ?_, ?_⟩, ?_⟩
  · exact hp.count.trans (hs.count.trans hlength.symm)
  · exact fun d hd => hs.granted d (hp.accepting.symm.trans hd)
  · have hroom := hs.room
    rwa [← hp.accepting, ← hp.count] at hroom
  · exact hp.count.le.trans hs.bound
  · exact balanced_of_modify (f := fun _ => _) hc hconn
      (processCmd_isConnected y (w := s.world c.sess) hok hconn) hp.sessions

/-- The sessions the serving thread has come to, and those behind it. -/
theorem map_visited {α : Type} {g : Client → α} (hg : ∀ c, g (c.touch .node) = g c)
    (l : List Client) (k : Nat) :
    (l.take k ++ (l.drop k).map (Client.touch .node)).map g = l.map g := by
  have hcomp : g ∘ Client.touch .node = g := funext hg
  rw [List.map_append, List.map_map, hcomp, ← List.map_append, List.take_append_drop]

theorem getElem?_visited {l : List Client} {k : Nat} {c : Client} (h : l[k]? = some c) :
    (l.take k ++ (l.drop k).map (Client.touch .node))[k]? = some (c.touch .node) := by
  obtain ⟨hlt, rfl⟩ := List.getElem?_eq_some_iff.mp h
  have hlength : (l.take k).length = k := List.length_take_of_le hlt.le
  rw [List.getElem?_append_right hlength.le, hlength, Nat.sub_self, List.getElem?_map,
    List.getElem?_drop, Nat.add_zero, h]
  rfl

/-- One step while nobody commands a shutdown. -/
theorem step_counted {a : Action} (hs : Counted s) (ha : ¬ a.commandsShutdown)
    (h : step y s a = some s') (hleft : s'.accepting ≠ .left) : Counted s' ∧ Balanced a s s' := by
  have hrun : s.srv.state ≠ stateClose := by
    rw [hs.state]
    decide
  cases a with
  | connect p =>
    obtain ⟨-, hlt, rfl⟩ := System.connect_some h
    exact ⟨⟨hs.state, hs.serving, hs.count, nofun, .inr (.inr hlt), hs.bound⟩,
      balanced_of_sessions rfl rfl⟩
  | check =>
    obtain ⟨p, hat, ⟨hclose, -⟩ | ⟨-, rfl⟩⟩ := System.check_some h
    · exact absurd hclose hrun
    · have hlt : s.count < maxCount := by simpa [hat] using hs.room
      exact ⟨⟨hs.state, hs.serving, hs.count, nofun, .inr (.inr hlt), hs.bound⟩,
        balanced_of_sessions rfl rfl⟩
  | join =>
    obtain ⟨p, hat, hended, rfl⟩ := System.join_some h
    have hlt : s.count < maxCount := by simpa [hat] using hs.room
    exact ⟨⟨hs.state, hs.serving, hs.count, nofun, .inr (.inr hlt), hs.bound⟩,
      balanced_of_sessions rfl rfl⟩
  | authenticate buf =>
    obtain ⟨p, logBit, hat, ⟨mode, sess, -, -, rfl⟩ | ⟨-, rfl⟩⟩ := System.authenticate_some h
    · have hlt : s.count < maxCount := by simpa [hat] using hs.room
      refine ⟨⟨(s.authRun_state buf).trans hs.state, hs.serving, hs.count, ?_, .inr (.inr hlt),
        hs.bound⟩, balanced_of_sessions rfl rfl⟩
      rintro c ⟨⟩
      rfl
    · exact ⟨⟨(s.authRun_state buf).trans hs.state, hs.serving, hs.count, nofun, .inl rfl,
        hs.bound⟩, balanced_of_sessions rfl rfl⟩
  | insert =>
    obtain ⟨c, hat, rfl⟩ := System.insert_some h
    -- the guard has been passed with room for one more
    have hlt : s.count < maxCount := by simpa [hat] using hs.room
    refine ⟨⟨hs.state, fun k hk => ?_, ?_, nofun, .inr (.inl rfl), hlt⟩, ?_⟩
    · obtain ⟨d, hd, hconn⟩ := hs.serving k hk
      obtain ⟨hklt, -⟩ := List.getElem?_eq_some_iff.mp hd
      show ∃ c', (s.clients.modify (s.clients.length - 1) (Client.touch .node) ++ [c])[k]? = some c' ∧
        c'.sess.isConnected = true
      rw [List.getElem?_append_left (by simpa using hklt), List.getElem?_modify, hd]
      split
      · exact ⟨_, rfl, hconn⟩
      · exact ⟨_, rfl, hconn⟩
    · simp [hs.count]
    · have hconn := hs.granted c hat
      have hsess := System.map_modify_kept (g := Client.sess) (f := Client.touch .node)
        (fun _ => rfl) s.clients (s.clients.length - 1)
      simp [Balanced, System.connected, Action.departs, hsess, hconn]
      omega
  | setRun =>
    obtain ⟨-, rfl⟩ := System.setRun_some h
    exact ⟨⟨rfl, hs.serving, hs.count, nofun, .inl rfl, hs.bound⟩, balanced_of_sessions rfl rfl⟩
  | leaveLoop =>
    obtain ⟨-, -, rfl⟩ := System.leaveLoop_some h
    exact absurd rfl hleft
  | visit k =>
    obtain ⟨c, -, hc, -, rfl⟩ := System.visit_some h
    refine ⟨⟨hs.state, fun j hj => ?_, ?_, hs.granted, hs.room, hs.bound⟩,
      balanced_of_sessions rfl (map_visited (fun _ => rfl) _ _)⟩
    · -- only a connected session is served
      have hat : (if c.sess.isConnected then ServeAt.serving k else .idle) = .serving j := hj
      split at hat
      · next hconn =>
        cases hat
        exact ⟨_, getElem?_visited hc, hconn⟩
      · cases hat
    · have hlength := congrArg List.length (map_visited (g := Client.sess) (fun _ => rfl) s.clients k)
      rw [List.length_map, List.length_map] at hlength
      exact hs.count.trans hlength.symm
  | command cmd => exact System.command_counted hs ha h
  | disconnect =>
    obtain ⟨k, hserving, rfl⟩ := System.disconnect_some h
    obtain ⟨c, hc, hconn⟩ := hs.serving k hserving
    refine ⟨⟨hs.state, not_serving_of_idle rfl, ?_, hs.granted, hs.room, hs.bound⟩, ?_⟩
    · simp [System.modifyClient, hs.count]
    · exact balanced_of_modify (f := fun sess => { sess with isConnected := false }) hc hconn rfl
        (System.map_modify (g := Client.sess)
          (f := fun c => { c.touch .node with sess := { c.sess with isConnected := false } })
          (fun _ => rfl) _ _)
  | timeout =>
    obtain ⟨k, -, rfl⟩ := System.timeout_some h
    refine ⟨⟨hs.state, not_serving_of_idle rfl, ?_, hs.granted, hs.room, hs.bound⟩,
      balanced_of_sessions rfl (System.map_modify_kept (f := Client.touch .node) (fun _ => rfl) _ _)⟩
    simp [System.modifyClient, hs.count]
  | stop =>
    -- the thread stops in a closed process only
    obtain ⟨-, hclose, -⟩ := System.stop_some h
    exact absurd hclose hrun
  | down => exact absurd trivial ha

/-! ## Runs -/

/-- Behind the loop the accepting thread stays there. -/
theorem step_left {a : Action} (hs : s.accepting = .left) (h : step y s a = some s') :
    s'.accepting = .left :=
  (accepting_of_serves h (serves_of_left hs h)).trans hs

theorem run_left : ∀ {acts : List Action} {s : System}, s.accepting = .left →
    run y s acts = some s' → s'.accepting = .left
  | [], _, hs, h => Option.some.inj h ▸ hs
  | _ :: _, _, hs, h => by
    obtain ⟨t, ht, hrun⟩ := runSteps_cons h
    exact run_left (step_left hs ht) hrun

/-- **Logins and departures** of a run whose loop has not ended yet. -/
theorem run_counted : ∀ {acts : List Action} {s : System}, Counted s →
    (∀ a ∈ acts, ¬ a.commandsShutdown) → s'.accepting ≠ .left → run y s acts = some s' →
    Counted s' ∧
      s'.connected + acts.countP Action.departs + s.clients.length = s.connected + s'.clients.length
  | [], s, hs, _, _, h => by
    obtain rfl : s = s' := Option.some.inj h
    exact ⟨hs, rfl⟩
  | a :: acts, s, hs, hno, hleft, h => by
    obtain ⟨t, ht, hrun⟩ := runSteps_cons h
    have htleft : t.accepting ≠ .left := fun hat => hleft (run_left hat hrun)
    obtain ⟨hcounted, hstep⟩ := step_counted hs (hno a (List.mem_cons_self ..)) ht htleft
    obtain ⟨hcounted', hrest⟩ := run_counted hcounted
      (fun b hb => hno b (List.mem_cons_of_mem a hb)) hleft hrun
    refine ⟨hcounted', ?_⟩
    rw [Balanced] at hstep
    have hcount : (a :: acts).countP Action.departs
        = acts.countP Action.departs + a.departs.toNat := by
      rw [List.countP_cons]
      cases a.departs <;> rfl
    omega

/-- **The loop ends with all sessions connected** exactly when none has left, as long as
nobody commands a shutdown. -/
theorem full_iff {db : Sql.Db} {isOpen : Bool} {sock : Int} {acts : List Action}
    (hrun : run y (.start db isOpen sock) acts = some s) (hends : s.LoopEnds)
    (hno : ∀ a ∈ acts, ¬ a.commandsShutdown) :
    s.connected = maxCount ↔ ∀ a ∈ acts, a.departs = false := by
  have hleft : s.accepting ≠ .left := by
    rw [hends.1]
    exact nofun
  obtain ⟨hs, hcount⟩ := run_counted (counted_start db isOpen sock) hno hleft hrun
  have hlength : s.clients.length = maxCount := by
    rw [← hs.count]
    exact Nat.le_antisymm hs.bound (Nat.le_of_not_lt hends.2)
  have hsum : s.connected + acts.countP Action.departs = maxCount := by
    rw [← hlength]
    simpa [System.start, System.connected] using hcount
  have hnone : (∀ a ∈ acts, a.departs = false) ↔ acts.countP Action.departs = 0 := by
    rw [List.countP_eq_zero]
    simp
  rw [hnone]
  omega

/-- Surroundings with no database open, where users are looked up in the built-in table. -/
def tableSys : Sys := { quietSys with fault := fun _ => some .misuse }

/-- `n` logins of `admin`. (A sixth byte is needed, and is not compared.) -/
def logins (n : Nat) : List Action :=
  (List.replicate n (login localClient (lit "auth,admin1,admin1"))).flatten

theorem mem_logins {n : Nat} {a : Action} (h : a ∈ logins n) :
    a.departs = false ∧ ¬ a.commandsShutdown := by
  obtain ⟨l, hl, ha⟩ := List.mem_flatten.mp h
  rw [List.eq_of_mem_replicate hl, login] at ha
  simp only [List.mem_cons, List.not_mem_nil, or_false] at ha
  rcases ha with rfl | rfl | rfl | rfl | rfl <;> exact ⟨rfl, id⟩

/-- `__accept` is before its guard. -/
def AcceptAt.isGuard : AcceptAt → Bool
  | .guard => true
  | _ => false

theorem loopEnds_of_isGuard {s : System} (hguard : s.accepting.isGuard = true)
    (hcount : s.count = maxCount) : s.LoopEnds := by
  refine ⟨?_, hcount.ge.not_gt⟩
  cases hat : s.accepting <;> first | rfl | exact absurd (hat ▸ hguard) nofun

/-- As many logins as there is room for. -/
theorem full_logins : ∃ s, run tableSys (.start (usersDb []) false 3) (logins maxCount) = some s ∧
    s.connected = maxCount := by
  have hends : (run tableSys (.start (usersDb []) false 3) (logins maxCount)).map
      (fun s => (s.accepting.isGuard, s.count)) = some (true, maxCount) := by decide +kernel
  obtain ⟨s, hs, hat⟩ := Option.map_eq_some_iff.mp hends
  obtain ⟨hguard, hcount⟩ := Prod.mk.inj hat
  exact ⟨s, hs, (full_iff hs (loopEnds_of_isGuard hguard hcount)
    fun _ ha => (mem_logins ha).2).mpr fun _ ha => (mem_logins ha).1⟩

/-- One session leaves before the others log in. -/
theorem not_full :
    ¬ ∀ (y : Sys) (db : Sql.Db) (isOpen : Bool) (sock : Int) (acts : List Action) (s : System),
      run y (.start db isOpen sock) acts = some s → s.LoopEnds →
      (∀ a ∈ acts, ¬ a.commandsShutdown) → s.connected = maxCount := by
  intro h
  let acts := logins 1 ++ [.visit 0, .disconnect] ++ logins 31
  have hends : (run tableSys (.start (usersDb []) false 3) acts).map
      (fun s => (s.accepting.isGuard, s.count, s.connected)) = some (true, maxCount, 31) := by
    decide +kernel
  obtain ⟨s, hs, hat⟩ := Option.map_eq_some_iff.mp hends
  simp only [Prod.mk.injEq] at hat
  obtain ⟨hguard, hcount, hconnected⟩ := hat
  have hno : ∀ a ∈ acts, ¬ a.commandsShutdown := fun a ha => by
    simp only [acts, List.mem_append, List.mem_cons, List.not_mem_nil, or_false] at ha
    rcases ha with (ha | rfl | rfl) | ha
    · exact (mem_logins ha).2
    · exact id
    · exact id
    · exact (mem_logins ha).2
  have hfull := h _ _ _ _ acts s hs (loopEnds_of_isGuard hguard hcount) hno
  exact absurd (hconnected.symm.trans hfull) (by decide)

end Thor
