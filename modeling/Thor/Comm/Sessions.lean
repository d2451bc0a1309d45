import Thor.Comm.Peers

/-!
# Sessions and descriptors over a run (comm/server.c, core/thor.c)

A session is made by a login and joins the list behind it. `server.down` frees the nodes
of the list; no other step takes a session out of it, moves it, or changes what it was made
with, and no descriptor gets lost on the way.

- `roster`: the sessions in the list, and the one that is about to join. A step keeps it or
  appends the session of a login (`step_roster`).
- `LoggedIn`: the login of the run behind a session.
- `step_kept`: what a step does to what a session owns.
- `sessions_persist`: until `server.down` is called the list of sessions only grows, its
  numbers are those of the logins, and each session has the role that `__auth` returned and
  the pointers of this role.
- `descriptors_closed`: when `main` is done, every descriptor that `accept` has returned has
  been closed, and so has the listening one.
-/

namespace Thor

open CLib Prog

variable {y : Sys} {s s' : System} {a : Action}

/-! ## The roster -/

/-- The session of a login that is not in the list yet. -/
def AcceptAt.made : AcceptAt → List Identity
  | .granted c => [c.sess.identity]
  | _ => []

/-- The sessions made so far. -/
def System.roster (s : System) : List Identity := s.identities ++ s.accepting.made

/-- A login makes a session: `__auth` has returned its role, and `__mknod` its number and
its pointers. -/
structure Makes (y : Sys) (s : System) (buf : Str) (i : Identity) : Prop where
  role : ∃ bit, (s.authRun y buf).val = .ok (i.mode, bit)
  template : ∃ sess, mknod i.mode s.uid = some sess ∧ i.ops = sess.ops
  uid : i.uid = s.uid + 1

theorem mknod_uid {mode : Int} {uid : Nat} {sess : Session} (h : mknod mode uid = some sess) :
    sess.uid = uid + 1 := by
  rcases mknod_cases h with ⟨-, rfl⟩ | ⟨-, rfl⟩ | ⟨-, rfl⟩ <;> rfl

/-- What `authenticate` does, with the role it got. -/
theorem System.authenticate_made {buf : Str} (h : s.authenticate y buf = some s') :
    s'.identities = s.identities ∧ s.accepting.made = [] ∧
      (s'.accepting.made = [] ∧ s'.uid = s.uid ∨
        ∃ i, s'.accepting.made = [i] ∧ Makes y s buf i ∧ s'.uid = s.uid + 1) := by
  unfold authenticate at h
  split at h
  · next p mode bit hat hval =>
    rw [hat]
    dsimp only at h
    split at h
    · next sess hsess =>
      have huid := mknod_uid hsess
      cases h
      exact ⟨rfl, rfl, .inr ⟨_, rfl, ⟨⟨bit, hval⟩, ⟨sess, hsess, rfl⟩, huid⟩, rfl⟩⟩
    · cases h
      exact ⟨rfl, rfl, .inl ⟨rfl, rfl⟩⟩
  · cases h

/-- **What a step does to the sessions**: it leaves them what they are, or the one that is
about to join does, or a login makes one. -/
theorem step_sessions (h : step y s a = some s') :
    (s'.identities = s.identities ∧ s'.accepting.made = s.accepting.made ∧ s'.uid = s.uid) ∨
      (∃ i, s.accepting.made = [i] ∧ s'.identities = s.identities ++ [i] ∧
        s'.accepting.made = [] ∧ s'.uid = s.uid) ∨
      ∃ buf i, a = .authenticate buf ∧ Makes y s buf i ∧ s'.identities = s.identities ∧
        s.accepting.made = [] ∧ s'.accepting.made = [i] ∧ s'.uid = s.uid + 1 := by
  have hmap {cs : List Client} {f : Client → Client}
      (hf : ∀ c, (f c).sess.identity = c.sess.identity) :
      (cs.map f).map (fun c => c.sess.identity) = cs.map fun c => c.sess.identity := by
    rw [List.map_map]
    exact List.map_congr_left fun c _ => hf c
  cases a with
  | connect p =>
    obtain ⟨hat, -, rfl⟩ := System.connect_some h
    exact .inl ⟨rfl, by rw [hat]; rfl, rfl⟩
  | check =>
    obtain ⟨p, hat, ⟨-, rfl⟩ | ⟨-, rfl⟩⟩ := System.check_some h
    · exact .inl ⟨hmap fun _ => rfl, by rw [hat]; rfl, rfl⟩
    · exact .inl ⟨rfl, by rw [hat]; rfl, rfl⟩
  | join =>
    obtain ⟨p, hat, -, rfl⟩ := System.join_some h
    exact .inl ⟨rfl, by rw [hat]; rfl, rfl⟩
  | authenticate buf =>
    obtain ⟨hlist, hnone, ⟨hmade, huid⟩ | ⟨i, hmade, hi, huid⟩⟩ := System.authenticate_made h
    · exact .inl ⟨hlist, hmade.trans hnone.symm, huid⟩
    · exact .inr (.inr ⟨buf, i, rfl, hi, hlist, hnone, hmade, huid⟩)
  | insert =>
    obtain ⟨c, hat, rfl⟩ := System.insert_some h
    refine .inr (.inl ⟨c.sess.identity, by rw [hat]; rfl, ?_, rfl, rfl⟩)
    show (s.clients.modify _ _ ++ [c]).map _ = _
    rw [List.map_append, identities_modify (f := Client.touch .node) fun _ => rfl]
    rfl
  | setRun =>
    obtain ⟨hat, rfl⟩ := System.setRun_some h
    exact .inl ⟨rfl, by rw [hat]; rfl, rfl⟩
  | leaveLoop =>
    obtain ⟨hat, -, rfl⟩ := System.leaveLoop_some h
    refine .inl ⟨?_, by rw [hat]; rfl, rfl⟩
    exact (hmap (f := Client.down) fun _ => rfl).trans (hmap (f := Client.print) fun _ => rfl)
  | visit k =>
    obtain ⟨c, -, -, -, rfl⟩ := System.visit_some h
    exact .inl ⟨map_visited (fun _ => rfl) _ _, rfl, rfl⟩
  | command cmd =>
    obtain ⟨k, c, -, hc, -, rfl⟩ := System.command_some h
    have hp := System.processed y s k c cmd
    exact .inl ⟨System.identities_process cmd hc, congrArg AcceptAt.made hp.accepting, hp.uid⟩
  | disconnect =>
    obtain ⟨k, -, rfl⟩ := System.disconnect_some h
    exact .inl ⟨identities_modify (f := fun c =>
      { c.touch .node with sess := { c.sess with isConnected := false } }) (fun _ => rfl) _ _,
      rfl, rfl⟩
  | timeout =>
    obtain ⟨k, -, rfl⟩ := System.timeout_some h
    exact .inl ⟨identities_modify (f := Client.touch .node) (fun _ => rfl) _ _, rfl, rfl⟩
  | stop =>
    obtain ⟨-, -, rfl⟩ := System.stop_some h
    exact .inl ⟨rfl, rfl, rfl⟩
  | down =>
    cases h
    exact .inl ⟨hmap fun _ => rfl, rfl, rfl⟩

/-- The list grows at its end. -/
theorem step_identities (h : step y s a = some s') : s.identities <+: s'.identities := by
  rcases step_sessions h with ⟨hlist, -⟩ | ⟨i, -, hlist, -⟩ | ⟨buf, i, -, -, hlist, -⟩
  · rw [hlist]
  · rw [hlist]
    exact List.prefix_append _ _
  · rw [hlist]

/-- The roster stays, or a login appends to it. -/
theorem step_roster (h : step y s a = some s') :
    s'.roster = s.roster ∧ s'.uid = s.uid ∨
      ∃ buf i, a = .authenticate buf ∧ Makes y s buf i ∧ s'.roster = s.roster ++ [i] ∧
        s'.uid = s.uid + 1 := by
  rw [System.roster, System.roster]
  rcases step_sessions h with ⟨hlist, hmade, huid⟩ | ⟨i, hwas, hlist, hmade, huid⟩ |
    ⟨buf, i, ha, hi, hlist, hwas, hmade, huid⟩
  · exact .inl ⟨by rw [hlist, hmade], huid⟩
  · exact .inl ⟨by rw [hlist, hmade, hwas, List.append_nil], huid⟩
  · exact .inr ⟨buf, i, ha, hi, by rw [hlist, hmade, hwas, List.append_nil], huid⟩

/-! ## The sessions of a run -/

/-- A login among the actions has made the session. -/
def LoggedIn (y : Sys) (s₀ : System) (acts : List Action) (i : Identity) : Prop :=
  ∃ past buf rest s, acts = past ++ .authenticate buf :: rest ∧ run y s₀ past = some s ∧
    Makes y s buf i

theorem LoggedIn.append {s₀ : System} {acts : List Action} {i : Identity}
    (h : LoggedIn y s₀ acts i) (more : List Action) : LoggedIn y s₀ (acts ++ more) i := by
  obtain ⟨past, buf, rest, s, rfl, hs, hi⟩ := h
  exact ⟨past, buf, rest ++ more, s, by simp, hs, hi⟩

/-- The sessions made so far are numbered, and each comes from a login. -/
structure Enrolled (y : Sys) (s₀ : System) (acts : List Action) (s : System) : Prop where
  count : s.uid = s.roster.length
  numbered : s.roster.map Identity.uid = List.range' 1 s.roster.length
  loggedIn : ∀ i ∈ s.roster, LoggedIn y s₀ acts i

/-- **One step** keeps the roster in order. -/
theorem Enrolled.step {s₀ : System} {acts : List Action} (hs : Enrolled y s₀ acts s)
    (hrun : run y s₀ acts = some s) (h : step y s a = some s') :
    Enrolled y s₀ (acts ++ [a]) s' := by
  rcases step_roster h with ⟨hroster, huid⟩ | ⟨buf, i, rfl, hi, hroster, huid⟩
  · refine ⟨by rw [huid, hroster, hs.count], by rw [hroster, hs.numbered], fun i hi => ?_⟩
    exact (hs.loggedIn i (hroster ▸ hi)).append [a]
  · refine ⟨?_, ?_, fun j hj => ?_⟩
    · rw [huid, hroster, List.length_append, hs.count]
      rfl
    · -- the new session has the next number
      rw [hroster, List.map_append, hs.numbered, List.length_append, List.map_singleton, hi.uid,
        hs.count, List.length_singleton, List.range'_1_concat, Nat.add_comm 1]
    · rw [hroster] at hj
      rcases List.mem_append.mp hj with hj | hj
      · exact (hs.loggedIn j hj).append _
      · rw [List.mem_singleton.mp hj]
        exact ⟨acts, buf, [], s, rfl, hrun, hi⟩

theorem run_append_some {s₀ : System} {acts more : List Action}
    (h : run y s₀ (acts ++ more) = some s') :
    ∃ s, run y s₀ acts = some s ∧ run y s more = some s' := by
  rw [run, runSteps_append] at h
  exact Option.bind_eq_some_iff.mp h

theorem run_append {s₀ : System} {acts more : List Action} (h : run y s₀ acts = some s)
    (h' : run y s more = some s') : run y s₀ (acts ++ more) = some s' := by
  rw [run, runSteps_append]
  exact Option.bind_eq_some_iff.mpr ⟨s, h, h'⟩

theorem run_singleton (h : run y s [a] = some s') : step y s a = some s' := by
  obtain ⟨t, ht, hlast⟩ := runSteps_cons h
  exact ht.trans hlast

theorem run_enrolled {db : Sql.Db} {isOpen : Bool} {sock : Int} {acts : List Action}
    (h : run y (.start db isOpen sock) acts = some s) :
    Enrolled y (.start db isOpen sock) acts s := by
  induction acts using List.reverseRecOn generalizing s with
  | nil =>
    cases h
    exact ⟨rfl, rfl, nofun⟩
  | append_singleton acts a ih =>
    obtain ⟨t, ht, hlast⟩ := run_append_some h
    exact (ih ht).step ht (run_singleton hlast)

/-! ## What the sessions own -/

/-- What the steps on a session leave alone, `server.down` apart. -/
structure Untold {α : Type} (g : Client → α) : Prop where
  close : ∀ c : Client, g c.close = g c
  ip : ∀ c : Client, g (c.release .ip) = g c
  touch : ∀ (c : Client) (r : Resource), g (c.touch r) = g c
  sess : ∀ (c : Client) (sess : Session), g { c with sess } = g c

/-- Descriptors get closed, the server keeps its own, and the sessions what `g` tells of them. -/
structure Kept {α : Type} (g : Client → α) (s s' : System) : Prop where
  closed : s.closed <+: s'.closed
  clients : s'.clients.map g = s.clients.map g
  sock : s'.sock = s.sock
  isOpen : s'.isOpen = s.isOpen

section Kept

variable {α : Type} {g : Client → α}

theorem kept_refl (s : System) : Kept g s s := ⟨List.prefix_refl _, rfl, rfl, rfl⟩

theorem Kept.trans {t : System} (h : Kept g s t) (h' : Kept g t s') : Kept g s s' :=
  ⟨h.closed.trans h'.closed, h'.clients.trans h.clients, h'.sock.trans h.sock,
    h'.isOpen.trans h.isOpen⟩

theorem map_kept {f : Client → Client} (hf : ∀ c, g (f c) = g c) (cs : List Client) :
    (cs.map f).map g = cs.map g := by
  rw [List.map_map]
  exact List.map_congr_left fun c _ => hf c

theorem Untold.print (hg : Untold g) (c : Client) : g c.print = g c :=
  (hg.touch _ _).trans (hg.touch _ _)

theorem Untold.event (hg : Untold g) (k : Nat) (s : System) (e : Event) :
    Kept g s (s.event k e) := by
  unfold System.event
  split
  · exact ⟨List.prefix_append _ _, System.map_modify_kept hg.close _ _, rfl, rfl⟩
  · exact ⟨List.prefix_refl _, System.map_modify_kept hg.ip _ _, rfl, rfl⟩
  · exact ⟨List.prefix_append _ _, rfl, rfl, rfl⟩
  · exact ⟨List.prefix_refl _, map_kept hg.print _, rfl, rfl⟩
  · exact kept_refl s

theorem Untold.process (hg : Untold g) (y : Sys) (s : System) (k : Nat) (c : Client) (cmd : Str) :
    Kept g s (s.process y k c cmd) := by
  have hevents : ∀ (out : List Event) (t : System), Kept g t (out.foldl (System.event k) t) := by
    intro out
    induction out with
    | nil => exact kept_refl
    | cons e out ih => exact fun t => (hg.event k t e).trans (ih (t.event k e))
  have hleave : Kept g s (s.leave ((processCmd y cmd).run (s.world c.sess)).state) :=
    ⟨List.prefix_refl _, rfl, rfl, rfl⟩
  refine (hleave.trans (hevents _ _)).trans ⟨List.prefix_refl _, ?_, rfl, rfl⟩
  exact System.map_modify_kept (g := g) (f := fun c => { c.touch .node with sess := _ })
    (fun c => (hg.sess _ _).trans (hg.touch c .node)) _ _

theorem kept_down (hdown : ∀ c : Client, g c.down = g c) (s : System) : Kept g s s.down :=
  ⟨by rw [System.down, List.append_assoc]; exact List.prefix_append _ _, map_kept hdown _, rfl, rfl⟩

/-- **What a step does to what the sessions in the list own**: they keep it, if a
`server.down` leaves it to them, and a session that joins brings its own. -/
theorem step_kept (hg : Untold g) (hdown : s.callsDown a = true → ∀ c : Client, g c.down = g c)
    (h : step y s a = some s') :
    Kept g s s' ∨ ∃ c, s.accepting = .granted c ∧ s'.closed = s.closed ∧ s'.sock = s.sock ∧
      s'.isOpen = s.isOpen ∧ s'.clients.map g = s.clients.map g ++ [g c] := by
  have hsame {f : Client → Client} (hf : ∀ c, g (f c) = g c) (k : Nat) :
      (s.clients.modify k f).map g = s.clients.map g :=
    System.map_modify_kept hf _ _
  have hnode (c : Client) : g (c.touch .node) = g c := hg.touch c .node
  cases a with
  | connect p =>
    obtain ⟨-, -, rfl⟩ := System.connect_some h
    exact .inl ⟨List.prefix_refl _, rfl, rfl, rfl⟩
  | check =>
    obtain ⟨p, -, ⟨hclose, rfl⟩ | ⟨-, rfl⟩⟩ := System.check_some h
    · have hkept := kept_down (hdown (decide_eq_true hclose)) s
      exact .inl ⟨hkept.closed, hkept.clients, hkept.sock, hkept.isOpen⟩
    · exact .inl ⟨List.prefix_refl _, rfl, rfl, rfl⟩
  | join =>
    obtain ⟨p, -, -, rfl⟩ := System.join_some h
    exact .inl ⟨List.prefix_refl _, rfl, rfl, rfl⟩
  | authenticate buf =>
    obtain ⟨p, logBit, -, ⟨mode, sess, -, -, rfl⟩ | ⟨-, rfl⟩⟩ := System.authenticate_some h
    · exact .inl ⟨List.prefix_refl _, rfl, rfl, rfl⟩
    · exact .inl ⟨List.prefix_append _ _, rfl, rfl, rfl⟩
  | insert =>
    obtain ⟨c, hat, rfl⟩ := System.insert_some h
    refine .inr ⟨c, hat, rfl, rfl, rfl, ?_⟩
    show (s.clients.modify _ _ ++ [c]).map _ = _
    rw [List.map_append, hsame hnode]
    rfl
  | setRun =>
    obtain ⟨-, rfl⟩ := System.setRun_some h
    exact .inl ⟨List.prefix_refl _, rfl, rfl, rfl⟩
  | leaveLoop =>
    obtain ⟨-, -, rfl⟩ := System.leaveLoop_some h
    have hlist : Kept g s s.list := ⟨List.prefix_refl _, map_kept hg.print _, rfl, rfl⟩
    have hkept := hlist.trans (kept_down (hdown rfl) s.list)
    exact .inl ⟨hkept.closed, hkept.clients, hkept.sock, hkept.isOpen⟩
  | visit k =>
    obtain ⟨c, -, -, -, rfl⟩ := System.visit_some h
    exact .inl ⟨List.prefix_refl _, map_visited hnode _ _, rfl, rfl⟩
  | command cmd =>
    obtain ⟨k, c, -, -, -, rfl⟩ := System.command_some h
    have hkept := hg.process y s k c cmd
    exact .inl ⟨hkept.closed, hkept.clients, hkept.sock, hkept.isOpen⟩
  | disconnect =>
    obtain ⟨k, -, rfl⟩ := System.disconnect_some h
    exact .inl ⟨List.prefix_refl _, hsame (f := fun c =>
      { c.touch .node with sess := { c.sess with isConnected := false } })
      (fun c => (hg.sess _ _).trans (hnode c)) k, rfl, rfl⟩
  | timeout =>
    obtain ⟨k, -, rfl⟩ := System.timeout_some h
    exact .inl ⟨List.prefix_refl _, hsame hnode k, rfl, rfl⟩
  | stop =>
    obtain ⟨-, -, rfl⟩ := System.stop_some h
    exact .inl ⟨List.prefix_refl _, rfl, rfl, rfl⟩
  | down =>
    cases h
    exact .inl (kept_down (hdown rfl) s)

end Kept

/-! ## The nodes of the list -/

/-- The sessions whose nodes have not been freed. -/
def System.nodes (s : System) : List Identity :=
  (s.clients.filter fun c => !c.released .node).map fun c => c.sess.identity

/-- No node has been freed. -/
structure Unfreed (s : System) : Prop where
  clients : ∀ c ∈ s.clients, c.released .node = false
  granted : ∀ c, s.accepting = .granted c → c.released .node = false

theorem unfreed_start (db : Sql.Db) (isOpen : Bool) (sock : Int) :
    Unfreed (.start db isOpen sock) :=
  ⟨fun _ hc => absurd hc (List.not_mem_nil), fun _ hc => nomatch hc⟩

theorem Unfreed.nodes (hs : Unfreed s) : s.nodes = s.identities := by
  have hall : s.clients.filter (fun c => !c.released .node) = s.clients :=
    List.filter_eq_self.mpr fun c hc => by rw [hs.clients c hc]; rfl
  rw [System.nodes, hall, System.identities]

/-- The client about to join was so before, or has just been authenticated. -/
theorem step_granted {c : Client} (h : step y s a = some s') (hc : s'.accepting = .granted c) :
    s.accepting = .granted c ∨
      ∃ p mode logBit sess, c = System.newClient p mode logBit sess := by
  by_cases ha : a.accepts = true
  · cases a with
    | connect p =>
      obtain ⟨-, -, rfl⟩ := System.connect_some h
      cases hc
    | check => obtain ⟨p, -, ⟨-, rfl⟩ | ⟨-, rfl⟩⟩ := System.check_some h <;> cases hc
    | join =>
      obtain ⟨p, -, -, rfl⟩ := System.join_some h
      cases hc
    | authenticate buf =>
      obtain ⟨p, logBit, -, ⟨mode, sess, -, -, rfl⟩ | ⟨-, rfl⟩⟩ := System.authenticate_some h
      · cases hc
        exact .inr ⟨p, mode, logBit, sess, rfl⟩
      · cases hc
    | insert =>
      obtain ⟨d, -, rfl⟩ := System.insert_some h
      cases hc
    | setRun =>
      obtain ⟨-, rfl⟩ := System.setRun_some h
      cases hc
    | leaveLoop =>
      obtain ⟨-, -, rfl⟩ := System.leaveLoop_some h
      cases hc
    | visit | command | disconnect | timeout | stop | down => cases ha
  · rw [accepting_of_serves h (Bool.eq_false_iff.mpr ha)] at hc
    exact .inl hc

theorem untold_node : Untold fun c => c.released .node :=
  ⟨fun _ => rfl, fun _ => rfl, fun _ _ => rfl, fun _ _ => rfl⟩

/-- **One step** that does not call `server.down` frees no node. -/
theorem Unfreed.step (hs : Unfreed s) (hup : s.callsDown a = false) (h : step y s a = some s') :
    Unfreed s' := by
  have hkept := step_kept untold_node (fun hdown => nomatch hup.symm.trans hdown) h
  have hfrom {l : List Bool} (hl : s'.clients.map (fun c => c.released .node) = l)
      (hall : ∀ b ∈ l, b = false) : ∀ c ∈ s'.clients, c.released .node = false :=
    fun c hc => hall _ (hl ▸ List.mem_map_of_mem hc)
  have hlist : ∀ b ∈ s.clients.map fun c => c.released .node, b = false := by
    rintro b hb
    obtain ⟨c, hc, rfl⟩ := List.mem_map.mp hb
    exact hs.clients c hc
  constructor
  · rcases hkept with hkept | ⟨c, hat, -, -, -, hclients⟩
    · exact hfrom hkept.clients hlist
    · refine hfrom hclients fun b hb => ?_
      rcases List.mem_append.mp hb with hb | hb
      · exact hlist b hb
      · rw [List.mem_singleton.mp hb]
        exact hs.granted c hat
  · intro c hc
    rcases step_granted h hc with hgranted | ⟨p, mode, logBit, sess, rfl⟩
    · exact hs.granted c hgranted
    · rfl

/-- No step of the run calls `server.down`. -/
def StaysUp (y : Sys) : System → List Action → Prop :=
  AllSteps (step y) fun s a => s.callsDown a = false

instance (y : Sys) (s : System) (acts : List Action) : Decidable (StaysUp y s acts) :=
  inferInstanceAs (Decidable (AllSteps ..))

/-- **Sessions persist.** In a run that does not call `server.down`, between two states the
list of sessions only grows at its end, and none of its nodes is freed; the sessions in it
are numbered in their order; and each was made by a login of the run, with the role that
`__auth` returned and the pointers of that role. -/
theorem sessions_persist {db : Sql.Db} {isOpen : Bool} {sock : Int} {acts more : List Action}
    (hup : StaysUp y (.start db isOpen sock) (acts ++ more))
    (h : run y (.start db isOpen sock) acts = some s) (h' : run y s more = some s') :
    s.nodes <+: s'.nodes ∧ s'.nodes = s'.identities ∧
      s'.nodes.map Identity.uid = List.range' 1 s'.nodes.length ∧
      ∀ i ∈ s'.nodes, LoggedIn y (.start db isOpen sock) (acts ++ more) i := by
  -- no node is freed, so the list a step leaves is the one `step_identities` speaks of
  have hpairs : EveryPair (step y) (fun s s' => s.nodes <+: s'.nodes)
      (.start db isOpen sock) (acts ++ more) := by
    refine EveryPair.of_allSteps (I := Unfreed) (fun s => List.prefix_refl s.nodes)
      (fun s t u (hst : s.nodes <+: t.nodes) htu => hst.trans htu) (fun s a s' hs ha hstep => ?_)
      (unfreed_start db isOpen sock) hup
    have hs' := hs.step ha hstep
    refine ⟨hs', ?_⟩
    rw [hs.nodes, hs'.nodes]
    exact step_identities hstep
  have hlast : EveryState (step y) Unfreed (.start db isOpen sock) (acts ++ more) :=
    EveryState.of_allSteps (fun s a s' hs ha hstep => hs.step ha hstep)
      (unfreed_start db isOpen sock) hup
  have hnodes : s'.nodes = s'.identities := (hlast.last (run_append h h')).nodes
  have hs := run_enrolled (run_append h h')
  refine ⟨hpairs.related h h', hnodes, ?_, fun i hi => ?_⟩
  · have hnumbered := hs.numbered
    rw [System.roster, List.map_append, List.length_append, ← List.range'_append_1] at hnumbered
    rw [hnodes]
    exact List.append_inj_left hnumbered (by simp)
  · exact hs.loggedIn i (List.mem_append_left _ (hnodes ▸ hi))

/-- Two logins of `admin`, and what the first has left. -/
theorem sessions_persist_logins : ∃ s s',
    run tableSys (.start (usersDb []) false 3) (logins 1) = some s ∧
      run tableSys s (logins 1) = some s' ∧ s.nodes <+: s'.nodes ∧ s'.nodes = s'.identities ∧
        s'.nodes.map Identity.uid = List.range' 1 s'.nodes.length ∧
          ∀ i ∈ s'.nodes,
            LoggedIn tableSys (.start (usersDb []) false 3) (logins 1 ++ logins 1) i := by
  have hruns : ((run tableSys (.start (usersDb []) false 3) (logins 1)).bind fun s =>
      (run tableSys s (logins 1)).map fun s' => s'.nodes.length) = some 2 := by decide +kernel
  obtain ⟨s, hs, hnext⟩ := Option.bind_eq_some_iff.mp hruns
  obtain ⟨s', hs', -⟩ := Option.map_eq_some_iff.mp hnext
  exact ⟨s, s', hs, hs', sessions_persist (by decide +kernel) hs hs'⟩

/-! ## Descriptors -/

theorem untold_fd : Untold Client.fd :=
  ⟨fun _ => rfl, fun _ => rfl, fun _ _ => rfl, fun _ _ => rfl⟩

/-- A step keeps the descriptors of the sessions in the list, and a session that joins
brings its own. -/
theorem step_fds (h : step y s a = some s') :
    Kept Client.fd s s' ∨ ∃ c, s.accepting = .granted c ∧ s'.closed = s.closed ∧
      s'.sock = s.sock ∧ s'.isOpen = s.isOpen ∧
        s'.clients.map Client.fd = s.clients.map Client.fd ++ [c.fd] :=
  step_kept untold_fd (fun _ _ => rfl) h

/-- The descriptor that the accepting thread has at hand. -/
def AcceptAt.fds : AcceptAt → List Int
  | .accepted p | .joining p | .checked p => [p.fd]
  | .granted c => [c.fd]
  | _ => []

/-- The descriptor is closed, or somebody still has it. -/
def System.Knows (s : System) (fd : Int) : Prop :=
  fd ∈ s.closed ∨ fd ∈ s.accepting.fds ∨ fd ∈ s.clients.map Client.fd

/-- The database stays open, or closed. -/
theorem step_isOpen (h : step y s a = some s') : s'.isOpen = s.isOpen := by
  rcases step_fds h with hkept | ⟨c, -, -, -, heq, -⟩
  · exact hkept.isOpen
  · exact heq

/-- The accepting thread passes its descriptor on: to the session it makes, or to `close`. -/
theorem step_acceptFds (h : step y s a = some s') {fd : Int} (hfd : fd ∈ s.accepting.fds) :
    s'.Knows fd := by
  by_cases ha : a.accepts = true
  · cases a with
    | connect p =>
      rw [(System.connect_some h).1] at hfd
      cases hfd
    | check =>
      obtain ⟨p, hat, ⟨-, rfl⟩ | ⟨-, rfl⟩⟩ := System.check_some h
      · rw [hat] at hfd
        exact .inr (.inl hfd)
      · rw [hat] at hfd
        exact .inr (.inl hfd)
    | join =>
      obtain ⟨p, hat, -, rfl⟩ := System.join_some h
      rw [hat] at hfd
      exact .inr (.inl hfd)
    | authenticate buf =>
      obtain ⟨p, logBit, hat, ⟨mode, sess, -, -, rfl⟩ | ⟨-, rfl⟩⟩ := System.authenticate_some h
      · rw [hat] at hfd
        exact .inr (.inl hfd)
      · rw [hat] at hfd
        exact .inl (List.mem_append_right _ hfd)
    | insert =>
      obtain ⟨c, hat, rfl⟩ := System.insert_some h
      rw [hat] at hfd
      refine .inr (.inr ?_)
      show fd ∈ (s.clients.modify _ _ ++ [c]).map Client.fd
      rw [List.map_append]
      exact List.mem_append_right _ hfd
    | setRun =>
      rw [(System.setRun_some h).1] at hfd
      cases hfd
    | leaveLoop =>
      rw [(System.leaveLoop_some h).1] at hfd
      cases hfd
    | visit | command | disconnect | timeout | stop | down => cases ha
  · rw [← accepting_of_serves h (Bool.eq_false_iff.mpr ha)] at hfd
    exact .inr (.inl hfd)

/-- **One step** loses no descriptor. -/
theorem step_knows (h : step y s a = some s') {fd : Int} (hfd : s.Knows fd) : s'.Knows fd := by
  rcases hfd with hclosed | hat | hclient
  · rcases step_fds h with hkept | ⟨c, -, heq, -, -⟩
    · exact .inl (hkept.closed.subset hclosed)
    · exact .inl (heq ▸ hclosed)
  · exact step_acceptFds h hat
  · rcases step_fds h with hkept | ⟨c, -, -, -, -, hfds⟩
    · exact .inr (.inr (hkept.clients ▸ hclient))
    · exact .inr (.inr (hfds ▸ List.mem_append_left _ hclient))

/-- Nobody has a descriptor any more. -/
structure System.Empty (s : System) : Prop where
  clients : ∀ fd ∈ s.clients.map Client.fd, fd ∈ s.closed
  sock : s.sock ∈ s.closed

theorem empty_down (s : System) : s.down.Empty := by
  refine ⟨fun fd hfd => ?_, List.mem_append_right _ (List.mem_singleton_self _)⟩
  rw [(kept_down (g := Client.fd) (fun _ => rfl) s).clients, ← List.mem_reverse,
    ← List.map_reverse] at hfd
  exact List.mem_append_left _ (List.mem_append_right _ hfd)

/-- Behind the loop of `__accept`, after the `server.down` of `main`. -/
theorem step_empty (hs : s.accepting = .left → s.Empty) (h : step y s a = some s')
    (hleft : s'.accepting = .left) : s'.Empty := by
  by_cases hat : s.accepting = .left
  · rcases step_fds h with hkept | ⟨c, hgranted, -⟩
    · obtain ⟨hclients, hsock⟩ := hs hat
      refine ⟨fun fd hfd => ?_, hkept.closed.subset (hkept.sock ▸ hsock)⟩
      exact hkept.closed.subset (hclients fd (hkept.clients ▸ hfd))
    · rw [hat] at hgranted
      cases hgranted
  · obtain rfl := leaveLoop_of_left hat h hleft
    obtain ⟨-, -, rfl⟩ := System.leaveLoop_some h
    obtain ⟨hclients, hsock⟩ := empty_down s.list
    exact ⟨hclients, hsock⟩

theorem run_knows {db : Sql.Db} {isOpen : Bool} {sock : Int} {acts : List Action}
    (h : run y (.start db isOpen sock) acts = some s) :
    (∀ p, .connect p ∈ acts → s.Knows p.fd) ∧ s.sock = sock ∧ (s.accepting = .left → s.Empty) := by
  induction acts using List.reverseRecOn generalizing s with
  | nil =>
    cases h
    exact ⟨nofun, rfl, nofun⟩
  | append_singleton acts a ih =>
    obtain ⟨t, ht, hlast⟩ := run_append_some h
    have hstep := run_singleton hlast
    obtain ⟨hknows, hsock, hempty⟩ := ih ht
    refine ⟨fun p hp => ?_, ?_, step_empty hempty hstep⟩
    · rcases List.mem_append.mp hp with hp | hp
      · exact step_knows hstep (hknows p hp)
      · -- the client has just been accepted
        obtain rfl := List.mem_singleton.mp hp
        obtain ⟨-, -, rfl⟩ := System.connect_some hstep
        exact .inr (.inl (List.mem_singleton_self _))
    · rcases step_fds hstep with hkept | ⟨c, -, -, heq, -⟩
      · exact hkept.sock.trans hsock
      · exact heq.trans hsock

def AcceptAt.isLeft : AcceptAt → Bool
  | .left => true
  | _ => false

theorem left_of_isLeft {a : AcceptAt} (h : a.isLeft = true) : a = .left := by
  cases a with
  | left => rfl
  | _ => cases h

/-- **No descriptor is lost.** In whatever order clients come, are refused, say `bye`, close
their connections or are left over: when `main` has left the loop and brought the server
down, every descriptor that `accept` has returned is closed, and the listening one is. -/
theorem descriptors_closed {db : Sql.Db} {isOpen : Bool} {sock : Int} {acts : List Action}
    (h : run y (.start db isOpen sock) acts = some s) (hleft : s.accepting = .left) :
    (∀ p, .connect p ∈ acts → p.fd ∈ s.closed) ∧ sock ∈ s.closed := by
  obtain ⟨hknows, hsock, hempty⟩ := run_knows h
  obtain ⟨hclients, hclosed⟩ := hempty hleft
  refine ⟨fun p hp => ?_, hsock ▸ hclosed⟩
  rcases hknows p hp with hfd | hfd | hfd
  · exact hfd
  · rw [hleft] at hfd
    cases hfd
  · exact hclients _ hfd

/-- `admin` fills the server, and it goes down. -/
theorem descriptors_closed_full : ∃ s,
    run tableSys (.start (usersDb []) false 3) (logins maxCount ++ [.leaveLoop]) = some s ∧
      (∀ p, .connect p ∈ logins maxCount ++ [.leaveLoop] → p.fd ∈ s.closed) ∧ 3 ∈ s.closed := by
  have hruns : ((run tableSys (.start (usersDb []) false 3)
      (logins maxCount ++ [.leaveLoop])).map fun s => s.accepting.isLeft) = some true := by
    decide +kernel
  obtain ⟨s, hs, hleft⟩ := Option.map_eq_some_iff.mp hruns
  exact ⟨s, hs, descriptors_closed hs (left_of_isLeft hleft)⟩

end Thor
