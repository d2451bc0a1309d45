import Thor.Comm.Capacity

/-!
# Releasing sessions

A session is released by `bye` and by every `server.down` on the server object. Neither
takes it out of the list, and neither looks at whether it has been released before.

- `History`, `Orderly`: what has happened in a run, and the steps that respect it.
- `Sound`, `step_sound`: what is still there while all steps do.
- `harmless_iff`: nothing is released twice, or read after its release, exactly when
  all steps do.
-/

namespace Thor

open CLib Prog

/-- No resource has been released twice, none has been used after its release. -/
def System.Harmless (s : System) : Prop := ∀ c ∈ s.clients, c.harm = false

/-- What a run has come to. -/
structure History where
  /-- a session has said `bye` -/
  bye : Bool
  /-- `server.down` has found sessions in the list -/
  emptied : Bool

def Action.saysBye : Action → Bool
  | .command cmd => strstr cmd (lit "bye")
  | _ => false

/-- The step works on the nodes of the list, `server.down` apart. -/
def Action.usesNodes : Action → Bool
  | .insert | .visit _ | .command _ | .disconnect | .timeout => true
  | _ => false

def History.after (h : History) (s : System) (a : Action) : History where
  bye := h.bye || a.saysBye
  emptied := h.emptied || (s.callsDown a && !s.clients.isEmpty)

/-- `server.down` comes before any `bye`, and once; the nodes are not used behind it. -/
def Orderly (p : History × System) (a : Action) : Prop :=
  (p.2.callsDown a = true → p.1.bye = false ∧ p.1.emptied = false) ∧
    (a.usesNodes = true → p.1.emptied = false)

instance (p : History × System) (a : Action) : Decidable (Orderly p a) := by
  unfold Orderly
  infer_instance

instance (s : System) : Decidable s.Harmless := by
  unfold System.Harmless
  infer_instance

/-! ## One session -/

namespace Client

/-- Nothing has been released. -/
def Whole (c : Client) : Prop := ∀ r, c.released r = false

variable {c : Client} {r : Resource} {h : History}

theorem touch_harm_iff : (c.touch r).harm = false ↔ c.harm = false ∧ c.released r = false :=
  Bool.or_eq_false_iff

/-- What `server.down` releases has not been released before; the ip is not among it. -/
theorem down_harm_iff : c.down.harm = false ↔
    c.harm = false ∧ ∀ r, r ≠ .ip → c.released r = false := by
  have hcases : (∀ r, r ≠ .ip → c.released r = false) ↔
      c.released .node = false ∧ c.released .tlsSession = false ∧ c.released .bio = false ∧
        c.released .ssl = false ∧ c.released .fd = false := by
    constructor
    · intro h
      exact ⟨h _ (by decide), h _ (by decide), h _ (by decide), h _ (by decide), h _ (by decide)⟩
    · rintro ⟨hnode, hsession, hbio, hssl, hfd⟩ r hr
      cases r <;> first | assumption | exact absurd rfl hr
  rw [hcases]
  simp only [down, close, release, touch, Bool.or_eq_false_iff, and_assoc, ne_eq, reduceCtorEq,
    not_false_eq_true, Function.update_of_ne]
  constructor
  · rintro ⟨hharm, hnode, hsession, hbio, hssl, hfd, -⟩
    exact ⟨hharm, hnode, hsession, hbio, hssl, hfd⟩
  · rintro ⟨hharm, hnode, hsession, hbio, hssl, hfd⟩
    exact ⟨hharm, hnode, hsession, hbio, hssl, hfd, hnode, hnode⟩

theorem down_released_node : c.down.released .node = true := by simp [down, release]

/-- What is known of a session in the list. -/
structure Sound (h : History) (c : Client) : Prop where
  harm : c.harm = false
  node : c.released .node = h.emptied
  whole : h.emptied = false → h.bye = false ∨ c.sess.isConnected = true → c.Whole

theorem Sound.touch (hc : c.Sound h) (hnode : h.emptied = false) : (c.touch .node).Sound h where
  harm := touch_harm_iff.mpr ⟨hc.harm, hc.node.trans hnode⟩
  node := hc.node
  whole := hc.whole

/-- A session that is still connected, or one whose connection is at an end. -/
theorem Sound.setSess {sess : Session} (hc : c.Sound h) (hconn : c.sess.isConnected = true) :
    { c with sess }.Sound h :=
  ⟨hc.harm, hc.node, fun hnode _ => hc.whole hnode (.inr hconn)⟩

/-- After `server.down`. -/
theorem Sound.down (hc : c.Sound h) (hbye : h.bye = false) (hnode : h.emptied = false)
    {h' : History} (hemptied : h'.emptied = true) : c.down.Sound h' where
  harm := down_harm_iff.mpr ⟨hc.harm, fun r _ => hc.whole hnode (.inl hbye) r⟩
  node := down_released_node.trans hemptied.symm
  whole hno := absurd (hemptied.symm.trans hno) nofun

end Client

/-! ## The system -/

/-- What is known of the system after orderly steps. -/
structure Sound (p : History × System) : Prop where
  clients : ∀ c ∈ p.2.clients, c.Sound p.1
  granted : ∀ c, p.2.accepting = .granted c → c.harm = false ∧ c.Whole
  serving : ∀ k, p.2.serving = .serving k → ∃ c, p.2.clients[k]? = some c ∧
    (p.1.emptied = false → c.sess.isConnected = true)
  bye : p.1.bye = true → ∃ c ∈ p.2.clients, c.released .fd = true
  emptied : p.1.emptied = true → p.2.clients ≠ []

theorem sound_start (db : Sql.Db) (isOpen : Bool) (sock : Int) :
    Sound (⟨false, false⟩, .start db isOpen sock) :=
  ⟨nofun, nofun, nofun, nofun, nofun⟩

variable {y : Sys} {h : History} {s s' : System} {a : Action}

theorem History.after_eq (hbye : a.saysBye = false) (hdown : s.callsDown a = false) :
    h.after s a = h := by
  cases h
  simp [after, hbye, hdown]

/-- A step that leaves the list alone. -/
theorem Sound.kept (hs : Sound (h, s)) (hclients : s'.clients = s.clients)
    (hserving : ∀ k, s'.serving = .serving k → s.serving = .serving k)
    (hgranted : ∀ c, s'.accepting = .granted c → c.harm = false ∧ c.Whole) : Sound (h, s') where
  clients := fun c hc => hs.clients c (hclients ▸ hc)
  granted := hgranted
  serving := fun k hk => by
    obtain ⟨c, hc, hconn⟩ := hs.serving k (hserving k hk)
    exact ⟨c, (congrArg (·[k]?) hclients).trans hc, hconn⟩
  bye := fun hbye => by
    obtain ⟨c, hc, hfd⟩ := hs.bye hbye
    exact ⟨c, hclients.symm ▸ hc, hfd⟩
  emptied := fun he => by
    show s'.clients ≠ []
    rw [hclients]
    exact hs.emptied he

/-- A step that changes sessions, but releases nothing. -/
theorem Sound.changed (hs : Sound (h, s)) (hnode : h.emptied = false)
    (hclients : ∀ c ∈ s'.clients, c.Sound h)
    (hserving : ∀ k, s'.serving = .serving k → ∃ c, s'.clients[k]? = some c ∧
      c.sess.isConnected = true)
    (hgranted : s'.accepting = s.accepting)
    (hreleased : s'.clients.map Client.released = s.clients.map Client.released) :
    Sound (h, s') where
  clients := hclients
  granted := fun c hc => hs.granted c (hgranted.symm.trans hc)
  serving := fun k hk => by
    obtain ⟨c, hc, hconn⟩ := hserving k hk
    exact ⟨c, hc, fun _ => hconn⟩
  bye := fun hbye => by
    obtain ⟨c, hc, hfd⟩ := hs.bye hbye
    have hmem : c.released ∈ s'.clients.map Client.released := by
      rw [hreleased]
      exact List.mem_map_of_mem hc
    obtain ⟨c', hc', heq⟩ := List.mem_map.mp hmem
    exact ⟨c', hc', heq ▸ hfd⟩
  emptied := fun he => nomatch hnode.symm.trans he

theorem mem_modify {α : Type} {l : List α} {k : Nat} {f : α → α} {b : α} (hb : b ∈ l.modify k f) :
    b ∈ l ∨ ∃ a, l[k]? = some a ∧ b = f a := by
  obtain ⟨j, hj⟩ := List.mem_iff_getElem?.mp hb
  rw [List.getElem?_modify] at hj
  obtain ⟨a, ha, rfl⟩ := Option.map_eq_some_iff.mp hj
  split
  · next hk => exact .inr ⟨a, hk ▸ ha, rfl⟩
  · exact .inl (List.mem_of_getElem? ha)

theorem mem_modify_self {α : Type} {l : List α} {k : Nat} {f : α → α} {a : α}
    (ha : l[k]? = some a) : f a ∈ l.modify k f := by
  refine List.mem_of_getElem? (i := k) ?_
  rw [List.getElem?_modify_eq, ha]
  rfl

theorem mem_visited {l : List Client} {k : Nat} {c : Client}
    (hc : c ∈ l.take k ++ (l.drop k).map (Client.touch .node)) :
    c ∈ l ∨ ∃ d ∈ l, c = d.touch .node := by
  rcases List.mem_append.mp hc with hc | hc
  · exact .inl (List.mem_of_mem_take hc)
  · obtain ⟨d, hd, rfl⟩ := List.mem_map.mp hc
    exact .inr ⟨d, List.mem_of_mem_drop hd, rfl⟩

/-- `bye` closes the session and frees its ip. -/
theorem System.process_bye {k : Nat} {c : Client} {cmd : Str} {u : Unit}
    (hok : ((processCmd y cmd).run (s.world c.sess)).val = .ok u)
    (hbye : strstr cmd (lit "bye") = true) :
    (s.process y k c cmd).clients = s.clients.modify k fun d =>
      { (d.close.release .ip).touch .node with sess := { c.sess with isConnected := false } } := by
  obtain ⟨saved, hrun⟩ := processCmd_run y cmd (s.world c.sess)
  rw [parseRequest_of_bye (strstr_iff.mp hbye)] at hrun
  rw [hrun] at hok
  rw [run_bye y hok] at hrun
  unfold System.process
  rw [hrun]
  show ((s.clients.modify k Client.close).modify k (Client.release .ip)).modify k _ = _
  rw [List.modify_modify_eq, List.modify_modify_eq]
  rfl

/-! ## Orderly steps -/

/-- Through `server.down`, the first that finds sessions in the list. -/
theorem Sound.downed {f : Client → Client} (hs : Sound (h, s)) (hbye : h.bye = false)
    (hnode : h.emptied = false) (hdown : s.callsDown a = true) (ha : a.saysBye = false)
    (hclients : s'.clients = s.clients.map fun c => (f c).down) (hserving : s'.serving = s.serving)
    (hf : ∀ c ∈ s.clients, (f c).Sound h)
    (hgranted : ∀ c, s'.accepting = .granted c → c.harm = false ∧ c.Whole) :
    Sound (h.after s a, s') := by
  have hemptied : (h.after s a).emptied = !s.clients.isEmpty := by
    simp [History.after, hnode, hdown]
  have hsaid : (h.after s a).bye = false := by simp [History.after, hbye, ha]
  refine ⟨fun c hc => ?_, hgranted, fun k hk => ?_,
    fun hb => absurd (hsaid.symm.trans hb) nofun, fun he => ?_⟩
  · rw [hclients] at hc
    obtain ⟨d, hd, rfl⟩ := List.mem_map.mp hc
    refine (hf d hd).down hbye hnode (hemptied.trans ?_)
    cases hlist : s.clients with
    | nil => exact absurd (hlist ▸ hd) List.not_mem_nil
    | cons _ _ => rfl
  · obtain ⟨c, hc, -⟩ := hs.serving k (hserving.symm.trans hk)
    refine ⟨(f c).down, by rw [hclients, List.getElem?_map, hc]; rfl, fun hno => ?_⟩
    rw [hemptied] at hno
    have hnil : s.clients = [] := by simpa using hno
    rw [hnil] at hc
    cases hc
  · rw [hemptied] at he
    rw [hclients]
    simpa using he

/-- A command with `bye` on the session that is served. -/
theorem System.command_sound {cmd : Str} (hs : Sound (h, s)) (hnode : h.emptied = false)
    (hbye : strstr cmd (lit "bye") = true) (hstep : s.command y cmd = some s') :
    Sound (h.after s (.command cmd), s') := by
  obtain ⟨k, c, hserving, hc, ⟨u, hok⟩, rfl⟩ := System.command_some hstep
  have hclients := System.process_bye (k := k) hok hbye
  have hafter : h.after s (.command cmd) = ⟨true, false⟩ := by
    cases h
    simp [History.after, Action.saysBye, System.callsDown, hbye] at hnode ⊢
    exact hnode
  obtain ⟨d, hd, hconn⟩ := hs.serving k hserving
  obtain rfl : c = d := Option.some.inj (hc.symm.trans hd)
  have hsound := hs.clients c (List.mem_of_getElem? hc)
  have hwhole : c.Whole := hsound.whole hnode (.inr (hconn hnode))
  rw [hafter]
  refine ⟨fun d hd => ?_, fun d hd => ?_, nofun, fun _ => ?_, nofun⟩
  · rcases mem_modify (hclients ▸ hd) with hd | ⟨c', hc', rfl⟩
    · have hother := hs.clients d hd
      exact ⟨hother.harm, hother.node.trans hnode, fun _ hor =>
        hother.whole hnode (.inr (hor.resolve_left nofun))⟩
    · obtain rfl : c = c' := Option.some.inj (hc.symm.trans hc')
      refine ⟨?_, ?_, fun _ hor => hor.elim nofun nofun⟩
      · simp [Client.touch, Client.close, Client.release, hsound.harm, hwhole _]
      · simp [Client.touch, Client.close, Client.release, hwhole _]
  · exact hs.granted d ((System.processed y s k c cmd).accepting.symm.trans hd)
  · refine ⟨_, hclients ▸ mem_modify_self hc, ?_⟩
    simp [Client.touch, Client.close, Client.release]

/-- A login completes. `insert_node` writes to the head of the list, which is the last session. -/
theorem System.insert_sound (hs : Sound (h, s)) (hnode : h.emptied = false)
    (hstep : s.insert = some s') : Sound (h, s') := by
  obtain ⟨c, hat, rfl⟩ := System.insert_some hstep
  obtain ⟨hharm, hwhole⟩ := hs.granted c hat
  refine ⟨fun d hd => ?_, nofun, fun k hk => ?_, fun hbye => ?_, fun _ => by simp⟩
  · rcases List.mem_append.mp hd with hd | hd
    · rcases mem_modify hd with hd | ⟨e, he, rfl⟩
      · exact hs.clients d hd
      · exact (hs.clients e (List.mem_of_getElem? he)).touch hnode
    · obtain rfl := List.mem_singleton.mp hd
      exact ⟨hharm, (hwhole .node).trans hnode.symm, fun _ _ => hwhole⟩
  · obtain ⟨d, hd, hconn⟩ := hs.serving k hk
    obtain ⟨hklt, -⟩ := List.getElem?_eq_some_iff.mp hd
    show ∃ c', (s.clients.modify (s.clients.length - 1) (Client.touch .node) ++ [c])[k]? = some c' ∧ _
    rw [List.getElem?_append_left (by simpa using hklt), List.getElem?_modify, hd]
    split
    · exact ⟨_, rfl, hconn⟩
    · exact ⟨_, rfl, hconn⟩
  · obtain ⟨d, hd, hfd⟩ := hs.bye hbye
    have hmem : d.released ∈
        (s.clients.modify (s.clients.length - 1) (Client.touch .node)).map Client.released := by
      rw [System.map_modify_kept (f := Client.touch .node) fun _ => rfl]
      exact List.mem_map_of_mem hd
    obtain ⟨d', hd', heq⟩ := List.mem_map.mp hmem
    exact ⟨d', List.mem_append_left _ hd', heq ▸ hfd⟩

/-- Of the commands, only those with `bye`. -/
def Action.inDomain : Action → Bool
  | .command cmd => strstr cmd (lit "bye")
  | _ => true

/-- **One orderly step.** -/
theorem step_sound (hs : Sound (h, s)) (ha : a.inDomain = true) (hord : Orderly (h, s) a)
    (hstep : step y s a = some s') : Sound (h.after s a, s') := by
  cases a with
  | connect p =>
    obtain ⟨-, -, rfl⟩ := System.connect_some hstep
    rw [History.after_eq rfl rfl]
    exact hs.kept rfl (fun _ => id) nofun
  | check =>
    obtain ⟨p, -, ⟨hclose, rfl⟩ | ⟨hclose, rfl⟩⟩ := System.check_some hstep
    · have hdown : s.callsDown .check = true := decide_eq_true hclose
      obtain ⟨hbye, hnode⟩ := hord.1 hdown
      exact hs.downed (f := id) hbye hnode hdown rfl rfl rfl hs.clients nofun
    · have hdown : s.callsDown .check = false := decide_eq_false hclose
      rw [History.after_eq rfl hdown]
      exact hs.kept rfl (fun _ => id) nofun
  | join =>
    obtain ⟨p, -, -, rfl⟩ := System.join_some hstep
    rw [History.after_eq rfl rfl]
    exact hs.kept rfl (fun _ => id) nofun
  | authenticate buf =>
    obtain ⟨p, logBit, -, ⟨mode, sess, -, -, rfl⟩ | ⟨-, rfl⟩⟩ := System.authenticate_some hstep
    · rw [History.after_eq rfl rfl]
      refine hs.kept rfl (fun _ => id) ?_
      rintro c ⟨⟩
      exact ⟨rfl, fun _ => rfl⟩
    · rw [History.after_eq rfl rfl]
      exact hs.kept rfl (fun _ => id) nofun
  | insert =>
    rw [History.after_eq rfl rfl]
    exact System.insert_sound hs (hord.2 rfl) hstep
  | setRun =>
    obtain ⟨-, rfl⟩ := System.setRun_some hstep
    rw [History.after_eq rfl rfl]
    exact hs.kept rfl (fun _ => id) nofun
  | leaveLoop =>
    obtain ⟨hbye, hnode⟩ := hord.1 rfl
    obtain ⟨-, -, rfl⟩ := System.leaveLoop_some hstep
    refine hs.downed (f := Client.print) hbye hnode rfl rfl (List.map_map ..) rfl (fun c hc => ?_) nofun
    have hsound := hs.clients c hc
    exact ⟨Client.touch_harm_iff.mpr ⟨(hsound.touch hnode).harm, hsound.whole hnode (.inl hbye) .ip⟩,
      hsound.node, hsound.whole⟩
  | visit k =>
    have hnode : h.emptied = false := hord.2 rfl
    obtain ⟨c, -, hc, -, rfl⟩ := System.visit_some hstep
    rw [History.after_eq rfl rfl]
    refine hs.changed hnode (fun d hd => ?_) (fun j hj => ?_) rfl (map_visited (fun _ => rfl) _ _)
    · rcases mem_visited hd with hd | ⟨e, he, rfl⟩
      · exact hs.clients d hd
      · exact (hs.clients e he).touch hnode
    · have hat : (if c.sess.isConnected then ServeAt.serving k else .idle) = .serving j := hj
      split at hat
      · next hconn =>
        cases hat
        exact ⟨_, getElem?_visited hc, hconn⟩
      · cases hat
  | command cmd => exact System.command_sound hs (hord.2 rfl) ha hstep
  | disconnect =>
    have hnode : h.emptied = false := hord.2 rfl
    obtain ⟨k, hserving, rfl⟩ := System.disconnect_some hstep
    obtain ⟨c, hc, hconn⟩ := hs.serving k hserving
    rw [History.after_eq rfl rfl]
    refine hs.changed hnode (fun d hd => ?_) nofun rfl
      (System.map_modify_kept (g := Client.released)
        (f := fun c => { c.touch .node with sess := { c.sess with isConnected := false } })
        (fun _ => rfl) _ _)
    rcases mem_modify hd with hd | ⟨e, he, rfl⟩
    · exact hs.clients d hd
    · obtain rfl : c = e := Option.some.inj (hc.symm.trans he)
      exact ((hs.clients c (List.mem_of_getElem? hc)).touch hnode).setSess (hconn hnode)
  | timeout =>
    have hnode : h.emptied = false := hord.2 rfl
    obtain ⟨k, -, rfl⟩ := System.timeout_some hstep
    rw [History.after_eq rfl rfl]
    refine hs.changed hnode (fun d hd => ?_) nofun rfl
      (System.map_modify_kept (f := Client.touch .node) (fun _ => rfl) _ _)
    rcases mem_modify hd with hd | ⟨e, he, rfl⟩
    · exact hs.clients d hd
    · exact (hs.clients e (List.mem_of_getElem? he)).touch hnode
  | stop =>
    obtain ⟨-, -, rfl⟩ := System.stop_some hstep
    rw [History.after_eq rfl rfl]
    exact hs.kept rfl nofun hs.granted
  | down =>
    obtain ⟨hbye, hnode⟩ := hord.1 rfl
    cases hstep
    exact hs.downed (f := id) hbye hnode rfl rfl rfl rfl hs.clients hs.granted

/-! ## Disorderly steps -/

/-- A `server.down` without harm finds nothing released. -/
theorem Sound.of_down (hs : Sound (h, s)) (hdown : ∀ c ∈ s.clients, c.down.harm = false) :
    h.bye = false ∧ h.emptied = false := by
  have hnone (c : Client) (hc : c ∈ s.clients) := (Client.down_harm_iff.mp (hdown c hc)).2
  constructor
  · refine Bool.eq_false_iff.mpr fun hbye => ?_
    obtain ⟨c, hc, hfd⟩ := hs.bye hbye
    exact nomatch (hnone c hc .fd nofun).symm.trans hfd
  · refine Bool.eq_false_iff.mpr fun he => ?_
    obtain ⟨c, hc⟩ := List.exists_mem_of_ne_nil _ (hs.emptied he)
    exact nomatch ((hnone c hc .node nofun).symm.trans (hs.clients c hc).node).trans he

/-- A node that is used without harm has not been released. -/
theorem Sound.of_touch {c : Client} (hs : Sound (h, s)) (hc : c ∈ s.clients)
    (hharm : (c.touch .node).harm = false) : h.emptied = false :=
  (hs.clients c hc).node.symm.trans (Client.touch_harm_iff.mp hharm).2

/-- **Harm is done** by every step that is not orderly. -/
theorem orderly_of_harmless (hs : Sound (h, s)) (ha : a.inDomain = true) (hstep : step y s a = some s')
    (hharm : s'.Harmless) : Orderly (h, s) a := by
  cases a with
  | connect p => exact ⟨nofun, nofun⟩
  | check =>
    obtain ⟨p, -, ⟨hclose, rfl⟩ | ⟨hclose, rfl⟩⟩ := System.check_some hstep
    · exact ⟨fun _ => hs.of_down fun c hc => hharm _ (List.mem_map_of_mem hc), nofun⟩
    · exact ⟨fun hdown => absurd (of_decide_eq_true hdown) hclose, nofun⟩
  | join => exact ⟨nofun, nofun⟩
  | authenticate buf => exact ⟨nofun, nofun⟩
  | insert =>
    obtain ⟨c, -, rfl⟩ := System.insert_some hstep
    refine ⟨nofun, fun _ => Bool.eq_false_iff.mpr fun he => ?_⟩
    -- the head of the list is written to
    obtain ⟨d, hd⟩ : ∃ d, s.clients[s.clients.length - 1]? = some d :=
      ⟨_, List.getElem?_eq_getElem (Nat.sub_one_lt_of_lt (List.length_pos_iff.mpr (hs.emptied he)))⟩
    exact nomatch (hs.of_touch (List.mem_of_getElem? hd)
      (hharm _ (List.mem_append_left _ (mem_modify_self hd)))).symm.trans he
  | setRun => exact ⟨nofun, nofun⟩
  | leaveLoop =>
    obtain ⟨-, -, rfl⟩ := System.leaveLoop_some hstep
    refine ⟨fun _ => hs.of_down fun c hc => ?_, nofun⟩
    obtain ⟨hprint, hnone⟩ := Client.down_harm_iff.mp
      (hharm _ (List.mem_map_of_mem (List.mem_map_of_mem hc)))
    exact Client.down_harm_iff.mpr
      ⟨(Client.touch_harm_iff.mp (Client.touch_harm_iff.mp hprint).1).1, hnone⟩
  | visit k =>
    obtain ⟨c, -, hc, -, rfl⟩ := System.visit_some hstep
    exact ⟨nofun, fun _ => hs.of_touch (List.mem_of_getElem? hc)
      (hharm _ (List.mem_of_getElem? (getElem?_visited hc)))⟩
  | command cmd =>
    obtain ⟨k, c, hserving, hc, ⟨u, hok⟩, rfl⟩ := System.command_some hstep
    refine ⟨nofun, fun _ => ?_⟩
    have hclients := System.process_bye (k := k) hok ha
    have hat := hharm _ (hclients ▸ mem_modify_self hc)
    have htouch := (Client.touch_harm_iff (c := c.close.release .ip)).mp hat
    exact (hs.clients c (List.mem_of_getElem? hc)).node.symm.trans htouch.2
  | disconnect =>
    obtain ⟨k, hserving, rfl⟩ := System.disconnect_some hstep
    obtain ⟨c, hc, -⟩ := hs.serving k hserving
    have hat := hharm _ (mem_modify_self hc)
    exact ⟨nofun, fun _ => hs.of_touch (List.mem_of_getElem? hc) hat⟩
  | timeout =>
    obtain ⟨k, hserving, rfl⟩ := System.timeout_some hstep
    obtain ⟨c, hc, -⟩ := hs.serving k hserving
    exact ⟨nofun, fun _ => hs.of_touch (List.mem_of_getElem? hc) (hharm _ (mem_modify_self hc))⟩
  | stop => exact ⟨nofun, nofun⟩
  | down =>
    cases hstep
    exact ⟨fun _ => hs.of_down fun c hc => hharm _ (List.mem_map_of_mem hc), nofun⟩

/-! ## Runs -/

/-- **Each resource is released at most once**, and none is used behind its release, in
exactly the runs all of whose steps are orderly. -/
theorem harmless_iff {db : Sql.Db} {isOpen : Bool} {sock : Int} {acts : List Action}
    (hdomain : ∀ a ∈ acts, a.inDomain = true) :
    EveryState (step y) System.Harmless (.start db isOpen sock) acts ↔
      AllSteps (recorded History.after (step y)) Orderly
        (⟨false, false⟩, .start db isOpen sock) acts := by
  rw [← everyState_recorded (f := History.after) (g := ⟨false, false⟩)]
  refine everyState_iff_allSteps (I := Sound) (D := fun a => a.inDomain = true)
    (fun p hs c hc => (hs.clients c hc).harm) (fun p a p' hs ha hp' => ?_)
    (sound_start db isOpen sock) hdomain
  obtain ⟨hrec, hstep⟩ := recorded_some hp'
  obtain ⟨h', s'⟩ := p'
  obtain rfl : h' = _ := hrec
  exact ⟨fun hord => step_sound hs ha hord hstep, orderly_of_harmless hs ha hstep⟩

/-- `admin` logs in, and is served once. -/
def served : List Action := login localClient (lit "auth,admin,admin") ++ [.visit 0]

/-- A client that closes its connection before the server goes down. -/
theorem harmless_disconnect :
    EveryState (step quietSys) System.Harmless (.start (usersDb [adminRow]) true 3)
      (served ++ [.disconnect, .down]) :=
  (harmless_iff (by decide)).mpr (by decide +kernel)

/-- A client that says `bye` before the server goes down: all it owns is released twice. -/
theorem not_harmless :
    ¬ ∀ (y : Sys) (db : Sql.Db) (isOpen : Bool) (sock : Int) (acts : List Action),
      (∀ a ∈ acts, a.inDomain = true) →
        EveryState (step y) System.Harmless (.start db isOpen sock) acts := by
  intro h
  have hharm : ¬ EveryState (step quietSys) System.Harmless (.start (usersDb [adminRow]) true 3)
      (served ++ [.command (lit "bye,<$#EOT#$>"), .down]) := by decide +kernel
  exact hharm (h _ _ _ _ _ (by decide))

end Thor
