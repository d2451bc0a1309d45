import Thor.Comm.Capacity

/-!
# The list of peers

`__list` writes an entry for every node of the list, whether its session is connected or
not, and while the server runs no node leaves the list.

- `peersArray`: the array for some peers; the number of its braces is theirs
  (`count_peersArray`), and those of 32 sessions fit the array of `__list` (`Shown`).
- `run_listPeers`: the command leaves the array of all sessions in the list.
- `counted_or_emptied`: the loop goes on, or has ended and nobody is connected.
- `listsConnected_iff`: it is the array of the connected ones exactly when nobody has left.
-/

namespace Thor

open CLib Prog

/-! ## The array -/

def peerEntries (ps : List Peer) : Str := (ps.map printNodes).flatten

/-- What `__list` makes of some peers. -/
def peersArray (ps : List Peer) : Str := (lit "[ " ++ peerEntries ps).dropLast ++ lit "]"

theorem peerEntries_append (ps qs : List Peer) :
    peerEntries (ps ++ qs) = peerEntries ps ++ peerEntries qs := by
  rw [peerEntries, List.map_append, List.flatten_append]
  rfl

/-- An entry, up to its comma. -/
def peerEntry (p : Peer) : Str :=
  lit " \x7b \"IP\" : \"" ++ (p.ip ++ (lit "\" , \"PORT\" : \"" ++ (fmtD p.port ++
    (lit "\" , \"MODE\" : \"" ++ (fmtD p.mode ++ (lit "\" , \"UID\" : \"" ++
      (fmtD (toInt32 p.uid) ++ lit "\" \x7d ")))))))

theorem printNodes_eq (p : Peer) : printNodes p = peerEntry p ++ [','] := by
  have hfmt : lit (" \x7b \"IP\" : \"%s\" , \"PORT\" : \"%d\" , \"MODE\" : \"%d\" , " ++
      "\"UID\" : \"%d\" \x7d ,") = lit " \x7b \"IP\" : \"" ++ ('%' :: 's' ::
        (lit "\" , \"PORT\" : \"" ++ ('%' :: 'd' :: (lit "\" , \"MODE\" : \"" ++ ('%' :: 'd' ::
          (lit "\" , \"UID\" : \"" ++ ('%' :: 'd' :: lit "\" \x7d ,"))))))) := by decide
  rw [printNodes, hfmt, sprintf_append _ _ (by decide)]
  simp only [sprintf]
  rw [sprintf_append _ _ (by decide)]
  simp only [sprintf]
  rw [sprintf_append _ _ (by decide)]
  simp only [sprintf]
  rw [sprintf_append _ _ (by decide)]
  simp only [peerEntry, List.append_assoc]
  rfl

theorem count_fmtD (i : Int) : (fmtD i).count '\x7b' = 0 := by
  refine List.count_eq_zero.mpr fun h => ?_
  rcases mem_fmtD h with h | h
  · exact absurd h (by decide)
  · exact absurd h (by decide)

/-- An entry opens one brace. -/
theorem count_peerEntry {p : Peer} (h : '\x7b' ∉ p.ip) : (peerEntry p).count '\x7b' = 1 := by
  have hip : p.ip.count '\x7b' = 0 := List.count_eq_zero.mpr h
  simp only [peerEntry, List.count_append, count_fmtD, hip]
  decide

theorem count_peerEntries : ∀ {ps : List Peer}, (∀ p ∈ ps, '\x7b' ∉ p.ip) →
    (peerEntries ps).count '\x7b' = ps.length
  | [], _ => rfl
  | p :: ps, h => by
    have ih := count_peerEntries fun q hq => h q (List.mem_cons_of_mem p hq)
    show (printNodes p ++ peerEntries ps).count '\x7b' = _
    rw [List.count_append, printNodes_eq, List.count_append, count_peerEntry (h p (List.mem_cons_self ..)),
      ih, List.length_cons]
    have hcomma : [','].count '\x7b' = 0 := by decide
    omega

/-- An array opens as many braces as it has entries: the last byte, which becomes the
bracket, is a blank or a comma. -/
theorem count_peersArray {ps : List Peer} (h : ∀ p ∈ ps, '\x7b' ∉ p.ip) :
    (peersArray ps).count '\x7b' = ps.length := by
  rcases List.eq_nil_or_concat ps with rfl | ⟨qs, p, rfl⟩
  · decide
  · rw [List.concat_eq_append] at h ⊢
    have hqs := count_peerEntries fun q hq => h q (List.mem_append_left _ hq)
    have hp := count_peerEntry (h p (List.mem_append_right _ (List.mem_singleton_self p)))
    have hlast : lit "[ " ++ peerEntries (qs ++ [p])
        = (lit "[ " ++ peerEntries qs ++ peerEntry p) ++ [','] := by
      rw [peerEntries_append, show peerEntries [p] = printNodes p ++ [] from rfl, List.append_nil,
        printNodes_eq, List.append_assoc, List.append_assoc]
    have hopen : (lit "[ ").count '\x7b' = 0 := by decide
    have hclose : (lit "]").count '\x7b' = 0 := by decide
    rw [peersArray, hlast, List.dropLast_concat, List.count_append, List.count_append,
      List.count_append, hqs, hp, hopen, hclose, List.length_append, List.length_singleton]
    omega

/-! ## Its size -/

theorem length_fmtD {i : Int} {k : Nat} (hk : 0 < k) (h : i.natAbs < 10 ^ k) :
    (fmtD i).length ≤ k + 1 := by
  cases i with
  | ofNat n =>
    have hlen : (Nat.toDigits 10 n).length ≤ k := (Nat.length_toDigits_le_iff (by decide) hk).mpr h
    exact Nat.le_succ_of_le hlen
  | negSucc n =>
    have hlen : (Nat.toDigits 10 (n + 1)).length ≤ k :=
      (Nat.length_toDigits_le_iff (by decide) hk).mpr h
    exact Nat.succ_le_succ hlen

/-- What `accept` and `inet_ntoa` return. -/
def Incoming.Valid (p : Incoming) : Prop := p.ip.val.length ≤ 15 ∧ 0 ≤ p.port ∧ p.port < 2 ^ 16

/-- A session that has been made for such a client. -/
structure Identity.Shown (i : Identity) : Prop where
  ip : i.ip.val.length ≤ 15
  port : 0 ≤ i.port ∧ i.port < 2 ^ 16
  made : ∃ uid sess, mknod i.mode uid = some sess ∧ i.ops = sess.ops

theorem Identity.Shown.mode {i : Identity} (h : i.Shown) :
    i.mode = dflUsr ∨ i.mode = elvtUsr ∨ i.mode = rootUsr := by
  obtain ⟨uid, sess, hmk, -⟩ := h.made
  rcases mknod_cases hmk with ⟨hmode, -⟩ | ⟨hmode, -⟩ | ⟨hmode, -⟩
  · exact .inl hmode
  · exact .inr (.inl hmode)
  · exact .inr (.inr hmode)

/-- A `ROOT` session has the pointers of the server object. -/
theorem Identity.Shown.ops_of_root {i : Identity} (h : i.Shown) (hmode : i.mode = rootUsr) :
    i.ops = initDataRoot.ops := by
  obtain ⟨uid, sess, hmk, hops⟩ := h.made
  rw [hmode, mknod, if_neg (by decide), if_neg (by decide), if_pos rfl] at hmk
  rw [hops, ← Option.some.inj hmk]

theorem length_printNodes {c : Client} (h : c.sess.identity.Shown) :
    (printNodes c.peer).length ≤ 150 := by
  have hip : c.peer.ip.length ≤ 15 := h.ip
  have hport : (fmtD c.peer.port).length ≤ 5 + 1 := by
    obtain ⟨hlo, hhi⟩ : 0 ≤ c.sess.port ∧ c.sess.port < 2 ^ 16 := h.port
    exact length_fmtD (by decide) (show c.sess.port.natAbs < 10 ^ 5 by omega)
  have hmode : (fmtD c.peer.mode).length ≤ 4 + 1 := by
    refine length_fmtD (by decide) (show c.sess.mode.natAbs < 10 ^ 4 from ?_)
    rcases h.mode with hmode | hmode | hmode <;>
      rw [show c.sess.mode = _ from hmode] <;> decide
  have huid : (fmtD (toInt32 c.peer.uid)).length ≤ 10 + 1 := by
    have hle := Int.le_bmod (x := c.peer.uid) (m := 2 ^ 32) (by decide)
    have hlt := Int.bmod_lt (x := c.peer.uid) (m := 2 ^ 32) (by decide)
    exact length_fmtD (by decide) (show (Int.bmod c.peer.uid (2 ^ 32)).natAbs < 10 ^ 10 by omega)
  have hopen : (lit " \x7b \"IP\" : \"").length = 11 := by decide
  have hport' : (lit "\" , \"PORT\" : \"").length = 14 := by decide
  have hmode' : (lit "\" , \"MODE\" : \"").length = 14 := by decide
  have huid' : (lit "\" , \"UID\" : \"").length = 13 := by decide
  have hclose : (lit "\" \x7d ").length = 4 := by decide
  rw [printNodes_eq, List.length_append, List.length_singleton, peerEntry]
  simp only [List.length_append]
  omega

/-! ## The command -/

/-- With the array of all peers in the result slot. -/
def World.peersListed (w : World) : World :=
  { w with
    nextBuf := w.nextBuf + 1
    sess := { w.sess with value := some ⟨w.nextBuf, peersArray w.srv.peers⟩ } }

section Command

variable (y : Sys) {w : World} (hfit : (lit "[ " ++ peerEntries w.srv.peers).length < mb 2)

include hfit

/-- `__list`, with room for its array. -/
theorem run_list : list.run w = ⟨.ok (), w.peersListed, [.alloc w.nextBuf]⟩ := by
  unfold list
  have halloc : (allocBuf []).run w
      = ⟨.ok ⟨w.nextBuf, []⟩, { w with nextBuf := w.nextBuf + 1 }, [.alloc w.nextBuf]⟩ := rfl
  rw [run_bind_of_run halloc, run_bind_of_run (a := ()) rfl, run_bind_of_run (run_gets _ _)]
  have hsprintf := run_sprintfInto_of_fits hfit { w with
    nextBuf := w.nextBuf + 1, sess := { w.sess with value := some ⟨w.nextBuf, []⟩ } }
  have hrest := run_bind_of_run (f := fun value =>
    setValue (some ⟨w.nextBuf, value.dropLast ++ lit "]"⟩)) hsprintf
  exact congrArg (fun o : Outcome World Crash Event Unit =>
    (⟨o.val, o.state, .alloc w.nextBuf :: o.out⟩ : Outcome World Crash Event Unit)) hrest

/-- `control,list-peers` on a session that may list them. -/
theorem run_listPeers (hlist : w.sess.ops .list = true) (hwrite : w.sess.ops .write = true) :
    ((Request.listPeers.prog y).run w).val = .ok () ∧
      ((Request.listPeers.prog y).run w).state = w.peersListed := by
  have hcall : (callPtr .list [] list).run w
      = ⟨.ok (), w.peersListed, [.invoke .list [], .alloc w.nextBuf]⟩ := by
    rw [run_callPtr, if_pos hlist, run_list hfit]
  have hlen : (sprintf (lit "resp,ok,0,response,%s") [peersArray w.srv.peers]).length < mb 15 := by
    have hsprintf : sprintf (lit "resp,ok,0,response,%s") [peersArray w.srv.peers]
        = lit "resp,ok,0,response," ++ (peersArray w.srv.peers ++ []) := rfl
    have hprefix : (lit "resp,ok,0,response,").length = 19 := by decide
    have hclose : (lit "]").length = 1 := by decide
    have hroom : mb 2 + 20 < mb 15 := by decide
    rw [hsprintf, List.append_nil, List.length_append, peersArray, List.length_append,
      List.length_dropLast, hprefix, hclose]
    omega
  have hsend := @run_sendResponse "resp,ok,0,response,%s"
    [⟨peersArray w.srv.peers, some w.nextBuf⟩] w.peersListed hlen hwrite
  show ((controlled .list sendPeers).run w).val = _ ∧ ((controlled .list sendPeers).run w).state = _
  unfold controlled sendPeers
  rw [run_tested, if_pos hlist, run_bind_of_run hcall, run_bind_of_run (run_gets _ _)]
  have hvalue : w.peersListed.sess.value = some ⟨w.nextBuf, peersArray w.srv.peers⟩ := rfl
  rw [hvalue]
  dsimp only
  rw [run_bind_of_run hsend]
  exact ⟨rfl, rfl⟩

end Command

/-! ## Sessions of valid clients -/

/-- What the sessions in the list have been made with. -/
def System.identities (s : System) : List Identity := s.clients.map fun c => c.sess.identity

/-- What the accepting thread has at hand is valid. -/
def AcceptAt.Valid : AcceptAt → Prop
  | .accepted p | .joining p | .checked p => p.Valid
  | .granted c => c.sess.identity.Shown
  | _ => True

/-- All sessions have been made for valid clients. -/
structure ShownAll (s : System) : Prop where
  clients : ∀ i ∈ s.identities, i.Shown
  accepting : s.accepting.Valid

variable {y : Sys} {s s' : System}

theorem shownAll_start (db : Sql.Db) (isOpen : Bool) (sock : Int) : ShownAll (.start db isOpen sock) :=
  ⟨fun i hi => absurd hi (List.not_mem_nil (a := i)), trivial⟩

theorem ShownAll.of_identities (h : ShownAll s) (hclients : s'.identities = s.identities)
    (hat : s'.accepting.Valid) : ShownAll s' :=
  ⟨hclients ▸ h.clients, hat⟩

theorem identities_modify {f : Client → Client} (hf : ∀ c, (f c).sess.identity = c.sess.identity)
    (l : List Client) (k : Nat) :
    (l.modify k f).map (fun c => c.sess.identity) = l.map fun c => c.sess.identity :=
  System.map_modify_kept (g := fun c : Client => c.sess.identity) hf l k

/-- A session that `__accept` makes. -/
theorem shown_newClient {p : Incoming} (hp : p.Valid) {mode : Int} {uid logBit : Nat} {sess : Session}
    (h : mknod mode uid = some sess) : (System.newClient p mode logBit sess).sess.identity.Shown :=
  ⟨hp.1, hp.2, uid, sess, h, rfl⟩

/-- A command leaves the sessions what they are. -/
theorem System.identities_process {k : Nat} {c : Client} (cmd : Str) (hc : s.clients[k]? = some c) :
    (s.process y k c cmd).identities = s.identities := by
  have hsessions := (System.processed y s k c cmd).sessions
  obtain ⟨saved, hrun⟩ := processCmd_run y cmd (s.world c.sess)
  have hkept := (parseRequest cmd).sessionKept y { s.world c.sess with saved } trivial
  have hk : (s.clients.map Client.sess)[k]? = some c.sess := by rw [List.getElem?_map, hc]; rfl
  have hmap (t : System) : t.identities = (t.clients.map Client.sess).map Session.identity := by
    rw [List.map_map]
    rfl
  rw [hmap, hmap, hsessions]
  refine System.map_modify_at fun a ha => ?_
  obtain rfl := Option.some.inj (ha.symm.trans hk)
  rw [hrun]
  exact hkept

theorem step_shownAll {a : Action} (ha : ∀ p, a = .connect p → p.Valid) (hs : ShownAll s)
    (h : step y s a = some s') : ShownAll s' := by
  have hat := hs.accepting
  cases a with
  | connect p =>
    obtain ⟨-, -, rfl⟩ := System.connect_some h
    exact hs.of_identities rfl (ha p rfl)
  | check =>
    obtain ⟨p, hp, ⟨-, rfl⟩ | ⟨-, rfl⟩⟩ := System.check_some h
    · rw [hp] at hat
      refine hs.of_identities ?_ hat
      show (s.clients.map Client.down).map _ = _
      rw [List.map_map]
      rfl
    · rw [hp] at hat
      exact hs.of_identities rfl hat
  | join =>
    obtain ⟨p, hp, -, rfl⟩ := System.join_some h
    rw [hp] at hat
    exact hs.of_identities rfl hat
  | authenticate buf =>
    obtain ⟨p, logBit, hp, ⟨mode, sess, -, hsess, rfl⟩ | ⟨-, rfl⟩⟩ := System.authenticate_some h
    · rw [hp] at hat
      exact hs.of_identities rfl (shown_newClient hat hsess)
    · exact hs.of_identities rfl trivial
  | insert =>
    obtain ⟨c, hc, rfl⟩ := System.insert_some h
    rw [hc] at hat
    refine ⟨fun i hi => ?_, trivial⟩
    -- the head of the list is written to, which leaves its session what it is
    unfold System.identities at hi
    rw [List.map_append, identities_modify (f := Client.touch .node) fun _ => rfl] at hi
    rcases List.mem_append.mp hi with hi | hi
    · exact hs.clients i hi
    · rw [List.mem_singleton.mp hi]
      exact hat
  | setRun =>
    obtain ⟨-, rfl⟩ := System.setRun_some h
    exact hs.of_identities rfl trivial
  | leaveLoop =>
    obtain ⟨-, -, rfl⟩ := System.leaveLoop_some h
    refine hs.of_identities ?_ trivial
    show ((s.clients.map Client.print).map Client.down).map _ = _
    rw [List.map_map, List.map_map]
    rfl
  | visit k =>
    obtain ⟨c, -, -, -, rfl⟩ := System.visit_some h
    exact hs.of_identities (map_visited (fun _ => rfl) _ _) hat
  | command cmd =>
    obtain ⟨k, c, -, hc, -, rfl⟩ := System.command_some h
    exact hs.of_identities (System.identities_process cmd hc)
      ((System.processed y s k c cmd).accepting ▸ hat)
  | disconnect =>
    obtain ⟨k, -, rfl⟩ := System.disconnect_some h
    exact hs.of_identities (identities_modify (f := fun c =>
      { c.touch .node with sess := { c.sess with isConnected := false } }) (fun _ => rfl) _ _) hat
  | timeout =>
    obtain ⟨k, -, rfl⟩ := System.timeout_some h
    exact hs.of_identities (identities_modify (f := Client.touch .node) (fun _ => rfl) _ _) hat
  | stop =>
    obtain ⟨-, -, rfl⟩ := System.stop_some h
    exact hs.of_identities rfl hat
  | down =>
    cases h
    refine hs.of_identities ?_ hat
    show (s.clients.map Client.down).map _ = _
    rw [List.map_map]
    rfl

theorem run_shownAll : ∀ {acts : List Action} {s : System}, ShownAll s →
    (∀ p, .connect p ∈ acts → p.Valid) → run y s acts = some s' → ShownAll s'
  | [], _, hs, _, h => Option.some.inj h ▸ hs
  | a :: acts, _, hs, hvalid, h => by
    obtain ⟨t, ht, hrun⟩ := runSteps_cons h
    have hstep := step_shownAll (fun p hp => hvalid p (hp ▸ List.mem_cons_self ..)) hs ht
    exact run_shownAll hstep (fun p hp => hvalid p (List.mem_cons_of_mem a hp)) hrun

/-- As many sessions as the server has fit the array. -/
theorem length_peerEntries : ∀ {cs : List Client}, (∀ i ∈ cs.map fun c => c.sess.identity, i.Shown) →
    (peerEntries (cs.map Client.peer)).length ≤ 150 * cs.length
  | [], _ => Nat.le_refl _
  | c :: cs, h => by
    have ih := length_peerEntries fun i hi => h i (List.mem_cons_of_mem _ hi)
    have hc := length_printNodes (h _ (List.mem_cons_self ..))
    show (printNodes c.peer ++ peerEntries (cs.map Client.peer)).length ≤ _
    rw [List.length_append, List.length_cons]
    omega

/-! ## The end of the loop -/

/-- The action ends a session, or all of them: `main` calls `server.down` behind the loop. -/
def Action.ends : Action → Bool
  | .leaveLoop => true
  | a => a.departs

theorem forall_mem_modify {α : Type} {P : α → Prop} {f : α → α} : ∀ {l : List α} {k : Nat},
    (∀ a ∈ l, P a) → (∀ a, l[k]? = some a → P (f a)) → ∀ a ∈ l.modify k f, P a
  | [], _, h, _ => by simp
  | b :: l, 0, h, hf => by
    rw [List.modify_zero_cons]
    exact List.forall_mem_cons.mpr ⟨hf b rfl, fun a ha => h a (List.mem_cons_of_mem b ha)⟩
  | b :: l, k + 1, h, hf => by
    rw [List.modify_succ_cons]
    exact List.forall_mem_cons.mpr ⟨h b (List.mem_cons_self ..),
      forall_mem_modify (fun a ha => h a (List.mem_cons_of_mem b ha)) hf⟩

/-- Behind the loop, all sessions of a list that was full have been closed. -/
structure Emptied (s : System) : Prop where
  left : s.accepting = .left
  length : s.clients.length = maxCount
  nobody : ∀ x ∈ s.clients.map Client.sess, x.isConnected = false

theorem Emptied.of_sessions (hs : Emptied s) (hat : s'.accepting = .left)
    (h : s'.clients.map Client.sess = s.clients.map Client.sess) : Emptied s' := by
  have hlength := congrArg List.length h
  rw [List.length_map, List.length_map] at hlength
  exact ⟨hat, hlength.trans hs.length, h ▸ hs.nobody⟩

/-- One session is changed, and is not connected afterwards. -/
theorem Emptied.of_modify (hs : Emptied s) (hat : s'.accepting = .left) {k : Nat}
    {f : Session → Session} (h : s'.clients.map Client.sess = (s.clients.map Client.sess).modify k f)
    (hf : ∀ x, (s.clients.map Client.sess)[k]? = some x → (f x).isConnected = false) :
    Emptied s' := by
  have hlength := congrArg List.length h
  rw [List.length_map, List.length_modify, List.length_map] at hlength
  refine ⟨hat, hlength.trans hs.length, ?_⟩
  rw [h]
  exact forall_mem_modify hs.nobody hf

/-- No command connects a session. -/
theorem processCmd_not_isConnected (y : Sys) {cmd : Str} {w : World} {u : Unit}
    (h : ((processCmd y cmd).run w).val = .ok u) (hconn : w.sess.isConnected = false) :
    ((processCmd y cmd).run w).state.sess.isConnected = false := by
  obtain ⟨saved, hrun⟩ := processCmd_run y cmd w
  rw [hrun] at h ⊢
  by_cases hbye : parseRequest cmd = .bye
  · rw [hbye] at h ⊢
    rw [run_bye y h]
  · exact ((parseRequest cmd).staysOpen y hbye { w with saved } trivial).isConnected.trans hconn

theorem step_emptied {a : Action} (hs : Emptied s) (h : step y s a = some s') : Emptied s' := by
  have hserves := serves_of_left hs.left h
  have hat := step_left hs.left h
  cases a with
  | connect | check | join | authenticate | insert | setRun | leaveLoop => cases hserves
  | visit k =>
    obtain ⟨c, -, -, -, rfl⟩ := System.visit_some h
    exact hs.of_sessions hat (map_visited (fun _ => rfl) _ _)
  | command cmd =>
    obtain ⟨k, c, -, hc, ⟨u, hok⟩, rfl⟩ := System.command_some h
    -- a frame that had been read before: its session has been closed since
    have hconn : c.sess.isConnected = false :=
      hs.nobody _ (List.mem_map_of_mem (List.mem_of_getElem? hc))
    exact hs.of_modify hat (System.processed y s k c cmd).sessions fun _ _ =>
      processCmd_not_isConnected y (w := s.world c.sess) hok hconn
  | disconnect =>
    obtain ⟨k, -, rfl⟩ := System.disconnect_some h
    exact hs.of_modify hat (System.map_modify (g := Client.sess)
      (f := fun c => { c.touch .node with sess := { c.sess with isConnected := false } })
      (u := fun sess => { sess with isConnected := false }) (fun _ => rfl) _ _) fun _ _ => rfl
  | timeout =>
    obtain ⟨k, -, rfl⟩ := System.timeout_some h
    exact hs.of_sessions hat (System.map_modify_kept (f := Client.touch .node) (fun _ => rfl) _ _)
  | stop =>
    obtain ⟨-, -, rfl⟩ := System.stop_some h
    exact hs.of_sessions hat rfl
  | down =>
    cases h
    refine ⟨hat, ?_, ?_⟩
    · exact (List.length_map ..).trans hs.length
    · rintro x hx
      obtain ⟨c, hc, rfl⟩ := List.mem_map.mp hx
      obtain ⟨c', -, rfl⟩ := List.mem_map.mp hc
      rfl

theorem run_emptied : ∀ {acts : List Action} {s : System}, Emptied s → run y s acts = some s' →
    Emptied s'
  | [], _, hs, h => Option.some.inj h ▸ hs
  | _ :: _, _, hs, h => by
    obtain ⟨t, ht, hrun⟩ := runSteps_cons h
    exact run_emptied (step_emptied hs ht) hrun

/-- The thread leaves the loop by its own step. -/
theorem leaveLoop_of_left {a : Action} (hs : s.accepting ≠ .left) (h : step y s a = some s')
    (hleft : s'.accepting = .left) : a = .leaveLoop := by
  cases a with
  | leaveLoop => rfl
  | connect p =>
    obtain ⟨-, -, rfl⟩ := System.connect_some h
    cases hleft
  | check =>
    obtain ⟨p, -, ⟨-, rfl⟩ | ⟨-, rfl⟩⟩ := System.check_some h <;> cases hleft
  | join =>
    obtain ⟨p, -, -, rfl⟩ := System.join_some h
    cases hleft
  | authenticate buf =>
    obtain ⟨p, logBit, -, ⟨mode, sess, -, -, rfl⟩ | ⟨-, rfl⟩⟩ := System.authenticate_some h <;>
      cases hleft
  | insert =>
    obtain ⟨c, -, rfl⟩ := System.insert_some h
    cases hleft
  | setRun =>
    obtain ⟨-, rfl⟩ := System.setRun_some h
    cases hleft
  | visit | command | disconnect | timeout | stop | down =>
    exact absurd ((accepting_of_serves h rfl).symm.trans hleft) hs

/-- The step that leaves the loop closes the sessions of a full list. -/
theorem emptied_of_leaveLoop (hs : Counted s) (h : step y s .leaveLoop = some s') : Emptied s' := by
  obtain ⟨-, hfull, rfl⟩ := System.leaveLoop_some h
  have hbound := hs.bound
  refine ⟨rfl, ?_, ?_⟩
  · show ((s.clients.map Client.print).map Client.down).length = _
    rw [List.length_map, List.length_map, ← hs.count]
    omega
  · rintro x hx
    obtain ⟨c, hc, rfl⟩ := List.mem_map.mp hx
    obtain ⟨c', -, rfl⟩ := List.mem_map.mp hc
    rfl

/-- **Where a run is**: its loop has not ended, or it has, and nobody is connected. -/
theorem counted_or_emptied : ∀ {acts : List Action} {s : System}, Counted s →
    s.accepting ≠ .left → (∀ a ∈ acts, ¬ a.commandsShutdown) → run y s acts = some s' →
    (s'.accepting ≠ .left ∧ .leaveLoop ∉ acts) ∨ (Emptied s' ∧ .leaveLoop ∈ acts)
  | [], s, _, hat, _, h => .inl ⟨Option.some.inj h ▸ hat, List.not_mem_nil⟩
  | a :: acts, s, hs, hat, hno, h => by
    obtain ⟨t, ht, hrun⟩ := runSteps_cons h
    by_cases hleft : t.accepting = .left
    · obtain rfl := leaveLoop_of_left hat ht hleft
      exact .inr ⟨run_emptied (emptied_of_leaveLoop hs ht) hrun, List.mem_cons_self ..⟩
    · have hne : a ≠ .leaveLoop := by
        rintro rfl
        obtain ⟨-, -, rfl⟩ := System.leaveLoop_some ht
        exact hleft rfl
      obtain ⟨hcounted, -⟩ := step_counted hs (hno a (List.mem_cons_self ..)) ht hleft
      rcases counted_or_emptied hcounted hleft (fun b hb => hno b (List.mem_cons_of_mem a hb)) hrun
        with ⟨hleft', hnot⟩ | ⟨hemptied, hmem⟩
      · exact .inl ⟨hleft', fun hmem => (List.mem_cons.mp hmem).elim (hne ·.symm) hnot⟩
      · exact .inr ⟨hemptied, List.mem_cons_of_mem a hmem⟩

/-! ## The list and the sessions -/

/-- The command returns, with an array in the result slot that has one entry for each
connected session, in some order, and no other. -/
def ListsConnected (y : Sys) (s : System) (c : Client) (cmd : Str) : Prop :=
  ((processCmd y cmd).run (s.world c.sess)).val = .ok () ∧ ∃ ps id,
    ps.Perm ((s.clients.filter fun c => c.sess.isConnected).map Client.peer) ∧
      ((processCmd y cmd).run (s.world c.sess)).state.sess.value = some ⟨id, peersArray ps⟩

/-- What the command leaves, with room for the array. -/
theorem processCmd_listPeers {c : Client} {cmd : Str} (hroot : c.sess.ops = initDataRoot.ops)
    (hcmd : parseRequest cmd = .listPeers) (hfit :
      (lit "[ " ++ peerEntries (s.clients.reverse.map Client.peer)).length < mb 2) :
    ((processCmd y cmd).run (s.world c.sess)).val = .ok () ∧
      ((processCmd y cmd).run (s.world c.sess)).state.sess.value
        = some ⟨s.nextBuf, peersArray (s.clients.reverse.map Client.peer)⟩ := by
  obtain ⟨saved, hrun⟩ := processCmd_run y cmd (s.world c.sess)
  have hops (op : Op) (h : initDataRoot.ops op = true) : c.sess.ops op = true := by rw [hroot, h]
  obtain ⟨hval, hstate⟩ := @run_listPeers y { s.world c.sess with saved } hfit
    (hops .list (by decide)) (hops .write (by decide))
  rw [hrun, hcmd, hval, hstate]
  exact ⟨rfl, rfl⟩

/-- Addresses have no braces. -/
theorem brace_not_mem_ip (c : Client) : '\x7b' ∉ c.peer.ip := by
  intro h
  rcases c.sess.ip.2 _ h with h | h
  · exact absurd h (by decide)
  · exact absurd h (by decide)

/-- Two arrays that are the same have as many entries. -/
theorem length_of_peersArray {cs : List Client} {ps : List Peer} {cs' : List Client}
    (hps : ps.Perm (cs'.map Client.peer)) (h : peersArray ps = peersArray (cs.map Client.peer)) :
    cs'.length = cs.length := by
  have hbrace {cs : List Client} : ∀ p ∈ cs.map Client.peer, '\x7b' ∉ p.ip := by
    rintro p hp
    obtain ⟨c, -, rfl⟩ := List.mem_map.mp hp
    exact brace_not_mem_ip c
  have hcount := congrArg (List.count '\x7b') h
  rw [count_peersArray fun p hp => hbrace p (hps.mem_iff.mp hp), count_peersArray hbrace,
    hps.length_eq, List.length_map, List.length_map] at hcount
  exact hcount

/-- The number of sessions in the list, and of connected ones. -/
theorem listsConnected_iff_length {c : Client} {cmd : Str} (hshown : ShownAll s)
    (hlength : s.clients.length ≤ maxCount) (hroot : c.sess.ops = initDataRoot.ops)
    (hcmd : parseRequest cmd = .listPeers) :
    ListsConnected y s c cmd ↔ s.connected = s.clients.length := by
  have hfit : (lit "[ " ++ peerEntries (s.clients.reverse.map Client.peer)).length < mb 2 := by
    have hlen := @length_peerEntries s.clients.reverse (fun i hi => by
      rw [List.map_reverse] at hi
      exact hshown.clients i (List.mem_reverse.mp hi))
    have hopen : (lit "[ ").length = 2 := by decide
    have hroom : 2 + 150 * maxCount < mb 2 := by decide
    rw [List.length_reverse] at hlen
    rw [List.length_append, hopen]
    omega
  obtain ⟨hval, hvalue⟩ := processCmd_listPeers (y := y) hroot hcmd hfit
  have hnumber : (s.clients.filter fun c => c.sess.isConnected).length = s.connected := by
    rw [System.connected, List.countP_map, List.countP_eq_length_filter]
    rfl
  constructor
  · rintro ⟨-, ps, id, hps, hvalue'⟩
    have harray := congrArg Buf.text (Option.some.inj (hvalue'.symm.trans hvalue))
    have hsame := length_of_peersArray hps harray
    rwa [hnumber, List.length_reverse] at hsame
  · intro hall
    have hfilter : (s.clients.filter fun c => c.sess.isConnected) = s.clients :=
      List.filter_eq_self.mpr (List.length_filter_eq_length_iff.mp (hnumber.trans hall))
    refine ⟨hval, _, _, ?_, hvalue⟩
    rw [hfilter]
    exact (List.reverse_perm s.clients).map _

/-- **The list shows the connected sessions** exactly when no session has ended. -/
theorem listsConnected_iff {db : Sql.Db} {isOpen : Bool} {sock : Int} {acts : List Action}
    (hrun : run y (.start db isOpen sock) acts = some s)
    (hvalid : ∀ p, .connect p ∈ acts → p.Valid) (hno : ∀ a ∈ acts, ¬ a.commandsShutdown)
    {c : Client} (hc : c ∈ s.clients) (hmode : c.sess.mode = rootUsr) {cmd : Str}
    (hcmd : parseRequest cmd = .listPeers) :
    ListsConnected y s c cmd ↔ ∀ a ∈ acts, a.ends = false := by
  have hstart := counted_start db isOpen sock
  have hshown := run_shownAll (shownAll_start db isOpen sock) hvalid hrun
  have hroot : c.sess.ops = initDataRoot.ops :=
    (hshown.clients _ (List.mem_map_of_mem hc)).ops_of_root hmode
  rcases counted_or_emptied hstart (by simp [System.start]) hno hrun with ⟨hleft, hnot⟩ | ⟨hemptied, hmem⟩
  · obtain ⟨hs, hcount⟩ := run_counted hstart hno hleft hrun
    have hconnected : s.connected + acts.countP Action.departs = s.clients.length := by
      simpa [System.start, System.connected] using hcount
    have hends : ∀ a ∈ acts, a.ends = a.departs := by
      intro a ha
      cases a with
      | leaveLoop => exact absurd ha hnot
      | _ => rfl
    have hnone : (∀ a ∈ acts, a.ends = false) ↔ acts.countP Action.departs = 0 := by
      rw [List.countP_eq_zero]
      exact forall₂_congr fun a ha => by rw [hends a ha, Bool.not_eq_true]
    rw [listsConnected_iff_length hshown (hs.count ▸ hs.bound) hroot hcmd, hnone]
    omega
  · have hnobody : s.connected = 0 :=
      List.countP_eq_zero.mpr fun x hx => by simp [hemptied.nobody x hx]
    rw [listsConnected_iff_length hshown hemptied.length.le hroot hcmd, hnobody, hemptied.length]
    exact iff_of_false (by decide) fun h => absurd (h _ hmem) (by decide)

/-! ## Two sessions of `admin` -/

def listCommand : Str := lit "control,list-peers,<$#EOT#$>"

theorem valid_logins {n : Nat} {p : Incoming} (h : .connect p ∈ logins n) : p.Valid := by
  obtain ⟨l, hl, hp⟩ := List.mem_flatten.mp h
  rw [List.eq_of_mem_replicate hl, login] at hp
  obtain rfl : p = localClient := by simpa using hp
  exact ⟨by decide, by decide⟩

/-- Nobody has left. -/
theorem listsConnected_logins : ∃ s c, run tableSys (.start (usersDb []) false 3) (logins 2) = some s ∧
    s.clients[1]? = some c ∧ ListsConnected tableSys s c listCommand := by
  have hroot : (run tableSys (.start (usersDb []) false 3) (logins 2)).bind
      (fun s => s.clients[1]?.map fun c => c.sess.mode) = some rootUsr := by decide +kernel
  obtain ⟨s, hs, hsecond⟩ := Option.bind_eq_some_iff.mp hroot
  obtain ⟨c, hc, hmode⟩ := Option.map_eq_some_iff.mp hsecond
  exact ⟨s, c, hs, hc, (listsConnected_iff hs (fun _ => valid_logins)
    (fun _ ha => (mem_logins ha).2) (List.mem_of_getElem? hc) hmode (by decide +kernel)).mpr
      (by decide)⟩

/-- The first one has closed its connection, and is listed. -/
theorem not_listsConnected :
    ¬ ∀ (y : Sys) (db : Sql.Db) (isOpen : Bool) (sock : Int) (acts : List Action) (s : System)
      (k : Nat) (c : Client) (cmd : Str), run y (.start db isOpen sock) acts = some s →
      (∀ p, .connect p ∈ acts → p.Valid) → (∀ a ∈ acts, ¬ a.commandsShutdown) →
      s.serving = .serving k → s.clients[k]? = some c → c.sess.mode = rootUsr →
      parseRequest cmd = .listPeers → ListsConnected y s c cmd := by
  intro h
  let acts := logins 1 ++ [.visit 0, .disconnect] ++ logins 1 ++ [.visit 1]
  have hsecond : (run tableSys (.start (usersDb []) false 3) acts).bind (fun s =>
      s.clients[1]?.map fun c => (s.serving, c.sess.mode, s.connected, s.clients.length))
        = some (.serving 1, rootUsr, 1, 2) := by decide +kernel
  obtain ⟨s, hs, hclient⟩ := Option.bind_eq_some_iff.mp hsecond
  obtain ⟨c, hc, hat⟩ := Option.map_eq_some_iff.mp hclient
  simp only [Prod.mk.injEq] at hat
  obtain ⟨hserving, hmode, hconnected, hlength⟩ := hat
  have hvalid : ∀ p, .connect p ∈ acts → p.Valid := by
    intro p hp
    simp only [acts, List.mem_append, List.mem_cons, List.not_mem_nil, or_false, reduceCtorEq] at hp
    exact hp.elim valid_logins valid_logins
  have hno : ∀ a ∈ acts, ¬ a.commandsShutdown := fun a ha => by
    simp only [acts, List.mem_append, List.mem_cons, List.not_mem_nil, or_false] at ha
    rcases ha with ((ha | rfl | rfl) | ha) | rfl
    · exact (mem_logins ha).2
    · exact id
    · exact id
    · exact (mem_logins ha).2
    · exact id
  have hshown := run_shownAll (shownAll_start (usersDb []) false 3) hvalid hs
  have hroot := (hshown.clients _ (List.mem_map_of_mem (List.mem_of_getElem? hc))).ops_of_root hmode
  have hcmd : parseRequest listCommand = .listPeers := by decide +kernel
  have hlists := h _ _ _ _ acts s 1 c listCommand hs hvalid hno hserving hc hmode hcmd
  rw [listsConnected_iff_length hshown (by rw [hlength]; decide) hroot hcmd, hconnected, hlength]
    at hlists
  exact absurd hlists (by decide)

end Thor
