import Thor.CLib.Steps
import Thor.Rpc.Interface
import Thor.Security.Authorize
import Mathlib.Logic.Function.Basic

/-!
# The server (comm/server.c, core/sched.c)

Two threads share the server object. One accepts clients (`__accept`, then what `main`
does behind it), the other serves those that are logged in (`serve_clients`). A `System`
is the server object, the sessions in its list, and where each thread is; `step` is one
step of either.

- `Client`: a session with what it owns, and what of that has been released.
- `System.down`: `server.down` called on the server object.
- `System.process`: a command of a session, with what its events do to the system.
- `step`, `run`: the steps, and runs of them.
-/

namespace Thor

open CLib Prog

/-! ## Sessions in the list -/

/-- What a session owns, and the node that holds it. -/
inductive Resource where
  | tlsSession | bio | ssl | fd | ip | node
  deriving DecidableEq

/-- A session in the list, with its descriptor. `released` are the resources that have
been released, and `harm` is set when one is released again or used after that. -/
structure Client where
  sess : Session
  fd : Int
  released : Resource → Bool
  harm : Bool

namespace Client

def release (r : Resource) (c : Client) : Client :=
  { c with released := Function.update c.released r true, harm := c.harm || c.released r }

/-- Read or write through a resource. -/
def touch (r : Resource) (c : Client) : Client := { c with harm := c.harm || c.released r }

/-- What `__close_client` and `close_all_clients` release. (The session's own `SSL_CTX`
is `NULL`.) -/
def close (c : Client) : Client :=
  (((c.release .tlsSession).release .bio).release .ssl).release .fd

/-- `close_all_clients` on the node, and `foreach_node_free`. -/
def down (c : Client) : Client :=
  let closed := ((c.touch .node).close.touch .node).release .node
  { closed with sess := { closed.sess with isConnected := false } }

/-- `print_nodes`. -/
def print (c : Client) : Client := (c.touch .node).touch .ip

def peer (c : Client) : Peer := ⟨c.sess.ip.val, c.sess.port, c.sess.mode, c.sess.uid⟩

end Client

/-! ## The system -/

/-- What `accept` returns. -/
structure Incoming where
  fd : Int
  ip : IpText
  port : Int

/-- Where the accepting thread is. -/
inductive AcceptAt where
  /-- before the guard of the loop -/
  | guard
  | accepted (p : Incoming)
  /-- in the `pthread_join` of a `server.down` -/
  | joining (p : Incoming)
  | checked (p : Incoming)
  /-- the client has been authenticated, its session is not in the list yet -/
  | granted (c : Client)
  | inserted
  /-- behind the loop -/
  | left

/-- The session that has been granted. -/
def AcceptAt.client : AcceptAt → Option Client
  | granted c => some c
  | _ => none

theorem AcceptAt.granted_of_client {a : AcceptAt} {c : Client} (h : a.client = some c) :
    a = .granted c := by
  cases a with
  | granted c' => exact congrArg AcceptAt.granted (Option.some.inj h)
  | _ => cases h

/-- Where the serving thread is. -/
inductive ServeAt where
  | idle
  /-- reading from the session with this number -/
  | serving (k : Nat)
  | ended
  deriving DecidableEq

/-- The server object and its threads. The sessions stand in the order of their logins,
so the head of the list is the last of them; `srv.peers` is made from them. -/
structure System where
  saved : Str
  srv : Server
  tick : Nat
  nextBuf : Nat
  /-- `db.is_open` -/
  isOpen : Bool
  /-- `tmp_cli_info.log_bit` -/
  logBit : Nat
  clients : List Client
  /-- `ctrl.actv_client_count` -/
  count : Nat
  /-- the counter of `__mknod` -/
  uid : Nat
  /-- `server.sock.fd` -/
  sock : Int
  /-- the descriptors closed so far -/
  closed : List Int
  accepting : AcceptAt
  serving : ServeAt

/-- `client.max_count` -/
def maxCount : Nat := 32

namespace System

/-- After `server.up`. -/
def start (db : Sql.Db) (isOpen : Bool) (sock : Int) : System where
  saved := []
  srv := ⟨8, [], stateRun, [], db⟩
  tick := 0
  nextBuf := 0
  isOpen := isOpen
  logBit := 0
  clients := []
  count := 0
  uid := 0
  sock := sock
  closed := []
  accepting := .guard
  serving := .idle

/-- The world in which a program runs on a session. -/
def world (s : System) (sess : Session) : World where
  saved := s.saved
  sess := sess
  srv := { s.srv with peers := s.clients.reverse.map Client.peer }
  tick := s.tick
  nextBuf := s.nextBuf

/-- What the program leaves, the session apart. -/
def leave (s : System) (w : World) : System :=
  { s with saved := w.saved, srv := w.srv, tick := w.tick, nextBuf := w.nextBuf }

/-- Change one session. -/
def modifyClient (s : System) (k : Nat) (f : Client → Client) : System :=
  { s with clients := s.clients.modify k f }

/-! ## `server.down` and `server.list` on the server object -/

/-- `__down`, up to its `pthread_join`. The list keeps its nodes. -/
def down (s : System) : System :=
  { s with
    srv := { s.srv with state := stateClose }
    clients := s.clients.map Client.down
    closed := s.closed ++ s.clients.reverse.map Client.fd ++ [s.sock] }

/-- `__list`. -/
def list (s : System) : System := { s with clients := s.clients.map Client.print }

/-! ## The accepting thread -/

/-- `accept` returns. -/
def connect (p : Incoming) (s : System) : Option System :=
  match s.accepting with
  | .guard => if s.count < maxCount then some { s with accepting := .accepted p } else none
  | _ => none

/-- `if (get_state() == STATE_CLOSE) server.down(ptr);` -/
def check (s : System) : Option System :=
  match s.accepting with
  | .accepted p =>
    if s.srv.state = stateClose then some { s.down with accepting := .joining p }
    else some { s with accepting := .checked p }
  | _ => none

/-- The `pthread_join` of `server.down` returns. -/
def join (s : System) : Option System :=
  match s.accepting, s.serving with
  | .joining p, .ended => some { s with accepting := .checked p }
  | _, _ => none

/-- The session of a client that has been authenticated. -/
def newClient (p : Incoming) (mode : Int) (logBit : Nat) (sess : Session) : Client where
  sess := { sess with mode, isLogged := logBit, ip := p.ip, port := p.port, isConnected := true }
  fd := p.fd
  released _ := false
  harm := false

variable (y : Sys)

/-- `__auth` on the message of the client, run on the server object. -/
def authRun (s : System) (buf : Str) : Outcome World Crash Event (Int × Option Nat) :=
  (auth y s.isOpen buf).run (s.world initDataRoot)

/-- `__auth` and `__mknod`, or `server.kick`. -/
def authenticate (buf : Str) (s : System) : Option System :=
  match s.accepting, (s.authRun y buf).val with
  | .checked p, .ok (mode, logBit) =>
    let s' := { s.leave (s.authRun y buf).state with logBit := logBit.getD s.logBit }
    match mknod mode s.uid with
    | some sess =>
      some { s' with uid := s.uid + 1, accepting := .granted (newClient p mode s'.logBit sess) }
    | none => some { s' with closed := s.closed ++ [p.fd], accepting := .guard }
  | _, _ => none

/-- `insert_node` writes through the head of the list, if there is one. -/
def insert (s : System) : Option System :=
  match s.accepting with
  | .granted c =>
    some { s with
      clients := s.clients.modify (s.clients.length - 1) (Client.touch .node) ++ [c]
      count := s.count + 1
      accepting := .inserted }
  | _ => none

/-- `set_state(STATE_RUN)` -/
def setRun (s : System) : Option System :=
  match s.accepting with
  | .inserted => some { s with srv := { s.srv with state := stateRun }, accepting := .guard }
  | _ => none

/-- The loop ends, and `main` calls `server.list` and `server.down`. -/
def leaveLoop (s : System) : Option System :=
  match s.accepting with
  | .guard => if s.count < maxCount then none else some { s.list.down with accepting := .left }
  | _ => none

/-! ## The serving thread -/

/-- The loop reaches a session: it has come through the nodes before it. -/
def visit (k : Nat) (s : System) : Option System :=
  match s.serving, s.clients[k]? with
  | .idle, some c =>
    if s.srv.state = stateRun then
      -- from the head, the last login, down to the session number `k`
      some { s with
        clients := s.clients.take k ++ (s.clients.drop k).map (Client.touch .node)
        serving := if c.sess.isConnected then .serving k else .idle }
    else none
  | _, _ => none

/-- What an event of a command does to the system. -/
def event (k : Nat) (s : System) : Event → System
  | .closeClient =>
    { s.modifyClient k Client.close with
      closed := s.closed ++ (s.clients[k]?.map Client.fd).toList }
  | .freeIp => s.modifyClient k (Client.release .ip)
  | .closeFd fd => { s with closed := s.closed ++ [fd] }
  | .invoke .list _ => s.list
  | _ => s

/-- `rpc_call` on a session. The loop goes on from its node. -/
def process (s : System) (k : Nat) (c : Client) (cmd : Str) : System :=
  let o := (processCmd y cmd).run (s.world c.sess)
  -- `get_next_node` reads from the node once the call is over
  (o.out.foldl (event k) (s.leave o.state)).modifyClient k
    fun c => { c.touch .node with sess := o.state.sess }

/-- A whole frame has been read. -/
def command (cmd : Str) (s : System) : Option System :=
  match s.serving with
  | .serving k =>
    match s.clients[k]? with
    | some c =>
      match ((processCmd y cmd).run (s.world c.sess)).val with
      | .ok _ => some { s.process y k c cmd with serving := .idle }
      | .error _ => none
    | none => none
  | _ => none

/-- The read has returned `0`. -/
def disconnect (s : System) : Option System :=
  match s.serving with
  | .serving k =>
    some { s.modifyClient k fun c =>
        { c.touch .node with sess := { c.sess with isConnected := false } } with
      serving := .idle }
  | _ => none

/-- The read has returned `-1`. -/
def timeout (s : System) : Option System :=
  match s.serving with
  | .serving k => some { s.modifyClient k (Client.touch .node) with serving := .idle }
  | _ => none

/-- `if (process_state == STATE_CLOSE) break;` -/
def stop (s : System) : Option System :=
  match s.serving with
  | .idle => if s.srv.state = stateClose then some { s with serving := .ended } else none
  | _ => none

end System

/-! ## Runs -/

/-- A step of the accepting thread, of the serving thread, or one more call of
`server.down` on the server object. -/
inductive Action where
  | connect (p : Incoming)
  | check
  | join
  | authenticate (buf : Str)
  | insert
  | setRun
  | leaveLoop
  | visit (k : Nat)
  | command (cmd : Str)
  | disconnect
  | timeout
  | stop
  | down

/-- One step, if it can be taken. A command that stops the process takes none. -/
def step (y : Sys) (s : System) : Action → Option System
  | .connect p => s.connect p
  | .check => s.check
  | .join => s.join
  | .authenticate buf => s.authenticate y buf
  | .insert => s.insert
  | .setRun => s.setRun
  | .leaveLoop => s.leaveLoop
  | .visit k => s.visit k
  | .command cmd => s.command y cmd
  | .disconnect => s.disconnect
  | .timeout => s.timeout
  | .stop => s.stop
  | .down => some s.down

abbrev run (y : Sys) : System → List Action → Option System := runSteps (step y)

/-- The step calls `server.down` on the server object. -/
def System.callsDown (s : System) : Action → Bool
  | .down | .leaveLoop => true
  | .check => s.srv.state == stateClose
  | _ => false

/-- The steps of a successful login. -/
def login (p : Incoming) (buf : Str) : List Action :=
  [.connect p, .check, .authenticate buf, .insert, .setRun]

/-! ## What a step does -/

namespace System

variable {y : Sys} {s s' : System}

theorem connect_some {p : Incoming} (h : s.connect p = some s') :
    s.accepting = .guard ∧ s.count < maxCount ∧ s' = { s with accepting := .accepted p } := by
  unfold connect at h
  split at h
  · next hat =>
    split at h
    · next hlt => exact ⟨hat, hlt, (Option.some.inj h).symm⟩
    · cases h
  · cases h

theorem check_some (h : s.check = some s') :
    ∃ p, s.accepting = .accepted p ∧
      (s.srv.state = stateClose ∧ s' = { s.down with accepting := .joining p } ∨
        s.srv.state ≠ stateClose ∧ s' = { s with accepting := .checked p }) := by
  unfold check at h
  split at h
  · next p hat =>
    split at h
    · next hclose => exact ⟨p, hat, .inl ⟨hclose, (Option.some.inj h).symm⟩⟩
    · next hclose => exact ⟨p, hat, .inr ⟨hclose, (Option.some.inj h).symm⟩⟩
  · cases h

theorem join_some (h : s.join = some s') :
    ∃ p, s.accepting = .joining p ∧ s.serving = .ended ∧ s' = { s with accepting := .checked p } := by
  unfold join at h
  split at h
  · next p hat hended => exact ⟨p, hat, hended, (Option.some.inj h).symm⟩
  · cases h

/-- The client is one of the server's users. -/
def admits (y : Sys) (s : System) (buf : Str) : Prop :=
  ∃ mode logBit sess, (s.authRun y buf).val = .ok (mode, logBit) ∧ mknod mode s.uid = some sess

theorem authenticate_some {buf : Str} (h : s.authenticate y buf = some s') :
    ∃ p logBit, s.accepting = .checked p ∧
      ((∃ mode sess, s.admits y buf ∧ mknod mode s.uid = some sess ∧
          s' = { s.leave (s.authRun y buf).state with
            logBit, uid := s.uid + 1, accepting := .granted (newClient p mode logBit sess) }) ∨
        ¬ s.admits y buf ∧
          s' = { s.leave (s.authRun y buf).state with
            logBit, closed := s.closed ++ [p.fd], accepting := .guard }) := by
  unfold authenticate at h
  split at h
  · next p mode bit hat hauth =>
    refine ⟨p, bit.getD s.logBit, hat, ?_⟩
    dsimp only at h
    split at h
    · next sess hsess =>
      exact .inl ⟨mode, sess, ⟨mode, bit, sess, hauth, hsess⟩, hsess, (Option.some.inj h).symm⟩
    · next hnone =>
      refine .inr ⟨?_, (Option.some.inj h).symm⟩
      rintro ⟨mode', bit', sess, hauth', hsess⟩
      obtain ⟨rfl, rfl⟩ : mode = mode' ∧ bit = bit' := by
        simpa using Except.ok.inj (hauth.symm.trans hauth')
      exact nomatch hnone.symm.trans hsess
  · cases h

theorem insert_some (h : s.insert = some s') :
    ∃ c, s.accepting = .granted c ∧
      s' = { s with
        clients := s.clients.modify (s.clients.length - 1) (Client.touch .node) ++ [c]
        count := s.count + 1
        accepting := .inserted } := by
  unfold insert at h
  split at h
  · next c hat => exact ⟨c, hat, (Option.some.inj h).symm⟩
  · cases h

theorem setRun_some (h : s.setRun = some s') :
    s.accepting = .inserted ∧
      s' = { s with srv := { s.srv with state := stateRun }, accepting := .guard } := by
  unfold setRun at h
  split at h
  · next hat => exact ⟨hat, (Option.some.inj h).symm⟩
  · cases h

theorem leaveLoop_some (h : s.leaveLoop = some s') :
    s.accepting = .guard ∧ ¬ s.count < maxCount ∧ s' = { s.list.down with accepting := .left } := by
  unfold leaveLoop at h
  split at h
  · next hat =>
    split at h
    · cases h
    · next hlt => exact ⟨hat, hlt, (Option.some.inj h).symm⟩
  · cases h

theorem visit_some {k : Nat} (h : s.visit k = some s') :
    ∃ c, s.serving = .idle ∧ s.clients[k]? = some c ∧ s.srv.state = stateRun ∧
      s' = { s with
        clients := s.clients.take k ++ (s.clients.drop k).map (Client.touch .node)
        serving := if c.sess.isConnected then .serving k else .idle } := by
  unfold visit at h
  split at h
  · next c hidle hc =>
    split at h
    · next hrun => exact ⟨c, hidle, hc, hrun, (Option.some.inj h).symm⟩
    · cases h
  · cases h

theorem command_some {cmd : Str} (h : s.command y cmd = some s') :
    ∃ k c, s.serving = .serving k ∧ s.clients[k]? = some c ∧
      (∃ u, ((processCmd y cmd).run (s.world c.sess)).val = .ok u) ∧
      s' = { s.process y k c cmd with serving := .idle } := by
  unfold command at h
  split at h
  · next k hserving =>
    split at h
    · next c hc =>
      split at h
      · next u hok => exact ⟨k, c, hserving, hc, ⟨u, hok⟩, (Option.some.inj h).symm⟩
      · cases h
    · cases h
  · cases h

theorem disconnect_some (h : s.disconnect = some s') :
    ∃ k, s.serving = .serving k ∧
      s' = { s.modifyClient k fun c =>
          { c.touch .node with sess := { c.sess with isConnected := false } } with
        serving := .idle } := by
  unfold disconnect at h
  split at h
  · next k hserving => exact ⟨k, hserving, (Option.some.inj h).symm⟩
  · cases h

theorem timeout_some (h : s.timeout = some s') :
    ∃ k, s.serving = .serving k ∧
      s' = { s.modifyClient k (Client.touch .node) with serving := .idle } := by
  unfold timeout at h
  split at h
  · next k hserving => exact ⟨k, hserving, (Option.some.inj h).symm⟩
  · cases h

theorem stop_some (h : s.stop = some s') :
    s.serving = .idle ∧ s.srv.state = stateClose ∧ s' = { s with serving := .ended } := by
  unfold stop at h
  split at h
  · next hidle =>
    split at h
    · next hclose => exact ⟨hidle, hclose, (Option.some.inj h).symm⟩
    · cases h
  · cases h

/-! ## What a command leaves alone -/

/-- Only the ledgers of the sessions and the list of closed descriptors change. -/
structure LedgerOnly (s s' : System) : Prop where
  srv : s'.srv = s.srv
  count : s'.count = s.count
  uid : s'.uid = s.uid
  accepting : s'.accepting = s.accepting
  sessions : s'.clients.map Client.sess = s.clients.map Client.sess

theorem ledgerOnly_refl (s : System) : LedgerOnly s s := ⟨rfl, rfl, rfl, rfl, rfl⟩

theorem LedgerOnly.trans {t : System} (h : LedgerOnly s t) (h' : LedgerOnly t s') :
    LedgerOnly s s' :=
  ⟨h'.srv.trans h.srv, h'.count.trans h.count, h'.uid.trans h.uid,
    h'.accepting.trans h.accepting, h'.sessions.trans h.sessions⟩

theorem map_modify {α β : Type} {g : α → β} {f : α → α} {u : β → β} (h : ∀ a, g (f a) = u (g a)) :
    ∀ (l : List α) (k : Nat), (l.modify k f).map g = (l.map g).modify k u
  | [], _ => by simp
  | _ :: _, 0 => by simp [h]
  | _ :: l, k + 1 => by simp [map_modify h l k]

/-- A change that cannot be seen at the entry that it is made to. -/
theorem map_modify_at {α β : Type} {g : α → β} {f : α → α} : ∀ {l : List α} {k : Nat},
    (∀ a, l[k]? = some a → g (f a) = g a) → (l.modify k f).map g = l.map g
  | [], _, _ => by simp
  | b :: l, 0, h => by simp [h b rfl]
  | b :: l, k + 1, h => by
    rw [List.modify_succ_cons, List.map_cons, map_modify_at fun a ha => h a (by simpa using ha),
      List.map_cons]

theorem map_modify_kept {α β : Type} {g : α → β} {f : α → α} (h : ∀ a, g (f a) = g a) (l : List α)
    (k : Nat) : (l.modify k f).map g = l.map g := map_modify_at fun a _ => h a

theorem ledgerOnly_modifyClient {k : Nat} {f : Client → Client} (h : ∀ c, (f c).sess = c.sess) :
    LedgerOnly s (s.modifyClient k f) :=
  ⟨rfl, rfl, rfl, rfl, map_modify_kept h _ _⟩

theorem ledgerOnly_event (k : Nat) (s : System) (e : Event) : LedgerOnly s (s.event k e) := by
  unfold event
  split
  · exact ⟨rfl, rfl, rfl, rfl, map_modify_kept (f := Client.close) (fun _ => rfl) _ _⟩
  · exact ledgerOnly_modifyClient fun _ => rfl
  · exact ⟨rfl, rfl, rfl, rfl, rfl⟩
  · exact ⟨rfl, rfl, rfl, rfl, by simp [list, Client.print, Client.touch, Function.comp_def]⟩
  · exact ledgerOnly_refl s

theorem ledgerOnly_events (k : Nat) : ∀ (out : List Event) (s : System),
    LedgerOnly s (out.foldl (event k) s)
  | [], s => ledgerOnly_refl s
  | e :: out, s => (ledgerOnly_event k s e).trans (ledgerOnly_events k out (s.event k e))

/-- **What a command does to the system**, the ledgers apart. -/
structure Processed (y : Sys) (s : System) (k : Nat) (c : Client) (cmd : Str) (s' : System) :
    Prop where
  srv : s'.srv = ((processCmd y cmd).run (s.world c.sess)).state.srv
  count : s'.count = s.count
  uid : s'.uid = s.uid
  accepting : s'.accepting = s.accepting
  sessions : s'.clients.map Client.sess =
    (s.clients.map Client.sess).modify k
      fun _ => ((processCmd y cmd).run (s.world c.sess)).state.sess

theorem processed (y : Sys) (s : System) (k : Nat) (c : Client) (cmd : Str) :
    Processed y s k c cmd (s.process y k c cmd) := by
  have h := ledgerOnly_events k ((processCmd y cmd).run (s.world c.sess)).out
    (s.leave ((processCmd y cmd).run (s.world c.sess)).state)
  refine ⟨h.srv, h.count, h.uid, h.accepting, ?_⟩
  have hsessions : _ = s.clients.map Client.sess := h.sessions
  rw [← hsessions]
  exact map_modify (g := Client.sess) (f := fun c => { c.touch .node with sess := _ })
    (fun _ => rfl) _ _

end System

/-! ## The two threads -/

/-- A step of the accepting thread. -/
def Action.accepts : Action → Bool
  | connect _ | check | join | authenticate _ | insert | setRun | leaveLoop => true
  | visit _ | command _ | disconnect | timeout | stop | down => false

variable {y : Sys} {s s' : System} {a : Action}

/-- The other steps leave the accepting thread where it is. -/
theorem accepting_of_serves (h : step y s a = some s') (ha : a.accepts = false) :
    s'.accepting = s.accepting := by
  cases a with
  | connect | check | join | authenticate | insert | setRun | leaveLoop => cases ha
  | visit k =>
    obtain ⟨c, -, -, -, rfl⟩ := System.visit_some h
    rfl
  | command cmd =>
    obtain ⟨k, c, -, -, -, rfl⟩ := System.command_some h
    exact (System.processed y s k c cmd).accepting
  | disconnect =>
    obtain ⟨k, -, rfl⟩ := System.disconnect_some h
    rfl
  | timeout =>
    obtain ⟨k, -, rfl⟩ := System.timeout_some h
    rfl
  | stop =>
    obtain ⟨-, -, rfl⟩ := System.stop_some h
    rfl
  | down =>
    cases h
    rfl

/-- A thread that has left its loop takes no step. -/
theorem serves_of_left (hs : s.accepting = .left) (h : step y s a = some s') :
    a.accepts = false := by
  cases a with
  | connect p => exact absurd (hs.symm.trans (System.connect_some h).1) nofun
  | check =>
    obtain ⟨p, hat, -⟩ := System.check_some h
    exact absurd (hs.symm.trans hat) nofun
  | join =>
    obtain ⟨p, hat, -⟩ := System.join_some h
    exact absurd (hs.symm.trans hat) nofun
  | authenticate buf =>
    obtain ⟨p, logBit, hat, -⟩ := System.authenticate_some h
    exact absurd (hs.symm.trans hat) nofun
  | insert =>
    obtain ⟨c, hat, -⟩ := System.insert_some h
    exact absurd (hs.symm.trans hat) nofun
  | setRun => exact absurd (hs.symm.trans (System.setRun_some h).1) nofun
  | leaveLoop => exact absurd (hs.symm.trans (System.leaveLoop_some h).1) nofun
  | visit | command | disconnect | timeout | stop | down => rfl

end Thor
