import Thor.CLib.Prog
import Thor.CLib.Strtok
import Thor.Sql.Eval

/-!
# Sessions, the server object, and programs over them

The data model of `headers/thor.h`, `headers/rpc.h`, `headers/mappings.h` and
`headers/logger.h`, and the primitive operations the command handlers are made
of.

- `Commands`, `findCmd`, `getMapping`: the command words and the columns some of
  them name.
- `Op`: the function pointers of a session that the handlers call. A session
  carries the set of those that are not `NULL`; the three templates of
  `core/thor.c` differ in it.
- `Session`: the copy of a template a client is served with, including the
  result slot (`rpc.return_value`) its handlers share.
- `World`: what one command reads and writes. `Sys` is the part of the world the
  server does not decide: the database engine, the hash, child processes, memory
  and time.
- `M`: programs over a `World`. A use of `NULL`, a write past the end of an array
  and the like stop the program in a `Crash`.
-/

namespace Thor

open CLib Sql

/-! ## Command words (headers/rpc.h, headers/mappings.h) -/

inductive Commands where
  | auth | db | user | add | del | update | userlogged | userid | userpass | usermode
  | rpccmd | clinode | getlist | items | itemname | itemcount | itemprice | itemupc
  | superuser | logcmd | images | imageextra | getimage | control | listpeers | gettax
  | kickpeer | turndown | iteminterface | execquery | setlogginglevel | getlogginglevel
  | getloglevels
  deriving DecidableEq

/-- `rpc_commands`. The entries stand in the order of the enumeration, so the
index `find_cmd` returns is the value beside the word. -/
def rpcCommands : List (Str × Commands) :=
  [(lit "auth", .auth), (lit "db", .db), (lit "user", .user), (lit "add", .add),
   (lit "del", .del), (lit "update", .update), (lit "userlogged", .userlogged),
   (lit "userid", .userid), (lit "userpass", .userpass), (lit "usermode", .usermode),
   (lit "rpc-cmd", .rpccmd), (lit "cli-node", .clinode), (lit "get-list", .getlist),
   (lit "items", .items), (lit "item-name", .itemname), (lit "item-quantity", .itemcount),
   (lit "item-price", .itemprice), (lit "item-upc", .itemupc),
   (lit "super-mode", .superuser), (lit "log-cmd", .logcmd), (lit "images", .images),
   (lit "image-extra", .imageextra), (lit "get-image", .getimage), (lit "control", .control),
   (lit "list-peers", .listpeers), (lit "get-tax", .gettax), (lit "kick-peer", .kickpeer),
   (lit "shutdown", .turndown), (lit "item-interface", .iteminterface),
   (lit "execute-query", .execquery), (lit "set-logging", .setlogginglevel),
   (lit "get-logging", .getlogginglevel), (lit "get-log-levels", .getloglevels)]

/-- `find_cmd`; `none` is its `-1`. -/
def findCmd : Option Str → Option Commands
  | none => none
  | some word => rpcCommands.lookup word

/-- `UserInfoTable`. -/
def userInfoTable : List (Commands × Str) :=
  [(.userid, lit "UserName"), (.userpass, lit "UserPsswd"), (.usermode, lit "UserMode"),
   (.userlogged, lit "IsLogged"), (.itemupc, lit "UPC"), (.itemprice, lit "Price"),
   (.itemcount, lit "Quantity"), (.itemname, lit "Name"), (.images, lit "Image"),
   (.imageextra, lit "Extra")]

/-- `get_mapping`. -/
def getMapping (key : Option Commands) : Option Str :=
  key.bind fun k => userInfoTable.lookup k

/-! ## Log levels (headers/logger.h) -/

/-- `loglevels`. -/
def loglevels : List (Nat × Str) :=
  [(1, lit "fatal"), (2, lit "error"), (3, lit "critical"), (4, lit "warning"),
   (5, lit "alert"), (6, lit "info"), (7, lit "debug"), (8, lit "verbose")]

/-- `loglvl_to_str`. -/
def loglvlToStr (lvl : Nat) : Str := (loglevels.lookup lvl).getD (lit "unknown")

/-- `str_to_loglvl`; the `-1` of a failed search is stored in an unsigned enumeration. -/
def strToLoglvl (key : Str) (len : Nat) : Nat :=
  match loglevels.find? fun p => strncmpEq key p.2 len with
  | some p => p.1
  | none => 2 ^ 32 - 1

/-! ## Sessions (headers/thor.h) -/

/-- `DFL_USR`, `ELVT_USR`, `ROOT_USR`. -/
def dflUsr : Int := 2000
def elvtUsr : Int := 1000
def rootUsr : Int := 0

/-- `STATE_RUN`, `STATE_CLOSE`. -/
def stateRun : Int := 1
def stateClose : Int := 0

/-- `KB(x)`, `MB(x)`. -/
def kb (x : Nat) : Nat := x * 1000
def mb (x : Nat) : Nat := x * 1000 * 1000

/-- The function pointers of a session that the handlers call. -/
inductive Op where
  /-- `logger.set_mode`, `logger.get_mode`, `logger.get_all` -/
  | setMode | getMode | getAllLevels
  /-- `server.list`, `server.down` -/
  | list | down
  /-- `db.psswd_db` -/
  | creatUsr | updateUsr | dltUsr | getAllUsers
  /-- `db.items` -/
  | addItem | updateItem | dltItem | getAllItems
  /-- `db.item_images_db` -/
  | updateImage | addImage | deleteImage | getAllImages | getImage
  /-- `db.log_cmd` -/
  | logCmd
  /-- `ssl_tls` -/
  | write | close | hash
  deriving DecidableEq

/-- A heap buffer of the result slot: its identity and the text in it. -/
structure Buf where
  id : Nat
  text : Str

/-- The text `inet_ntoa` renders an address to. -/
abbrev IpText := { s : Str // ∀ c ∈ s, c.isDigit = true ∨ c = '.' }

/-- The session of one client. `value` and `response` are the pointers
`rpc.return_value.ret.value` and `rpc.return_value.response`. -/
structure Session where
  ops : Op → Bool
  mode : Int
  uid : Nat
  isLogged : Nat
  ip : IpText
  port : Int
  isConnected : Bool
  value : Option Buf
  response : Option Buf

/-- What `print_nodes` shows of a session in the list. -/
structure Peer where
  ip : Str
  port : Int
  mode : Int
  uid : Nat

/-- The server object (`THIS`), as far as commands read or write it. -/
structure Server where
  level : Nat
  tax : Str
  state : Int
  peers : List Peer
  db : Db

/-! ## Templates (core/thor.c) -/

def noIp : IpText := ⟨[], by simp⟩

/-- A session with the given pointers set and everything else zero, logged. -/
def initData (ops : List Op) : Session where
  ops o := decide (o ∈ ops)
  mode := 0
  uid := 0
  isLogged := 1
  ip := noIp
  port := 0
  isConnected := false
  value := none
  response := none

def initDataRoot : Session :=
  initData [.setMode, .getMode, .getAllLevels, .list, .down, .creatUsr, .updateUsr, .dltUsr,
    .getAllUsers, .addItem, .updateItem, .dltItem, .getAllItems, .updateImage, .addImage,
    .deleteImage, .getAllImages, .getImage, .logCmd, .write, .close, .hash]

def initDataDflt : Session :=
  initData [.logCmd, .getAllItems, .getImage, .updateItem, .hash, .write, .close]

def initDataElvt : Session :=
  initData [.updateUsr, .logCmd, .getAllItems, .addItem, .updateItem, .dltItem, .updateImage,
    .addImage, .deleteImage, .getAllImages, .getImage, .hash, .write, .close]

/-- `__mknod`, the static counter being `uid` before the call. -/
def mknod (mode : Int) (uid : Nat) : Option Session :=
  if mode = dflUsr then some { initDataDflt with uid := uid + 1 }
  else if mode = elvtUsr then some { initDataElvt with uid := uid + 1 }
  else if mode = rootUsr then some { initDataRoot with uid := uid + 1 }
  else none

/-- A session is a copy of the template of its role. -/
theorem mknod_cases {mode : Int} {uid : Nat} {s : Session} (h : mknod mode uid = some s) :
    mode = dflUsr ∧ s = { initDataDflt with uid := uid + 1 } ∨
    mode = elvtUsr ∧ s = { initDataElvt with uid := uid + 1 } ∨
    mode = rootUsr ∧ s = { initDataRoot with uid := uid + 1 } := by
  unfold mknod at h
  split at h
  · next hmode => exact .inl ⟨hmode, (Option.some.inj h).symm⟩
  · split at h
    · next hmode => exact .inr (.inl ⟨hmode, (Option.some.inj h).symm⟩)
    · split at h
      · next hmode => exact .inr (.inr ⟨hmode, (Option.some.inj h).symm⟩)
      · cases h

/-! ## The world of a command -/

/-- Why a command stops the process. -/
inductive Crash where
  | nullDeref
  | unsetPointer
  | overflow
  | badJoin
  deriving DecidableEq

/-- What can be seen of a running command. -/
inductive Event where
  /-- a call through a function pointer of the session -/
  | invoke (op : Op) (args : List (Option Str))
  /-- `send_response`: the payload, and the slot buffers it was rendered from -/
  | send (payload : Str) (bufs : List Nat)
  /-- a buffer of the result slot is allocated, released -/
  | alloc (b : Nat)
  | free (b : Nat)
  /-- `sqlite3_exec` -/
  | exec (sql : Str)
  /-- `__open_shell`, `__exec_rpc_cmd` are entered -/
  | openShell (command : Option Str)
  | execRpcCmd (command : Str)
  | popen (line : Str)
  /-- the session is closed, its address released, a descriptor closed -/
  | closeClient
  | freeIp
  | closeFd (fd : Int)
  deriving DecidableEq

/-- Why `sqlite3_exec` fails before it looks at the text: no open database (the
message pointer stays as it is), or any other reason, with or without a message. -/
inductive Fault where
  | misuse
  | error (msg : Option Str)

/-- The digits a hash is rendered with. -/
def hexDigits : Str := lit "0123456789abcdef"

/-- What the server does not decide. The number is that of the call, so that two
calls may turn out differently. -/
structure Sys where
  engine : Engine
  fault : Nat → Option Fault
  hash : Str → Str
  hash_hex : ∀ s, ∀ c ∈ hash s, c ∈ hexDigits
  /-- a child process: what it prints, and the database file after it; `none` when
  it cannot be started -/
  popen : Nat → Str → Db → Option (List Str) × Db
  alloc : Nat → Bool
  /-- `time(NULL)` -/
  time : Nat → Nat
  time_lt : ∀ t, time t < 2 ^ 63
  /-- whether `pthread_join` on a thread that was never created returns -/
  joinNull : Bool

/-- MD5, as far as it is needed here: the digest of `admin`, and that of the empty
string for all others. -/
def md5 (s : Str) : Str :=
  if s = lit "admin" then lit "21232f297a57a5a743894a0e4a801fc3"
  else lit "d41d8cd98f00b204e9800998ecf8427e"

/-- Surroundings in which nothing fails: the engine goes by keys, children print
nothing and leave the database alone. -/
def quietSys : Sys where
  engine := .inKeyOrder
  fault _ := none
  hash := md5
  hash_hex s c hc := by
    unfold md5 at hc
    split at hc <;> revert c <;> decide
  popen _ _ db := (some [], db)
  alloc _ := true
  time _ := 1590962400
  time_lt _ := by decide
  joinNull := false

structure World where
  /-- the position `strtok` keeps between calls -/
  saved : Str
  sess : Session
  srv : Server
  tick : Nat
  nextBuf : Nat

/-- A world before the first command of a session. -/
def World.before (sess : Session) (db : Db) : World where
  saved := []
  sess := sess
  srv := ⟨8, [], stateRun, [], db⟩
  tick := 0
  nextBuf := 0

abbrev M := Prog World Crash Event

/-- Every run of `m` is related by `R`. -/
abbrev Always {α : Type} (m : M α) (R : World → List Event → World → Prop) : Prop :=
  Prog.RelOn (fun _ => True) m R

/-! ## Primitive operations -/

open Prog

def comma : Str := lit ","

/-- `<$#EOT#$>` -/
def marker : Str := lit "<$#EOT#$>"

/-- `strtok(NULL, d)`. -/
def strtokNext (d : Str) : M (Option Str) :=
  ⟨fun w => ⟨.ok (strtok d w.saved).1, { w with saved := (strtok d w.saved).2 }, []⟩⟩

/-- `strtok(cmd, d)`. -/
def strtokFirst (cmd d : Str) : M (Option Str) :=
  ⟨fun w => ⟨.ok (strtok d cmd).1, { w with saved := (strtok d cmd).2 }, []⟩⟩

/-- A computation without effects that may crash. -/
def lift {α : Type} : Except Crash α → M α
  | .ok a => pure a
  | .error e => fail e

/-- A library call that reads through a pointer. -/
def deref : Option Str → M Str
  | some s => pure s
  | none => fail .nullDeref

/-- `sprintf` into an array of `cap` bytes. -/
def sprintfInto (cap : Nat) (text : Str) : M Str :=
  if fits cap text then pure text else fail .overflow

/-- The number of an outside call. -/
def nextTick : M Nat :=
  ⟨fun w => ⟨.ok w.tick, { w with tick := w.tick + 1 }, []⟩⟩

/-- Is the pointer set? -/
def isSet (op : Op) : M Bool := gets fun w => w.sess.ops op

/-- A call through a function pointer. -/
def callPtr {α : Type} (op : Op) (args : List (Option Str)) (body : M α) : M α := do
  emit (.invoke op args)
  if ← isSet op then body else fail .unsetPointer

/-- A fresh buffer for the result slot. -/
def allocBuf (text : Str) : M Buf := do
  let id ← gets World.nextBuf
  modify fun w => { w with nextBuf := id + 1 }
  emit (.alloc id)
  pure ⟨id, text⟩

def setValue (b : Option Buf) : M Unit :=
  modify fun w => { w with sess := { w.sess with value := b } }

def setResponse (b : Option Buf) : M Unit :=
  modify fun w => { w with sess := { w.sess with response := b } }

/-- An argument of `send_response`, with the slot buffer it points into. -/
structure Arg where
  text : Str
  buf : Option Nat

/-- An argument that is no slot buffer. -/
def txt (s : Str) : Arg := ⟨s, none⟩

/-- `p == NULL ? dflt : p` for a pointer of the slot. -/
def bufOr (dflt : String) : Option Buf → Arg
  | none => txt (lit dflt)
  | some b => ⟨b.text, some b.id⟩

def valueOr (dflt : String) : M Arg := gets fun w => bufOr dflt w.sess.value

def responseOr (dflt : String) : M Arg := gets fun w => bufOr dflt w.sess.response

/-- `send_response`. -/
def sendResponse (fmt : String) (args : List Arg) : M Unit := do
  let payload ← sprintfInto (mb 15) (sprintf (lit fmt) (args.map Arg.text))
  callPtr .write [some payload] (emit (.send payload (args.filterMap Arg.buf)))

/-- `if (ret.value) free(ret.value); ret.value = NULL;` -/
def freeValue : M Unit := do
  match ← gets fun w => w.sess.value with
  | some b => emit (.free b.id)
  | none => pure ()
  setValue none

/-! ## Running them -/

@[simp] theorem run_sprintfInto (cap : Nat) (text : Str) (w : World) :
    (sprintfInto cap text).run w
      = ⟨if text.length < cap then .ok text else .error .overflow, w, []⟩ := by
  unfold sprintfInto
  by_cases h : text.length < cap <;> simp [fits, h]

theorem run_sprintfInto_of_fits {cap : Nat} {text : Str} (h : text.length < cap) (w : World) :
    (sprintfInto cap text).run w = ⟨.ok text, w, []⟩ := by
  rw [run_sprintfInto, if_pos h]

@[simp] theorem run_nextTick (w : World) :
    nextTick.run w = ⟨.ok w.tick, { w with tick := w.tick + 1 }, []⟩ := rfl

@[simp] theorem run_isSet (op : Op) (w : World) :
    (isSet op).run w = ⟨.ok (w.sess.ops op), w, []⟩ := rfl

@[simp] theorem run_strtokNext (d : Str) (w : World) :
    (strtokNext d).run w = ⟨.ok (strtok d w.saved).1, { w with saved := (strtok d w.saved).2 }, []⟩ :=
  rfl

@[simp] theorem run_lift_ok {α : Type} (a : α) (w : World) :
    (lift (.ok a)).run w = ⟨.ok a, w, []⟩ := rfl

@[simp] theorem run_lift_error {α : Type} (c : Crash) (w : World) :
    (lift (α := α) (.error c)).run w = ⟨.error c, w, []⟩ := rfl

@[simp] theorem run_deref_some (s : Str) (w : World) :
    (deref (some s)).run w = ⟨.ok s, w, []⟩ := rfl

theorem deref_some_bind {α : Type} (s : Str) (f : Str → M α) : (deref (some s) >>= f) = f s :=
  Prog.pure_bind s f

theorem run_callPtr {α : Type} (op : Op) (args : List (Option Str)) (body : M α) (w : World) :
    (callPtr op args body).run w =
      if w.sess.ops op then
        ⟨(body.run w).val, (body.run w).state, .invoke op args :: (body.run w).out⟩
      else ⟨.error .unsetPointer, w, [.invoke op args]⟩ := by
  cases h : w.sess.ops op with
  | true => simp [callPtr, run_bind, h]
  | false => simp [callPtr, run_bind, h]

/-- A reply that fits, on a session that has its writer. -/
theorem run_sendResponse {fmt : String} {args : List Arg} {w : World}
    (hlen : (sprintf (lit fmt) (args.map Arg.text)).length < mb 15)
    (hwrite : w.sess.ops .write = true) :
    (sendResponse fmt args).run w = ⟨.ok (), w,
      [.invoke .write [some (sprintf (lit fmt) (args.map Arg.text))],
        .send (sprintf (lit fmt) (args.map Arg.text)) (args.filterMap Arg.buf)]⟩ := by
  unfold sendResponse
  rw [run_bind_of_run (run_sprintfInto_of_fits hlen w), run_callPtr, if_pos hwrite]
  rfl

theorem run_tested {α : Type} (op : Op) (m m' : M α) (w : World) :
    (do if ← isSet op then m else m' : M α).run w = if w.sess.ops op then m.run w else m'.run w := by
  rw [run_bind_of_run (run_isSet op w)]
  cases w.sess.ops op <;> rfl

/-- A branch on a pointer, by the two outcomes of the test. -/
theorem relOn_tested {α : Type} {P : World → Prop} {op : Op} {m m' : M α}
    {R : World → List Event → World → Prop} (h : RelOn (fun w => P w ∧ w.sess.ops op = true) m R)
    (h' : RelOn (fun w => P w ∧ w.sess.ops op = false) m' R) :
    RelOn P (do if ← isSet op then m else m') R := by
  intro w hw
  rw [run_bind, run_isSet]
  cases hop : w.sess.ops op with
  | true => simpa using h w ⟨hw, hop⟩
  | false => simpa using h' w ⟨hw, hop⟩

/-- A call through a pointer is as good as what it calls. -/
theorem always_callPtr {α : Type} {R : World → List Event → World → Prop} (hR : Composable R)
    {op : Op} {args : List (Option Str)} {body : M α}
    (hemit : Always (emit (.invoke op args)) R) (h : Always body R) :
    Always (callPtr op args body) R :=
  RelOn.seq hR hemit fun _ => RelOn.seq hR (RelOn.gets hR) fun _ =>
    RelOn.ite (fun _ => h) fun _ => RelOn.fail hR

end Thor
